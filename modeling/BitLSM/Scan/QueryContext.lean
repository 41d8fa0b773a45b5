import BitLSM.CompiledQuery
import BitLSM.SabiQuery
import BitLSM.Scan.DataBlock

/-!
The query as the leaves of a scan see it.
-/

namespace BitLSM

/-- An error a read can end with. -/
abbrev Failure := { s : Status // s ≠ .ok }

/-- The failure of a lookup whose key is not there. -/
def Failure.notFound : Failure := ⟨.notFound "", by decide⟩

/-- The query as the leaves see it, with the snapshot. -/
structure QueryContext where
  readSeqno : UInt64
  sabiQuery : SABIQuery
  /-- Without it every row passes. -/
  compiled : Option CompiledQuery
  /-- Whether the leaves keep `SourceHasNewerVersion`. -/
  track : Bool

namespace QueryContext

/-- The row filters: the snapshot, deletions and the query. -/
def rowPasses (q : QueryContext) (e : Entry) : Option Bool :=
  if q.readSeqno < e.seqno then some false
  else if e.type = .deletion ∨ e.type = .singleDeletion then some false
  else
    match q.compiled with
    | none => some true
    | some cq => cq.eval e.value

def passes (q : QueryContext) (e : Entry) : Bool := q.rowPasses e == some true

/-- The compiled query reads every row inside its bytes. -/
def Total (q : QueryContext) : Prop := ∀ e, q.rowPasses e ≠ none

theorem Total.rowPasses_eq {q : QueryContext} (hq : q.Total) (e : Entry) :
    q.rowPasses e = some (q.passes e) := by
  obtain ⟨b, hb⟩ := Option.ne_none_iff_exists'.1 (hq e)
  rw [passes, hb]
  cases b <;> rfl

end QueryContext

end BitLSM
