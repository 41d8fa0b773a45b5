import BitLSM.Engine.Database
import BitLSM.Engine.ReferenceDB
import BitLSM.Scan.ReferenceScan

/-!
The engine beside the reference database.

A client writes rows, takes and releases snapshots and scans. Each write that
the engine accepts goes to the reference too, as in the checked wrapper of the
tests, and a snapshot is kept with what the reference held when it was taken.
In between the store flushes and compacts. `Tracks` ties the two sides
together, every operation keeps it, and so a scan in any state that can be
reached hands out the records the reference expects.
-/

namespace BitLSM

open Wire

/-! ### Scanning through the engine -/

/-- `std::sort` on the conditions of a clause, by attribute. -/
structure ClauseSort where
  sort : OrClause → OrClause
  perm : ∀ clause, (sort clause).Perm clause
  sorted : ∀ clause, (sort clause).Pairwise fun a b => a.attrIdx.toNat ≤ b.attrIdx.toNat

/-- How the engine was set up and built. -/
structure Engine where
  table : TableOptions
  plainValues : Bool
  heapTop : HeapTop
  clauseSort : ClauseSort

/-- The query with its clauses sorted. -/
def Engine.sortClauses (engine : Engine) (q : BitLSMQuery) : BitLSMQuery :=
  ⟨q.clauseGroups.map engine.clauseSort.sort⟩

def Engine.scanConfig (engine : Engine) (o : BitLSMOptions) (q : BitLSMQuery)
    (resultMode : ResultMode) (readSeqno : UInt64) : ScanConfig where
  options := o
  table := engine.table
  query := engine.sortClauses q
  resultMode
  readSeqno
  plainValues := engine.plainValues
  heapTop := engine.heapTop

namespace Database

/-- The snapshot passed in, or one taken now. -/
def readSeqno (db : Database) (snapshot : Option UInt64) : UInt64 := snapshot.getD db.lastSequence

/-- A null iterator for a null column family or an invalid query; the
constructor throws in candidate mode without a snapshot. -/
def newIterator (db : Database) (engine : Engine) (cf : Option BitLSMOptions) (q : BitLSMQuery)
    (resultMode : ResultMode) (snapshot : Option UInt64) (w : ScanWorld) :
    Option (Option OpenScan) :=
  match cf with
  | none => some none
  | some o =>
      if q.validate o ≠ .ok then some none
      else if resultMode = .candidate ∧ snapshot = none then none
      else ((engine.scanConfig o q resultMode (db.readSeqno snapshot)).openScan db.tree w).map some

/-- A row that was handed out, with its record. -/
def keyedRecord (o : BitLSMOptions) (row : Bytes × Option Bytes) : Option (Bytes × Record) :=
  (row.2.bind (recordOf o)).map fun r => (row.1, r)

/-- The records a drain hands out, by key; `none` where the wrapper reports a
failure. -/
def scanEngine (db : Database) (engine : Engine) (o : BitLSMOptions) (q : BitLSMQuery)
    (snapshot : Option UInt64) (w : ScanWorld) (fuel : ℕ) : Option (List (Bytes × Record)) :=
  (db.newIterator engine (some o) q .verified snapshot w).bind fun
    | none => none
    | some scan =>
        (scan.result fuel).bind fun (rows, status) =>
          if status = .ok then
            (rows.mapM (keyedRecord o)).map
              (List.foldl (fun out x => SortedMap.emplace x.1 x.2 out) [])
          else none

end Database

/-! ### Sessions -/

structure Session where
  engine : Database := .empty
  reference : ReferenceDB := {}
  /-- The snapshots held, each with the reference of its time. -/
  snapshots : List (UInt64 × ReferenceDB) := []

/-- What the client does, and what happens to the store. -/
inductive Op where
  | put (key : Bytes) (attrs : List AttrView) (payload prev : Bytes)
  | putBatch (rows : List (Bytes × Record))
  | delete (key : Bytes)
  | getSnapshot
  | releaseSnapshot (seqno : UInt64)
  /-- A flush or a compaction. -/
  | rearrange (tree : LsmState)
  /-- A write to another column family. -/
  | advance (last : UInt64)

namespace Session

/-- A write, mirrored if it was accepted. -/
def mirror (s : Session) (result : Option (Database × Status))
    (write : ReferenceDB → ReferenceDB) : Option Session :=
  result.map fun (engine, status) =>
    { s with engine, reference := if status = .ok then write s.reference else s.reference }

def apply (o : BitLSMOptions) (s : Session) : Op → Option Session
  | .put key attrs payload prev =>
      s.mirror (s.engine.put (some o) key attrs payload prev) fun ref => ref.put key attrs payload
  | .putBatch rows =>
      s.mirror (s.engine.putBatch (some o) (rows.map fun row => row.1)
        (rows.map fun row => row.2.attrs) (rows.map fun row => row.2.payload))
        fun ref => rows.foldl (fun ref row => ref.put row.1 row.2.attrs row.2.payload) ref
  | .delete key => s.mirror (s.engine.delete (some o) key) fun ref => ref.delete key
  | .getSnapshot =>
      some { s with snapshots := (s.engine.lastSequence, s.reference) :: s.snapshots }
  | .releaseSnapshot seqno =>
      some { s with snapshots := s.snapshots.filter fun x => x.1 ≠ seqno }
  | .rearrange tree => some { s with engine := { s.engine with tree } }
  | .advance last => some { s with engine := { s.engine with lastSequence := last } }

/-- What the session sees through a snapshot, or now. -/
def Sees (s : Session) (snapshot : Option UInt64) (reference : ReferenceDB) : Prop :=
  match snapshot with
  | none => reference = s.reference
  | some seqno => (seqno, reference) ∈ s.snapshots

/-- What is asked of an operation: rows that are accepted can be stored as they
are, batches are shorter than `2 ^ 32`, and the store keeps every answer that
can still be asked for. -/
def Allows (table : TableOptions) (o : BitLSMOptions) (s : Session) : Op → Prop
  | .put key attrs payload prev =>
      ∀ db, s.engine.put (some o) key attrs payload prev = some (db, .ok) → RowOk o attrs
  | .putBatch rows => rows.length < 2 ^ 32 ∧
      ∀ db, s.engine.putBatch (some o) (rows.map fun row => row.1)
        (rows.map fun row => row.2.attrs) (rows.map fun row => row.2.payload) = some (db, .ok) →
          ∀ row ∈ rows, RowOk o row.2.attrs
  | .delete _ => True
  | .getSnapshot => True
  | .releaseSnapshot _ => True
  | .rearrange tree => Database.Inv table o { s.engine with tree } ∧
      ∀ snapshot reference, s.Sees snapshot reference → ∀ k,
        tree.versions.get k (s.engine.readSeqno snapshot) =
          s.engine.tree.versions.get k (s.engine.readSeqno snapshot)
  | .advance last => s.engine.lastSequence ≤ last ∧ last < kMaxSequenceNumber

inductive Reachable (table : TableOptions) (o : BitLSMOptions) : Session → Prop
  | start : Reachable table o {}
  | step {s s' : Session} {op : Op} : Reachable table o s → s.Allows table o op →
      s.apply o op = some s' → Reachable table o s'

end Session

/-! ### Answers and records -/

/-- The answers are the rows of the records. -/
structure Answers (o : BitLSMOptions) (get : Bytes → Option Bytes) (ref : ReferenceDB) : Prop where
  sorted : SortedMap.Sorted ref.live
  rows : ∀ k r, (k, r) ∈ ref.live → ∃ value, get k = some value ∧ r.Encodes o value
  only : ∀ k value, get k = some value → ∃ r, (k, r) ∈ ref.live

namespace Answers

variable {o : BitLSMOptions} {get get' : Bytes → Option Bytes} {ref : ReferenceDB}

theorem put (h : Answers o get ref) {k : Bytes} {r : Record} {value : Bytes}
    (hr : r.Encodes o value) (hget : ∀ k', get' k' = if k' = k then some value else get k') :
    Answers o get' (ref.put k r.attrs r.payload) where
  sorted := h.sorted.insert k r
  rows a b hmem := by
    rcases (SortedMap.mem_insert h.sorted).1 hmem with ⟨rfl, rfl⟩ | ⟨hne, hmem⟩
    · exact ⟨value, by rw [hget, if_pos rfl], hr⟩
    · rw [hget, if_neg hne]
      exact h.rows a b hmem
  only a value' hvalue := by
    rw [hget] at hvalue
    split at hvalue
    · next heq => exact ⟨r, (SortedMap.mem_insert h.sorted).2 (Or.inl ⟨heq, rfl⟩)⟩
    · next hne =>
        obtain ⟨r', hr'⟩ := h.only a value' hvalue
        exact ⟨r', (SortedMap.mem_insert h.sorted).2 (Or.inr ⟨hne, hr'⟩)⟩

theorem delete (h : Answers o get ref) {k : Bytes}
    (hget : ∀ k', get' k' = if k' = k then none else get k') : Answers o get' (ref.delete k) where
  sorted := h.sorted.erase k
  rows a b hmem := by
    obtain ⟨hne, hmem⟩ := SortedMap.mem_erase.1 hmem
    rw [hget, if_neg hne]
    exact h.rows a b hmem
  only a value hvalue := by
    rw [hget] at hvalue
    split at hvalue
    · cases hvalue
    · next hne =>
        obtain ⟨r, hr⟩ := h.only a value hvalue
        exact ⟨r, SortedMap.mem_erase.2 ⟨hne, hr⟩⟩

theorem congr (h : Answers o get ref) (hget : ∀ k, get' k = get k) : Answers o get' ref := by
  rwa [show get' = get from funext hget]

/-- A batch of rows, one after the other. -/
theorem putAll (h : Answers o get ref) {rows : List (Bytes × Record)}
    {batch : List (Bytes × Bytes)}
    (hbatch : List.Forall₂ (fun row kv => kv.1 = row.1 ∧ row.2.Encodes o kv.2) rows batch)
    (hget : ∀ k, get' k = Database.answerAfter k (get k)
      (batch.map fun row => ⟨row.1, some row.2⟩)) :
    Answers o get' (rows.foldl (fun ref row => ref.put row.1 row.2.attrs row.2.payload) ref) := by
  induction hbatch generalizing get ref with
  | nil => exact h.congr hget
  | @cons row kv rows batch hrow _ ih =>
      obtain ⟨hkey, hencodes⟩ := hrow
      exact ih (h.put hencodes fun _ => rfl) fun k => by rw [hget k, ← hkey]; rfl

end Answers

/-! ### Writes that are accepted -/

/-- The status of a refused write is not OK. -/
theorem encodeChecked_ne_ok {o : BitLSMOptions} {mismatch : String} {attrs : List AttrView}
    {payload : Option Bytes} {prev : Bytes} :
    encodeChecked o mismatch attrs payload prev ≠ some (.error .ok) := by
  rw [encodeChecked]
  split
  · simp
  · split
    · simp
    · cases payload <;> simp
    · next status hne _ =>
        intro heq
        exact hne (Except.error.inj (Option.some.inj heq))

theorem put_ne_ok {o : BitLSMOptions} {pk payload prev : Bytes} {attrs : List AttrView} :
    put (some o) pk attrs payload prev ≠ some (.error .ok) := by
  intro heq
  rw [put] at heq
  split at heq
  · cases heq
  · next hcheck =>
      rw [Except.error.inj (Option.some.inj heq)] at hcheck
      exact encodeChecked_ne_ok hcheck
  · cases heq

theorem putBatchFrom_ne_ok {o : BitLSMOptions} {pks payloads : List Bytes}
    {attrsList : List (List AttrView)} {n i : ℕ} :
    putBatchFrom o pks attrsList payloads i n ≠ some (.error .ok) := by
  induction n generalizing i with
  | zero => simp [putBatchFrom]
  | succ n ih =>
      intro heq
      rw [putBatchFrom] at heq
      split at heq
      · cases heq
      · next hrow =>
          rw [Except.error.inj (Option.some.inj heq), putBatchRow] at hrow
          split at hrow
          · cases hrow
          · split at hrow
            · cases hrow
            · next hcheck =>
                rw [Except.error.inj (Option.some.inj hrow)] at hcheck
                exact encodeChecked_ne_ok hcheck
            · obtain ⟨pk, -, hpk⟩ := Option.map_eq_some_iff.1 hrow
              cases hpk
      · split at heq
        · cases heq
        · exact ih heq

section Accepted

variable {o : BitLSMOptions} (hschema : validateAttrSpecs o = .ok)
include hschema

/-- An accepted row is stored as the row of its record. -/
theorem RowOk.encodes_of_checked {r : Record} (h : RowOk o r.attrs) {mismatch : String}
    {prev value : Bytes}
    (hcheck : encodeChecked o mismatch r.attrs (some r.payload) prev = some (.ok value)) :
    r.Encodes o value := by
  have htyped : RowTyped o r.attrs := fun c hc => (h.storable c hc).imp And.left And.left
  rcases encodeChecked_spec hschema htyped mismatch r.payload prev with ⟨msg, hbad⟩ | ⟨-, -, heq⟩
  · cases hbad.symm.trans hcheck
  · obtain ⟨row, hrow⟩ := h.exists_encodes hschema r.payload
    rw [heq, hrow.encoded prev] at hcheck
    obtain rfl := Except.ok.inj (Option.some.inj hcheck)
    exact hrow

theorem RowOk.encodes_of_put {r : Record} (h : RowOk o r.attrs) {k prev : Bytes}
    {batch : List (Bytes × Bytes)}
    (hput : put (some o) k r.attrs r.payload prev = some (.ok batch)) :
    List.Forall₂ (fun row kv => kv.1 = row.1 ∧ row.2.Encodes o kv.2) [(k, r)] batch := by
  rw [put_eq] at hput
  obtain ⟨value, hcheck, rfl⟩ := map_outcome_eq_ok.1 hput
  exact .cons ⟨rfl, h.encodes_of_checked hschema hcheck⟩ .nil

/-- The loop of a batch, from row `i` on. -/
theorem encodes_of_putBatchFrom {rows : List (Bytes × Record)}
    (hok : ∀ row ∈ rows, RowOk o row.2.attrs) {n i : ℕ} (hn : i + n = rows.length)
    {batch : List (Bytes × Bytes)}
    (hput : putBatchFrom o (rows.map fun row => row.1) (rows.map fun row => row.2.attrs)
      (rows.map fun row => row.2.payload) i n = some (.ok batch)) :
    List.Forall₂ (fun row kv => kv.1 = row.1 ∧ row.2.Encodes o kv.2) (rows.drop i) batch := by
  induction n generalizing i batch with
  | zero =>
      obtain rfl : [] = batch := Except.ok.inj (Option.some.inj hput)
      rw [List.drop_of_length_le (by omega)]
      exact .nil
  | succ n ih =>
      obtain ⟨kv, kvs, rfl, hrow, hrest⟩ := putBatchRow_of_from hput
      have hlt : i < rows.length := by omega
      have hget {β : Type} (f : Bytes × Record → β) : (rows.map f)[i]? = some (f rows[i]) := by
        rw [List.getElem?_map, List.getElem?_eq_getElem hlt]
        rfl
      rw [putBatchRow_eq (hget _) (hget _) (hget _)] at hrow
      obtain ⟨value, hcheck, rfl⟩ := map_outcome_eq_ok.1 hrow
      rw [List.drop_eq_getElem_cons hlt]
      exact .cons ⟨rfl, (hok _ (List.getElem_mem hlt)).encodes_of_checked hschema hcheck⟩
        (ih (by omega) hrest)

theorem encodes_of_putBatch {rows : List (Bytes × Record)}
    (hok : ∀ row ∈ rows, RowOk o row.2.attrs) (hlen : rows.length < 2 ^ 32)
    {batch : List (Bytes × Bytes)}
    (hput : putBatch (some o) (rows.map fun row => row.1) (rows.map fun row => row.2.attrs)
      (rows.map fun row => row.2.payload) = some (.ok batch)) :
    List.Forall₂ (fun row kv => kv.1 = row.1 ∧ row.2.Encodes o kv.2) rows batch := by
  have hsize : (UInt32.ofNat (rows.map fun row => row.1).length).toNat = rows.length := by
    rw [List.length_map, UInt32.toNat_ofNat']
    exact Nat.mod_eq_of_lt hlen
  rw [putBatch, hsize] at hput
  exact encodes_of_putBatchFrom hschema hok (Nat.zero_add _) hput

end Accepted

/-! ### Every operation keeps the two sides together -/

/-- The store is in order, and through every snapshot and now it answers what
the reference held. -/
structure Tracks (table : TableOptions) (o : BitLSMOptions) (s : Session) : Prop where
  inv : s.engine.Inv table o
  taken : ∀ x ∈ s.snapshots, x.1 ≤ s.engine.lastSequence
  answers : ∀ snapshot reference, s.Sees snapshot reference →
    Answers o (fun k => s.engine.tree.versions.get k (s.engine.readSeqno snapshot)) reference

namespace Tracks

variable {table : TableOptions} {o : BitLSMOptions} {s s' : Session}

theorem start : Tracks table o {} where
  inv := Database.empty_inv
  taken := List.forall_mem_nil _
  answers snapshot reference hsees := by
    cases snapshot with
    | none =>
        obtain rfl : reference = {} := hsees
        exact ⟨List.Pairwise.nil, fun _ _ h => (List.not_mem_nil h).elim, fun _ _ h => by cases h⟩
    | some seqno => exact (List.not_mem_nil hsees).elim

theorem now (h : Tracks table o s) : Answers o s.engine.get s.reference :=
  h.answers none s.reference rfl

/-- The store moved on and answers what the new reference holds. -/
theorem extend (h : Tracks table o s) {db : Database} {reference : ReferenceDB}
    (hinv : db.Inv table o) (hext : s.engine.Extends db) (hnow : Answers o db.get reference) :
    Tracks table o { s with engine := db, reference } where
  inv := hinv
  taken x hx := UInt64.le_trans (h.taken x hx) hext.last_le
  answers snapshot reference' hsees := by
    cases snapshot with
    | none =>
        obtain rfl : reference' = reference := hsees
        exact hnow
    | some seqno =>
        exact (h.answers (some seqno) reference' hsees).congr
          fun k => hext.older seqno (h.taken _ hsees) k

/-- A write of rows: refused, or mirrored. -/
theorem mirror_rows (h : Tracks table o s) {outcome : Option WriteOutcome}
    (hne : outcome ≠ some (.error .ok)) (rows : List (Bytes × Record))
    (hok : ∀ batch db, outcome = some (.ok batch) → s.engine.writeRows outcome = some (db, .ok) →
      List.Forall₂ (fun row kv => kv.1 = row.1 ∧ row.2.Encodes o kv.2) rows batch)
    (hmirror : s.mirror (s.engine.writeRows outcome) (fun ref =>
      rows.foldl (fun ref row => ref.put row.1 row.2.attrs row.2.payload) ref) = some s') :
    Tracks table o s' := by
  obtain ⟨⟨db, status⟩, hresult, rfl⟩ := Option.map_eq_some_iff.1 hmirror
  obtain ⟨outcome, rfl, hresult'⟩ := Option.bind_eq_some_iff.1 hresult
  cases outcome with
  | error status' =>
      obtain ⟨rfl, rfl⟩ := Prod.mk.inj (Option.some.inj hresult')
      have hstatus : status' ≠ .ok := fun heq => hne (by rw [heq])
      simp only [if_neg hstatus]
      exact h
  | ok batch =>
      obtain ⟨db', hdb, heq⟩ := Option.map_eq_some_iff.1 hresult'
      obtain ⟨rfl, rfl⟩ := Prod.mk.inj heq
      obtain ⟨hinv, hext, hget⟩ := h.inv.write hdb
      refine h.extend hinv hext ?_
      rw [if_pos rfl]
      exact h.now.putAll (hok batch _ rfl hresult) hget

/-- The step lemma. -/
theorem apply (hschema : validateAttrSpecs o = .ok) (h : Tracks table o s) {op : Op}
    (hop : s.Allows table o op) (happly : s.apply o op = some s') : Tracks table o s' := by
  cases op with
  | put key attrs payload prev =>
      refine h.mirror_rows put_ne_ok [(key, ⟨attrs, payload⟩)] (fun batch db hput hwrite => ?_)
        happly
      exact RowOk.encodes_of_put (r := ⟨attrs, payload⟩) hschema (hop db hwrite) hput
  | putBatch rows =>
      refine h.mirror_rows putBatchFrom_ne_ok rows (fun batch db hput hwrite => ?_) happly
      exact encodes_of_putBatch hschema (hop.2 db hwrite) hop.1 hput
  | delete key =>
      obtain ⟨⟨db, status⟩, hresult, rfl⟩ := Option.map_eq_some_iff.1 happly
      obtain ⟨db', hdb, heq⟩ := Option.map_eq_some_iff.1 hresult
      obtain ⟨rfl, rfl⟩ := Prod.mk.inj heq
      obtain ⟨hinv, hext, hget⟩ := h.inv.write hdb
      exact h.extend hinv hext (h.now.delete hget)
  | getSnapshot =>
      obtain rfl := Option.some.inj happly
      refine ⟨h.inv, List.forall_mem_cons.2 ⟨UInt64.le_refl _, h.taken⟩, ?_⟩
      intro snapshot reference hsees
      cases snapshot with
      | none => exact h.answers none reference hsees
      | some seqno =>
          rcases List.mem_cons.1 hsees with heq | hmem
          · obtain ⟨rfl, rfl⟩ := Prod.mk.inj heq
            exact h.now
          · exact h.answers (some seqno) reference hmem
  | releaseSnapshot seqno =>
      obtain rfl := Option.some.inj happly
      refine ⟨h.inv, fun x hx => h.taken x (List.mem_of_mem_filter hx), ?_⟩
      intro snapshot reference hsees
      cases snapshot with
      | none => exact h.answers none reference hsees
      | some seqno' => exact h.answers (some seqno') reference (List.mem_of_mem_filter hsees)
  | rearrange tree =>
      obtain rfl := Option.some.inj happly
      exact ⟨hop.1, h.taken, fun snapshot reference hsees =>
        (h.answers snapshot reference hsees).congr (hop.2 snapshot reference hsees)⟩
  | advance last =>
      obtain rfl := Option.some.inj happly
      obtain ⟨hinv, hget⟩ := h.inv.advance hop.1 hop.2
      exact h.extend hinv ⟨hop.1, fun _ _ _ => rfl⟩ (h.now.congr hget)

/-- The run lemma. -/
theorem of_reachable (hschema : validateAttrSpecs o = .ok) (h : s.Reachable table o) :
    Tracks table o s := by
  induction h with
  | start => exact start
  | step _ hop happly ih => exact ih.apply hschema hop happly

end Tracks

/-! ### Scans and the reference -/

/-- What the reference expects, when it can compare every record. -/
theorem ReferenceDB.expectedFrom_eq {q : BitLSMQuery} {l : List (Bytes × Record)}
    (h : ∀ x ∈ l, ∃ ok, matchQuery q x.2.attrs = some ok) :
    expectedFrom q l = some (l.filter fun x => matchQuery q x.2.attrs = some true) := by
  induction l with
  | nil => rfl
  | cons x l ih =>
      rw [List.forall_mem_cons] at h
      obtain ⟨⟨ok, hok⟩, hrest⟩ := h
      rw [expectedFrom, hok, Option.bind_some, ih hrest, List.filter_cons, hok]
      cases ok <;> rfl

theorem Engine.sortClauses_reordered (engine : Engine) (q : BitLSMQuery) :
    (engine.sortClauses q).Reordered q := by
  show List.Forall₂ List.Perm (q.clauseGroups.map engine.clauseSort.sort) q.clauseGroups
  rw [List.forall₂_map_left_iff, List.forall₂_same]
  exact fun clause _ => engine.clauseSort.perm clause

/-- Rows with ascending keys give a map of their records. -/
theorem Database.records_spec {o : BitLSMOptions} {rows : List (Bytes × Option Bytes)}
    (hsorted : (rows.map Prod.fst).Pairwise (· < ·))
    (hreads : ∀ x ∈ rows, ∃ value r, x.2 = some value ∧ recordOf o value = some r) :
    ∃ records, (rows.mapM (keyedRecord o)).map
        (List.foldl (fun out x => SortedMap.emplace x.1 x.2 out) []) = some records ∧
      SortedMap.Sorted records ∧
      ∀ k r, (k, r) ∈ records ↔ ∃ value, (k, some value) ∈ rows ∧ recordOf o value = some r := by
  let keyed (x : Bytes × Option Bytes) : Bytes × Record :=
    (x.1, (x.2.bind (recordOf o)).getD ⟨[], []⟩)
  have hkeyed : rows.mapM (keyedRecord o) = some (rows.map keyed) := by
    refine mapM_eq_some_map fun x hx => ?_
    obtain ⟨value, r, hvalue, hr⟩ := hreads x hx
    simp only [keyedRecord, keyed, hvalue, Option.bind_some, hr, Option.map_some, Option.getD_some]
  have hmap : SortedMap.Sorted (rows.map keyed) := by
    rw [SortedMap.Sorted, List.map_map]
    exact hsorted
  refine ⟨rows.map keyed, ?_, hmap, fun k r => ?_⟩
  · rw [hkeyed, Option.map_some, SortedMap.foldl_emplace hmap, List.nil_append]
  · rw [List.mem_map]
    constructor
    · rintro ⟨x, hx, heq⟩
      obtain ⟨value, r', hvalue, hr⟩ := hreads x hx
      simp only [keyed, hvalue, Option.bind_some, hr, Option.getD_some, Prod.mk.injEq] at heq
      obtain ⟨rfl, rfl⟩ := heq
      exact ⟨value, hvalue ▸ hx, hr⟩
    · rintro ⟨value, hx, hr⟩
      refine ⟨_, hx, ?_⟩
      simp only [keyed, Option.bind_some, hr, Option.getD_some]

section Scan

variable {engine : Engine} {o : BitLSMOptions} (hschema : validateAttrSpecs o = .ok)
  {q : BitLSMQuery} (hq : q.validate o = .ok)
include hschema hq

theorem Engine.scanConfig_valid (hconds : q.clauseGroups.flatten.length < 2 ^ 32)
    (hbytes : q.comparandBytes < 2 ^ 32) (resultMode : ResultMode) (readSeqno : UInt64) :
    (engine.scanConfig o q resultMode readSeqno).Valid := by
  have hsorted := engine.sortClauses_reordered q
  refine ⟨hschema, hsorted.validate hq, fun _ => ?_, fun _ => ?_⟩
  · exact hsorted.flatten_perm.length_eq.trans_lt hconds
  · apply CompiledQuery.arenaFits_of_lt
    rw [Nat.zero_add]
    exact (hsorted.flatten_perm.flatMap_right _).length_eq.trans_lt hbytes

/-- The engine accepts a row as the reference accepts its record. -/
theorem Record.Encodes.accepts_eq {r : Record} {value : Bytes} (h : r.Encodes o value)
    {readSeqno : UInt64} (hvalid : (engine.scanConfig o q .verified readSeqno).Valid) :
    ReferenceDB.matchQuery q r.attrs =
      some ((engine.scanConfig o q .verified readSeqno).accepts value) := by
  rw [h.matchQuery_eq hschema hq, ← hvalid.checkCondition_eq value]
  exact ((engine.sortClauses_reordered q).checkCondition hschema hq value).symm

variable {ref : ReferenceDB} {db : Database} {readSeqno : UInt64}
  (h : Answers o (fun k => db.tree.versions.get k readSeqno) ref)
  (hvalid : (engine.scanConfig o q .verified readSeqno).Valid)
include h hvalid

theorem Answers.expectedResult_eq : ref.expectedResult q =
    some (ref.live.filter fun x => ReferenceDB.matchQuery q x.2.attrs = some true) := by
  refine ReferenceDB.expectedFrom_eq fun x hx => ?_
  obtain ⟨value, -, hencodes⟩ := h.rows x.1 x.2 hx
  exact ⟨_, hencodes.accepts_eq hschema hq hvalid⟩

/-- The expected records are those of the rows the scan answers with. -/
theorem Answers.expected_iff {k : Bytes} {r : Record} :
    (k, r) ∈ ref.live ∧ ReferenceDB.matchQuery q r.attrs = some true ↔ ∃ value,
      (engine.scanConfig o q .verified readSeqno).answer db.tree k = some value ∧
        recordOf o value = some r := by
  simp only [ScanConfig.answer_eq_some]
  constructor
  · rintro ⟨hmem, hmatch⟩
    obtain ⟨value, hget, hencodes⟩ := h.rows k r hmem
    rw [hencodes.accepts_eq hschema hq hvalid] at hmatch
    exact ⟨value, ⟨hget, Option.some.inj hmatch⟩, hencodes.recordOf_eq hschema⟩
  · rintro ⟨value, ⟨hget, haccepts⟩, hrecord⟩
    obtain ⟨r', hmem⟩ := h.only k value hget
    obtain ⟨value', hget', hencodes⟩ := h.rows k r' hmem
    obtain rfl := Option.some.inj (hget.symm.trans hget')
    obtain rfl := Option.some.inj (hrecord.symm.trans (hencodes.recordOf_eq hschema))
    exact ⟨hmem, by rw [hencodes.accepts_eq hschema hq hvalid, haccepts]⟩

omit hq hvalid in
theorem Answers.exists_record {k value : Bytes}
    (hanswer : (engine.scanConfig o q .verified readSeqno).answer db.tree k = some value) :
    ∃ r, recordOf o value = some r := by
  have hget := (ScanConfig.answer_eq_some.1 hanswer).1
  obtain ⟨r, hr⟩ := h.only k value hget
  obtain ⟨value', hget', hencodes⟩ := h.rows k r hr
  obtain rfl := Option.some.inj (hget.symm.trans hget')
  exact ⟨r, hencodes.recordOf_eq hschema⟩

/-- The rows of a scan, read back, are the records the reference expects. The
scan does not hand out the empty key. -/
theorem Answers.records_eq {full : List (Bytes × Option Bytes)}
    (hsorted : (full.map Prod.fst).Pairwise (· < ·))
    (hfull : ∀ k x, (k, x) ∈ full ↔ k ≠ [] ∧ ∃ value, x = some value ∧
      (engine.scanConfig o q .verified readSeqno).answer db.tree k = some value) :
    (full.mapM (Database.keyedRecord o)).map
        (List.foldl (fun out x => SortedMap.emplace x.1 x.2 out) []) =
      some ((ref.live.filter fun x => ReferenceDB.matchQuery q x.2.attrs = some true).filter
        fun x => x.1 ≠ []) := by
  obtain ⟨records, hrecords, hmap, hmem⟩ := @Database.records_spec o full hsorted fun x hx => by
    obtain ⟨-, value, hvalue, hanswer⟩ := (hfull x.1 x.2).1 hx
    obtain ⟨r, hr⟩ := h.exists_record hschema hanswer
    exact ⟨value, r, hvalue, hr⟩
  rw [hrecords]
  refine congrArg some (hmap.ext ((h.sorted.filter _).filter _) fun ⟨k, r⟩ => ?_)
  rw [hmem, List.mem_filter, List.mem_filter, decide_eq_true_eq, decide_eq_true_eq,
    h.expected_iff hschema hq hvalid, and_comm]
  simp only [hfull, Option.some.injEq, exists_eq_left', and_assoc, exists_and_left]

end Scan

/-- A scan of a session reads a tree it can read. -/
theorem Tracks.scannable {engine : Engine} {o : BitLSMOptions} {s : Session}
    (h : Tracks engine.table o s) {snapshot : Option UInt64} {reference : ReferenceDB}
    (hsees : s.Sees snapshot reference) {q : BitLSMQuery}
    (hvalid : (engine.scanConfig o q .verified (s.engine.readSeqno snapshot)).Valid) :
    (engine.scanConfig o q .verified (s.engine.readSeqno snapshot)).Scannable s.engine.tree where
  shape := h.inv.shape
  valid := hvalid
  built := h.inv.built
  snapshot _ := by
    cases snapshot with
    | none => exact h.inv.last_lt
    | some seqno => exact UInt64.lt_of_le_of_lt (h.taken _ hsees) h.inv.last_lt
  tombstones _ f hf _ _ _ t ht := by
    rw [h.inv.no_rangeDels f hf] at ht
    cases ht

/-- In every state of a session, a scan through a snapshot or of what is there
now hands out the records the reference held then and expects for the query,
apart from a record under the empty key. -/
theorem scanEngine_eq_expected {engine : Engine} {o : BitLSMOptions}
    (hschema : validateAttrSpecs o = .ok) {s : Session} (hs : s.Reachable engine.table o)
    {q : BitLSMQuery} (hq : q.validate o = .ok) (hconds : q.clauseGroups.flatten.length < 2 ^ 32)
    (hbytes : q.comparandBytes < 2 ^ 32) {snapshot : Option UInt64} {reference : ReferenceDB}
    (hsees : s.Sees snapshot reference) {w : ScanWorld}
    (hw : w.Still (engine.scanConfig o q .verified (s.engine.readSeqno snapshot)) s.engine.tree)
    (hcalm :
      ¬w.Fails (engine.scanConfig o q .verified (s.engine.readSeqno snapshot)) s.engine.tree) :
    ∃ expected bound, reference.expectedResult q = some expected ∧ ∀ fuel, bound < fuel →
      s.engine.scanEngine engine o q snapshot w fuel =
        some (expected.filter fun x => x.1 ≠ []) := by
  have htracks := Tracks.of_reachable hschema hs
  have hvalid := engine.scanConfig_valid hschema hq hconds hbytes .verified
    (s.engine.readSeqno snapshot)
  have hscannable := htracks.scannable hsees hvalid
  obtain ⟨ctx, ids, rows, hrows, hscan⟩ := hscannable.exists_scan
  obtain ⟨scan, hopen, hdrains⟩ := hscan w hw
  have hanswers := htracks.answers snapshot reference hsees
  refine ⟨_, rows.length, hanswers.expectedResult_eq hschema hq hvalid, fun fuel hfuel => ?_⟩
  obtain ⟨it, final, hseek, hyields, hok⟩ := hdrains.of_calm hcalm hfuel
    (show scan.run fuel [] = some scan.start from rfl)
  have hlength (f : SourceRow → Option (Bytes × Option Bytes)) :
      ((dedup [] rows).filterMap f).length < fuel :=
    ((List.length_filterMap_le _ _).trans (dedup_sublist [] rows).length_le).trans_lt hfuel
  have hresult := OpenScan.result_of_yields hseek hyields (hlength _)
  rw [Database.scanEngine, Database.newIterator, if_neg (not_not.2 hq),
    if_neg (fun h => by cases h.1), hopen]
  simp only [Option.map_some, Option.bind_some, hresult, hok, if_true]
  exact hanswers.records_eq hschema hq hvalid hrows.verdicts_ascending fun k x =>
    hrows.mem_verdicts_verified hscannable.shape rfl

/-! A session: a row is written and flushed, a snapshot is taken, and the row is
written over. -/

def fiveRow : Record := ⟨[.int 5], [112]⟩

def sevenRow : Record := ⟨[.int 7], [113]⟩

def flushedRow : DataBlock where
  entries := [⟨[1], 1, .value, [5, 112]⟩]
  restartInterval := 2
  interval_pos := Nat.two_pos
  length_lt := by decide

def flushedTree : LsmState where
  mem := ⟨[], []⟩
  imm := []
  levels := [[oneBlockFile 7 flushedRow ⟨[1], 1⟩ ⟨[1], 1⟩ 1 []]]

def residentEngine : Engine where
  table := ⟨.oneRow, .resident, 2⟩
  plainValues := true
  heapTop := .first
  clauseSort :=
    { sort := List.insertionSort fun a b => a.attrIdx.toNat ≤ b.attrIdx.toNat
      perm := fun clause => List.perm_insertionSort _ clause
      sorted := fun clause => List.pairwise_insertionSort _ clause }

def writtenSession : Session where
  engine := ⟨⟨⟨[⟨[1], 1, .value, [5, 112]⟩], []⟩, [], []⟩, 1⟩
  reference := ⟨[([1], fiveRow)]⟩

def flushedSession : Session := { writtenSession with engine := ⟨flushedTree, 1⟩ }

def heldSession : Session := { flushedSession with snapshots := [(1, ⟨[([1], fiveRow)]⟩)] }

def overwrittenSession : Session where
  engine := ⟨{ flushedTree with mem := ⟨[⟨[1], 2, .value, [7, 113]⟩], []⟩ }, 2⟩
  reference := ⟨[([1], sevenRow)]⟩
  snapshots := [(1, ⟨[([1], fiveRow)]⟩)]

theorem rowOk_oneByteInt {x : Int64} (h : -128 ≤ x.toInt ∧ x.toInt < 128) :
    RowOk oneByteInt [.int x] where
  length := rfl
  storable := List.forall_mem_singleton.2 (Or.inr ⟨rfl, h⟩)
  bytes := show layoutBytes oneByteInt.attrSpecs + 0 < 2 ^ 32 by decide
  nulls := by decide

theorem flushedTree_inv : Database.Inv residentEngine.table oneByteInt
    { writtenSession.engine with tree := flushedTree } where
  shape :=
    { memtables := List.forall_mem_singleton.2 List.Pairwise.nil
      files := List.forall_mem_singleton.2
        { sorted := by decide
          smallest_le := by decide
          le_largest := by decide
          smallest_le_largest := by decide
          smallest_le_start := List.forall_mem_nil _
          stop_le_largest := List.forall_mem_nil _
          largest_from := by decide
          seqno_le := by
            rintro k n (⟨e, he, -, rfl⟩ | ⟨t, ht, -⟩)
            · exact (show ∀ e ∈ flushedRow.entries, e.seqno.toNat ≤ 1 by decide) e he
            · cases ht
          counted := fun hne => absurd rfl hne
          filtered := by decide }
      numbers := by
        intro f hf g hg _
        rw [List.mem_singleton.1 hf, List.mem_singleton.1 hg]
      disjoint := List.forall_mem_nil _
      newer := by
        refine List.pairwise_pair.2 fun k a b ha _ => ?_
        rcases ha with ⟨e, he, -⟩ | ⟨t, ht, -⟩
        · cases he
        · cases ht }
  built := List.forall_mem_singleton.2 ⟨_, oneBlockFile_indexed ⟨by decide, fun i => by
      cases i with
      | zero => decide
      | succ i => exact Nat.two_pow_pos 32⟩ (by decide +kernel) (by decide) _ _ _ _ _ _,
    List.forall_mem_singleton.2 (Or.inl rfl)⟩
  numbers_le := by
    rintro k n (⟨e, he, -, rfl⟩ | ⟨t, ht, -⟩)
    · exact (show ∀ e ∈ flushedRow.entries, e.seqno.toNat ≤ 1 by decide) e he
    · cases ht
  last_lt := show (1 : UInt64) < kMaxSequenceNumber by decide
  no_rangeDels := List.forall_mem_singleton.2 rfl

theorem overwrittenSession_reachable :
    overwrittenSession.Reachable residentEngine.table oneByteInt := by
  have hwritten : writtenSession.Reachable residentEngine.table oneByteInt :=
    @Session.Reachable.step _ _ _ _ (.put [1] fiveRow.attrs fiveRow.payload []) .start
      (fun _ _ => rowOk_oneByteInt (by decide)) rfl
  have hflushed : flushedSession.Reachable residentEngine.table oneByteInt :=
    @Session.Reachable.step _ _ _ _ (.rearrange flushedTree) hwritten
      ⟨flushedTree_inv, fun _ _ _ _ => rfl⟩ rfl
  have hheld : heldSession.Reachable residentEngine.table oneByteInt :=
    @Session.Reachable.step _ _ _ _ .getSnapshot hflushed trivial rfl
  exact @Session.Reachable.step _ _ _ _ (.put [1] sevenRow.attrs sevenRow.payload []) hheld
    (fun _ _ => rowOk_oneByteInt (by decide)) rfl

/-- Through the snapshot the session sees the row as it was flushed. -/
theorem scanEngine_eq_expected_overwritten :
    overwrittenSession.reference.live = [([1], sevenRow)] ∧ ∃ w bound, ∀ fuel, bound < fuel →
      overwrittenSession.engine.scanEngine residentEngine oneByteInt ⟨[]⟩ (some 1) w fuel =
        some [([1], fiveRow)] := by
  have hinv := (Tracks.of_reachable rfl overwrittenSession_reachable).inv
  have hvalid := @Engine.scanConfig_valid residentEngine oneByteInt rfl ⟨[]⟩ rfl (by decide)
    (by decide) .verified 1
  obtain ⟨expected, bound, hexpected, hscan⟩ := @scanEngine_eq_expected residentEngine oneByteInt
    rfl _ overwrittenSession_reachable ⟨[]⟩ rfl (by decide) (by decide) (some 1) _
    List.mem_cons_self (hinv.shape.calmWorld 1) (hinv.shape.calmWorld_still _)
    (hinv.shape.calmWorld_not_fails hvalid rfl fun f hf => by
      obtain ⟨rho, hbuilt⟩ := hinv.built f hf
      exact ⟨rho, hbuilt.toIndexed⟩)
  refine ⟨rfl, hinv.shape.calmWorld 1, bound, fun fuel hfuel => ?_⟩
  obtain rfl : [([1], fiveRow)] = expected := Option.some.inj hexpected
  exact hscan fuel hfuel

end BitLSM
