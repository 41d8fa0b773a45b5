import BitLSM.Lib.Lockstep
import BitLSM.Scan.Candidates
import BitLSM.Scan.LsmState
import BitLSM.Scan.QueryContext

/-!
The scan of one memtable.

A memtable is read while it may be written to: `contents n` is what it holds
at the `n`-th move of the cursor, and a move goes to the next entry of what
it holds then. Entries above the snapshot are passed over, so the rows that
come up are those the memtable held at the start, whatever is added on the
way.
-/

namespace BitLSM

open Wire

/-! ### A memtable under writes -/

/-- A memtable over time. It only grows, to at most `size` entries. -/
structure LiveMemTable where
  contents : ℕ → List Entry
  size : ℕ
  /-- The error a move stops on. -/
  stops : ℕ → Option Failure
  sorted : ∀ n, ((contents n).map Entry.key).Pairwise (· < ·)
  grows : ∀ n, contents n ⊆ contents (n + 1)
  length_le : ∀ n, (contents n).length ≤ size

namespace LiveMemTable

/-- A memtable that is not written to. -/
def frozen (entries : List Entry) (sorted : (entries.map Entry.key).Pairwise (· < ·)) :
    LiveMemTable where
  contents _ := entries
  size := entries.length
  stops _ := none
  sorted _ := sorted
  grows _ := List.Subset.refl _
  length_le _ := le_rfl

/-- The first entry behind `bound`, at the `n`-th move; without a bound the
first of all. -/
def after (m : LiveMemTable) (n : ℕ) (bound : Option InternalKey) :
    Except Failure (Option Entry) :=
  match m.stops n with
  | some failure => .error failure
  | none => .ok ((m.contents n).find? fun e => bound.all (· < e.key))

end LiveMemTable

/-! ### The iterator -/

structure MemTableIter where
  mem : LiveMemTable
  moves : ℕ := 0
  /-- The entry `iter_` stands on. -/
  cur : Option Entry := none
  status : Status := .ok

namespace MemTableIter

/-- The loop of `FindNextValidEntry`, from the `n`-th move on. -/
def findNextValidEntry (q : QueryContext) (mem : LiveMemTable) :
    ℕ → ℕ → Except Failure (Option Entry) → Option (ℕ × Except Failure (Option Entry))
  | _, n, .error failure => some (n, .error failure)
  | _, n, .ok none => some (n, .ok none)
  | 0, _, .ok (some _) => none
  | fuel + 1, n, .ok (some e) =>
      match q.rowPasses e with
      | none => none
      | some true => some (n, .ok (some e))
      | some false => findNextValidEntry q mem fuel (n + 1) (mem.after n (some e.key))

/-- Move behind `bound` and on to the next row. An error the cursor stopped on
becomes the status. -/
def moveBehind (q : QueryContext) (it : MemTableIter) (bound : Option InternalKey) :
    Option MemTableIter :=
  (findNextValidEntry q it.mem (it.mem.size + 1) (it.moves + 1) (it.mem.after it.moves bound)).map
    fun (moves, out) =>
      match out with
      | .ok cur => { it with moves, cur }
      | .error failure => { it with moves, cur := none, status := failure }

def seekToFirst (q : QueryContext) (it : MemTableIter) : Option MemTableIter :=
  it.moveBehind q none

def next (q : QueryContext) (it : MemTableIter) : Option MemTableIter :=
  it.cur.bind fun e => it.moveBehind q (some e.key)

/-- The row an entry of a memtable is. -/
def row (e : Entry) : SourceRow := ⟨e, -1, 0, false⟩

def iter (q : QueryContext) : MergeIter MemTableIter where
  head it := it.cur.map fun e => (row e).toMergeRow
  next := next q
  seekToFirst := seekToFirst q
  status := status

theorem head_iter (q : QueryContext) {it : MemTableIter} {cur : Option Entry} (h : it.cur = cur) :
    (iter q).head it = cur.map fun e => (row e).toMergeRow := h ▸ rfl

end MemTableIter

/-! ### What comes up -/

/-- The entry is behind the bound. -/
def behind (bound : Option InternalKey) (e : Entry) : Bool := bound.all (· < e.key)

theorem behind_some {a : InternalKey} {e : Entry} : behind (some a) e = true ↔ a < e.key := by
  simp [behind]

/-- Behind something behind the bound is behind the bound. -/
theorem behind_trans {bound : Option InternalKey} {e x : Entry} (he : behind bound e = true)
    (hx : behind (some e.key) x = true) : behind bound x = true := by
  cases bound with
  | none => rfl
  | some a => exact behind_some.2 ((behind_some.1 he).trans (behind_some.1 hx))

section Sorted

variable {l : List Entry} (hl : (l.map Entry.key).Pairwise (· < ·))
include hl

theorem filter_behind {bound : Option InternalKey} {x : Entry} {rest : List Entry}
    (h : l.filter (behind bound) = x :: rest) : l.filter (behind (some x.key)) = rest := by
  have hx : behind bound x = true := (List.mem_filter.1 (h ▸ List.mem_cons_self)).2
  have hsorted := (List.pairwise_map.1 hl).sublist (h ▸ List.filter_sublist)
  have hboth : l.filter (behind (some x.key)) =
      (l.filter (behind bound)).filter (behind (some x.key)) := by
    rw [List.filter_filter]
    refine List.filter_congr fun y _ => ?_
    cases hy : behind (some x.key) y with
    | false => rfl
    | true => rw [behind_trans hx hy, Bool.and_self]
  rw [hboth, h, List.filter_cons_of_neg (by rw [behind_some]; exact lt_irrefl _),
    List.filter_eq_self]
  exact fun y hy => behind_some.2 ((List.pairwise_cons.1 hsorted).1 y hy)

/-- The first entry behind a bound, and those behind it. -/
theorem filter_behind_cons {bound : Option InternalKey} {e : Entry}
    (h : l.find? (behind bound) = some e) :
    l.filter (behind bound) = e :: l.filter (behind (some e.key)) := by
  rw [← List.head?_filter] at h
  obtain ⟨rest, hrest⟩ := List.head?_eq_some_iff.1 h
  rw [hrest, filter_behind hl hrest]

end Sorted

namespace LiveMemTable

/-- The rows of the memtable that the snapshot sees and the query accepts. -/
def rows (m : LiveMemTable) (q : QueryContext) : List Entry := (m.contents 0).filter q.passes

/-- What is added is above the snapshot or does not pass for another reason, and
every row can be evaluated. -/
structure Stable (m : LiveMemTable) (q : QueryContext) : Prop where
  total : q.Total
  rows_eq : ∀ n, (m.contents n).filter q.passes = m.rows q

theorem rows_sorted (m : LiveMemTable) (q : QueryContext) :
    ((m.rows q).map Entry.key).Pairwise (· < ·) :=
  (m.sorted 0).sublist (List.filter_sublist.map Entry.key)

/-- The entries up to a bound, at the `n`-th move. -/
def upTo (m : LiveMemTable) (n : ℕ) (bound : Option InternalKey) : ℕ :=
  ((m.contents n).filter fun e => !behind bound e).length

theorem upTo_le (m : LiveMemTable) (n : ℕ) (bound : Option InternalKey) : m.upTo n bound ≤ m.size :=
  (List.length_filter_le _ _).trans (m.length_le n)

/-- Going on to the next entry leaves one more behind, however much is added
meanwhile. -/
theorem upTo_lt (m : LiveMemTable) {n : ℕ} {bound : Option InternalKey} {e : Entry}
    (h : (m.contents n).find? (behind bound) = some e) :
    m.upTo n bound < m.upTo (n + 1) (some e.key) := by
  have he := List.mem_of_find?_eq_some h
  have hbehind := (List.find?_eq_some_iff_append.1 h).1
  have hnodup : (e :: (m.contents n).filter fun x => !behind bound x).Nodup := by
    refine List.nodup_cons.2 ⟨by simp [hbehind], ?_⟩
    exact ((List.pairwise_map.1 (m.sorted n)).imp fun h => ne_of_apply_ne Entry.key h.ne).sublist
      List.filter_sublist
  refine (hnodup.subperm fun x hx => ?_).length_le
  rcases List.mem_cons.1 hx with rfl | hx
  · exact List.mem_filter.2 ⟨m.grows n he, by simp [behind]⟩
  · obtain ⟨hmem, hnot⟩ := List.mem_filter.1 hx
    refine List.mem_filter.2 ⟨m.grows n hmem, ?_⟩
    cases hafter : behind (some e.key) x with
    | false => rfl
    | true => simp [behind_trans hbehind hafter] at hnot

end LiveMemTable

namespace MemTableIter

variable {q : QueryContext} {mem : LiveMemTable}

/-- The row the loop stops on, of the entries it comes by. -/
def firstPassing (q : QueryContext) : List Entry → Option (Option Entry)
  | [] => some none
  | e :: rest =>
      match q.rowPasses e with
      | none => none
      | some true => some (some e)
      | some false => firstPassing q rest

theorem firstPassing_eq {l : List Entry} (h : ∀ e ∈ l, q.passes e = true) :
    firstPassing q l = some l.head? := by
  cases l with
  | nil => rfl
  | cons e rest =>
      have he : q.rowPasses e = some true := by
        simpa [QueryContext.passes] using h e List.mem_cons_self
      rw [firstPassing, he]
      rfl

/-- The loop depends only on the entries `p` keeps, if those it drops never
pass. -/
theorem findNextValidEntry_rel {p : Entry → Bool}
    (hp : ∀ e, p e = false → q.rowPasses e = some false) {kept : List Entry}
    (hkept : ∀ n, (mem.contents n).filter p = kept) {fuel n : ℕ} {bound : Option InternalKey}
    (hfuel : mem.size < fuel + mem.upTo n bound) :
    Option.Rel (fun out cur => out.2 = .ok cur)
        (findNextValidEntry q mem fuel (n + 1) (mem.after n bound))
        (firstPassing q (kept.filter (behind bound))) ∨
      ∃ moves failure k, findNextValidEntry q mem fuel (n + 1) (mem.after n bound) =
        some (moves, .error failure) ∧ mem.stops k = some failure := by
  induction fuel generalizing n bound with
  | zero =>
      have := mem.upTo_le n bound
      omega
  | succ fuel ih =>
      cases hstop : mem.stops n with
      | some failure =>
          refine Or.inr ⟨n + 1, failure, n, ?_, hstop⟩
          rw [LiveMemTable.after, hstop]
          rfl
      | none =>
          have hafter : mem.after n bound = .ok ((mem.contents n).find? (behind bound)) := by
            rw [LiveMemTable.after, hstop]
            rfl
          have hswap : kept.filter (behind bound) =
              ((mem.contents n).filter (behind bound)).filter p := by
            rw [← hkept n, List.filter_filter, List.filter_filter]
            simp only [Bool.and_comm]
          rw [hafter, hswap]
          cases hfind : (mem.contents n).find? (behind bound) with
          | none =>
              rw [List.filter_eq_nil_iff.2 (List.find?_eq_none.1 hfind)]
              exact Or.inl (.some rfl)
          | some e =>
              have hrest : ((mem.contents n).filter (behind (some e.key))).filter p =
                  kept.filter (behind (some e.key)) := by
                rw [← hkept n, List.filter_filter, List.filter_filter]
                simp only [Bool.and_comm]
              have hlt := mem.upTo_lt hfind
              have hnext := @ih (n + 1) (some e.key) (by omega)
              rw [filter_behind_cons (mem.sorted n) hfind, findNextValidEntry]
              cases hpe : p e with
              | false =>
                  rw [List.filter_cons_of_neg (by rw [hpe]; decide), hrest, hp e hpe]
                  exact hnext
              | true =>
                  rw [List.filter_cons_of_pos hpe, hrest, firstPassing]
                  cases q.rowPasses e with
                  | none => exact Or.inl .none
                  | some b =>
                      cases b with
                      | false => exact hnext
                      | true => exact Or.inl (.some rfl)

/-- The loop ends on the first row behind the bound, or on an error. -/
theorem findNextValidEntry_spec (hmem : mem.Stable q) {fuel n : ℕ} {bound : Option InternalKey}
    (hfuel : mem.size < fuel + mem.upTo n bound) :
    ∃ moves out, findNextValidEntry q mem fuel (n + 1) (mem.after n bound) = some (moves, out) ∧
      (out = .ok ((mem.rows q).filter (behind bound)).head? ∨
        ∃ failure k, out = .error failure ∧ mem.stops k = some failure) := by
  have hp (e : Entry) (he : q.passes e = false) : q.rowPasses e = some false := by
    rw [hmem.total.rowPasses_eq, he]
  have hall : ∀ e ∈ (mem.rows q).filter (behind bound), q.passes e = true := fun e he =>
    (List.mem_filter.1 (List.mem_filter.1 he).1).2
  rcases findNextValidEntry_rel hp hmem.rows_eq hfuel with hrel | ⟨moves, failure, k, hloop, hstop⟩
  · rw [firstPassing_eq hall] at hrel
    cases hloop : findNextValidEntry q mem fuel (n + 1) (mem.after n bound) with
    | none =>
        rw [hloop] at hrel
        cases hrel
    | some out =>
        rw [hloop] at hrel
        cases hrel with
        | some hout => exact ⟨out.1, out.2, rfl, Or.inl hout⟩
  · exact ⟨moves, .error failure, hloop, Or.inr ⟨failure, k, rfl, hstop⟩⟩

section Rewinds

variable {faulty : Prop} (hmem : mem.Stable q)
  (hstops : ∀ n failure, mem.stops n = some failure → faulty)
include hmem hstops

theorem moveBehind_spec {it : MemTableIter} (hit : it.mem = mem) (bound : Option InternalKey) :
    ∃ it', it.moveBehind q bound = some it' ∧ it'.mem = mem ∧
      ((it'.cur = ((mem.rows q).filter (behind bound)).head? ∧ it'.status = it.status) ∨
        (it'.cur = none ∧ it'.status ≠ .ok ∧ faulty)) := by
  subst hit
  obtain ⟨moves, out, hloop, hout⟩ := findNextValidEntry_spec (n := it.moves) hmem
    (show it.mem.size < it.mem.size + 1 + it.mem.upTo it.moves bound by omega)
  rw [moveBehind, hloop]
  rcases hout with rfl | ⟨failure, k, rfl, hstop⟩
  · exact ⟨_, rfl, rfl, Or.inl ⟨rfl, rfl⟩⟩
  · exact ⟨_, rfl, rfl, Or.inr ⟨rfl, failure.2, hstops k failure hstop⟩⟩

/-- From the row it stands on, the iterator goes through the rows behind it. -/
theorem serves (track : Bool) {rest : List Entry} {it : MemTableIter} (hit : it.mem = mem)
    (hok : it.status = .ok) {bound : Option InternalKey}
    (hrest : (mem.rows q).filter (behind bound) = rest) (hcur : it.cur = rest.head?) :
    (iter q).Serves track (fun it => it.mem = mem ∧ it.status = .ok) faulty it (rest.map row) := by
  induction rest generalizing it bound with
  | nil => exact .done ⟨hit, hok⟩ (head_iter q hcur) hok
  | cons e rest ih =>
      obtain ⟨it', hmove, hit', hcase⟩ := moveBehind_spec hmem hstops hit (some e.key)
      have hnext : (iter q).next it = some it' := by
        show next q it = _
        rw [next, hcur]
        exact hmove
      refine .more ⟨hit, hok⟩ (head_iter q hcur) (SourceRow.toMergeRow_shows track _) hok hnext ?_
      have hbehind := filter_behind (mem.rows_sorted q) hrest
      rcases hcase with ⟨hcur', hstatus⟩ | ⟨hcur', hstatus, hfaulty⟩
      · exact ih hit' (hstatus.trans hok) hbehind (hbehind ▸ hcur')
      · exact .failed (head_iter q hcur') hstatus hfaulty

theorem iter_rewinds (track : Bool) : (iter q).Rewinds track
    (fun it => it.mem = mem ∧ it.status = .ok) faulty ((mem.rows q).map row) := by
  rintro it ⟨hit, hok⟩
  obtain ⟨it', hmove, hit', hcase⟩ := moveBehind_spec hmem hstops hit none
  have hall : (mem.rows q).filter (behind none) = mem.rows q :=
    List.filter_eq_self.2 fun _ _ => rfl
  refine ⟨it', hmove, ?_⟩
  rcases hcase with ⟨hcur, hstatus⟩ | ⟨hcur, hstatus, hfaulty⟩
  · exact serves hmem hstops track hit' (hstatus.trans hok) hall (hall ▸ hcur)
  · exact .failed (head_iter q hcur) hstatus hfaulty

end Rewinds

end MemTableIter

end BitLSM
