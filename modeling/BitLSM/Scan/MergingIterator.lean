import BitLSM.Lib.SortedMerge
import BitLSM.Scan.Candidates
import BitLSM.Scan.LsmState

/-!
The merge of the children of a scan.

The iterator keeps the children that stand on a row in a heap and hands out
the row of the top one. A child that stops on an error stops the merge, and
the merge never starts again after that. What comes out is the sorted merge
of what the children deliver.
-/

namespace BitLSM

/-- How the heap chooses among the keys of its elements: one that no other
precedes. Which of several equal ones is not specified. -/
structure HeapTop where
  top : List InternalKey → ℕ
  top_lt : ∀ keys, keys ≠ [] → top keys < keys.length
  top_le : ∀ keys, ∀ least ∈ keys[top keys]?, ∀ key ∈ keys, least ≤ key

theorem exists_least {keys : List InternalKey} (hne : keys ≠ []) :
    ∃ least ∈ keys, ∀ key ∈ keys, least ≤ key := by
  induction keys with
  | nil => exact absurd rfl hne
  | cons a rest ih =>
      by_cases hrest : rest = []
      · exact ⟨a, List.mem_cons_self, by simp [hrest]⟩
      · obtain ⟨least, hmem, hle⟩ := ih hrest
        rcases le_total a least with h | h
        · exact ⟨a, List.mem_cons_self,
            List.forall_mem_cons.2 ⟨le_rfl, fun key hkey => h.trans (hle key hkey)⟩⟩
        · exact ⟨least, List.mem_cons_of_mem _ hmem, List.forall_mem_cons.2 ⟨h, hle⟩⟩

/-- The first of the smallest keys. -/
def HeapTop.first : HeapTop where
  top keys := keys.findIdx fun least => keys.all fun key => decide (least ≤ key)
  top_lt keys hne := by
    obtain ⟨least, hmem, hle⟩ := exists_least hne
    exact List.findIdx_lt_length_of_exists ⟨least, hmem, by simpa using hle⟩
  top_le keys least hleast key hkey := by
    obtain ⟨hlt, rfl⟩ := List.getElem?_eq_some_iff.1 (Option.mem_def.1 hleast)
    have hall := @List.findIdx_getElem _ (fun least => keys.all fun key => decide (least ≤ key))
      keys hlt
    rw [List.all_eq_true] at hall
    exact of_decide_eq_true (hall key hkey)

structure MergingIter (τ : Type) where
  children : List τ
  /-- The positions of the children in the heap. -/
  heap : List ℕ := []
  status : Status := .ok

namespace MergingIter

variable {τ : Type} (heapTop : HeapTop) (c : MergeIter τ)

/-- The key of a child's current row. -/
def keyOf (child : τ) : Option InternalKey :=
  (c.head child).bind fun row => row.entry.map Entry.key

/-- The keys the heap compares. -/
def keys (it : MergingIter τ) : Option (List InternalKey) :=
  it.heap.mapM fun i => it.children[i]?.bind (keyOf c)

/-- The child on top of the heap, with its position. -/
def topChild (it : MergingIter τ) : Option (ℕ × τ) :=
  (it.keys c).bind fun keys =>
    it.heap[heapTop.top keys]?.bind fun i => it.children[i]?.map fun child => (i, child)

/-- The child at `i` was moved on: it goes back into the heap while it is
valid, and stops the merge if it failed. -/
def putBack (it : MergingIter τ) (i : ℕ) (child : τ) : MergingIter τ :=
  let children := it.children.set i child
  let heap := it.heap.erase i
  if (c.head child).isSome then { it with children, heap := heap ++ [i] }
  else if c.status child ≠ .ok then ⟨children, [], c.status child⟩
  else { it with children, heap }

def next (it : MergingIter τ) : Option (MergingIter τ) :=
  (it.topChild heapTop c).bind fun (i, child) => (c.next child).map (it.putBack c i)

/-- Put the children back one after another, from position `i` on, up to the
first that fails. -/
def seekChildren : ℕ → List τ → Option (List τ × List ℕ × Status)
  | _, [] => some ([], [], .ok)
  | i, child :: rest =>
      (c.seekToFirst child).bind fun child' =>
        if (c.head child').isSome then
          (seekChildren (i + 1) rest).map fun (children, heap, status) =>
            (child' :: children, i :: heap, status)
        else if c.status child' ≠ .ok then some (child' :: rest, [], c.status child')
        else (seekChildren (i + 1) rest).map fun (children, out) => (child' :: children, out)

def seekToFirst (it : MergingIter τ) : Option (MergingIter τ) :=
  if it.status ≠ .ok then some { it with heap := [] }
  else
    (seekChildren c 0 it.children).map fun (children, heap, status) =>
      ⟨children, if status = .ok then heap else [], status⟩

def iter : MergeIter (MergingIter τ) where
  head it := (it.topChild heapTop c).bind fun (_, child) => c.head child
  next := next heapTop c
  seekToFirst := seekToFirst c
  status := status

/-! ### Failures stay -/

theorem head_of_heap_nil {it : MergingIter τ} (h : it.heap = []) :
    (iter heapTop c).head it = none := by
  show (it.topChild heapTop c).bind _ = none
  rw [topChild, keys, h]
  rfl

theorem iter_sticky : (iter heapTop c).Sticky := by
  intro it hstatus
  refine ⟨{ it with heap := [] }, ?_, head_of_heap_nil heapTop c rfl, rfl⟩
  exact if_pos hstatus

/-! ### What the merge delivers -/

theorem getD_set_self {α : Type} {l : List α} {i : ℕ} {x d : α} (h : i < l.length) :
    (l.set i x).getD i d = x := by
  rw [List.getD_eq_getElem?_getD, List.getElem?_set_self h]
  rfl

theorem getD_set_ne {α : Type} {l : List α} {i j : ℕ} {x d : α} (h : i ≠ j) :
    (l.set i x).getD j d = l.getD j d := by
  rw [List.getD_eq_getElem?_getD, List.getElem?_set_ne h, List.getD_eq_getElem?_getD]

/-- The key of the first row. -/
def firstKey (rows : List SourceRow) : InternalKey :=
  match rows with
  | [] => ⟨[], 0⟩
  | r :: _ => r.entry.key

/-- In the middle of a merge: child `i` has `lists[i]` left, out of `full[i]`,
and the children with something left are in the heap. -/
structure At (track : Bool) (inv : List SourceRow → τ → Prop) (faulty : Prop)
    (full lists : List (List SourceRow)) (it : MergingIter τ) : Prop where
  ok : it.status = .ok
  full_length : full.length = it.children.length
  lists_length : lists.length = it.children.length
  child_ok : ∀ (i : ℕ) child, it.children[i]? = some child → c.status child = .ok
  serves : ∀ (i : ℕ) child, it.children[i]? = some child →
    c.Serves track (inv (full.getD i [])) faulty child (lists.getD i [])
  nodup : it.heap.Nodup
  mem_heap : ∀ i, i ∈ it.heap ↔ lists.getD i [] ≠ []

variable {heapTop c} {track : Bool} {inv : List SourceRow → τ → Prop} {faulty : Prop}
  {full lists : List (List SourceRow)} {it : MergingIter τ}

theorem At.exists_child (h : At c track inv faulty full lists it) {i : ℕ} (hi : i ∈ it.heap) :
    ∃ child row r rest child', it.children[i]? = some child ∧ lists[i]? = some (r :: rest) ∧
      c.head child = some row ∧ row.Shows track r ∧ c.next child = some child' ∧
      c.Serves track (inv (full.getD i [])) faulty child' rest := by
  have hne := (h.mem_heap i).1 hi
  have hlt : i < lists.length := by
    by_contra hge
    rw [List.getD_eq_default _ _ (not_lt.1 hge)] at hne
    exact hne rfl
  have hlt' : i < it.children.length := h.lists_length ▸ hlt
  have hchild : it.children[i]? = some it.children[i] := List.getElem?_eq_getElem hlt'
  have hlist : lists[i]? = some (lists.getD i []) := by
    rw [List.getD_eq_getElem?_getD, List.getElem?_eq_getElem hlt]
    rfl
  have hok := h.child_ok i _ hchild
  have hserves := h.serves i _ hchild
  rcases hserves.cases_head with ⟨-, -, hnil⟩ | ⟨-, hfailed, -⟩ |
    ⟨row, r, rest, child', hhead, hshows, -, hnext, hcons, hrest⟩
  · exact absurd hnil hne
  · exact absurd hok hfailed
  · exact ⟨_, row, r, rest, child', hchild, hcons ▸ hlist, hhead, hshows, hnext, hrest⟩

theorem At.keys_eq (h : At c track inv faulty full lists it) :
    it.keys c = some (it.heap.map fun i => firstKey (lists.getD i [])) := by
  refine Wire.mapM_eq_some_map fun i hi => ?_
  obtain ⟨child, row, r, rest, -, hchild, hlist, hhead, hshows, -⟩ := h.exists_child hi
  rw [hchild, List.getD_eq_getElem?_getD, hlist, Option.bind_some, keyOf, hhead, Option.bind_some,
    hshows.entry]
  rfl

/-- A child on top of the heap has the smallest first row of all. -/
theorem At.exists_top (h : At c track inv faulty full lists it) (hne : it.heap ≠ []) :
    ∃ i child row r rest child', it.topChild heapTop c = some (i, child) ∧ i ∈ it.heap ∧
      it.children[i]? = some child ∧ lists[i]? = some (r :: rest) ∧
      (∀ l ∈ lists, ∀ x ∈ l.head?, r.entry.key ≤ x.entry.key) ∧ c.head child = some row ∧
      row.Shows track r ∧ c.next child = some child' ∧
      c.Serves track (inv (full.getD i [])) faulty child' rest := by
  set keys := it.heap.map fun i => firstKey (lists.getD i []) with hkeys
  have hlt : heapTop.top keys < it.heap.length := by
    have := heapTop.top_lt keys (by rwa [hkeys, ne_eq, List.map_eq_nil_iff])
    rwa [hkeys, List.length_map] at this
  have hmem : it.heap[heapTop.top keys] ∈ it.heap := List.getElem_mem hlt
  have hget := List.getElem?_eq_getElem hlt
  generalize it.heap[heapTop.top keys] = i at hmem hget
  obtain ⟨child, row, r, rest, child', hchild, hlist, hhead, hshows, hnext, hserves⟩ :=
    h.exists_child hmem
  refine ⟨i, child, row, r, rest, child', ?_, hmem, hchild, hlist, fun l hl x hx => ?_, hhead,
    hshows, hnext, hserves⟩
  · rw [topChild, h.keys_eq, Option.bind_some, hget, Option.bind_some, hchild]
    rfl
  · obtain ⟨j, hj⟩ := List.mem_iff_getElem?.1 hl
    obtain _ | ⟨y, l⟩ := l
    · cases hx
    obtain rfl : y = x := Option.some.inj hx
    have hjheap : j ∈ it.heap := (h.mem_heap j).2 (by
      rw [List.getD_eq_getElem?_getD, hj]
      exact List.cons_ne_nil _ _)
    have hleast : firstKey (lists.getD i []) ∈ keys[heapTop.top keys]? := by
      rw [hkeys, List.getElem?_map, ← hkeys, hget]
      rfl
    have hle := heapTop.top_le keys _ hleast _ (List.mem_map_of_mem hjheap)
    rwa [List.getD_eq_getElem?_getD, hlist, List.getD_eq_getElem?_getD, hj] at hle

/-- A child that was moved on, in the position it had. -/
theorem At.set (h : At c track inv faulty full lists it) {i : ℕ} {child' : τ}
    {rest : List SourceRow} (hi : i < it.children.length) (hok : c.status child' = .ok)
    (hserves : c.Serves track (inv (full.getD i [])) faulty child' rest) {heap : List ℕ}
    (hnodup : heap.Nodup) (hheap : ∀ j, j ∈ heap ↔ if j = i then rest ≠ [] else j ∈ it.heap) :
    At c track inv faulty full (lists.set i rest)
      { it with children := it.children.set i child', heap } where
  ok := h.ok
  full_length := by rw [List.length_set, h.full_length]
  lists_length := by rw [List.length_set, List.length_set, h.lists_length]
  child_ok j child hj := by
    rcases eq_or_ne i j with rfl | hne
    · rw [List.getElem?_set_self hi] at hj
      exact Option.some.inj hj ▸ hok
    · rw [List.getElem?_set_ne hne] at hj
      exact h.child_ok j child hj
  serves j child hj := by
    rcases eq_or_ne i j with rfl | hne
    · rw [List.getElem?_set_self hi] at hj
      rw [getD_set_self (h.lists_length ▸ hi)]
      exact Option.some.inj hj ▸ hserves
    · rw [List.getElem?_set_ne hne] at hj
      rw [getD_set_ne hne]
      exact h.serves j child hj
  nodup := hnodup
  mem_heap j := by
    rw [hheap j]
    rcases eq_or_ne i j with rfl | hne
    · rw [if_pos rfl, getD_set_self (h.lists_length ▸ hi)]
    · rw [if_neg hne.symm, getD_set_ne hne]
      exact h.mem_heap j

/-- The moved child has `rest` left, or it failed. -/
theorem At.putBack (h : At c track inv faulty full lists it) {i : ℕ}
    (hi : i < it.children.length) {child : τ} {rest : List SourceRow}
    (hserves : c.Serves track (inv (full.getD i [])) faulty child rest) :
    At c track inv faulty full (lists.set i rest) (it.putBack c i child) ∨
      ((it.putBack c i child).heap = [] ∧ (it.putBack c i child).status ≠ .ok ∧ faulty) := by
  have herase (j : ℕ) : j ∈ it.heap.erase i ↔ j ≠ i ∧ j ∈ it.heap := h.nodup.mem_erase_iff
  rw [MergingIter.putBack]
  rcases hserves.cases_head with ⟨hhead, hok, rfl⟩ | ⟨hhead, hfailed, hfaulty⟩ |
    ⟨row, r, rest', -, hhead, -, hok, -, rfl, -⟩
  · left
    simp only [hhead, hok, Option.isSome_none, Bool.false_eq_true, if_false, ne_eq,
      not_true_eq_false]
    refine h.set hi hok hserves (h.nodup.erase i) fun j => ?_
    rw [herase]
    by_cases hji : j = i <;> simp [hji]
  · right
    simp only [hhead, Option.isSome_none, Bool.false_eq_true, if_false, if_pos hfailed]
    exact ⟨trivial, hfailed, hfaulty⟩
  · left
    simp only [hhead, Option.isSome_some, if_true]
    refine h.set hi hok hserves ?_ fun j => ?_
    · refine (h.nodup.erase i).append (List.nodup_singleton i) ?_
      rw [List.disjoint_singleton, herase]
      exact fun hself => hself.1 rfl
    · rw [List.mem_append, List.mem_singleton, herase]
      by_cases hji : j = i <;> simp [hji]

/-- One move of the merge: the top child hands out the smallest row, and is
moved on. -/
theorem At.step (h : At c track inv faulty full lists it) (hne : it.heap ≠ []) :
    ∃ i row r rest it', (iter heapTop c).head it = some row ∧ row.Shows track r ∧
      lists[i]? = some (r :: rest) ∧ (∀ l ∈ lists, ∀ x ∈ l.head?, r.entry.key ≤ x.entry.key) ∧
      (iter heapTop c).next it = some it' ∧
      (At c track inv faulty full (lists.set i rest) it' ∨
        (it'.heap = [] ∧ it'.status ≠ .ok ∧ faulty)) := by
  obtain ⟨i, child, row, r, rest, child', htop, hmem, hchild, hlist, hleast, hhead, hshows, hnext,
    hserves⟩ := @At.exists_top τ heapTop _ _ _ _ _ _ _ h hne
  refine ⟨i, row, r, rest, it.putBack c i child', ?_, hshows, hlist, hleast, ?_,
    h.putBack (List.getElem?_eq_some_iff.1 hchild).1 hserves⟩
  · show (it.topChild heapTop c).bind _ = _
    rw [htop]
    exact hhead
  · show next heapTop c it = _
    rw [next, htop]
    exact congrArg (Option.map _) hnext

/-- The rest of the merge is the sorted merge of what is left. -/
theorem At.serves_merged (h : At c track inv faulty full lists it) {minv : MergingIter τ → Prop}
    (hminv : ∀ lists it, At c track inv faulty full lists it → minv it) {out : List SourceRow}
    (hout : SortedMerge.Merges (fun r : SourceRow => r.entry.key) lists out) :
    (iter heapTop c).Serves track minv faulty it out := by
  induction out generalizing lists it with
  | nil =>
      by_cases hne : it.heap = []
      · exact .done (hminv _ _ h) (head_of_heap_nil heapTop c hne) h.ok
      · obtain ⟨i, row, r, rest, -, -, -, hlist, hleast, -⟩ :=
          @At.step τ heapTop _ _ _ _ _ _ _ h hne
        obtain ⟨rest', hcons, -⟩ := hout.cons hlist hleast
        cases hcons
  | cons r out ih =>
      have hne : it.heap ≠ [] := by
        intro hempty
        have hall : ∀ l ∈ lists, l = [] := by
          intro l hl
          obtain ⟨j, hj⟩ := List.mem_iff_getElem?.1 hl
          by_contra hl'
          have : j ∈ it.heap := (h.mem_heap j).2 (by
            rw [List.getD_eq_getElem?_getD, hj]
            exact hl')
          rw [hempty] at this
          cases this
        cases hout.nil hall
      obtain ⟨i, row, r', rest, it', hhead, hshows, hlist, hleast, hnext, hcase⟩ :=
        @At.step τ heapTop _ _ _ _ _ _ _ h hne
      obtain ⟨out', hcons, hout'⟩ := hout.cons hlist hleast
      obtain ⟨rfl, rfl⟩ := List.cons.inj hcons
      refine .more (hminv _ _ h) hhead hshows h.ok hnext ?_
      rcases hcase with hat | ⟨hempty, hfailed, hfaulty⟩
      · exact ih hat hout'
      · exact .failed (head_of_heap_nil heapTop c hempty) hfailed hfaulty

/-- The children are put back, or one of them fails. -/
theorem seekChildren_spec (hchild : ∀ rows, c.Rewinds track (inv rows) faulty rows)
    {children : List τ} {full : List (List SourceRow)}
    (hinv : List.Forall₂ (fun rows child => inv rows child) full children) (i : ℕ) :
    ∃ children' heap status, seekChildren c i children = some (children', heap, status) ∧
      ((status ≠ .ok ∧ faulty) ∨
        (status = .ok ∧ List.Forall₂ (fun rows child => c.status child = .ok ∧
          c.Serves track (inv rows) faulty child rows) full children' ∧
          heap.Pairwise (· < ·) ∧
          ∀ j, j ∈ heap ↔ i ≤ j ∧ full.getD (j - i) [] ≠ [])) := by
  induction hinv generalizing i with
  | nil => exact ⟨[], [], .ok, rfl, Or.inr ⟨rfl, .nil, .nil, by simp⟩⟩
  | @cons rows child full children hrows _ ih =>
      obtain ⟨child', hseek, hserves⟩ := hchild rows child hrows
      obtain ⟨children', heap, status, hrest, hcase⟩ := ih (i + 1)
      rw [seekChildren, hseek, Option.bind_some, hrest]
      have hmem (j : ℕ) (hj : i + 1 ≤ j) :
          (rows :: full).getD (j - i) [] = full.getD (j - (i + 1)) [] := by
        rw [show j - i = (j - (i + 1)) + 1 by omega, List.getD_cons_succ]
      rcases hserves.cases_head with ⟨hhead, hok, hnil⟩ | ⟨hhead, hfailed, hfaulty⟩ |
        ⟨row, r, rest, -, hhead, -, hok, -, hcons, -⟩
      · -- exhausted at once
        simp only [hhead, hok, Option.isSome_none, Bool.false_eq_true, if_false, ne_eq,
          not_true_eq_false, Option.map_some]
        refine ⟨_, _, _, rfl, hcase.imp_right ?_⟩
        rintro ⟨hstatus, hall, hsorted, hheap⟩
        refine ⟨hstatus, .cons ⟨hok, hserves⟩ hall, hsorted, fun j => ?_⟩
        rw [hheap]
        constructor
        · rintro ⟨hj, hne⟩
          exact ⟨by omega, (hmem j hj).symm ▸ hne⟩
        · rintro ⟨hj, hne⟩
          rcases hj.eq_or_lt with rfl | hlt
          · simp [hnil] at hne
          · exact ⟨hlt, hmem j hlt ▸ hne⟩
      · simp only [hhead, Option.isSome_none, Bool.false_eq_true, if_false, if_pos hfailed]
        exact ⟨_, _, _, rfl, Or.inl ⟨hfailed, hfaulty⟩⟩
      · simp only [hhead, Option.isSome_some, if_true, Option.map_some]
        refine ⟨_, _, _, rfl, hcase.imp_right ?_⟩
        rintro ⟨hstatus, hall, hsorted, hheap⟩
        refine ⟨hstatus, .cons ⟨hok, hserves⟩ hall, ?_, fun j => ?_⟩
        · exact List.pairwise_cons.2 ⟨fun j hj => ((hheap j).1 hj).1, hsorted⟩
        · rw [List.mem_cons, hheap]
          constructor
          · rintro (rfl | ⟨hj, hne⟩)
            · exact ⟨le_rfl, by simp [hcons]⟩
            · exact ⟨by omega, (hmem j hj).symm ▸ hne⟩
          · rintro ⟨hj, hne⟩
            rcases hj.eq_or_lt with rfl | hlt
            · exact Or.inl rfl
            · exact Or.inr ⟨hlt, hmem j hlt ▸ hne⟩

/-- The state the merge can be put back from: it has failed, or its children can
be put back. -/
def Ready (inv : List SourceRow → τ → Prop) (faulty : Prop) (full : List (List SourceRow))
    (it : MergingIter τ) : Prop :=
  (it.status ≠ .ok ∧ faulty) ∨
    (it.status = .ok ∧ List.Forall₂ (fun rows child => inv rows child) full it.children)

theorem At.ready (h : At c track inv faulty full lists it) : Ready inv faulty full it := by
  refine Or.inr ⟨h.ok, List.forall₂_iff_get.2 ⟨h.full_length, fun i hi hi' => ?_⟩⟩
  have hget := List.getElem?_eq_getElem hi'
  have hinv := (h.serves i _ hget).inv_of_ok (h.child_ok i _ hget)
  rwa [List.getD_eq_getElem?_getD, List.getElem?_eq_getElem hi] at hinv

/-- The merging iterator as a whole. -/
theorem iter_rewinds (hchild : ∀ rows, c.Rewinds track (inv rows) faulty rows)
    {out : List SourceRow}
    (hout : SortedMerge.Merges (fun r : SourceRow => r.entry.key) full out) :
    (iter heapTop c).Rewinds track (Ready inv faulty full) faulty out := by
  rintro it (⟨hfailed, hfaulty⟩ | ⟨hok, hinv⟩)
  · obtain ⟨it', hseek, hhead, hstatus⟩ := iter_sticky heapTop c it hfailed
    exact ⟨it', hseek, .failed hhead (hstatus ▸ hfailed) hfaulty⟩
  obtain ⟨children', heap, status, hseek, hcase⟩ := seekChildren_spec hchild hinv 0
  have hseek' : (iter heapTop c).seekToFirst it =
      some ⟨children', if status = .ok then heap else [], status⟩ := by
    show seekToFirst c it = _
    rw [seekToFirst, if_neg (not_not.2 hok), hseek]
    rfl
  refine ⟨_, hseek', ?_⟩
  rcases hcase with ⟨hfailed, hfaulty⟩ | ⟨rfl, hall, hsorted, hheap⟩
  · exact .failed (head_of_heap_nil heapTop c (if_neg hfailed)) hfailed hfaulty
  · have hlen := hall.length_eq
    have hget (i : ℕ) (child : τ) (h : children'[i]? = some child) :
        c.status child = .ok ∧ c.Serves track (inv (full.getD i [])) faulty child
          (full.getD i []) := by
      obtain ⟨hi, rfl⟩ := List.getElem?_eq_some_iff.1 h
      rw [List.getD_eq_getElem?_getD, List.getElem?_eq_getElem (hlen ▸ hi)]
      exact hall.get (hlen ▸ hi) hi
    have hat : At c track inv faulty full full (⟨children', heap, .ok⟩ : MergingIter τ) :=
      ⟨rfl, hlen, hlen, fun i child h => (hget i child h).1, fun i child h => (hget i child h).2,
        hsorted.imp ne_of_lt, fun j => by simpa using hheap j⟩
    exact hat.serves_merged (fun _ _ => At.ready) hout

end MergingIter

end BitLSM
