import Mathlib.Data.List.Perm.Basic
import Mathlib.Order.Lattice

/-!
Merging sorted lists.

A merge takes the smallest of the first elements again and again. What is
still to come out is the sorted arrangement of what the lists still hold,
and taking a smallest first element takes its first one.
-/

namespace SortedMerge

variable {α K : Type*} [LinearOrder K] {key : α → K}

/-- `out` is the elements of the lists in ascending order. -/
structure Merges (key : α → K) (lists : List (List α)) (out : List α) : Prop where
  perm : out.Perm lists.flatten
  sorted : out.Pairwise fun a b => key a < key b
  lists_sorted : ∀ l ∈ lists, l.Pairwise fun a b => key a < key b

theorem flatten_perm_cons {lists : List (List α)} {i : ℕ} {x : α} {l : List α}
    (h : lists[i]? = some (x :: l)) : lists.flatten.Perm (x :: (lists.set i l).flatten) := by
  induction lists generalizing i with
  | nil => simp at h
  | cons first rest ih =>
      cases i with
      | zero =>
          obtain rfl : first = x :: l := Option.some.inj h
          exact List.Perm.refl _
      | succ i =>
          rw [List.set_cons_succ, List.flatten_cons, List.flatten_cons]
          exact ((ih h).append_left first).trans List.perm_middle

theorem Merges.nil {lists : List (List α)} {out : List α} (h : Merges key lists out)
    (hempty : ∀ l ∈ lists, l = []) : out = [] := by
  have hflat : lists.flatten = [] := List.flatten_eq_nil_iff.2 hempty
  exact (hflat ▸ h.perm).eq_nil

/-- The smallest first element is the next one out. -/
theorem Merges.cons {lists : List (List α)} {out : List α} (h : Merges key lists out) {i : ℕ}
    {x : α} {l : List α} (hi : lists[i]? = some (x :: l))
    (hmin : ∀ l' ∈ lists, ∀ y ∈ l'.head?, key x ≤ key y) :
    ∃ rest, out = x :: rest ∧ Merges key (lists.set i l) rest := by
  have hperm := flatten_perm_cons hi
  obtain _ | ⟨y, rest⟩ := out
  · exact absurd (h.perm.symm.eq_nil ▸ hperm).symm (List.cons_ne_nil _ _ ∘ List.Perm.eq_nil)
  have hy : key x ≤ key y := by
    obtain ⟨l', hl', hmem⟩ := List.mem_flatten.1 (h.perm.subset List.mem_cons_self)
    obtain _ | ⟨z, l'⟩ := l'
    · cases hmem
    · have hz := hmin _ hl' z rfl
      rcases List.mem_cons.1 hmem with rfl | hmem
      · exact hz
      · exact hz.trans ((List.pairwise_cons.1 (h.lists_sorted _ hl')).1 y hmem).le
  obtain ⟨hfirst, hrest⟩ := List.pairwise_cons.1 h.sorted
  have hxmem : x ∈ y :: rest := h.perm.symm.subset (hperm.symm.subset List.mem_cons_self)
  obtain rfl : x = y := by
    rcases List.mem_cons.1 hxmem with heq | hmem
    · exact heq
    · exact absurd (hfirst x hmem) (not_lt.2 hy)
  refine ⟨rest, rfl, (h.perm.trans hperm).cons_inv, hrest, fun l' hl' => ?_⟩
  rcases List.mem_or_eq_of_mem_set hl' with hmem | rfl
  · exact h.lists_sorted l' hmem
  · exact (List.pairwise_cons.1 (h.lists_sorted _ (List.mem_of_getElem? hi))).2

/-- Sorted lists without a common key have a merge. -/
theorem exists_merges {lists : List (List α)}
    (hsorted : ∀ l ∈ lists, l.Pairwise fun a b => key a < key b)
    (hdistinct : lists.flatten.Pairwise fun a b => key a ≠ key b) :
    ∃ out, Merges key lists out := by
  have hperm := List.mergeSort_perm lists.flatten fun a b => decide (key a ≤ key b)
  have hle := @List.pairwise_mergeSort α (fun a b => decide (key a ≤ key b))
    (fun a b c hab hbc => decide_eq_true ((of_decide_eq_true hab).trans (of_decide_eq_true hbc)))
    (fun a b => by simpa using le_total (key a) (key b)) lists.flatten
  have hne := (hperm.pairwise_iff fun {a b} (h : key a ≠ key b) => h.symm).2 hdistinct
  refine ⟨_, hperm, (hle.and hne).imp fun {a b} h => ?_, hsorted⟩
  exact lt_of_le_of_ne (of_decide_eq_true h.1) h.2

end SortedMerge
