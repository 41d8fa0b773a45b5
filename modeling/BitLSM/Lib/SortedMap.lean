import Mathlib.Data.List.Sort

/-!
Maps as lists of bindings in ascending order of keys.

A binding is in a map if its key is bound to its value. Two maps with the
same bindings are the same list, so that maps can be compared as a whole.
-/

namespace SortedMap

variable {κ ν : Type*} [LinearOrder κ]

def Sorted (l : List (κ × ν)) : Prop := (l.map Prod.fst).Pairwise (· < ·)

/-- Bind `k` to `v`, in the place of what it was bound to. -/
def insert (k : κ) (v : ν) : List (κ × ν) → List (κ × ν)
  | [] => [(k, v)]
  | (k', v') :: rest =>
      if k < k' then (k, v) :: (k', v') :: rest
      else if k = k' then (k, v) :: rest
      else (k', v') :: insert k v rest

def erase (k : κ) (l : List (κ × ν)) : List (κ × ν) := l.filter fun x => x.1 ≠ k

/-- Bind `k` to `v` unless it is bound. -/
def emplace (k : κ) (v : ν) (l : List (κ × ν)) : List (κ × ν) :=
  if k ∈ l.map Prod.fst then l else insert k v l

section

variable {l l' : List (κ × ν)} {k a : κ} {v b : ν}

theorem Sorted.cons_iff {rest : List (κ × ν)} :
    Sorted ((k, v) :: rest) ↔ (∀ x ∈ rest, k < x.1) ∧ Sorted rest := by
  rw [Sorted, List.map_cons, List.pairwise_cons, List.forall_mem_map]
  rfl

theorem mem_insert (hl : Sorted l) :
    (a, b) ∈ insert k v l ↔ (a = k ∧ b = v) ∨ (a ≠ k ∧ (a, b) ∈ l) := by
  induction l with
  | nil => simp [insert]
  | cons x rest ih =>
      obtain ⟨k', v'⟩ := x
      obtain ⟨hfirst, hrest⟩ := Sorted.cons_iff.1 hl
      rw [insert]
      split
      · next hlt =>
          have hne : (a, b) ∈ (k', v') :: rest → a ≠ k := by
            rintro hmem rfl
            rcases List.mem_cons.1 hmem with heq | hmem
            · exact hlt.ne (Prod.mk.inj heq).1
            · exact lt_asymm hlt (hfirst _ hmem)
          rw [List.mem_cons, Prod.mk.injEq]
          exact or_congr_right ⟨fun h => ⟨hne h, h⟩, And.right⟩
      next hge =>
      split
      · next heq =>
          subst heq
          have hne : (a, b) ∈ rest → a ≠ k := by
            rintro hmem rfl
            exact lt_irrefl _ (hfirst _ hmem)
          simp only [List.mem_cons, Prod.mk.injEq]
          refine or_congr_right ⟨fun h => ⟨hne h, Or.inr h⟩, ?_⟩
          rintro ⟨hak, ⟨rfl, -⟩ | h⟩
          · exact absurd rfl hak
          · exact h
      · next hne =>
          rw [List.mem_cons, ih hrest, List.mem_cons, Prod.mk.injEq]
          constructor
          · rintro (⟨rfl, rfl⟩ | h | ⟨hak, h⟩)
            · exact Or.inr ⟨Ne.symm hne, Or.inl ⟨rfl, rfl⟩⟩
            · exact Or.inl h
            · exact Or.inr ⟨hak, Or.inr h⟩
          · rintro (h | ⟨hak, h | h⟩)
            · exact Or.inr (Or.inl h)
            · exact Or.inl h
            · exact Or.inr (Or.inr ⟨hak, h⟩)

theorem Sorted.insert (hl : Sorted l) (k : κ) (v : ν) : Sorted (insert k v l) := by
  induction l with
  | nil => exact List.pairwise_singleton _ _
  | cons x rest ih =>
      obtain ⟨k', v'⟩ := x
      obtain ⟨hfirst, hrest⟩ := Sorted.cons_iff.1 hl
      rw [SortedMap.insert]
      split
      · next hlt =>
          refine Sorted.cons_iff.2 ⟨List.forall_mem_cons.2 ⟨hlt, fun x hx => ?_⟩, hl⟩
          exact hlt.trans (hfirst x hx)
      next hge =>
      split
      · next heq => exact Sorted.cons_iff.2 ⟨heq ▸ hfirst, hrest⟩
      · next hne =>
          refine Sorted.cons_iff.2 ⟨fun x hx => ?_, ih hrest⟩
          obtain ⟨a, b⟩ := x
          rcases (mem_insert hrest).1 hx with ⟨rfl, -⟩ | ⟨-, hx⟩
          · exact lt_of_le_of_ne (not_lt.1 hge) (Ne.symm hne)
          · exact hfirst _ hx

theorem mem_erase : (a, b) ∈ erase k l ↔ a ≠ k ∧ (a, b) ∈ l := by
  rw [erase, List.mem_filter, decide_eq_true_eq, and_comm]

theorem Sorted.filter (hl : Sorted l) (p : κ × ν → Bool) : Sorted (l.filter p) :=
  hl.sublist (List.filter_sublist.map _)

theorem Sorted.erase (hl : Sorted l) (k : κ) : Sorted (erase k l) := hl.filter _

/-- Maps with the same bindings are the same. -/
theorem Sorted.ext (hl : Sorted l) (hl' : Sorted l') (h : ∀ x, x ∈ l ↔ x ∈ l') : l = l' := by
  have hpairs {l : List (κ × ν)} (hl : Sorted l) : l.Pairwise fun x y => x.1 < y.1 :=
    List.pairwise_map.1 hl
  have hnodup {l : List (κ × ν)} (hl : Sorted l) : l.Nodup :=
    (hpairs hl).imp fun hlt heq => hlt.ne (congrArg Prod.fst heq)
  refine List.Perm.eq_of_pairwise (fun x y _ _ hxy hyx => absurd hxy (lt_asymm hyx)) (hpairs hl)
    (hpairs hl') ?_
  exact (List.perm_ext_iff_of_nodup (hnodup hl) (hnodup hl')).2 h

theorem insert_of_lt (h : ∀ x ∈ l, x.1 < k) : insert k v l = l ++ [(k, v)] := by
  induction l with
  | nil => rfl
  | cons x rest ih =>
      obtain ⟨hlt, hrest⟩ := List.forall_mem_cons.1 h
      rw [insert, if_neg (lt_asymm hlt), if_neg hlt.ne', ih hrest, List.cons_append]

/-- Bindings that come in ascending order are taken over as they are. -/
theorem foldl_emplace (hl : Sorted (l ++ l')) :
    l'.foldl (fun out x => emplace x.1 x.2 out) l = l ++ l' := by
  induction l' generalizing l with
  | nil => simp
  | cons x rest ih =>
      have hlt : ∀ y ∈ l, y.1 < x.1 := by
        rw [Sorted, List.map_append, List.pairwise_append] at hl
        exact fun y hy => hl.2.2 _ (List.mem_map_of_mem hy) _ List.mem_cons_self
      have hnew : x.1 ∉ l.map Prod.fst := by
        intro hmem
        obtain ⟨y, hy, heq⟩ := List.mem_map.1 hmem
        exact (hlt y hy).ne heq
      have hsplit : l ++ x :: rest = l ++ [x] ++ rest := by simp
      rw [List.foldl_cons, emplace, if_neg hnew, insert_of_lt hlt, hsplit]
      exact ih (hsplit ▸ hl)

end

end SortedMap
