import Mathlib.Data.Nat.Find
import Mathlib.Order.Basic
import Mathlib.Tactic.Common

/-!
Runs of equal elements in a list.

`starts ks` are the positions where a run begins, and `cuts ks` adds the
length of a non-empty list, so that run `r` is the positions from `cuts[r]`
up to `cuts[r + 1]`. Every position is in a run, a run has one value, and in
a sorted list later runs have greater values.
-/

namespace Runs

variable {α : Type*}

/-- Positions in a strictly ascending list are ordered as their elements. -/
theorem index_lt {l : List ℕ} (hl : l.Pairwise (· < ·)) {i j a b : ℕ} (ha : l[i]? = some a)
    (hb : l[j]? = some b) (hab : a < b) : i < j := by
  obtain ⟨hi, rfl⟩ := List.getElem?_eq_some_iff.1 ha
  obtain ⟨hj, rfl⟩ := List.getElem?_eq_some_iff.1 hb
  by_contra hij
  rcases Nat.eq_or_lt_of_le (Nat.le_of_not_lt hij) with rfl | hji
  · omega
  · have := List.pairwise_iff_getElem.1 hl j i hj hi hji
    omega

section Cuts

variable [DecidableEq α]

/-- Positions where a run of equal elements begins. -/
def starts (ks : List α) : List ℕ :=
  (List.range ks.length).filter fun i => decide (i = 0) || decide (ks[i]? ≠ ks[i - 1]?)

def cuts (ks : List α) : List ℕ :=
  starts ks ++ if 0 < ks.length then [ks.length] else []

theorem mem_starts {ks : List α} {i : ℕ} :
    i ∈ starts ks ↔ i < ks.length ∧ (i = 0 ∨ ks[i]? ≠ ks[i - 1]?) := by
  simp [starts]

theorem starts_eq_nil {ks : List α} (h : ks.length = 0) : starts ks = [] := by
  simp [starts, h]

theorem pairwise_starts (ks : List α) : (starts ks).Pairwise (· < ·) :=
  List.Pairwise.filter _ List.pairwise_lt_range

theorem pairwise_cuts (ks : List α) : (cuts ks).Pairwise (· < ·) := by
  unfold cuts
  split
  · refine List.pairwise_append.2 ⟨pairwise_starts ks, List.pairwise_singleton _ _, ?_⟩
    intro i hi j hj
    rw [List.mem_singleton.1 hj]
    exact (mem_starts.1 hi).1
  · simpa using pairwise_starts ks

theorem getElem_cuts_zero {ks : List α} (h : 0 < ks.length) : (cuts ks)[0]? = some 0 := by
  obtain ⟨n, hn⟩ := Nat.exists_eq_succ_of_ne_zero h.ne'
  rw [cuts, starts, hn, List.range_succ_eq_map, List.filter_cons_of_pos (by simp),
    List.cons_append]
  rfl

theorem length_cuts {ks : List α} (h : 0 < ks.length) :
    (cuts ks).length = (starts ks).length + 1 := by
  simp [cuts, h]

theorem getElem_cuts_last {ks : List α} (h : 0 < ks.length) :
    (cuts ks)[(starts ks).length]? = some ks.length := by
  rw [cuts, if_pos h, List.getElem?_concat_length]

theorem getElem_cuts_of_lt {ks : List α} {r : ℕ} (h : r < (starts ks).length) :
    (cuts ks)[r]? = (starts ks)[r]? := by
  rw [cuts, List.getElem?_append_left h]

theorem le_length_of_mem_cuts {ks : List α} {i b : ℕ} (h : (cuts ks)[i]? = some b) :
    b ≤ ks.length := by
  have hmem := List.mem_of_getElem? h
  rw [cuts, List.mem_append] at hmem
  rcases hmem with hs | hl
  · exact (mem_starts.1 hs).1.le
  · split at hl
    · rw [List.mem_singleton.1 hl]
    · cases hl

/-- A map that keeps different elements apart keeps the runs. -/
theorem starts_map {β : Type*} [DecidableEq β] {ks : List α} {f : α → β}
    (hf : ∀ x ∈ ks, ∀ y ∈ ks, f x = f y → x = y) : starts (ks.map f) = starts ks := by
  unfold starts
  rw [List.length_map]
  refine List.filter_congr fun i hi => ?_
  have hi := List.mem_range.1 hi
  have hpred : i - 1 < ks.length := by omega
  rw [List.getElem?_map, List.getElem?_map, List.getElem?_eq_getElem hi,
    List.getElem?_eq_getElem hpred]
  congr 1
  simp only [Option.map_some, ne_eq, Option.some.injEq, decide_eq_decide]
  exact not_congr ⟨hf _ (List.getElem_mem hi) _ (List.getElem_mem hpred), congrArg f⟩

theorem cuts_map {β : Type*} [DecidableEq β] {ks : List α} {f : α → β}
    (hf : ∀ x ∈ ks, ∀ y ∈ ks, f x = f y → x = y) : cuts (ks.map f) = cuts ks := by
  rw [cuts, cuts, starts_map hf, List.length_map]

/-- Position `k` is in run `r`. -/
def InRun (ks : List α) (r k : ℕ) : Prop :=
  ∃ a b, (cuts ks)[r]? = some a ∧ (cuts ks)[r + 1]? = some b ∧ a ≤ k ∧ k < b

theorem exists_inRun {ks : List α} {k : ℕ} (hk : k < ks.length) :
    ∃ r < (starts ks).length, InRun ks r k := by
  classical
  have hpos : 0 < ks.length := by omega
  -- the first cut above `k`
  have hex : ∃ r, ∃ b, (cuts ks)[r]? = some b ∧ k < b :=
    ⟨_, _, getElem_cuts_last hpos, hk⟩
  obtain ⟨b, hb, hkb⟩ := Nat.find_spec hex
  have hne : Nat.find hex ≠ 0 := by
    intro h0
    rw [h0, getElem_cuts_zero hpos] at hb
    cases hb
    omega
  obtain ⟨r, hr⟩ := Nat.exists_eq_succ_of_ne_zero hne
  have hlt : Nat.find hex < (cuts ks).length := (List.getElem?_eq_some_iff.1 hb).1
  rw [length_cuts hpos] at hlt
  have hr' : r < (cuts ks).length := by
    rw [length_cuts hpos]
    omega
  have ha : (cuts ks)[r]? = some (cuts ks)[r] := List.getElem?_eq_getElem hr'
  refine ⟨r, by omega, _, b, ha, by rw [← hb, hr], ?_, hkb⟩
  by_contra hlt'
  exact Nat.find_min hex (show r < Nat.find hex by omega) ⟨_, ha, by omega⟩

/-- The runs are disjoint. -/
theorem InRun.unique {ks : List α} {r q k : ℕ} (hr : InRun ks r k) (hq : InRun ks q k) :
    r = q := by
  obtain ⟨a, b, ha, hb, hak, hkb⟩ := hr
  obtain ⟨c, d, hc, hd, hck, hkd⟩ := hq
  have hlow := index_lt (pairwise_cuts ks) ha hd (by omega)
  have hhigh := index_lt (pairwise_cuts ks) hc hb (by omega)
  omega

/-- The positions of a run hold the value at its start. -/
theorem InRun.getElem_eq {ks : List α} {r k a : ℕ} (h : InRun ks r k)
    (ha : (cuts ks)[r]? = some a) : ks[k]? = ks[a]? := by
  obtain ⟨a', b, ha', hb, hak, hkb⟩ := h
  obtain rfl : a' = a := Option.some.inj (ha'.symm.trans ha)
  induction k with
  | zero =>
      obtain rfl : a' = 0 := by omega
      rfl
  | succ k ih =>
      rcases Nat.eq_or_lt_of_le hak with rfl | hlt
      · rfl
      · rw [← ih (by omega) (by omega)]
        by_contra hne
        -- a change of value would start a run strictly inside this one
        have hlen : k + 1 < ks.length := lt_of_lt_of_le hkb (le_length_of_mem_cuts hb)
        obtain ⟨q, hq⟩ := List.mem_iff_getElem?.1 (mem_starts.2 ⟨hlen, Or.inr hne⟩)
        have hq' : (cuts ks)[q]? = some (k + 1) := by
          rw [getElem_cuts_of_lt (List.getElem?_eq_some_iff.1 hq).1, hq]
        have hafter := index_lt (pairwise_cuts ks) ha hq' hlt
        have hbefore := index_lt (pairwise_cuts ks) hq' hb hkb
        omega

end Cuts

/-- In a sorted list the runs have strictly ascending values. -/
theorem start_lt_start [DecidableEq α] [PartialOrder α] {ks : List α} (hs : ks.Pairwise (· ≤ ·))
    {r q i j : ℕ}
    (hi : (starts ks)[r]? = some i) (hj : (starts ks)[q]? = some j) (hrq : r < q)
    {x y : α} (hx : ks[i]? = some x) (hy : ks[j]? = some y) : x < y := by
  obtain ⟨hr, rfl⟩ := List.getElem?_eq_some_iff.1 hi
  obtain ⟨hq, rfl⟩ := List.getElem?_eq_some_iff.1 hj
  have hij := List.pairwise_iff_getElem.1 (pairwise_starts ks) r q hr hq hrq
  obtain ⟨hjn, hstart⟩ := mem_starts.1 (List.getElem_mem hq)
  obtain ⟨hin, rfl⟩ := List.getElem?_eq_some_iff.1 hx
  obtain ⟨hjn, rfl⟩ := List.getElem?_eq_some_iff.1 hy
  have hpred : (starts ks)[q] - 1 < ks.length := by omega
  have hne : ks[(starts ks)[q]] ≠ ks[(starts ks)[q] - 1] := by
    rw [List.getElem?_eq_getElem hjn, List.getElem?_eq_getElem hpred, ne_eq,
      Option.some.injEq] at hstart
    exact hstart.resolve_left (by omega)
  have hle : ks[(starts ks)[r]] ≤ ks[(starts ks)[q] - 1] := by
    rcases Nat.eq_or_lt_of_le (show (starts ks)[r] ≤ (starts ks)[q] - 1 by omega) with heq | hlt
    · simp [heq]
    · exact List.pairwise_iff_getElem.1 hs _ _ hin hpred hlt
  exact lt_of_le_of_lt hle (lt_of_le_of_ne
    (List.pairwise_iff_getElem.1 hs _ _ hpred hjn (by omega)) hne.symm)

end Runs
