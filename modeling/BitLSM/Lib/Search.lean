import Mathlib.Order.Basic
import Mathlib.Tactic.Common

/-!
Binary search for the partition point of a predicate.

A predicate on positions that holds up to some point and fails from there
on is searched by halving. `search p n` is that point, whatever the
predicate compares; lower and upper bounds in sorted sequences are the two
instances. `searchM` is the same search over a predicate that may fail.
-/

namespace BinarySearch

/-- The loop on the half-open interval `[lo, hi)`. -/
def loop (p : ℕ → Bool) : ℕ → ℕ → ℕ → ℕ
  | 0, lo, _ => lo
  | fuel + 1, lo, hi =>
      if lo < hi then
        let mid := lo + (hi - lo) / 2
        if p mid then loop p fuel (mid + 1) hi else loop p fuel lo mid
      else lo

/-- The number of positions below `n` where `p` holds. -/
def search (p : ℕ → Bool) (n : ℕ) : ℕ := loop p n 0 n

/-- The loop over a predicate that may have no value at a position. -/
def loopM (p : ℕ → Option Bool) : ℕ → ℕ → ℕ → Option ℕ
  | 0, lo, _ => some lo
  | fuel + 1, lo, hi =>
      if lo < hi then
        let mid := lo + (hi - lo) / 2
        (p mid).bind fun b => if b then loopM p fuel (mid + 1) hi else loopM p fuel lo mid
      else some lo

def searchM (p : ℕ → Option Bool) (n : ℕ) : Option ℕ := loopM p n 0 n

variable {p : ℕ → Bool}

theorem loopM_eq {m : ℕ → Option Bool} {n fuel lo hi : ℕ} (hm : ∀ i < n, m i = some (p i))
    (hn : hi ≤ n) : loopM m fuel lo hi = some (loop p fuel lo hi) := by
  induction fuel generalizing lo hi with
  | zero => rfl
  | succ fuel ih =>
      by_cases hlt : lo < hi
      · simp only [loopM, loop, if_pos hlt, hm (lo + (hi - lo) / 2) (by omega), Option.bind_some]
        split
        · exact ih hn
        · exact ih (by omega)
      · simp only [loopM, loop, if_neg hlt]

/-- Only positions below `n` are looked at. -/
theorem searchM_eq {m : ℕ → Option Bool} {n : ℕ} (hm : ∀ i < n, m i = some (p i)) :
    searchM m n = some (search p n) := loopM_eq hm (Nat.le_refl n)

/-- The loop narrows to a point inside the interval it is given, with `p`
true on the part cut off below and false on the part cut off above. -/
theorem loop_spec {n fuel lo hi : ℕ} (hp : ∀ i j, i ≤ j → j < n → p j = true → p i = true)
    (hfuel : hi - lo ≤ fuel) (hle : lo ≤ hi) (hn : hi ≤ n) (hlow : ∀ i < lo, p i = true)
    (hhigh : ∀ i, hi ≤ i → i < n → p i = false) :
    loop p fuel lo hi ≤ n ∧ ∀ i < n, p i = true ↔ i < loop p fuel lo hi := by
  induction fuel generalizing lo hi with
  | zero =>
      have heq : lo = hi := by omega
      subst heq
      refine ⟨hn, fun i hi => ⟨fun h => ?_, fun h => hlow i h⟩⟩
      by_contra hge
      simp [hhigh i (by rw [loop] at hge; omega) hi] at h
  | succ fuel ih =>
      rw [loop]
      split
      · next hlt =>
          simp only []
          cases hmid : p (lo + (hi - lo) / 2) with
          | true =>
              refine ih (by omega) (by omega) hn (fun i hi' => ?_) hhigh
              exact hp i _ (by omega) (by omega) hmid
          | false =>
              refine ih (by omega) (by omega) (by omega) hlow (fun i hi' hin => ?_)
              rw [← Bool.not_eq_true]
              intro htrue
              have := hp _ i hi' hin htrue
              simp [hmid] at this
      · next hge =>
          refine ⟨by omega, fun i hi' => ⟨fun h => ?_, fun h => hlow i h⟩⟩
          by_contra hlo
          simp [hhigh i (by omega) hi'] at h

/-- `search` finds the partition point of a predicate that never turns from
false to true. -/
theorem search_spec {n : ℕ} (hp : ∀ i j, i ≤ j → j < n → p j = true → p i = true) :
    search p n ≤ n ∧ ∀ i < n, p i = true ↔ i < search p n :=
  loop_spec hp (by omega) (by omega) (Nat.le_refl n) (by simp) (by omega)

theorem search_le {n : ℕ} (hp : ∀ i j, i ≤ j → j < n → p j = true → p i = true) :
    search p n ≤ n := (search_spec hp).1

theorem lt_search_iff {n i : ℕ} (hp : ∀ i j, i ≤ j → j < n → p j = true → p i = true)
    (hi : i < n) : i < search p n ↔ p i = true := ((search_spec hp).2 i hi).symm

/-! ### Searching a list -/

section List

variable {α : Type*} {l : List α} {q : α → Bool}

theorem lt_countP_iff (hl : l.Pairwise fun a b => q b = true → q a = true) {i : ℕ}
    (hi : i < l.length) : i < l.countP q ↔ q l[i] = true := by
  induction l generalizing i with
  | nil => simp at hi
  | cons x l ih =>
      obtain ⟨hx, hl⟩ := List.pairwise_cons.1 hl
      by_cases hqx : q x = true
      · rw [List.countP_cons_of_pos hqx]
        cases i with
        | zero => simpa using hqx
        | succ i => simpa using ih hl (by simpa using hi)
      · have hnone : ∀ y ∈ l, ¬q y = true := fun y hy hqy => hqx (hx y hy hqy)
        rw [List.countP_cons_of_neg hqx, List.countP_eq_zero.2 hnone]
        have hmem : (x :: l)[i] = x ∨ (x :: l)[i] ∈ l := List.mem_cons.1 (List.getElem_mem hi)
        refine ⟨fun h => absurd h (Nat.not_lt_zero i), fun h => ?_⟩
        rcases hmem with heq | hmem
        · exact absurd (heq ▸ h) hqx
        · exact absurd h (hnone _ hmem)

/-- Where the predicate holds on a leading part of the list, the search counts
it. -/
theorem search_eq_countP (hl : l.Pairwise fun a b => q b = true → q a = true)
    (hp : ∀ i (hi : i < l.length), p i = q l[i]) : search p l.length = l.countP q := by
  have hmono : ∀ i j, i ≤ j → j < l.length → p j = true → p i = true := by
    intro i j hij hj h
    have hi : i < l.length := by omega
    rw [hp j hj] at h
    rw [hp i hi, ← lt_countP_iff hl hi]
    have := (lt_countP_iff hl hj).2 h
    omega
  have hle := search_le hmono
  have hcount := List.countP_le_length (p := q) (l := l)
  apply Nat.le_antisymm
  · by_contra hgt
    have hi : l.countP q < l.length := by omega
    have := (lt_search_iff hmono hi).1 (by omega)
    rw [hp _ hi, ← lt_countP_iff hl hi] at this
    omega
  · by_contra hgt
    have hi : search p l.length < l.length := by omega
    have := (lt_countP_iff hl hi).1 (by omega)
    rw [← hp _ hi, ← lt_search_iff hmono hi] at this
    omega

end List

end BinarySearch
