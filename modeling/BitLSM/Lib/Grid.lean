import Mathlib.Algebra.BigOperators.Group.List.Basic
import Mathlib.Algebra.Order.Floor.Semiring
import Mathlib.Tactic.FieldSimp
import Mathlib.Tactic.Linarith
import Mathlib.Tactic.Ring

/-!
Mass on a uniform grid.

Mass is put on the cells of a grid, either on one cell or spread over the cells
that an interval overlaps, in proportion to the lengths of the overlaps. It is
read back through the prefix sums of the cells, with linear interpolation
inside a cell. Spreading neither loses nor doubles anything: the overlaps with
consecutive cells are the increments of a clamped coordinate, and their sum
telescopes.
-/

namespace Grid

variable {K : Type*} [Field K] [LinearOrder K] [IsStrictOrderedRing K]

/-! ### Overlaps -/

/-- Length of the overlap of `[s, e]` and `[l, r]`, negative when they are
apart. -/
def overlap (s e l r : K) : K := min e r - max s l

/-- The point of `[s, e]` next to `x`. -/
def clampTo (s e x : K) : K := max s (min e x)

theorem max_overlap {s e l r : K} (hse : s ≤ e) (hlr : l ≤ r) :
    max 0 (overlap s e l r) = clampTo s e r - clampTo s e l := by
  simp only [overlap, clampTo, max_def, min_def]
  split_ifs <;> linarith

omit [Field K] [IsStrictOrderedRing K] in
theorem clampTo_of_le {s e x : K} (h : x ≤ s) : clampTo s e x = s :=
  max_eq_left ((min_le_right e x).trans h)

omit [Field K] [IsStrictOrderedRing K] in
theorem clampTo_of_ge {s e x : K} (hse : s ≤ e) (h : e ≤ x) : clampTo s e x = e := by
  rw [clampTo, min_eq_left h, max_eq_right hse]

omit [LinearOrder K] [IsStrictOrderedRing K] in
/-- The increments of `f` along consecutive numbers. -/
theorem sum_map_range'_sub (f : ℕ → K) (a n : ℕ) :
    ((List.range' a n).map fun c => f (c + 1) - f c).sum = f (a + n) - f a := by
  induction n generalizing a with
  | zero => simp
  | succ n ih =>
      rw [List.range'_succ, List.map_cons, List.sum_cons, ih, show a + 1 + n = a + (n + 1) by omega]
      ring

/-- The overlaps of `[s, e]` with the cells it touches add up to its length. -/
theorem sum_overlap {s e w : K} (hse : s ≤ e) (hw : 0 ≤ w) {a n : ℕ} (ha : a * w ≤ s)
    (hb : e ≤ ((a + n : ℕ) : K) * w) :
    ((List.range' a n).map fun c : ℕ => max 0 (overlap s e (c * w) (c * w + w))).sum = e - s := by
  have hstep (c : ℕ) : max 0 (overlap s e (c * w) (c * w + w)) =
      clampTo s e (((c + 1 : ℕ) : K) * w) - clampTo s e ((c : K) * w) := by
    rw [max_overlap hse (by linarith)]
    congr 2
    push_cast
    ring
  simp only [hstep]
  rw [sum_map_range'_sub (fun c : ℕ => clampTo s e ((c : K) * w)), clampTo_of_ge hse hb,
    clampTo_of_le ha]

/-! ### Cells -/

/-- Put mass on a cell. -/
def addAt (cells : List K) (i : ℕ) (x : K) : List K := cells.modify i (· + x)

/-- `n` cells that hold mass `m` together. -/
structure Mass (n : ℕ) (m : K) (cells : List K) : Prop where
  length : cells.length = n
  sum : cells.sum = m
  nonneg : ∀ x ∈ cells, 0 ≤ x

omit [IsStrictOrderedRing K] in
theorem mass_replicate (n : ℕ) : Mass n (0 : K) (List.replicate n 0) := by
  refine ⟨List.length_replicate, by simp, ?_⟩
  intro x hx
  exact (List.eq_of_mem_replicate hx).ge

theorem Mass.addAt {n : ℕ} {m : K} {cells : List K} (h : Mass n m cells) {i : ℕ} (hi : i < n)
    {x : K} (hx : 0 ≤ x) : Mass n (m + x) (addAt cells i x) := by
  obtain ⟨rfl, rfl, hnonneg⟩ := h
  induction cells generalizing i with
  | nil => simp at hi
  | cons y cells ih =>
      cases i with
      | zero =>
          refine ⟨by simp [Grid.addAt], ?_, ?_⟩
          · simp only [Grid.addAt, List.modify_zero_cons, List.sum_cons]
            ring
          · simp only [Grid.addAt, List.modify_zero_cons, List.mem_cons, forall_eq_or_imp]
              at hnonneg ⊢
            exact ⟨add_nonneg hnonneg.1 hx, hnonneg.2⟩
      | succ i =>
          simp only [List.mem_cons, forall_eq_or_imp] at hnonneg
          obtain ⟨hlen, hsum, htail⟩ := ih hnonneg.2 (by simpa using hi)
          refine ⟨by simp [Grid.addAt], ?_, ?_⟩
          · simp only [Grid.addAt, List.modify_succ_cons, List.sum_cons] at hsum ⊢
            rw [hsum]
            ring
          · simp only [Grid.addAt, List.modify_succ_cons, List.mem_cons, forall_eq_or_imp]
            exact ⟨hnonneg.1, htail⟩

omit [IsStrictOrderedRing K] in
/-- What each turn of a loop adds is what the loop adds. -/
theorem Mass.foldl {ι : Type*} {n : ℕ} {step : List K → ι → List K} {added : ι → K} {l : List ι}
    (hstep : ∀ i ∈ l, ∀ m cells, Mass n m cells → Mass n (m + added i) (step cells i)) {m : K}
    {cells : List K} (h : Mass n m cells) : Mass n (m + (l.map added).sum)
        (l.foldl step cells) := by
  induction l generalizing m cells with
  | nil => simpa using h
  | cons i l ih =>
      have hi := hstep i List.mem_cons_self m cells h
      have hl := ih (fun j hj => hstep j (List.mem_cons_of_mem i hj)) hi
      rw [List.map_cons, List.sum_cons, ← add_assoc]
      exact hl

/-! ### Prefix sums -/

/-- The running sums from `acc` on. -/
def runningSums (acc : K) : List K → List K
  | [] => []
  | x :: cells => (acc + x) :: runningSums (acc + x) cells

omit [LinearOrder K] [IsStrictOrderedRing K] in
@[simp] theorem length_runningSums (acc : K) (cells : List K) :
    (runningSums acc cells).length = cells.length := by
  induction cells generalizing acc with
  | nil => rfl
  | cons x cells ih => simp [runningSums, ih]

omit [LinearOrder K] [IsStrictOrderedRing K] in
theorem getElem?_runningSums (acc : K) (cells : List K) {i : ℕ} (hi : i < cells.length) :
    (runningSums acc cells)[i]? = some (acc + (cells.take (i + 1)).sum) := by
  induction cells generalizing acc i with
  | nil => simp at hi
  | cons x cells ih =>
      cases i with
      | zero => simp [runningSums]
      | succ i =>
          have hi' : i < cells.length := by simpa using hi
          rw [runningSums, List.getElem?_cons_succ, ih (acc + x) hi', List.take_succ_cons,
            List.sum_cons, add_assoc]

theorem monotone_sum_take {cells : List K} (h : ∀ x ∈ cells, 0 ≤ x) :
    Monotone fun i => (cells.take i).sum := by
  apply monotone_nat_of_le_succ
  intro i
  rcases lt_or_ge i cells.length with hi | hi
  · rw [List.take_succ_eq_append_getElem hi, List.sum_append, List.sum_singleton]
    exact le_add_of_nonneg_right (h _ (List.getElem_mem hi))
  · rw [List.take_of_length_le hi, List.take_of_length_le (hi.trans (Nat.le_succ i))]

/-! ### Interpolation -/

variable [FloorSemiring K]

/-- The cell of a position on `n` cells. -/
def cellOf (n : ℕ) (p : K) : ℕ := min ⌊p⌋₊ (n - 1)

omit [IsStrictOrderedRing K] in
theorem cellOf_lt {n : ℕ} (hn : 0 < n) (p : K) : cellOf n p < n := by
  have := Nat.min_le_right ⌊p⌋₊ (n - 1)
  rw [cellOf]
  omega

theorem cellOf_mono {n : ℕ} {p q : K} (hpq : p ≤ q) : cellOf n p ≤ cellOf n q :=
  min_le_min_right _ (Nat.floor_mono hpq)

theorem cellOf_le {n : ℕ} {p : K} (hp : 0 ≤ p) : (cellOf n p : K) ≤ p :=
  (Nat.cast_le.2 (Nat.min_le_left _ _)).trans (Nat.floor_le hp)

omit [IsStrictOrderedRing K] in
theorem le_cellOf_add_one {n : ℕ} (hn : 0 < n) {p : K} (hp : p ≤ n) :
    p ≤ ((cellOf n p + 1 : ℕ) : K) := by
  rw [cellOf]
  rcases le_total ⌊p⌋₊ (n - 1) with h | h
  · rw [min_eq_left h]
    exact_mod_cast (Nat.lt_floor_add_one p).le
  · rw [min_eq_right h, Nat.sub_add_cancel hn]
    exact hp

/-- The value of `P` at a position, linear between neighbouring cells. -/
def interpolate (P : ℕ → K) (n : ℕ) (p : K) : K :=
  P (cellOf n p) + (P (cellOf n p + 1) - P (cellOf n p)) * (p - cellOf n p)

variable {P : ℕ → K}

theorem le_interpolate (hP : Monotone P) {n : ℕ} {p : K} (hp : 0 ≤ p) :
    P (cellOf n p) ≤ interpolate P n p := by
  have hslope : 0 ≤ P (cellOf n p + 1) - P (cellOf n p) := sub_nonneg.2 (hP (Nat.le_succ _))
  exact le_add_of_nonneg_right (mul_nonneg hslope (sub_nonneg.2 (cellOf_le hp)))

theorem interpolate_le (hP : Monotone P) {n : ℕ} (hn : 0 < n) {p : K} (hp : p ≤ n) :
    interpolate P n p ≤ P (cellOf n p + 1) := by
  have hslope : 0 ≤ P (cellOf n p + 1) - P (cellOf n p) := sub_nonneg.2 (hP (Nat.le_succ _))
  have hlast := le_cellOf_add_one hn hp
  push_cast at hlast
  have hmul : (P (cellOf n p + 1) - P (cellOf n p)) * (p - cellOf n p) ≤
      (P (cellOf n p + 1) - P (cellOf n p)) * 1 :=
    mul_le_mul_of_nonneg_left (by linarith) hslope
  rw [interpolate]
  linarith

theorem interpolate_mono (hP : Monotone P) {n : ℕ} (hn : 0 < n) {p q : K} (hp : 0 ≤ p)
    (hpq : p ≤ q) (hq : q ≤ n) : interpolate P n p ≤ interpolate P n q := by
  rcases (cellOf_mono (n := n) hpq).eq_or_lt with hcell | hcell
  · -- in one cell the interpolation is linear
    have hslope : 0 ≤ P (cellOf n q + 1) - P (cellOf n q) := sub_nonneg.2 (hP (Nat.le_succ _))
    have hmul := mul_le_mul_of_nonneg_left (sub_le_sub_right hpq (cellOf n q : K)) hslope
    rw [interpolate, interpolate, hcell]
    linarith
  · calc interpolate P n p ≤ P (cellOf n p + 1) := interpolate_le hP hn (hpq.trans hq)
      _ ≤ P (cellOf n q) := hP hcell
      _ ≤ interpolate P n q := le_interpolate hP (hp.trans hpq)

theorem interpolate_zero {n : ℕ} : interpolate P n (0 : K) = P 0 := by
  simp [interpolate, cellOf]

theorem interpolate_last {n : ℕ} (hn : 0 < n) : interpolate P n (n : K) = P n := by
  have hcell : cellOf n (n : K) = n - 1 := by
    rw [cellOf, Nat.floor_natCast]
    omega
  have hcast : ((n - 1 : ℕ) : K) = n - 1 := by
    rw [Nat.cast_sub hn]
    simp
  rw [interpolate, hcell, Nat.sub_add_cancel hn, hcast]
  ring

end Grid
