import BitLSM.Runtime

/-!
What the index may expect of a quotient of doubles.

IEEE 754 converts integers of at most 53 bits exactly and rounds a quotient
to a neighbouring double, in every rounding mode. `Fpu.Rounds` says this
without a word about the mode: no quotient is rounded past a double.
Arithmetic that cuts off towards zero is of this kind.
-/

namespace BitLSM

/-- Quotients of integers of at most 53 bits are rounded to a double next to
their exact value. -/
structure Fpu.Rounds (fpu : Fpu) : Prop where
  le_div : ∀ (a b : ℕ) (z : Binary64), a < 2 ^ 53 → 0 < b → b < 2 ^ 53 → z.isNaN = false →
    z.scaled * b ≤ a * 2 ^ 1074 → z ≤ fpu.div (fpu.ofNat a) (fpu.ofNat b)
  div_le : ∀ (a b : ℕ) (z : Binary64), a < 2 ^ 53 → 0 < b → b < 2 ^ 53 → z.isNaN = false →
    a * 2 ^ 1074 ≤ z.scaled * b → fpu.div (fpu.ofNat a) (fpu.ofNat b) ≤ z

/-! ### The doubles around a number -/

/-- What 53 significant bits keep of `n`. -/
def truncate (n : ℕ) : ℕ := n / 2 ^ (n.log2 - 52) * 2 ^ (n.log2 - 52)

theorem truncate_le (n : ℕ) : truncate n ≤ n := Nat.div_mul_le_self _ _

theorem ofMagnitude_spec {n : ℕ} (hlog : n.log2 < 2097) :
    (Binary64.ofMagnitude n).isNaN = false ∧
      (Binary64.ofMagnitude n).scaled = (truncate n : ℤ) := by
  have hfields : ∃ e m, e < 2047 ∧ m < 2 ^ 52 ∧
      Binary64.ofMagnitude n = Binary64.ofFields 0 e m ∧
      truncate n = if e = 0 then m else (2 ^ 52 + m) * 2 ^ (e - 1) := by
    rw [Binary64.ofMagnitude]
    split
    · next hsmall =>
        have hlog : n.log2 - 52 = 0 := by
          rcases Nat.eq_zero_or_pos n with rfl | hpos
          · rfl
          · have := (Nat.log2_lt hpos.ne').2 hsmall
            omega
        refine ⟨0, n, by decide, hsmall, by simp [Binary64.ofFields], ?_⟩
        simp [truncate, hlog]
    · next hlarge =>
        have hne : n ≠ 0 := by omega
        have hlow := Nat.log2_self_le hne
        have hhigh := @Nat.lt_log2_self n
        have hlog' : 52 ≤ n.log2 := (Nat.le_log2 hne).2 (Nat.le_of_not_lt hlarge)
        obtain ⟨e, he⟩ : ∃ e, n.log2 = e + 52 := ⟨n.log2 - 52, by omega⟩
        have hfloor : 2 ^ 52 ≤ n / 2 ^ e := by
          rw [Nat.le_div_iff_mul_le (Nat.two_pow_pos e), ← Nat.pow_add, Nat.add_comm, ← he]
          exact hlow
        have hceil : n / 2 ^ e < 2 ^ 53 := by
          rw [Nat.div_lt_iff_lt_mul (Nat.two_pow_pos e), ← Nat.pow_add]
          rwa [he, show e + 52 + 1 = 53 + e by omega] at hhigh
        refine ⟨e + 1, n / 2 ^ e - 2 ^ 52, by omega, by omega, ?_, ?_⟩
        · simp only [he, Nat.add_sub_cancel, Binary64.ofFields, Nat.zero_mul, Nat.zero_add]
        · rw [truncate, he, Nat.add_sub_cancel, if_neg (Nat.succ_ne_zero e), Nat.add_sub_cancel,
            Nat.add_sub_cancel' hfloor]
  obtain ⟨e, m, he, hm, hof, htrunc⟩ := hfields
  have hexp := @Binary64.expField_ofFields 0 e m (by decide) (by omega) hm
  have hfrac := @Binary64.fracField_ofFields 0 e m (by decide) (by omega) hm
  have hbits := @Binary64.toNat_ofFields 0 e m (by decide) (by omega) hm
  have hsign : (Binary64.ofFields 0 e m).signBit = false := by
    rw [Binary64.signBit, hbits, decide_eq_false_iff_not]
    omega
  rw [hof]
  refine ⟨?_, ?_⟩
  · rw [Binary64.isNaN, hexp]
    simp [show e ≠ 2047 by omega]
  · rw [Binary64.scaled, hsign, Binary64.magnitude, hexp, hfrac, htrunc]
    rfl

/-- A double has 53 significant bits. -/
theorem magnitude_eq_mul (z : Binary64) : ∃ m k, m < 2 ^ 53 ∧ z.magnitude = m * 2 ^ k := by
  have hfrac : z.fracField < 2 ^ 52 := Nat.mod_lt _ (Nat.two_pow_pos 52)
  rw [Binary64.magnitude]
  split
  · exact ⟨z.fracField, 0, by omega, by omega⟩
  · exact ⟨2 ^ 52 + z.fracField, z.expField - 1, by omega, rfl⟩

/-- A number of 53 bits is within what is kept of any number above it. -/
theorem le_truncate {m k n : ℕ} (hm : m < 2 ^ 53) (h : m * 2 ^ k ≤ n) :
    m * 2 ^ k ≤ truncate n := by
  rcases Nat.eq_zero_or_pos m with rfl | hpos
  · rw [Nat.zero_mul]
    exact Nat.zero_le _
  have hn : n ≠ 0 := by
    have := Nat.mul_pos hpos (Nat.two_pow_pos k)
    omega
  rw [truncate]
  obtain ⟨e, he⟩ : ∃ e, e = n.log2 - 52 := ⟨_, rfl⟩
  rw [← he]
  rcases Nat.lt_or_ge k e with hlt | hge
  · -- the number has fewer bits than `n`
    have hlow := Nat.log2_self_le hn
    have hbits : m * 2 ^ k ≤ 2 ^ n.log2 := by
      calc m * 2 ^ k ≤ 2 ^ 53 * 2 ^ k := Nat.mul_le_mul_right _ hm.le
        _ = 2 ^ (53 + k) := (Nat.pow_add 2 53 k).symm
        _ ≤ 2 ^ n.log2 := Nat.pow_le_pow_right Nat.two_pos (by omega)
    have hfloor : 2 ^ 52 ≤ n / 2 ^ e := by
      rw [Nat.le_div_iff_mul_le (Nat.two_pow_pos e), ← Nat.pow_add, show 52 + e = n.log2 by omega]
      exact hlow
    calc m * 2 ^ k ≤ 2 ^ n.log2 := hbits
      _ = 2 ^ 52 * 2 ^ e := by rw [← Nat.pow_add, show 52 + e = n.log2 by omega]
      _ ≤ n / 2 ^ e * 2 ^ e := Nat.mul_le_mul_right _ hfloor
  · have hsplit : m * 2 ^ k = m * 2 ^ (k - e) * 2 ^ e := by
      rw [Nat.mul_assoc, ← Nat.pow_add, Nat.sub_add_cancel hge]
    rw [hsplit] at h ⊢
    exact Nat.mul_le_mul_right _ ((Nat.le_div_iff_mul_le (Nat.two_pow_pos e)).2 h)

theorem truncate_mul {m : ℕ} (hm : m < 2 ^ 53) (k : ℕ) : truncate (m * 2 ^ k) = m * 2 ^ k :=
  Nat.le_antisymm (truncate_le _) (le_truncate hm le_rfl)

theorem log2_lt_of_le {m k n : ℕ} (hm : m < 2 ^ 53) (hn : n ≤ m * 2 ^ k) : n.log2 < 53 + k := by
  rcases Nat.eq_zero_or_pos n with rfl | hpos
  · rw [Nat.log2_zero]
    omega
  · rw [Nat.log2_lt hpos.ne', Nat.pow_add]
    exact lt_of_le_of_lt hn (Nat.mul_lt_mul_of_pos_right hm (Nat.two_pow_pos k))

/-- The double `m * 2 ^ (k - 1074)`. -/
theorem ofMagnitude_mul {m k : ℕ} (hm : m < 2 ^ 53) (hk : k ≤ 2044) :
    (Binary64.ofMagnitude (m * 2 ^ k)).isNaN = false ∧
      (Binary64.ofMagnitude (m * 2 ^ k)).scaled = ((m * 2 ^ k : ℕ) : ℤ) := by
  have hlog := log2_lt_of_le hm (le_refl (m * 2 ^ k))
  obtain ⟨hnan, hscaled⟩ := @ofMagnitude_spec (m * 2 ^ k) (by omega)
  exact ⟨hnan, by rw [hscaled, truncate_mul hm]⟩

/-! ### Cutting off -/

theorem scaled_of_nonneg {z : Binary64} (h : 0 ≤ z.scaled) : z.scaled = z.magnitude := by
  rw [Binary64.scaled] at h ⊢
  split
  · next hs =>
      rw [if_pos hs] at h
      omega
  · rfl

theorem magnitude_ofMagnitude_mul {m k : ℕ} (hm : m < 2 ^ 53) (hk : k ≤ 2044) :
    (Binary64.ofMagnitude (m * 2 ^ k)).magnitude = m * 2 ^ k := by
  obtain ⟨-, hscaled⟩ := ofMagnitude_mul hm hk
  rw [scaled_of_nonneg (by rw [hscaled]; exact Int.natCast_nonneg _)] at hscaled
  exact Int.ofNat.inj hscaled

/-- A quotient of integers, cut off. -/
theorem ofMagnitude_div {a b k : ℕ} (ha : a < 2 ^ 53) (hk : k ≤ 2044) :
    (Binary64.ofMagnitude (a * 2 ^ k / b)).isNaN = false ∧
      (Binary64.ofMagnitude (a * 2 ^ k / b)).scaled = (truncate (a * 2 ^ k / b) : ℤ) := by
  have hlog := log2_lt_of_le ha (Nat.div_le_self (a * 2 ^ k) b)
  exact ofMagnitude_spec (by omega)

theorem Fpu.truncating_div {a b : ℕ} (ha : a < 2 ^ 53) (hb : b < 2 ^ 53) :
    truncating.div (truncating.ofNat a) (truncating.ofNat b) =
      Binary64.ofMagnitude (a * 2 ^ 1074 / b) := by
  have hmag (n : ℕ) (hn : n < 2 ^ 53) : (truncating.ofNat n).magnitude = n * 2 ^ 1074 := by
    simp only [truncating]
    exact @magnitude_ofMagnitude_mul n 1074 hn (by decide)
  have hdiv (x y : Binary64) :
      truncating.div x y = Binary64.ofMagnitude (x.magnitude * 2 ^ 1074 / y.magnitude) := by
    simp only [truncating]
  rw [hdiv, hmag a ha, hmag b hb, Nat.mul_div_mul_right _ _ (Nat.two_pow_pos 1074)]

theorem Fpu.truncating_rounds : Fpu.truncating.Rounds where
  le_div a b z ha hb hb' hz hle := by
    rw [truncating_div ha hb']
    obtain ⟨hnan, hscaled⟩ := @ofMagnitude_div a b 1074 ha (by decide)
    refine ⟨hz, hnan, ?_⟩
    rw [hscaled]
    rcases Int.lt_or_le z.scaled 0 with hneg | hpos
    · exact hneg.le.trans (Int.natCast_nonneg _)
    · obtain ⟨m, k, hm, hmag⟩ := magnitude_eq_mul z
      rw [scaled_of_nonneg hpos, hmag] at hle ⊢
      have hle : m * 2 ^ k * b ≤ a * 2 ^ 1074 := by exact_mod_cast hle
      exact_mod_cast le_truncate hm ((Nat.le_div_iff_mul_le hb).2 hle)
  div_le a b z ha hb hb' hz hle := by
    rw [truncating_div ha hb']
    obtain ⟨hnan, hscaled⟩ := @ofMagnitude_div a b 1074 ha (by decide)
    refine ⟨hnan, hz, ?_⟩
    rw [hscaled]
    have hb0 : (0 : ℤ) < b := by exact_mod_cast hb
    have hquot : (a * 2 ^ 1074 / b : ℤ) ≤ z.scaled :=
      Int.ediv_le_of_le_mul hb0 hle
    refine le_trans ?_ hquot
    exact_mod_cast truncate_le (a * 2 ^ 1074 / b)

end BitLSM
