import Mathlib.Order.Monotone.Basic
import Mathlib.Algebra.Order.Ring.Nat
import Mathlib.Data.Nat.Bitwise
import Mathlib.Tactic.Linarith

/-!
IEEE-754 binary64 values as bit patterns.

A pattern is read through its three fields. The order of two values is
the order of their exact values, scaled by `2 ^ 1074` so that every finite
value is an integer; an infinity scales to an integer beyond all finite
ones. A NaN compares false with everything and the two zeros are equal,
because both scale to `0`.

Two sections are about patterns. The order of values is related to that of
the patterns: the scaled magnitude grows strictly with the low 63 bits. And a
single is widened exactly, so that a double that is a single keeps its pattern
when it is narrowed and widened again. The last section is about the rounding
of a natural number to the 53 bits a significand has.
-/

structure Binary64 where
  bits : BitVec 64
  deriving DecidableEq, Repr

namespace Binary64

def signBit (d : Binary64) : Bool := decide (2 ^ 63 ≤ d.bits.toNat)

def expField (d : Binary64) : ℕ := d.bits.toNat / 2 ^ 52 % 2 ^ 11

def fracField (d : Binary64) : ℕ := d.bits.toNat % 2 ^ 52

def isNaN (d : Binary64) : Bool := d.expField == 2047 && d.fracField != 0

/-- `|d| * 2 ^ 1074`. The all-ones exponent falls under the normal case, so
an infinity is an integer above every finite magnitude. -/
def magnitude (d : Binary64) : ℕ :=
  if d.expField = 0 then d.fracField else (2 ^ 52 + d.fracField) * 2 ^ (d.expField - 1)

/-- `d * 2 ^ 1074`. -/
def scaled (d : Binary64) : ℤ :=
  if d.signBit then -(d.magnitude : ℤ) else d.magnitude

instance : BEq Binary64 where
  beq a b := !a.isNaN && !b.isNaN && decide (a.scaled = b.scaled)

instance : LT Binary64 where
  lt a b := a.isNaN = false ∧ b.isNaN = false ∧ a.scaled < b.scaled

instance : LE Binary64 where
  le a b := a.isNaN = false ∧ b.isNaN = false ∧ a.scaled ≤ b.scaled

instance : DecidableLT Binary64 := fun a b =>
  inferInstanceAs (Decidable (a.isNaN = false ∧ b.isNaN = false ∧ a.scaled < b.scaled))

instance : DecidableLE Binary64 := fun a b =>
  inferInstanceAs (Decidable (a.isNaN = false ∧ b.isNaN = false ∧ a.scaled ≤ b.scaled))

theorem beq_iff {a b : Binary64} :
    (a == b) = true ↔ a.isNaN = false ∧ b.isNaN = false ∧ a.scaled = b.scaled := by
  show (!a.isNaN && !b.isNaN && decide (a.scaled = b.scaled)) = true ↔ _
  simp [and_assoc]

theorem lt_iff {a b : Binary64} :
    a < b ↔ a.isNaN = false ∧ b.isNaN = false ∧ a.scaled < b.scaled := Iff.rfl

theorem le_iff {a b : Binary64} :
    a ≤ b ↔ a.isNaN = false ∧ b.isNaN = false ∧ a.scaled ≤ b.scaled := Iff.rfl

/-- The binary64 value of a binary32 pattern; the conversion is exact. A NaN
comes out quiet with its payload shifted up. -/
def ofBinary32 (f : BitVec 32) : Binary64 :=
  let sign := f.toNat / 2 ^ 31
  let e := f.toNat / 2 ^ 23 % 2 ^ 8
  let m := f.toNat % 2 ^ 23
  let fields : ℕ × ℕ :=
    if e = 255 then (2047, if m = 0 then 0 else m * 2 ^ 29 ||| 2 ^ 51)
    else if e ≠ 0 then (e + 896, m * 2 ^ 29)
    else if m = 0 then (0, 0)
    -- a subnormal `m * 2 ^ (-149)` is normal in the wider format
    else (m.log2 + 874, (m - 2 ^ m.log2) * 2 ^ (52 - m.log2))
  ⟨BitVec.ofNat 64 (sign * 2 ^ 63 + fields.1 * 2 ^ 52 + fields.2)⟩

/-- `n / 2 ^ k` rounded to nearest, ties to even. -/
def roundShift (n k : ℕ) : ℕ :=
  let q := n / 2 ^ k
  let r := n % 2 ^ k
  if 2 ^ k < 2 * r ∨ (2 ^ k = 2 * r ∧ q % 2 = 1) then q + 1 else q

/-- The binary32 pattern nearest to a binary64 value. A carry out of the
rounded significand runs on into the exponent, and past the largest finite
value into the infinity. -/
def toBinary32 (d : Binary64) : BitVec 32 :=
  let sign := d.bits.toNat / 2 ^ 63
  let e := d.expField
  let m := d.fracField
  let body :=
    if e = 2047 then (if m = 0 then 0x7F800000 else 0x7FC00000 ||| m / 2 ^ 29)
    else if 897 ≤ e then min ((e - 897) * 2 ^ 23 + roundShift (2 ^ 52 + m) 29) 0x7F800000
    else roundShift (if e = 0 then m else 2 ^ 52 + m) (926 - max e 1)
  BitVec.ofNat 32 (sign * 2 ^ 31 + body)

/-! ### Order of values and order of patterns -/

/-- Everything but the sign. -/
def low (d : Binary64) : ℕ := d.bits.toNat % 2 ^ 63

/-- The magnitude as a function of the exponent and fraction bits together. -/
def magnitudeOfLow (n : ℕ) : ℕ :=
  if n / 2 ^ 52 = 0 then n % 2 ^ 52 else (2 ^ 52 + n % 2 ^ 52) * 2 ^ (n / 2 ^ 52 - 1)

theorem magnitude_eq_magnitudeOfLow (d : Binary64) : d.magnitude = magnitudeOfLow d.low := by
  have hlt := d.bits.isLt
  have hexp : d.low / 2 ^ 52 = d.expField := by
    unfold low expField
    omega
  have hfrac : d.low % 2 ^ 52 = d.fracField := by
    unfold low fracField
    omega
  rw [magnitudeOfLow, hexp, hfrac, magnitude]

/-- One more in the last place is a larger magnitude. The fraction either
grows by one or rolls over into the next exponent. -/
theorem magnitudeOfLow_lt_succ (n : ℕ) : magnitudeOfLow n < magnitudeOfLow (n + 1) := by
  have hfrac := Nat.mod_lt n (Nat.two_pow_pos 52)
  rcases Nat.lt_or_ge (n % 2 ^ 52 + 1) (2 ^ 52) with hstay | hroll
  · have hexp : (n + 1) / 2 ^ 52 = n / 2 ^ 52 := by omega
    have hmod : (n + 1) % 2 ^ 52 = n % 2 ^ 52 + 1 := by omega
    rw [magnitudeOfLow, magnitudeOfLow, hexp, hmod]
    split
    · exact Nat.lt_succ_self _
    · gcongr
      exact Nat.lt_succ_self _
  · have hexp : (n + 1) / 2 ^ 52 = n / 2 ^ 52 + 1 := by omega
    have hmod : (n + 1) % 2 ^ 52 = 0 := by omega
    rw [magnitudeOfLow, magnitudeOfLow, hexp, hmod, if_neg (Nat.succ_ne_zero _)]
    generalize n % 2 ^ 52 = f at hfrac
    cases n / 2 ^ 52 with
    | zero => simpa using hfrac
    | succ e =>
      simp only [Nat.succ_ne_zero, if_false, Nat.add_sub_cancel, Nat.add_zero, pow_succ 2 e]
      have hpos := Nat.two_pow_pos e
      nlinarith

theorem magnitudeOfLow_strictMono : StrictMono magnitudeOfLow :=
  strictMono_nat_of_lt_succ magnitudeOfLow_lt_succ

theorem magnitude_lt_iff {a b : Binary64} : a.magnitude < b.magnitude ↔ a.low < b.low := by
  rw [magnitude_eq_magnitudeOfLow, magnitude_eq_magnitudeOfLow]
  exact magnitudeOfLow_strictMono.lt_iff_lt

theorem magnitude_eq_zero_iff {a : Binary64} : a.magnitude = 0 ↔ a.low = 0 := by
  rw [magnitude_eq_magnitudeOfLow]
  exact magnitudeOfLow_strictMono.injective.eq_iff' (by decide)

theorem bits_eq_low (d : Binary64) :
    d.bits.toNat = if d.signBit then 2 ^ 63 + d.low else d.low := by
  have h := d.bits.isLt
  unfold signBit low
  by_cases hs : 2 ^ 63 ≤ d.bits.toNat
  · simp only [hs, decide_true, if_true]
    omega
  · simp only [hs, decide_false, Bool.false_eq_true, if_false]
    omega

/-- The sign-magnitude reading of the pattern, which orders like the value. -/
def signedLow (d : Binary64) : ℤ := if d.signBit then -(d.low : ℤ) else d.low

theorem scaled_lt_iff {a b : Binary64} : a.scaled < b.scaled ↔ a.signedLow < b.signedLow := by
  have hlt := @magnitude_lt_iff a b
  have hgt := @magnitude_lt_iff b a
  have ha := @magnitude_eq_zero_iff a
  have hb := @magnitude_eq_zero_iff b
  unfold scaled signedLow
  cases a.signBit <;> cases b.signBit <;> simp only [if_true, if_false, Bool.false_eq_true] <;>
    omega

theorem scaled_eq_iff {a b : Binary64} : a.scaled = b.scaled ↔ a.signedLow = b.signedLow := by
  have hlt := @scaled_lt_iff a b
  have hgt := @scaled_lt_iff b a
  omega

theorem scaled_le_iff {a b : Binary64} : a.scaled ≤ b.scaled ↔ a.signedLow ≤ b.signedLow := by
  have hgt := @scaled_lt_iff b a
  omega

/-! ### Single precision -/

/-- The pattern with the given fields. -/
def ofFields (sign e m : ℕ) : Binary64 := ⟨BitVec.ofNat 64 (sign * 2 ^ 63 + e * 2 ^ 52 + m)⟩

section Fields

variable {sign e m : ℕ}

theorem toNat_ofFields (hs : sign < 2) (he : e < 2 ^ 11) (hm : m < 2 ^ 52) :
    (ofFields sign e m).bits.toNat = sign * 2 ^ 63 + e * 2 ^ 52 + m := by
  rw [ofFields, BitVec.toNat_ofNat]
  omega

theorem expField_ofFields (hs : sign < 2) (he : e < 2 ^ 11) (hm : m < 2 ^ 52) :
    (ofFields sign e m).expField = e := by
  rw [expField, toNat_ofFields hs he hm]
  omega

theorem fracField_ofFields (hs : sign < 2) (he : e < 2 ^ 11) (hm : m < 2 ^ 52) :
    (ofFields sign e m).fracField = m := by
  rw [fracField, toNat_ofFields hs he hm]
  omega

end Fields

theorem roundShift_mul (n k : ℕ) : roundShift (n * 2 ^ k) k = n := by
  have hpos := Nat.two_pow_pos k
  rw [roundShift]
  simp only [Nat.mul_div_cancel n hpos, Nat.mul_mod_left]
  rw [if_neg (by omega)]

theorem roundShift_zero (k : ℕ) : roundShift 0 k = 0 := by
  simpa using roundShift_mul 0 k

theorem toBinary32_ofFields {sign e m body : ℕ} (hs : sign < 2) (he : e < 2 ^ 11) (hm : m < 2 ^ 52)
    (hbody : (if e = 2047 then (if m = 0 then 0x7F800000 else 0x7FC00000 ||| m / 2 ^ 29)
      else if 897 ≤ e then min ((e - 897) * 2 ^ 23 + roundShift (2 ^ 52 + m) 29) 0x7F800000
      else roundShift (if e = 0 then m else 2 ^ 52 + m) (926 - max e 1)) = body) :
    (ofFields sign e m).toBinary32 = BitVec.ofNat 32 (sign * 2 ^ 31 + body) := by
  have hsign : (ofFields sign e m).bits.toNat / 2 ^ 63 = sign := by
    rw [toNat_ofFields hs he hm]
    omega
  rw [toBinary32]
  simp only [hsign, expField_ofFields hs he hm, fracField_ofFields hs he hm, hbody]

/-- The fields of a widened single. -/
def widenFields (e m : ℕ) : ℕ × ℕ :=
  if e = 255 then (2047, if m = 0 then 0 else m * 2 ^ 29 ||| 2 ^ 51)
  else if e ≠ 0 then (e + 896, m * 2 ^ 29)
  else if m = 0 then (0, 0)
  else (m.log2 + 874, (m - 2 ^ m.log2) * 2 ^ (52 - m.log2))

section Singles

variable {sign e m : ℕ}

theorem ofBinary32_eq (hs : sign < 2) (he : e < 2 ^ 8) (hm : m < 2 ^ 23) :
    ofBinary32 (BitVec.ofNat 32 (sign * 2 ^ 31 + (e * 2 ^ 23 + m))) =
      ofFields sign (widenFields e m).1 (widenFields e m).2 := by
  have hnat : (BitVec.ofNat 32 (sign * 2 ^ 31 + (e * 2 ^ 23 + m))).toNat =
      sign * 2 ^ 31 + (e * 2 ^ 23 + m) := by
    rw [BitVec.toNat_ofNat]
    omega
  have hsign : (sign * 2 ^ 31 + (e * 2 ^ 23 + m)) / 2 ^ 31 = sign := by omega
  have hexp : (sign * 2 ^ 31 + (e * 2 ^ 23 + m)) / 2 ^ 23 % 2 ^ 8 = e := by omega
  have hfrac : (sign * 2 ^ 31 + (e * 2 ^ 23 + m)) % 2 ^ 23 = m := by omega
  rw [ofBinary32]
  simp only [hnat, hsign, hexp, hfrac]
  rfl

theorem toBinary32_infinity (hs : sign < 2) :
    (ofFields sign 2047 0).toBinary32 = BitVec.ofNat 32 (sign * 2 ^ 31 + (255 * 2 ^ 23 + 0)) :=
  toBinary32_ofFields hs (by decide) (by decide) rfl

theorem toBinary32_zero (hs : sign < 2) :
    (ofFields sign 0 0).toBinary32 = BitVec.ofNat 32 (sign * 2 ^ 31 + (0 * 2 ^ 23 + 0)) := by
  refine toBinary32_ofFields hs (by decide) (by decide) ?_
  rw [if_neg (by decide), if_neg (by decide), if_pos rfl]
  exact roundShift_zero _

theorem toBinary32_normal (hs : sign < 2) (he0 : e ≠ 0) (he : e < 255) (hm : m < 2 ^ 23) :
    (ofFields sign (e + 896) (m * 2 ^ 29)).toBinary32 =
      BitVec.ofNat 32 (sign * 2 ^ 31 + (e * 2 ^ 23 + m)) := by
  have hexact : 2 ^ 52 + m * 2 ^ 29 = (2 ^ 23 + m) * 2 ^ 29 := by omega
  refine toBinary32_ofFields hs (by omega) (by omega) ?_
  rw [if_neg (by omega), if_pos (by omega), hexact, roundShift_mul]
  omega

/-- The leading bit of a subnormal's `m` is the implicit one of the double. -/
theorem widen_subnormal (hm0 : m ≠ 0) (hm : m < 2 ^ 23) :
    2 ^ 52 + (m - 2 ^ m.log2) * 2 ^ (52 - m.log2) = m * 2 ^ (52 - m.log2) ∧
      (m - 2 ^ m.log2) * 2 ^ (52 - m.log2) < 2 ^ 52 := by
  have hle := Nat.log2_self_le hm0
  have hlt := @Nat.lt_log2_self m
  have hlog : m.log2 < 23 := (Nat.log2_lt hm0).2 hm
  have hpow : 2 ^ 52 = 2 ^ m.log2 * 2 ^ (52 - m.log2) := by
    rw [← pow_add]
    congr 1
    omega
  constructor
  · rw [hpow, ← Nat.add_mul]
    congr 1
    omega
  · rw [hpow]
    refine Nat.mul_lt_mul_of_pos_right ?_ (Nat.two_pow_pos _)
    rw [pow_succ] at hlt
    omega

theorem toBinary32_subnormal (hs : sign < 2) (hm0 : m ≠ 0) (hm : m < 2 ^ 23) :
    (ofFields sign (m.log2 + 874) ((m - 2 ^ m.log2) * 2 ^ (52 - m.log2))).toBinary32 =
      BitVec.ofNat 32 (sign * 2 ^ 31 + (0 * 2 ^ 23 + m)) := by
  have hlog : m.log2 < 23 := (Nat.log2_lt hm0).2 hm
  obtain ⟨hexact, hfrac⟩ := widen_subnormal hm0 hm
  refine toBinary32_ofFields hs (by omega) hfrac ?_
  rw [if_neg (by omega), if_neg (by omega), if_neg (by omega), hexact,
    show 926 - max (m.log2 + 874) 1 = 52 - m.log2 by omega, roundShift_mul]
  omega

theorem or_quiet_lt (hm : m < 2 ^ 23) : m ||| 2 ^ 22 < 2 ^ 23 :=
  Nat.or_lt_two_pow hm (by decide)

theorem or_quiet_mul (m : ℕ) : (m ||| 2 ^ 22) * 2 ^ 29 = m * 2 ^ 29 ||| 2 ^ 51 := by
  rw [← Nat.shiftLeft_eq, ← Nat.shiftLeft_eq, Nat.shiftLeft_or_distrib]
  rfl

/-- A NaN comes back quiet, with its payload. -/
theorem toBinary32_nan (hs : sign < 2) (hm0 : m ≠ 0) (hm : m < 2 ^ 23) :
    (ofFields sign 2047 (m * 2 ^ 29 ||| 2 ^ 51)).toBinary32 =
      BitVec.ofNat 32 (sign * 2 ^ 31 + (255 * 2 ^ 23 + (m ||| 2 ^ 22))) := by
  have hlt := or_quiet_lt hm
  have hne : m ||| 2 ^ 22 ≠ 0 := by
    rw [ne_eq, Nat.or_eq_zero_iff]
    exact fun h => hm0 h.1
  have hbody : 0x7FC00000 ||| (m ||| 2 ^ 22) = 255 * 2 ^ 23 + (m ||| 2 ^ 22) := by
    have hsplit := Nat.shiftLeft_add_eq_or_of_lt hlt 255
    rw [Nat.shiftLeft_eq] at hsplit
    rw [hsplit, show 0x7FC00000 = 255 * 2 ^ 23 ||| 2 ^ 22 from rfl, Nat.lor_assoc,
      Nat.lor_comm (2 ^ 22), Nat.lor_assoc, Nat.or_self]
  rw [← or_quiet_mul]
  refine toBinary32_ofFields hs (by decide) (by omega) ?_
  rw [if_pos rfl, if_neg (by omega), Nat.mul_div_cancel _ (Nat.two_pow_pos 29), hbody]

end Singles

theorem binary32_fields (f : BitVec 32) : ∃ sign e m, sign < 2 ∧ e < 2 ^ 8 ∧ m < 2 ^ 23 ∧
    f = BitVec.ofNat 32 (sign * 2 ^ 31 + (e * 2 ^ 23 + m)) := by
  have hf := f.isLt
  refine ⟨f.toNat / 2 ^ 31, f.toNat / 2 ^ 23 % 2 ^ 8, f.toNat % 2 ^ 23, by omega, by omega,
    by omega, ?_⟩
  apply BitVec.eq_of_toNat_eq
  rw [BitVec.toNat_ofNat]
  omega

/-- Narrowing keeps the doubles that are singles. -/
theorem ofBinary32_toBinary32_ofBinary32 (f : BitVec 32) :
    ofBinary32 (ofBinary32 f).toBinary32 = ofBinary32 f := by
  obtain ⟨sign, e, m, hs, he, hm, hfields⟩ := binary32_fields f
  have hback (h : (ofFields sign (widenFields e m).1 (widenFields e m).2).toBinary32 = f) :
      ofBinary32 (ofBinary32 f).toBinary32 = ofBinary32 f := by
    rw [hfields, ofBinary32_eq hs he hm, h, hfields, ofBinary32_eq hs he hm]
  by_cases h255 : e = 255
  · subst h255
    by_cases hm0 : m = 0
    · subst hm0
      exact hback (hfields ▸ toBinary32_infinity hs)
    · have hwiden (n : ℕ) (hn : n ≠ 0) : widenFields 255 n = (2047, n * 2 ^ 29 ||| 2 ^ 51) := by
        rw [widenFields, if_pos rfl, if_neg hn]
      have hquiet : m ||| 2 ^ 22 ≠ 0 := by
        rw [ne_eq, Nat.or_eq_zero_iff]
        exact fun h => hm0 h.1
      rw [hfields, ofBinary32_eq hs he hm, hwiden m hm0, toBinary32_nan hs hm0 hm,
        ofBinary32_eq hs he (or_quiet_lt hm), hwiden _ hquiet, or_quiet_mul, Nat.lor_assoc,
        Nat.or_self]
  · refine hback ?_
    by_cases he0 : e = 0
    · subst he0
      by_cases hm0 : m = 0
      · subst hm0
        exact hfields ▸ toBinary32_zero hs
      · rw [widenFields, if_neg h255, if_neg (by simp), if_neg hm0, hfields]
        exact toBinary32_subnormal hs hm0 hm
    · rw [widenFields, if_neg h255, if_pos he0, hfields]
      exact toBinary32_normal hs he0 (by omega) hm

/-- The exact value in units of `2 ^ (-1074)`; a NaN has none. -/
def number (d : Binary64) : Option ℤ := if d.isNaN then none else some d.scaled

/-- The magnitude of a single from its exponent and fraction, in the same units. -/
def magnitude32 (e m : ℕ) : ℕ :=
  if e = 255 then 2 ^ 52 * 2 ^ 2046
  else if e = 0 then m * 2 ^ 925
  else (2 ^ 23 + m) * 2 ^ (e + 924)

/-- The exact value of a binary32 pattern; a NaN has none. -/
def number32 (f : BitVec 32) : Option ℤ :=
  let e := f.toNat / 2 ^ 23 % 2 ^ 8
  let m := f.toNat % 2 ^ 23
  if e = 255 ∧ m ≠ 0 then none
  else some (if 2 ^ 31 ≤ f.toNat then -(magnitude32 e m : ℤ) else magnitude32 e m)

theorem number_eq_some {d : Binary64} {n : ℤ} :
    d.number = some n ↔ d.isNaN = false ∧ d.scaled = n := by
  rw [number]
  cases d.isNaN <;> simp

section Exact

variable {sign e m : ℕ}

theorem widenFields_lt (he : e < 2 ^ 8) (hm : m < 2 ^ 23) :
    (widenFields e m).1 < 2 ^ 11 ∧ (widenFields e m).2 < 2 ^ 52 := by
  rw [widenFields]
  split_ifs with h255 hm0 he0 hm0
  · exact ⟨by decide, by decide⟩
  · exact ⟨show 2047 < _ by decide, Nat.or_lt_two_pow (by omega) (by decide)⟩
  · exact ⟨by omega, by omega⟩
  · exact ⟨by decide, by decide⟩
  · have hlog : m.log2 < 23 := (Nat.log2_lt hm0).2 hm
    exact ⟨by omega, (widen_subnormal hm0 hm).2⟩

theorem widenFields_nan (he : e < 2 ^ 8) (hm : m < 2 ^ 23) :
    (widenFields e m).1 = 2047 ∧ (widenFields e m).2 ≠ 0 ↔ e = 255 ∧ m ≠ 0 := by
  rw [widenFields]
  split_ifs with h255 hm0 he0 hm0
  · simp [hm0]
  · simp [h255, hm0]
  · simp only [h255, false_and, iff_false]
    omega
  · simp [h255]
  · have hlog : m.log2 < 23 := (Nat.log2_lt hm0).2 hm
    simp only [h255, false_and, iff_false]
    omega

theorem magnitude_ofFields (hs : sign < 2) (he : e < 2 ^ 11) (hm : m < 2 ^ 52) :
    (ofFields sign e m).magnitude = if e = 0 then m else (2 ^ 52 + m) * 2 ^ (e - 1) := by
  rw [magnitude, expField_ofFields hs he hm, fracField_ofFields hs he hm]

/-- Widening keeps the magnitude of a number. -/
theorem magnitude_widenFields (hs : sign < 2) (he : e < 2 ^ 8) (hm : m < 2 ^ 23)
    (hnan : ¬(e = 255 ∧ m ≠ 0)) :
    (ofFields sign (widenFields e m).1 (widenFields e m).2).magnitude = magnitude32 e m := by
  obtain ⟨hexp, hfrac⟩ := widenFields_lt he hm
  rw [magnitude_ofFields hs hexp hfrac, magnitude32]
  by_cases h255 : e = 255
  · have hw : widenFields e m = (2047, 0) := by
      rw [widenFields, if_pos h255, if_pos (by_contra fun hm0 => hnan ⟨h255, hm0⟩)]
    rw [if_pos h255, hw, if_neg (by decide), Nat.add_zero,
      show ((2047, 0) : ℕ × ℕ).1 - 1 = 2046 from rfl]
  rw [if_neg h255]
  by_cases he0 : e = 0
  · rw [if_pos he0]
    by_cases hm0 : m = 0
    · have hw : widenFields e m = (0, 0) := by
        rw [widenFields, if_neg h255, if_neg (not_not.2 he0), if_pos hm0]
      rw [hw, if_pos rfl, hm0, Nat.zero_mul]
    · have hlog : m.log2 < 23 := (Nat.log2_lt hm0).2 hm
      have hw : widenFields e m = (m.log2 + 874, (m - 2 ^ m.log2) * 2 ^ (52 - m.log2)) := by
        rw [widenFields, if_neg h255, if_neg (not_not.2 he0), if_neg hm0]
      have hpow : 2 ^ (52 - m.log2) * 2 ^ (m.log2 + 874 - 1) = 2 ^ 925 :=
        (Nat.pow_add 2 _ _).symm.trans (congrArg (2 ^ ·) (by omega))
      rw [hw, if_neg (Nat.succ_ne_zero _), (widen_subnormal hm0 hm).1, Nat.mul_assoc, hpow]
  · have hw : widenFields e m = (e + 896, m * 2 ^ 29) := by
      rw [widenFields, if_neg h255, if_pos he0]
    have hpow : 2 ^ 29 * 2 ^ (e + 896 - 1) = 2 ^ (e + 924) :=
      (Nat.pow_add 2 _ _).symm.trans (congrArg (2 ^ ·) (by omega))
    rw [if_neg he0, hw, if_neg (Nat.succ_ne_zero _),
      show 2 ^ 52 + m * 2 ^ 29 = (2 ^ 23 + m) * 2 ^ 29 by omega, Nat.mul_assoc, hpow]

/-- Widening is exact. -/
theorem number_ofBinary32 (f : BitVec 32) : (ofBinary32 f).number = number32 f := by
  obtain ⟨sign, e, m, hs, he, hm, rfl⟩ := binary32_fields f
  obtain ⟨hexp, hfrac⟩ := widenFields_lt he hm
  have hnat : (BitVec.ofNat 32 (sign * 2 ^ 31 + (e * 2 ^ 23 + m))).toNat =
      sign * 2 ^ 31 + (e * 2 ^ 23 + m) := by
    rw [BitVec.toNat_ofNat]
    omega
  have he' : (sign * 2 ^ 31 + (e * 2 ^ 23 + m)) / 2 ^ 23 % 2 ^ 8 = e := by omega
  have hm' : (sign * 2 ^ 31 + (e * 2 ^ 23 + m)) % 2 ^ 23 = m := by omega
  have hsign : (ofFields sign (widenFields e m).1 (widenFields e m).2).signBit =
      decide (2 ^ 31 ≤ sign * 2 ^ 31 + (e * 2 ^ 23 + m)) := by
    rw [signBit, toNat_ofFields hs hexp hfrac, decide_eq_decide]
    omega
  have hnan : (ofFields sign (widenFields e m).1 (widenFields e m).2).isNaN = true ↔
      e = 255 ∧ m ≠ 0 := by
    rw [isNaN, expField_ofFields hs hexp hfrac, fracField_ofFields hs hexp hfrac,
      ← widenFields_nan he hm]
    simp
  rw [ofBinary32_eq hs he hm, number, number32]
  simp only [hnat, he', hm', hnan]
  by_cases h : e = 255 ∧ m ≠ 0
  · rw [if_pos h, if_pos h]
  · rw [if_neg h, if_neg h, scaled, magnitude_widenFields hs he hm h, hsign]
    simp only [decide_eq_true_eq]

end Exact

/-! ### Rounding to 53 bits -/

/-- The natural number with 53 significant bits nearest to `n`, ties to even.
In units of `2 ^ (-1074)` it is what an operation with exact result `n` returns,
short of the infinity. -/
def nearest (n : ℕ) : ℕ := roundShift n (n.log2 - 52) * 2 ^ (n.log2 - 52)

theorem le_roundShift (n k : ℕ) : n / 2 ^ k ≤ roundShift n k := by
  rw [roundShift]
  split <;> omega

theorem roundShift_le {n k x : ℕ} (h : 2 * n < (2 * x + 1) * 2 ^ k) : roundShift n k ≤ x := by
  have hpos := Nat.two_pow_pos k
  have hn := Nat.div_add_mod n (2 ^ k)
  have hr := Nat.mod_lt n hpos
  rw [roundShift]
  rcases Nat.lt_or_ge (n / 2 ^ k) x with hlt | hge
  · split <;> omega
  · have hq : n / 2 ^ k = x := by
      refine Nat.le_antisymm (Nat.lt_succ_iff.1 ((Nat.div_lt_iff_lt_mul hpos).2 ?_)) hge
      nlinarith
    rw [hq] at hn ⊢
    have hhalf : 2 * (n % 2 ^ k) < 2 ^ k := by nlinarith
    rw [if_neg (by omega)]

theorem nearest_of_lt {n : ℕ} (hn : n < 2 ^ 53) : nearest n = n := by
  have hlog : n.log2 - 52 = 0 := by
    rcases Nat.eq_zero_or_pos n with rfl | hpos
    · rfl
    · have := (Nat.log2_lt (Nat.ne_of_gt hpos)).2 hn
      omega
  simpa [nearest, hlog] using roundShift_mul n 0

theorem le_nearest {n : ℕ} (hn : 2 ^ 53 ≤ n) : 2 ^ 53 ≤ nearest n := by
  have hne : n ≠ 0 := by omega
  have hlog : 53 ≤ n.log2 := (Nat.le_log2 hne).2 hn
  have hfloor : 2 ^ 52 ≤ n / 2 ^ (n.log2 - 52) := by
    rw [Nat.le_div_iff_mul_le (Nat.two_pow_pos _), ← Nat.pow_add]
    simpa [show 52 + (n.log2 - 52) = n.log2 by omega] using Nat.log2_self_le hne
  calc 2 ^ 53 = 2 ^ 52 * 2 ^ 1 := by norm_num
    _ ≤ roundShift n (n.log2 - 52) * 2 ^ (n.log2 - 52) :=
      Nat.mul_le_mul (Nat.le_trans hfloor (le_roundShift _ _))
        (Nat.pow_le_pow_right (by omega) (by omega))

/-- A value above one with 53 significant bits by less than half of its last
place rounds to it or below. -/
theorem nearest_le {n c s : ℕ} (hc : c < 2 ^ 53) (hn : n * 2 ^ 54 ≤ c * 2 ^ s * (2 ^ 54 + 1)) :
    nearest n ≤ c * 2 ^ s := by
  rcases Nat.eq_zero_or_pos n with rfl | hpos
  · simp [nearest, roundShift_zero]
  have hne : n ≠ 0 := Nat.ne_of_gt hpos
  have hcpos : c ≠ 0 := by
    rintro rfl
    omega
  have hlow := Nat.log2_self_le hcpos
  have hhigh : c < 2 ^ (c.log2 + 1) := Nat.lt_log2_self
  -- `n` has at most `53 + s` bits, so that the last place kept divides `2 ^ s`
  have hlog : n.log2 < 53 + s := by
    rw [Nat.log2_lt hne, Nat.pow_add]
    have : c * 2 ^ s * (2 ^ 54 + 1) < 2 ^ 53 * 2 ^ s * 2 ^ 54 := by
      have := Nat.two_pow_pos s
      nlinarith
    exact Nat.lt_of_mul_lt_mul_right (Nat.lt_of_le_of_lt hn this)
  obtain ⟨k, hk⟩ : ∃ k, k = n.log2 - 52 := ⟨_, rfl⟩
  have hsplit : 2 ^ s = 2 ^ (s - k) * 2 ^ k := by
    rw [← Nat.pow_add, Nat.sub_add_cancel (by omega)]
  rw [nearest, ← hk, hsplit, ← Nat.mul_assoc]
  refine Nat.mul_le_mul_right _ (roundShift_le ?_)
  have hval : c * 2 ^ (s - k) * 2 ^ k = c * 2 ^ s := by rw [hsplit, Nat.mul_assoc]
  rw [Nat.add_mul, Nat.mul_assoc 2, hval, Nat.one_mul]
  -- otherwise half a place is at most the excess, and `n` has too few bits
  by_contra hge
  obtain ⟨d, hd⟩ : ∃ d, n = c * 2 ^ s + d := ⟨n - c * 2 ^ s, by have := Nat.two_pow_pos k; omega⟩
  have hbits : 2 ^ (k + 53) < 2 ^ (c.log2 + 1 + s) := by
    rw [Nat.pow_add, Nat.pow_add 2 (c.log2 + 1)]
    have hexcess : d * 2 ^ 54 ≤ c * 2 ^ s := by rw [hd] at hn; nlinarith
    have hcs : c * 2 ^ s < 2 ^ (c.log2 + 1) * 2 ^ s :=
      Nat.mul_lt_mul_of_pos_right hhigh (Nat.two_pow_pos s)
    omega
  have hk' := (Nat.pow_lt_pow_iff_right (by omega : 1 < 2)).1 hbits
  have hn' : c.log2 + s ≤ n.log2 := by
    rw [Nat.le_log2 hne, Nat.pow_add, hd]
    exact Nat.le_trans (Nat.mul_le_mul_right _ hlow) (Nat.le_add_right _ _)
  omega

end Binary64
