import Mathlib.Data.Int.ModEq
import BitLSM.RowLayout

/-!
A fixed slot, written and read back.

The writer copies the low `width` bytes of a number, and the reader extends
them again, so that a slot gives back its value cut down to the width. The
values a slot keeps are those in the range of its width.
-/

namespace BitLSM

open Wire

/-- What a slot gives back: the value cut down to the width. -/
def AttrView.narrow (s : AttrSpec) : AttrView → AttrView
  | .null => .null
  | .int x => .int (Int64.ofInt (Int.bmod x.toInt (2 ^ (8 * s.width.toNat))))
  | .uint x => .uint (UInt64.ofNat (x.toNat % 2 ^ (8 * s.width.toNat)))
  | .float d => .float (if s.width = 8 then d else Binary64.ofBinary32 d.toBinary32)
  | .bytes b => .bytes (if s.physicalType = .binary then b.take s.width.toNat else b)

/-- The value is in the range of its attribute's width. -/
def AttrView.InWidth (s : AttrSpec) : AttrView → Prop
  | .null => True
  | .int x => -2 ^ (8 * s.width.toNat - 1) ≤ x.toInt ∧ x.toInt < 2 ^ (8 * s.width.toNat - 1)
  | .uint x => x.toNat < 2 ^ (8 * s.width.toNat)
  | .float d => s.width = 8 ∨ ∃ f, d = Binary64.ofBinary32 f
  | .bytes b => s.physicalType = .binary → b.length = s.width.toNat

theorem pow_256 (w : ℕ) : 256 ^ w = 2 ^ (8 * w) := by
  rw [pow_mul]
  rfl

theorem loadRaw_leBytes {w : UInt16} (n : ℕ) (rest : Bytes) (hw : w.toNat ≤ 8) :
    (loadRaw (leBytes w.toNat n ++ rest) w).toNat = n % 2 ^ (8 * w.toNat) := by
  have hlt : n % 2 ^ (8 * w.toNat) < 2 ^ 64 := by
    refine lt_of_lt_of_le (Nat.mod_lt _ (Nat.two_pow_pos _)) (Nat.pow_le_pow_right (by decide) ?_)
    omega
  rw [loadRaw, List.take_left' (length_leBytes _ _), leVal_leBytes, pow_256, UInt64.toNat_ofNat',
    Nat.mod_eq_of_lt hlt]

/-- Sign extension of a number below `2 ^ k`, in 64 bits. -/
theorem toNat_signExtend {raw : UInt64} {w : UInt16} (hw0 : 0 < w.toNat) (hw : w.toNat < 8)
    (hraw : raw.toNat < 2 ^ (8 * w.toNat)) :
    (signExtend raw w).toNat = if raw.toNat < 2 ^ (8 * w.toNat - 1) then raw.toNat
      else raw.toNat + (2 ^ 64 - 2 ^ (8 * w.toNat)) := by
  obtain ⟨k, hk⟩ : ∃ k, w.toNat * 8 = k := ⟨_, rfl⟩
  rw [Nat.mul_comm, hk] at hraw
  rw [Nat.mul_comm 8, hk]
  have hpow : 2 ^ k = 2 * 2 ^ (k - 1) := by
    rw [← pow_succ']
    congr 1
    omega
  have hk64 : 2 ^ k ≤ 2 ^ 56 := Nat.pow_le_pow_right (by decide) (by omega)
  have hshift (n : ℕ) (hn : n < 64) : ((1 : UInt64) <<< UInt64.ofNat n).toNat = 2 ^ n := by
    have hmod : (UInt64.ofNat n).toNat % 64 = n := by
      rw [UInt64.toNat_ofNat']
      omega
    rw [UInt64.toNat_shiftLeft, hmod]
    show 1 <<< n % 2 ^ 64 = _
    rw [Nat.one_shiftLeft, Nat.mod_eq_of_lt (Nat.pow_lt_pow_right (by decide) hn)]
  have hbit : raw &&& 1 <<< UInt64.ofNat (k - 1) ≠ 0 ↔ 2 ^ (k - 1) ≤ raw.toNat := by
    rw [ne_eq, ← UInt64.toNat_inj, UInt64.toNat_and, hshift _ (by omega), Nat.and_two_pow]
    show ¬ _ * _ = 0 ↔ _
    rw [Nat.testBit_eq_decide_div_mod_eq]
    have hdiv : raw.toNat / 2 ^ (k - 1) < 2 := Nat.div_lt_of_lt_mul (by omega)
    have hpos := Nat.two_pow_pos (k - 1)
    have hle : 1 ≤ raw.toNat / 2 ^ (k - 1) ↔ 2 ^ (k - 1) ≤ raw.toNat := by
      rw [Nat.le_div_iff_mul_le hpos, Nat.one_mul]
    generalize raw.toNat / 2 ^ (k - 1) = q at hdiv hle ⊢
    rw [← hle]
    obtain rfl | rfl : q = 0 ∨ q = 1 := by omega
    · simp
    · simp
  have hmask : (~~~(1 <<< UInt64.ofNat k - 1 : UInt64)).toNat = 2 ^ 64 - 2 ^ k := by
    rw [UInt64.toNat_not, UInt64.toNat_sub_of_le, hshift k (by omega)]
    · show 2 ^ 64 - 1 - (2 ^ k - 1) = _
      omega
    · rw [UInt64.le_iff_toNat_le, hshift k (by omega)]
      exact Nat.one_le_two_pow
  have hor : raw.toNat ||| (2 ^ 64 - 2 ^ k) = raw.toNat + (2 ^ 64 - 2 ^ k) := by
    have hhigh : 2 ^ 64 - 2 ^ k = (2 ^ (64 - k) - 1) <<< k := by
      rw [Nat.shiftLeft_eq, Nat.sub_mul, ← pow_add, Nat.one_mul]
      congr 2
      omega
    rw [hhigh, Nat.lor_comm, ← Nat.shiftLeft_add_eq_or_of_lt hraw, Nat.add_comm]
  have hlt : w < 8 := by
    rw [UInt16.lt_iff_toNat_lt]
    exact hw
  rw [signExtend, if_pos hlt]
  simp only [hk]
  by_cases hneg : 2 ^ (k - 1) ≤ raw.toNat
  · rw [if_pos (hbit.2 hneg), if_neg (by omega), UInt64.toNat_or, hmask, hor]
  · rw [if_neg (mt hbit.1 hneg), if_pos (by omega)]

theorem AttrSpec.width_of_valid_int {s : AttrSpec} (h : s.valid = true)
    (hp : s.physicalType = .int ∨ s.physicalType = .uint) :
    0 < s.width.toNat ∧ s.width.toNat ≤ 8 := by
  have hw : s.width = 1 ∨ s.width = 2 ∨ s.width = 4 ∨ s.width = 8 := by
    rcases hp with hp | hp <;> simpa [AttrSpec.valid, hp, or_assoc] using h
  rcases hw with hw | hw | hw | hw <;> rw [hw] <;> decide

theorem toInt_toInt64 (u : UInt64) : u.toInt64.toInt = Int.bmod u.toNat (2 ^ 64) :=
  BitVec.toInt_eq_toNat_bmod u.toBitVec

theorem toInt_eq_bmod (x : Int64) : x.toInt = Int.bmod x.toUInt64.toNat (2 ^ 64) :=
  BitVec.toInt_eq_toNat_bmod x.toBitVec

theorem toInt_ofInt_bmod (i : ℤ) : (Int64.ofInt i).toInt = Int.bmod i (2 ^ 64) :=
  Int64.toInt_ofInt

/-- Sign extension reads the low `8 * w` bits in two's complement. -/
theorem toInt_signExtend {raw : UInt64} {w : UInt16} (hw0 : 0 < w.toNat) (hw : w.toNat ≤ 8)
    (hraw : raw.toNat < 2 ^ (8 * w.toNat)) :
    (signExtend raw w).toInt64.toInt = Int.bmod raw.toNat (2 ^ (8 * w.toNat)) := by
  rw [toInt_toInt64]
  rcases Nat.lt_or_ge w.toNat 8 with hlt | hge
  · rw [toNat_signExtend hw0 hlt hraw]
    have hpow : 2 ^ (8 * w.toNat) = 2 * 2 ^ (8 * w.toNat - 1) := by
      rw [← pow_succ']
      congr 1
      omega
    have hle : 2 ^ (8 * w.toNat) ≤ 2 ^ 64 := Nat.pow_le_pow_right (by decide) (by omega)
    generalize 2 ^ (8 * w.toNat) = K at *
    generalize 2 ^ (8 * w.toNat - 1) = H at *
    split
    · rw [Int.bmod_eq_of_le (by omega) (by omega), Int.bmod_eq_of_le (by omega) (by omega)]
    · -- both are `raw - K`
      have hwrap : ((raw.toNat + (2 ^ 64 - K) : ℕ) : ℤ) = raw.toNat - (K : ℤ) + (2 ^ 64 : ℕ) := by
        omega
      have hself : (raw.toNat : ℤ) = raw.toNat - (K : ℤ) + (K : ℕ) := by omega
      rw [hwrap, Int.add_bmod_right, hself, Int.add_bmod_right,
        Int.bmod_eq_of_le (by omega) (by omega), Int.bmod_eq_of_le (by omega) (by omega)]
      omega
  · have hw8 : w.toNat = 8 := by omega
    rw [signExtend, if_neg (by rw [UInt16.lt_iff_toNat_lt, hw8]; decide), hw8]

theorem signExtend_loadRaw {w : UInt16} (x : Int64) (rest : Bytes) (hw0 : 0 < w.toNat)
    (hw : w.toNat ≤ 8) :
    (signExtend (loadRaw (leBytes w.toNat x.toUInt64.toNat ++ rest) w) w).toInt64 =
      Int64.ofInt (Int.bmod x.toInt (2 ^ (8 * w.toNat))) := by
  have hraw := loadRaw_leBytes x.toUInt64.toNat rest hw
  have hdvd : 2 ^ (8 * w.toNat) ∣ 2 ^ 64 := Nat.pow_dvd_pow 2 (by omega)
  have hlow := @Int.le_bmod x.toInt _ (Nat.two_pow_pos (8 * w.toNat))
  have hhigh := @Int.bmod_lt x.toInt _ (Nat.two_pow_pos (8 * w.toNat))
  have hle : 2 ^ (8 * w.toNat) ≤ 2 ^ 64 := Nat.le_of_dvd (Nat.two_pow_pos _) hdvd
  have hself : Int.bmod (Int.bmod x.toInt (2 ^ (8 * w.toNat))) (2 ^ 64) =
      Int.bmod x.toInt (2 ^ (8 * w.toNat)) := Int.bmod_eq_of_le (by omega) (by omega)
  rw [← Int64.toInt_inj,
    toInt_signExtend hw0 hw (by rw [hraw]; exact Nat.mod_lt _ (Nat.two_pow_pos _)), hraw,
    toInt_ofInt_bmod, hself, toInt_eq_bmod, Int.bmod_bmod_of_dvd hdvd, Int.natCast_mod,
    Int.emod_bmod]

/-- An integer slot keeps an integer exactly when it is in range. -/
theorem narrow_int_eq_iff {s : AttrSpec} (x : Int64) (hw0 : 0 < s.width.toNat)
    (hw : s.width.toNat ≤ 8) : AttrView.narrow s (.int x) = .int x ↔ AttrView.InWidth s
        (.int x) := by
  have hpow : 2 ^ (8 * s.width.toNat) = 2 * 2 ^ (8 * s.width.toNat - 1) := by
    rw [← pow_succ']
    congr 1
    omega
  have hpos := Nat.two_pow_pos (8 * s.width.toNat)
  have hle : 2 ^ (8 * s.width.toNat) ≤ 2 ^ 64 := Nat.pow_le_pow_right (by decide) (by omega)
  have hlow := @Int.le_bmod x.toInt _ hpos
  have hhigh := @Int.bmod_lt x.toInt _ hpos
  rw [AttrView.narrow, AttrView.InWidth, AttrView.int.injEq, ← Int64.toInt_inj, toInt_ofInt_bmod,
    Int.bmod_eq_of_le (by omega) (by omega)]
  have hcast : ((2 ^ (8 * s.width.toNat - 1) : ℕ) : ℤ) = 2 ^ (8 * s.width.toNat - 1) := by
    push_cast
    rfl
  rw [← hcast]
  generalize 2 ^ (8 * s.width.toNat) = K at *
  generalize 2 ^ (8 * s.width.toNat - 1) = H at *
  constructor
  · intro h
    rw [h] at hlow hhigh
    omega
  · rintro ⟨h₁, h₂⟩
    exact Int.bmod_eq_of_le (by omega) (by omega)

theorem narrow_uint_eq_iff {s : AttrSpec} (x : UInt64) :
    AttrView.narrow s (.uint x) = .uint x ↔ AttrView.InWidth s (.uint x) := by
  have hx : x.toNat < 2 ^ 64 := x.toNat_lt
  have hmod := Nat.mod_le x.toNat (2 ^ (8 * s.width.toNat))
  rw [AttrView.narrow, AttrView.InWidth, AttrView.uint.injEq, ← UInt64.toNat_inj,
    UInt64.toNat_ofNat', Nat.mod_eq_of_lt (by omega)]
  constructor
  · intro h
    rw [← h]
    exact Nat.mod_lt _ (Nat.two_pow_pos _)
  · exact Nat.mod_eq_of_lt

theorem AttrView.eq_int_of_fits {x : Int64} {p : PhysicalType}
    (h : (AttrView.int x).fits p = true) : p = .int := by
  cases p with
  | int => rfl
  | uint | float | binary | varBinary => cases h

theorem AttrView.narrow_of_inWidth {s : AttrSpec} {v : AttrView} (hvalid : s.valid = true)
    (hfits : v.fits s.physicalType = true) (h : v.InWidth s) : v.narrow s = v := by
  cases v with
  | null => rfl
  | int x =>
      obtain ⟨hw0, hw⟩ := s.width_of_valid_int hvalid (Or.inl (eq_int_of_fits hfits))
      exact (narrow_int_eq_iff x hw0 hw).2 h
  | uint x => exact (narrow_uint_eq_iff x).2 h
  | float d =>
      rw [narrow]
      by_cases hw : s.width = 8
      · rw [if_pos hw]
      · obtain ⟨f, rfl⟩ := h.resolve_left hw
        rw [if_neg hw, Binary64.ofBinary32_toBinary32_ofBinary32]
  | bytes b =>
      rw [narrow]
      split
      · next hp => rw [← h hp, List.take_length]
      · rfl

/-- A slot of `width` bytes, read back whatever follows it. -/
theorem encodeFixed_spec {s : AttrSpec} {v : AttrView} (hvalid : s.valid = true)
    (hfixed : s.isFixed = true) (hfits : v.fits s.physicalType = true)
    (hlong : ∀ b, v = .bytes b → s.width.toNat ≤ b.length) :
    ∃ bs, encodeFixed v s = some bs ∧ bs.length = s.width.toNat ∧
      ∀ rest, decodeFixed (bs ++ rest) s = v.narrow s := by
  cases hp : s.physicalType with
  | int =>
      obtain ⟨x, rfl⟩ : ∃ x, v = .int x := by cases v <;> simp_all [AttrView.fits]
      obtain ⟨hw0, hw⟩ := s.width_of_valid_int hvalid (Or.inl hp)
      refine ⟨leBytes s.width.toNat x.toUInt64.toNat, by simp only [encodeFixed, hp],
        length_leBytes _ _, fun rest => ?_⟩
      simp only [decodeFixed, hp]
      rw [signExtend_loadRaw x rest hw0 hw]
      rfl
  | uint =>
      obtain ⟨x, rfl⟩ : ∃ x, v = .uint x := by cases v <;> simp_all [AttrView.fits]
      obtain ⟨-, hw⟩ := s.width_of_valid_int hvalid (Or.inr hp)
      refine ⟨leBytes s.width.toNat x.toNat, by simp only [encodeFixed, hp], length_leBytes _ _,
        fun rest => ?_⟩
      simp only [decodeFixed, hp, AttrView.narrow]
      rw [← loadRaw_leBytes x.toNat rest hw, UInt64.ofNat_toNat]
  | float =>
      obtain ⟨d, rfl⟩ : ∃ d, v = .float d := by cases v <;> simp_all [AttrView.fits]
      by_cases hw : s.width = 8
      · refine ⟨leBytes 8 d.bits.toNat, by simp only [encodeFixed, hp, hw, if_true], ?_,
          fun rest => ?_⟩
        · rw [length_leBytes, hw]
          rfl
        · simp only [decodeFixed, hp, hw, if_true, AttrView.narrow, loadDouble]
          rw [List.take_left' (length_leBytes _ _), leVal_leBytes,
            Nat.mod_eq_of_lt (show d.bits.toNat < 256 ^ 8 from d.bits.isLt), BitVec.ofNat_toNat,
            BitVec.setWidth_eq]
      · have hw4 : s.width = 4 := by
          simpa [AttrSpec.valid, hp, hw] using hvalid
        refine ⟨leBytes 4 d.toBinary32.toNat, by simp [encodeFixed, hp, hw4], ?_, fun rest => ?_⟩
        · rw [length_leBytes, hw4]
          rfl
        · simp only [decodeFixed, hp, hw, if_false, AttrView.narrow]
          rw [List.take_left' (length_leBytes _ _), leVal_leBytes,
            Nat.mod_eq_of_lt (show d.toBinary32.toNat < 256 ^ 4 from d.toBinary32.isLt),
            BitVec.ofNat_toNat, BitVec.setWidth_eq]
  | binary =>
      obtain ⟨b, rfl⟩ : ∃ b, v = .bytes b := by cases v <;> simp_all [AttrView.fits]
      have hle := hlong b rfl
      have hslice : slice b 0 s.width.toNat = b.take s.width.toNat := rfl
      refine ⟨b.take s.width.toNat, ?_, List.length_take_of_le hle, fun rest => ?_⟩
      · simp only [encodeFixed, hp]
        rw [readAt, if_pos (by omega), hslice]
      · simp only [decodeFixed, hp, AttrView.narrow, if_true]
        rw [List.take_left' (List.length_take_of_le hle)]
  | varBinary => simp [AttrSpec.isFixed, hp] at hfixed

end BitLSM
