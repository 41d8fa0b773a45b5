import BitLSM.RowSlot
import BitLSM.Builder.RangeBuf

/-!
The okey encoding as an order embedding, from the bytes of a slot on.

A numeric slot spells a number: an integer in two's complement or unsigned, or
an IEEE value, which as a multiple of `2 ^ (-1074)` is an integer too. The
decoder widens the slot to 64 bits, the okey flips bits of the widened pattern
and the index keeps the eight bytes of the okey. Byte strings made this way
compare as the numbers do, whether the other side is a slot of the same
attribute or a query's comparand. A NaN is no number and is outside the order.

The maps back from okeys, which the dump uses, undo the encoding up to the sign
of a zero.
-/

namespace BitLSM

open Wire

def okeyToI64 (okey : UInt64) : Int64 := (okey ^^^ 0x8000000000000000).toInt64

def okeyToF64 (okey : UInt64) : Binary64 :=
  let u := if okey &&& 0x8000000000000000 ≠ 0 then okey ^^^ 0x8000000000000000 else ~~~okey
  ⟨u.toBitVec⟩

/-! ### Numbers -/

/-- The number a decoded scalar is. -/
def AttrView.number : AttrView → Option ℤ
  | .int x => some x.toInt
  | .uint x => some x.toNat
  | .float d => d.number
  | .null | .bytes _ => none

/-- The number the bytes of a slot spell, whatever follows them. -/
def AttrSpec.slotNumber (s : AttrSpec) (src : Bytes) : Option ℤ :=
  let raw := leVal (src.take s.width.toNat)
  match s.physicalType with
  | .int => some (Int.bmod raw (2 ^ (8 * s.width.toNat)))
  | .uint => some raw
  | .float =>
      if s.width = 8 then Binary64.number ⟨BitVec.ofNat 64 raw⟩
      else Binary64.number32 (BitVec.ofNat 32 raw)
  | .binary | .varBinary => none

/-- `lhs <op> rhs` in the scalars' own type. -/
def AttrView.compareNative (op : CompareOp) : AttrView → AttrView → Option Bool
  | .int x, .int y => some (applyCompareOp op x y)
  | .uint x, .uint y => some (applyCompareOp op x y)
  | .float x, .float y => some (applyCompareOp op x y)
  | _, _ => none

/-- A comparand as a scalar of its own type. -/
def Comparand.view : Comparand → AttrView
  | .int x => .int x
  | .uint x => .uint x
  | .float d => .float d
  | .bytes s => .bytes s

/-- What a stored value is compared with. -/
inductive Operand where
  | slot (src : Bytes)
  | comparand (c : Comparand)

namespace Operand

variable (s : AttrSpec)

/-- A comparand has the alternative of the attribute. -/
def Fits : Operand → Prop
  | slot _ => True
  | comparand c => c.fits s.physicalType = true

def view : Operand → AttrView
  | slot src => decodeFixed src s
  | comparand c => c.view

def number : Operand → Option ℤ
  | slot src => s.slotNumber src
  | comparand c => c.view.number

/-- The operand's okey in the index's byte domain. -/
def bytes : Operand → Option Bytes
  | slot src => (numericToOkey (decodeFixed src s)).map okeyToBytes
  | comparand c => some (comparandBytes c)

end Operand

/-! ### Decoding keeps the number -/

theorem loadRaw_toNat {src : Bytes} {w : UInt16} (hw : w.toNat ≤ 8) :
    (loadRaw src w).toNat = leVal (src.take w.toNat) ∧
      (loadRaw src w).toNat < 2 ^ (8 * w.toNat) := by
  have hlt : leVal (src.take w.toNat) < 2 ^ (8 * w.toNat) := by
    rw [← pow_256]
    exact (leVal_lt _).trans_le (Nat.pow_le_pow_right (by decide) (List.length_take_le _ _))
  have hle : 2 ^ (8 * w.toNat) ≤ 2 ^ 64 := Nat.pow_le_pow_right (by decide) (by omega)
  have hval : (loadRaw src w).toNat = leVal (src.take w.toNat) := by
    rw [loadRaw, UInt64.toNat_ofNat', Nat.mod_eq_of_lt (by omega)]
  exact ⟨hval, by omega⟩

theorem decodeFixed_number {s : AttrSpec} (hvalid : s.valid = true) (hnum : s.isNumeric = true)
    (src : Bytes) : (decodeFixed src s).number = s.slotNumber src := by
  unfold decodeFixed AttrSpec.slotNumber
  cases hp : s.physicalType with
  | int =>
      obtain ⟨hw0, hw⟩ := s.width_of_valid_int hvalid (Or.inl hp)
      obtain ⟨hval, hlt⟩ := @loadRaw_toNat src s.width hw
      simp only [AttrView.number]
      rw [toInt_signExtend hw0 hw hlt, hval]
  | uint =>
      obtain ⟨-, hw⟩ := s.width_of_valid_int hvalid (Or.inr hp)
      simp only [AttrView.number]
      rw [(loadRaw_toNat hw).1]
  | float =>
      by_cases hw : s.width = 8
      · simp only [hw, if_true]
        rfl
      · have hw4 : s.width = 4 := by simpa [AttrSpec.valid, hp, hw] using hvalid
        simp only [hw, if_false, AttrView.number, Binary64.number_ofBinary32]
        rw [hw4]
        rfl
  | binary => simp [AttrSpec.isNumeric, hp] at hnum
  | varBinary => simp [AttrSpec.isNumeric, hp] at hnum

/-! ### Okeys order as the numbers do -/

/-- Two okeys are related as two numbers are. -/
structure OrderedAs (k l : UInt64) (m n : ℤ) : Prop where
  lt : k.toNat < l.toNat ↔ m < n
  eq : k.toNat = l.toNat ↔ m = n

theorem i64ToOkey_orderedAs (x y : Int64) :
    OrderedAs (i64ToOkey x) (i64ToOkey y) x.toInt y.toInt := by
  have hx := i64ToOkey_toNat x
  have hy := i64ToOkey_toNat y
  exact ⟨by omega, by omega⟩

theorem u64ToOkey_orderedAs (x y : UInt64) :
    OrderedAs (u64ToOkey x) (u64ToOkey y) x.toNat y.toNat :=
  ⟨Int.ofNat_lt.symm, Int.ofNat_inj.symm⟩

theorem f64ToOkey_orderedAs (x y : Binary64) :
    OrderedAs (f64ToOkey x) (f64ToOkey y) x.scaled y.scaled :=
  ⟨f64ToOkey_lt_iff.trans Binary64.scaled_lt_iff.symm,
    f64ToOkey_eq_iff.trans Binary64.scaled_eq_iff.symm⟩

/-- Two scalars of one type, and what their okeys and their own order say. -/
theorem numericToOkey_orderedAs {v w : AttrView} {p : PhysicalType} (hv : v.fits p = true)
    (hw : w.fits p = true) {m n : ℤ} (hm : v.number = some m) (hn : w.number = some n) :
    ∃ k l, numericToOkey v = some k ∧ numericToOkey w = some l ∧ OrderedAs k l m n ∧
      ∀ op, v.compareNative op w =
        some (applyCompareOp op (okeyToBytes k) (okeyToBytes l)) := by
  cases v with
  | null => cases hm
  | bytes _ => cases hm
  | int x =>
      obtain ⟨y, rfl⟩ : ∃ y, w = .int y := by
        rw [AttrView.eq_int_of_fits hv] at hw
        cases w <;> simp_all [AttrView.fits]
      obtain rfl := Option.some.inj hm
      obtain rfl := Option.some.inj hn
      exact ⟨_, _, rfl, rfl, i64ToOkey_orderedAs x y, fun op =>
        congrArg some (applyCompareOp_i64 op x y)⟩
  | uint x =>
      obtain ⟨y, rfl⟩ : ∃ y, w = .uint y := by
        cases p <;> cases w <;> simp_all [AttrView.fits]
      obtain rfl := Option.some.inj hm
      obtain rfl := Option.some.inj hn
      exact ⟨_, _, rfl, rfl, u64ToOkey_orderedAs x y, fun op =>
        congrArg some (applyCompareOp_u64 op x y)⟩
  | float x =>
      obtain ⟨y, rfl⟩ : ∃ y, w = .float y := by
        cases p <;> cases w <;> simp_all [AttrView.fits]
      obtain ⟨hx, rfl⟩ := Binary64.number_eq_some.1 hm
      obtain ⟨hy, rfl⟩ := Binary64.number_eq_some.1 hn
      exact ⟨_, _, rfl, rfl, f64ToOkey_orderedAs x y, fun op =>
        congrArg some (applyCompareOp_f64 op hx hy)⟩

/-! ### The maps back -/

theorem okeyFromBytes_okeyToBytes (k : UInt64) : okeyFromBytes (okeyToBytes k) = k := by
  have hlen : (okeyToBytes k).length = 8 := length_leBytes 8 _
  exact UInt64.toNat_inj.1 (okeyToBytes_inj.1 (okeyToBytes_okeyFromBytes hlen))

theorem okeyToI64_i64ToOkey (x : Int64) : okeyToI64 (i64ToOkey x) = x := by
  rw [okeyToI64, i64ToOkey, UInt64.xor_assoc, UInt64.xor_self, UInt64.xor_zero]
  rfl

/-- A pattern is flipped back as it was flipped: the top bit says which way. -/
theorem okeyToF64_f64ToOkey (d : Binary64) :
    okeyToF64 (f64ToOkey d) = if d == ⟨0⟩ then ⟨0⟩ else d := by
  rw [f64ToOkey]
  generalize (if d == ⟨0⟩ then (⟨0⟩ : Binary64) else d) = c
  obtain ⟨bits⟩ := c
  obtain ⟨u, rfl⟩ : ∃ u : UInt64, u.toBitVec = bits := ⟨⟨bits⟩, rfl⟩
  have hlt := u.toNat_lt
  show okeyToF64 (if u &&& 0x8000000000000000 ≠ 0 then ~~~u else u ^^^ 0x8000000000000000) = _
  rw [okeyToF64]
  by_cases hneg : u &&& 0x8000000000000000 ≠ 0
  · have hback : ¬ (~~~u) &&& 0x8000000000000000 ≠ 0 := by
      rw [and_top_bit_ne_zero, UInt64.toNat_not]
      have := (and_top_bit_ne_zero u).1 hneg
      simp only [UInt64.size]
      omega
    simp only [if_pos hneg, if_neg hback, UInt64.not_not]
  · have hback : (u ^^^ 0x8000000000000000) &&& 0x8000000000000000 ≠ 0 := by
      have hxor : (u ^^^ 0x8000000000000000).toNat = u.toNat ^^^ 2 ^ 63 := rfl
      have := mt (and_top_bit_ne_zero u).2 hneg
      rw [and_top_bit_ne_zero, hxor, xor_top_bit _ hlt, if_pos (by omega)]
      omega
    simp only [if_neg hneg, if_pos hback, UInt64.xor_assoc, UInt64.xor_self, UInt64.xor_zero]

/-! ### The embedding -/

theorem Operand.view_fits {s : AttrSpec} (hnum : s.isNumeric = true) {b : Operand}
    (h : b.Fits s) : (b.view s).fits s.physicalType = true := by
  cases b with
  | slot src =>
      refine decodeFixed_fits src ?_
      cases hp : s.physicalType <;> simp_all [AttrSpec.isFixed, AttrSpec.isNumeric]
  | comparand c =>
      have hfits : c.view.fits s.physicalType = c.fits s.physicalType := by
        cases c <;> cases s.physicalType <;> rfl
      exact hfits.trans h

theorem Operand.view_number {s : AttrSpec} (hvalid : s.valid = true) (hnum : s.isNumeric = true)
    (b : Operand) : (b.view s).number = b.number s := by
  cases b with
  | slot src => exact decodeFixed_number hvalid hnum src
  | comparand c => rfl

theorem Operand.bytes_eq {s : AttrSpec} {b : Operand} {k : UInt64}
    (h : numericToOkey (b.view s) = some k) : b.bytes s = some (okeyToBytes k) := by
  cases b with
  | slot src => exact congrArg (Option.map okeyToBytes) h
  | comparand c => cases c <;> cases h <;> rfl

/-- Byte order of okeys is the order of the numbers in the slots and the order
the scalars have natively, and the maps back undo the encoding. -/
theorem okey_order_embedding :
    (∀ s : AttrSpec, s.valid = true → s.isNumeric = true →
      ∀ (a : Bytes) (b : Operand), b.Fits s →
      ∀ m n, s.slotNumber a = some m → b.number s = some n →
      ∃ x y, (Operand.slot a).bytes s = some x ∧ b.bytes s = some y ∧
        x.length = 8 ∧ y.length = 8 ∧
        (x < y ↔ m < n) ∧ (x = y ↔ m = n) ∧ (y < x ↔ n < m) ∧
        ∀ op, (decodeFixed a s).compareNative op (b.view s) = some (applyCompareOp op x y)) ∧
    (∀ k, okeyFromBytes (okeyToBytes k) = k) ∧
    (∀ x, okeyToI64 (i64ToOkey x) = x) ∧
    ∀ d : Binary64, okeyToF64 (f64ToOkey d) = if d == ⟨0⟩ then ⟨0⟩ else d := by
  refine ⟨?_, okeyFromBytes_okeyToBytes, okeyToI64_i64ToOkey, okeyToF64_f64ToOkey⟩
  intro s hvalid hnum a b hb m n hm hn
  have hview (b : Operand) := b.view_number hvalid hnum
  obtain ⟨k, l, hk, hl, hord, hnative⟩ := numericToOkey_orderedAs
    (Operand.view_fits hnum (b := .slot a) trivial) (Operand.view_fits hnum hb)
    ((hview _).trans hm) ((hview b).trans hn)
  refine ⟨okeyToBytes k, okeyToBytes l, Operand.bytes_eq hk, Operand.bytes_eq hl,
    length_leBytes 8 _, length_leBytes 8 _, ?_, ?_, ?_, hnative⟩
  · rw [okeyToBytes_lt_iff, hord.lt]
  · rw [okeyToBytes_inj, hord.eq]
  · have hlt := hord.lt
    have heq := hord.eq
    rw [okeyToBytes_lt_iff]
    omega

/-- A two-byte `-2` against the comparand `1`. -/
theorem okey_order_embedding_minusTwo :
    let s : AttrSpec := ⟨.range, .int, 2, true⟩
    ∃ x y, (Operand.slot [0xFE, 0xFF]).bytes s = some x ∧
      (Operand.comparand (.int 1)).bytes s = some y ∧ x < y := by
  intro s
  obtain ⟨x, y, hx, hy, -, -, hlt, -⟩ := okey_order_embedding.1 s (by decide) (by decide)
    [0xFE, 0xFF] (.comparand (.int 1)) rfl (-2) 1 (by decide) (by decide)
  exact ⟨x, y, hx, hy, hlt.2 (by decide)⟩

end BitLSM
