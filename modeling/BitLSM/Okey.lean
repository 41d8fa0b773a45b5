import Mathlib.Data.Nat.Bitwise
import BitLSM.Query

/-!
The order-preserving encoding of attributes into byte strings.

SABI orders every attribute by `memcmp`. A numeric scalar is mapped to an
unsigned 64-bit key, the okey, and enters the byte domain as its eight
big-endian bytes; binary attributes enter as they are. The results here say
that byte order is value order: integers by flipping the sign bit, doubles
by reading the pattern as sign and magnitude, with both zeros on one key.
-/

namespace BitLSM

open Wire

def u64ToOkey (x : UInt64) : UInt64 := x

def i64ToOkey (x : Int64) : UInt64 := x.toUInt64 ^^^ 0x8000000000000000

def f64ToOkey (d : Binary64) : UInt64 :=
  -- `-0.0` becomes `+0.0`
  let d := if d == ⟨0⟩ then ⟨0⟩ else d
  let u : UInt64 := ⟨d.bits⟩
  if u &&& 0x8000000000000000 ≠ 0 then ~~~u else u ^^^ 0x8000000000000000

def bswap64 (x : UInt64) : UInt64 := UInt64.ofNat (leVal (leBytes 8 x.toNat).reverse)

def okeyToBytes (okey : UInt64) : Bytes := leBytes 8 (bswap64 okey).toNat

/-- The okey of a decoded scalar; the caller guarantees it is numeric. -/
def numericToOkey : AttrView → Option UInt64
  | .int x => some (i64ToOkey x)
  | .uint x => some (u64ToOkey x)
  | .float d => some (f64ToOkey d)
  | _ => none

def comparandBytes : Comparand → Bytes
  | .bytes s => s
  | .int x => okeyToBytes (i64ToOkey x)
  | .uint x => okeyToBytes (u64ToOkey x)
  | .float d => okeyToBytes (f64ToOkey d)

/-- An attribute in the byte domain; `none` is NULL. -/
abbrev EncodedAttr := Option Bytes

def encodeAttrView (v : AttrView) : Option EncodedAttr :=
  match v with
  | .null => some none
  | .bytes s => some (some s)
  | v => (numericToOkey v).map fun k => some (okeyToBytes k)

/-- The row's attributes in schema order. -/
def extractAll (layout : ValueLayout) (row : Bytes) : Option (List EncodedAttr) :=
  (List.range layout.slot.length).mapM fun i =>
    (decodeAttr layout row (UInt32.ofNat i)).bind encodeAttrView

/-! ### Keys as integers -/

theorem okeyToBytes_eq (k : UInt64) : okeyToBytes k = beBytes 8 k.toNat := by
  have hlt := leVal_lt (leBytes 8 k.toNat).reverse
  rw [List.length_reverse, length_leBytes] at hlt
  have hmod : leVal (leBytes 8 k.toNat).reverse % 2 ^ 64 = leVal (leBytes 8 k.toNat).reverse :=
    Nat.mod_eq_of_lt (by simpa using hlt)
  have hself := leBytes_leVal (leBytes 8 k.toNat).reverse
  rw [List.length_reverse, length_leBytes] at hself
  rw [okeyToBytes, bswap64, UInt64.toNat_ofNat', hmod, hself, beBytes]

theorem okeyToBytes_lt_iff {k l : UInt64} :
    okeyToBytes k < okeyToBytes l ↔ k.toNat < l.toNat := by
  rw [okeyToBytes_eq, okeyToBytes_eq]
  exact beBytes_lt_iff k.toNat_lt l.toNat_lt

theorem okeyToBytes_inj {k l : UInt64} : okeyToBytes k = okeyToBytes l ↔ k.toNat = l.toNat := by
  rw [okeyToBytes_eq, okeyToBytes_eq]
  exact beBytes_inj k.toNat_lt l.toNat_lt

/-- Flipping the top bit of a 64-bit number. -/
theorem xor_top_bit (n : ℕ) (h : n < 2 ^ 64) :
    n ^^^ 2 ^ 63 = if n < 2 ^ 63 then n + 2 ^ 63 else n - 2 ^ 63 := by
  have hdiv : (n ^^^ 2 ^ 63) / 2 ^ 63 = n / 2 ^ 63 ^^^ 1 := by
    rw [Nat.xor_div_two_pow, Nat.div_self (Nat.two_pow_pos 63)]
  have hmod : (n ^^^ 2 ^ 63) % 2 ^ 63 = n % 2 ^ 63 := by
    rw [Nat.xor_mod_two_pow]
    simp
  have hsplit := Nat.div_add_mod (n ^^^ 2 ^ 63) (2 ^ 63)
  rw [hdiv, hmod] at hsplit
  split
  · have hq : n / 2 ^ 63 = 0 := by omega
    rw [hq] at hsplit
    simp only [Nat.zero_xor] at hsplit
    omega
  · have hq : n / 2 ^ 63 = 1 := by omega
    rw [hq] at hsplit
    simp only [Nat.xor_self] at hsplit
    omega

theorem i64ToOkey_toNat (x : Int64) : ((i64ToOkey x).toNat : ℤ) = x.toInt + 2 ^ 63 := by
  have hlt : x.toBitVec.toNat < 2 ^ 64 := x.toBitVec.isLt
  have hkey : (i64ToOkey x).toNat = x.toBitVec.toNat ^^^ 2 ^ 63 := rfl
  have hint : x.toInt = x.toBitVec.toInt := rfl
  rw [hkey, xor_top_bit _ hlt, hint, BitVec.toInt_eq_toNat_cond]
  split <;> split <;> push_cast <;> omega

theorem and_top_bit_ne_zero (u : UInt64) :
    u &&& 0x8000000000000000 ≠ 0 ↔ 2 ^ 63 ≤ u.toNat := by
  have hand : (u &&& 0x8000000000000000).toNat = u.toNat &&& 2 ^ 63 := rfl
  have hlt := u.toNat_lt
  rw [ne_eq, ← UInt64.toNat_inj, hand, Nat.and_two_pow, Nat.testBit_eq_decide_div_mod_eq]
  simp
  omega

/-- `d == 0.0` holds of the two zeros only. -/
theorem beq_zero_iff (d : Binary64) : (d == ⟨0⟩) = true ↔ d.low = 0 := by
  have hzero : Binary64.signedLow ⟨0⟩ = 0 := by decide
  have hnan : Binary64.isNaN ⟨0⟩ = false := by decide
  rw [Binary64.beq_iff, Binary64.scaled_eq_iff, hzero]
  constructor
  · rintro ⟨-, -, h⟩
    unfold Binary64.signedLow at h
    split at h <;> omega
  · intro h
    refine ⟨?_, hnan, by simp [Binary64.signedLow, h]⟩
    have hfrac : d.fracField = 0 := by
      unfold Binary64.low at h
      unfold Binary64.fracField
      omega
    simp [Binary64.isNaN, hfrac]

/-- The key of a double, from its sign-magnitude reading. -/
theorem f64ToOkey_toNat (d : Binary64) :
    ((f64ToOkey d).toNat : ℤ) =
      if 0 ≤ d.signedLow then d.signedLow + 2 ^ 63 else d.signedLow + 2 ^ 63 - 1 := by
  by_cases hz : (d == ⟨0⟩) = true
  · have hkey : (f64ToOkey d).toNat = 2 ^ 63 := by
      rw [f64ToOkey, if_pos hz]
      decide
    have hlow := (beq_zero_iff d).1 hz
    simp [hkey, Binary64.signedLow, hlow]
  · have hlow : d.low ≠ 0 := fun h => hz ((beq_zero_iff d).2 h)
    have hbits := d.bits_eq_low
    have hlt : d.low < 2 ^ 63 := Nat.mod_lt _ (Nat.two_pow_pos 63)
    have hnat : (UInt64.ofBitVec d.bits).toNat = d.bits.toNat := rfl
    rw [f64ToOkey, if_neg hz]
    simp only [and_top_bit_ne_zero, hnat]
    cases hs : d.signBit with
    | true =>
        rw [hs, if_pos rfl] at hbits
        have hneg : ¬ 0 ≤ d.signedLow := by
          simp only [Binary64.signedLow, hs, if_true]
          omega
        rw [if_pos (by omega), if_neg hneg, UInt64.toNat_not, hnat]
        simp only [Binary64.signedLow, hs, if_true, UInt64.size]
        omega
    | false =>
        rw [hs, if_neg (by simp)] at hbits
        have hpos : 0 ≤ d.signedLow := by simp [Binary64.signedLow, hs]
        have hxor : (UInt64.ofBitVec d.bits ^^^ 0x8000000000000000).toNat =
            d.bits.toNat ^^^ 2 ^ 63 := rfl
        rw [if_neg (by omega), if_pos hpos, hxor, xor_top_bit _ d.bits.isLt, if_pos (by omega)]
        simp only [Binary64.signedLow, hs]
        push_cast
        omega

theorem f64ToOkey_lt_iff {a b : Binary64} :
    (f64ToOkey a).toNat < (f64ToOkey b).toNat ↔ a.signedLow < b.signedLow := by
  have ha := f64ToOkey_toNat a
  have hb := f64ToOkey_toNat b
  split at ha <;> split at hb <;> omega

theorem f64ToOkey_eq_iff {a b : Binary64} :
    (f64ToOkey a).toNat = (f64ToOkey b).toNat ↔ a.signedLow = b.signedLow := by
  have ha := f64ToOkey_toNat a
  have hb := f64ToOkey_toNat b
  split at ha <;> split at hb <;> omega

/-! ### Byte order is value order -/

theorem applyCompareOp_bytes (op : CompareOp) (a b : Bytes) :
    applyCompareOp op (Bytes.compare a b) 0 = applyCompareOp op a b := by
  cases op with
  | equal =>
      show (Bytes.compare a b == 0) = (a == b)
      rw [Bool.eq_iff_iff, beq_iff_eq, beq_iff_eq, Bytes.compare_eq_zero]
  | lessEqual => exact decide_eq_decide.2 Bytes.compare_le_zero
  | greaterEqual => exact decide_eq_decide.2 Bytes.compare_nonneg
  | less => exact decide_eq_decide.2 Bytes.compare_lt_zero
  | greater => exact decide_eq_decide.2 Bytes.compare_pos

/-- A comparison only depends on how equality and the two orders come out. -/
theorem applyCompareOp_congr {α β : Type} [BEq α] [LT α] [LE α] [DecidableLT α] [DecidableLE α]
    [BEq β] [LT β] [LE β] [DecidableLT β] [DecidableLE β] {x y : α} {k l : β}
    (heq : (x == y) = true ↔ (k == l) = true) (hlt : x < y ↔ k < l) (hle : x ≤ y ↔ k ≤ l)
    (hgt : y < x ↔ l < k) (hge : y ≤ x ↔ l ≤ k) (op : CompareOp) :
    applyCompareOp op x y = applyCompareOp op k l := by
  cases op with
  | equal => exact Bool.eq_iff_iff.2 heq
  | lessEqual => exact decide_eq_decide.2 hle
  | greaterEqual => exact decide_eq_decide.2 hge
  | less => exact decide_eq_decide.2 hlt
  | greater => exact decide_eq_decide.2 hgt

/-- Okeys compare as their bytes. -/
theorem applyCompareOp_okey (op : CompareOp) (k l : UInt64) :
    applyCompareOp op (k.toNat : ℤ) l.toNat =
      applyCompareOp op (okeyToBytes k) (okeyToBytes l) := by
  have hle (k l : UInt64) : (k.toNat : ℤ) ≤ l.toNat ↔ okeyToBytes k ≤ okeyToBytes l := by
    rw [← not_lt, ← not_lt, okeyToBytes_lt_iff]
    omega
  refine applyCompareOp_congr ?_ ?_ (hle k l) ?_ (hle l k) op
  · rw [beq_iff_eq, beq_iff_eq, okeyToBytes_inj]
    omega
  · rw [okeyToBytes_lt_iff]
    omega
  · rw [okeyToBytes_lt_iff]
    omega

theorem applyCompareOp_i64 (op : CompareOp) (x y : Int64) :
    applyCompareOp op x y =
      applyCompareOp op (okeyToBytes (i64ToOkey x)) (okeyToBytes (i64ToOkey y)) := by
  rw [← applyCompareOp_okey, i64ToOkey_toNat, i64ToOkey_toNat]
  apply applyCompareOp_congr
  · rw [beq_iff_eq, beq_iff_eq, ← Int64.toInt_inj]
    omega
  · rw [Int64.lt_iff_toInt_lt]
    omega
  · rw [Int64.le_iff_toInt_le]
    omega
  · rw [Int64.lt_iff_toInt_lt]
    omega
  · rw [Int64.le_iff_toInt_le]
    omega

theorem applyCompareOp_u64 (op : CompareOp) (x y : UInt64) :
    applyCompareOp op x y =
      applyCompareOp op (okeyToBytes (u64ToOkey x)) (okeyToBytes (u64ToOkey y)) := by
  rw [← applyCompareOp_okey, u64ToOkey, u64ToOkey]
  apply applyCompareOp_congr
  · rw [beq_iff_eq, beq_iff_eq, ← UInt64.toNat_inj]
    omega
  · rw [UInt64.lt_iff_toNat_lt]
    omega
  · rw [UInt64.le_iff_toNat_le]
    omega
  · rw [UInt64.lt_iff_toNat_lt]
    omega
  · rw [UInt64.le_iff_toNat_le]
    omega

theorem applyCompareOp_f64 (op : CompareOp) {x y : Binary64} (hx : x.isNaN = false)
    (hy : y.isNaN = false) :
    applyCompareOp op x y =
      applyCompareOp op (okeyToBytes (f64ToOkey x)) (okeyToBytes (f64ToOkey y)) := by
  have hlt := @f64ToOkey_lt_iff x y
  have hgt := @f64ToOkey_lt_iff y x
  have heq := @f64ToOkey_eq_iff x y
  rw [← applyCompareOp_okey]
  apply applyCompareOp_congr
  · simp only [Binary64.beq_iff, hx, hy, Binary64.scaled_eq_iff, true_and, beq_iff_eq]
    omega
  · simp only [Binary64.lt_iff, hx, hy, Binary64.scaled_lt_iff, true_and]
    omega
  · simp only [Binary64.le_iff, hx, hy, Binary64.scaled_le_iff, true_and]
    omega
  · simp only [Binary64.lt_iff, hx, hy, Binary64.scaled_lt_iff, true_and]
    omega
  · simp only [Binary64.le_iff, hx, hy, Binary64.scaled_le_iff, true_and]
    omega

/-- A comparison that holds involves no NaN. -/
theorem not_isNaN_of_applyCompareOp {op : CompareOp} {x y : Binary64}
    (h : applyCompareOp op x y = true) : x.isNaN = false ∧ y.isNaN = false := by
  cases op with
  | equal =>
      have h := Binary64.beq_iff.1 h
      exact ⟨h.1, h.2.1⟩
  | lessEqual =>
      have h := of_decide_eq_true h
      exact ⟨h.1, h.2.1⟩
  | less =>
      have h := of_decide_eq_true h
      exact ⟨h.1, h.2.1⟩
  | greaterEqual =>
      have h := of_decide_eq_true h
      exact ⟨h.2.1, h.1⟩
  | greater =>
      have h := of_decide_eq_true h
      exact ⟨h.2.1, h.1⟩

/-! ### Extracted rows -/

theorem encodeAttrView_isSome (v : AttrView) : ∃ e, encodeAttrView v = some e := by
  cases v <;> exact ⟨_, rfl⟩

/-- Every attribute of the schema is extracted, as the encoding of its decode. -/
theorem extractAll_spec {o : BitLSMOptions} (hschema : validateAttrSpecs o = .ok) (row : Bytes) :
    ∃ attrs, extractAll (ValueLayout.ofOptions o) row = some attrs ∧
      attrs.length = o.attrSpecs.length ∧
      ∀ i : UInt32, i.toNat < o.attrSpecs.length →
        ∃ v e, decodeAttr (ValueLayout.ofOptions o) row i = some v ∧
          encodeAttrView v = some e ∧ attrs[i.toNat]? = some e := by
  have hnum := (validateAttrSpecs_eq_ok.1 hschema).1
  have hmax := o.attrNum.toNat_lt
  have hone : ∀ i : UInt32, i.toNat < o.attrSpecs.length →
      ∃ v e, decodeAttr (ValueLayout.ofOptions o) row i = some v ∧ encodeAttrView v = some e := by
    intro i hi
    obtain ⟨a, hat, -⟩ := ValueLayout.exists_at (List.getElem?_eq_getElem hi)
    obtain ⟨v, hdec, -⟩ := decodeAttr_fits hat row
    obtain ⟨e, he⟩ := encodeAttrView_isSome v
    exact ⟨v, e, hdec, he⟩
  -- the extractor's loop body, which succeeds at every index
  let f : ℕ → Option EncodedAttr := fun i =>
    (decodeAttr (ValueLayout.ofOptions o) row (UInt32.ofNat i)).bind encodeAttrView
  have hf : ∀ i < o.attrSpecs.length, f i = some ((f i).getD none) := by
    intro i hi
    have hcast : (UInt32.ofNat i).toNat = i := by
      simp only [UInt32.toNat_ofNat']
      omega
    obtain ⟨v, e, hdec, he⟩ := hone (UInt32.ofNat i) (by rwa [hcast])
    simp [f, hdec, he]
  refine ⟨(List.range o.attrSpecs.length).map fun i => (f i).getD none, ?_, by simp, ?_⟩
  · rw [extractAll, ValueLayout.length_slot_ofOptions]
    show (List.range o.attrSpecs.length).mapM f = _
    exact mapM_eq_some_map fun i hi => hf i (List.mem_range.1 hi)
  · intro i hi
    obtain ⟨v, e, hdec, he⟩ := hone i hi
    refine ⟨v, e, hdec, he, ?_⟩
    simp [hi, f, hdec, he]

end BitLSM
