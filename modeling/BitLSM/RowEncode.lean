import BitLSM.RowSlot

/-!
The bytes of an encoded row.

The encoder walks the attributes once and writes each into four regions of
the buffer: the null bitmap, the `var_end` array, the fixed slots and the
variable bytes. After every attribute the four regions hold what the
attributes so far come to; at the end they fill the row up to the payload,
so that nothing is left of the buffer's old contents.
-/

namespace BitLSM

open Wire

/-- An attribute and the value given for it. -/
abbrev Cell := AttrSpec × AttrView

/-! ### The parts of a row -/

def fixedCell (c : Cell) : Bytes :=
  if c.1.isFixed = true then
    if c.2 = .null then List.replicate c.1.width.toNat 0 else (encodeFixed c.2 c.1).getD []
  else []

def variableCell (c : Cell) : Bytes :=
  if c.1.isFixed = true then [] else match c.2 with
    | .bytes b => b
    | _ => []

def fixedPart (cells : List Cell) : Bytes := cells.flatMap fixedCell

def variablePart (cells : List Cell) : Bytes := cells.flatMap variableCell

/-- The `var_end` array behind `n` variable bytes. -/
def varEnds : ℕ → List Cell → Bytes
  | _, [] => []
  | n, c :: cells =>
      (if c.1.isFixed = true then [] else leBytes 4 (n + (variableCell c).length)) ++
        varEnds (n + (variableCell c).length) cells

/-- The null bits that are set, behind `r` nullable attributes. A position
from `2 ^ 31` on is negative as an `int32_t`, and its bit is never set. -/
def nullRanks : ℕ → List Cell → List ℕ
  | _, [] => []
  | r, c :: cells =>
      (if c.2 = .null ∧ c.1.nullable = true ∧ r < 2 ^ 31 then [r] else []) ++
        nullRanks (r + nullableCount [c.1]) cells

def markNull (header : Bytes) (k : ℕ) : Bytes :=
  header.set (k / 8) (header.getD (k / 8) 0 ||| UInt8.ofNat (2 ^ (k % 8)))

def nullHeader (n : ℕ) (ranks : List ℕ) : Bytes := ranks.foldl markNull (List.replicate n 0)

/-- The bytes in front of the payload. -/
def rowBytes (cells : List Cell) : Bytes :=
  nullHeader (headerBytes (cells.map Prod.fst)) (nullRanks 0 cells) ++ varEnds 0 cells ++
    fixedPart cells ++ variablePart cells

/-- A value the encoder can write for its attribute, in or out of range. -/
def Encodable (c : Cell) : Prop :=
  c.2 = .null ∨ c.2.fits c.1.physicalType = true ∧
    ∀ b, c.2 = .bytes b → c.1.physicalType = .binary → c.1.width.toNat ≤ b.length

/-! ### Their lengths and how they grow -/

section Append

variable (xs ys : List Cell)

@[simp] theorem fixedPart_append : fixedPart (xs ++ ys) = fixedPart xs ++ fixedPart ys :=
  List.flatMap_append

@[simp] theorem variablePart_append :
    variablePart (xs ++ ys) = variablePart xs ++ variablePart ys :=
  List.flatMap_append

@[simp] theorem fixedPart_singleton (c : Cell) : fixedPart [c] = fixedCell c := by
  simp [fixedPart]

@[simp] theorem variablePart_singleton (c : Cell) : variablePart [c] = variableCell c := by
  simp [variablePart]

theorem varEnds_append (n : ℕ) :
    varEnds n (xs ++ ys) = varEnds n xs ++ varEnds (n + (variablePart xs).length) ys := by
  induction xs generalizing n with
  | nil => simp [varEnds, variablePart]
  | cons c xs ih =>
      have hcons : variablePart (c :: xs) = variableCell c ++ variablePart xs := rfl
      rw [List.cons_append, varEnds, varEnds, ih, hcons, List.length_append, List.append_assoc,
        Nat.add_assoc]

theorem nullRanks_append (r : ℕ) :
    nullRanks r (xs ++ ys) =
      nullRanks r xs ++ nullRanks (r + nullableCount (xs.map Prod.fst)) ys := by
  induction xs generalizing r with
  | nil => simp [nullRanks, nullableCount]
  | cons c xs ih =>
      have hcons : c.1 :: xs.map Prod.fst = [c.1] ++ xs.map Prod.fst := rfl
      rw [List.cons_append, nullRanks, nullRanks, ih, List.map_cons, hcons, nullableCount_append,
        List.append_assoc, Nat.add_assoc]

end Append

theorem length_varEnds (n : ℕ) (cells : List Cell) :
    (varEnds n cells).length = 4 * variableCount (cells.map Prod.fst) := by
  induction cells generalizing n with
  | nil => rfl
  | cons c cells ih =>
      have hcons : c.1 :: cells.map Prod.fst = [c.1] ++ cells.map Prod.fst := rfl
      rw [varEnds, List.length_append, ih, List.map_cons, hcons, variableCount_append,
        variableCount_singleton]
      split
      · simp
      · simp
        omega

theorem nullRanks_bounds {r k : ℕ} {cells : List Cell} (h : k ∈ nullRanks r cells) :
    r ≤ k ∧ k < r + nullableCount (cells.map Prod.fst) := by
  induction cells generalizing r with
  | nil => cases h
  | cons c cells ih =>
      have hcons : c.1 :: cells.map Prod.fst = [c.1] ++ cells.map Prod.fst := rfl
      rw [nullRanks, List.mem_append] at h
      rw [List.map_cons, hcons, nullableCount_append]
      rcases h with h | h
      · split at h
        · next hnull =>
            obtain rfl : k = r := by simpa using h
            rw [nullableCount_singleton, if_pos hnull.2.1]
            omega
        · cases h
      · have := ih h
        omega

@[simp] theorem length_markNull (header : Bytes) (k : ℕ) :
    (markNull header k).length = header.length := List.length_set

@[simp] theorem length_nullHeader (n : ℕ) (ranks : List ℕ) : (nullHeader n ranks).length = n := by
  induction ranks using List.reverseRecOn with
  | nil => simp [nullHeader]
  | append_singleton ranks k ih => rw [nullHeader, List.foldl_concat, length_markNull]; exact ih

theorem Encodable.fixed {c : Cell} (h : Encodable c) (hvalid : c.1.valid = true)
    (hfixed : c.1.isFixed = true) (hnull : c.2 ≠ .null) :
    ∃ bs, encodeFixed c.2 c.1 = some bs ∧ bs.length = c.1.width.toNat ∧
      ∀ rest, decodeFixed (bs ++ rest) c.1 = c.2.narrow c.1 := by
  obtain ⟨hfits, hlong⟩ := h.resolve_left hnull
  refine encodeFixed_spec hvalid hfixed hfits fun b hb => hlong b hb ?_
  rw [hb] at hfits
  cases hp : c.1.physicalType <;> simp_all [AttrView.fits, AttrSpec.isFixed]

theorem length_fixedCell {c : Cell} (h : Encodable c) (hvalid : c.1.valid = true)
    (hfixed : c.1.isFixed = true) : (fixedCell c).length = c.1.width.toNat := by
  rw [fixedCell, if_pos hfixed]
  split
  · exact List.length_replicate
  · next hnull =>
      obtain ⟨bs, hbs, hlen, -⟩ := h.fixed hvalid hfixed hnull
      rw [hbs, Option.getD_some, hlen]

theorem length_fixedPart {cells : List Cell} (h : ∀ c ∈ cells, Encodable c ∧ c.1.valid = true) :
    (fixedPart cells).length = fixedBytes (cells.map Prod.fst) := by
  induction cells with
  | nil => rfl
  | cons c cells ih =>
      rw [List.forall_mem_cons] at h
      have hparts : fixedPart (c :: cells) = fixedCell c ++ fixedPart cells := rfl
      have hcons : c.1 :: cells.map Prod.fst = [c.1] ++ cells.map Prod.fst := rfl
      rw [hparts, List.length_append, ih h.2, List.map_cons, hcons, fixedBytes_append,
        fixedBytes_singleton]
      split
      · next hfixed => rw [length_fixedCell h.1.1 h.1.2 hfixed]
      · next hfixed => rw [fixedCell, if_neg hfixed, List.length_nil]

theorem length_rowBytes {cells : List Cell} (h : ∀ c ∈ cells, Encodable c ∧ c.1.valid = true) :
    (rowBytes cells).length = layoutBytes (cells.map Prod.fst) + (variablePart cells).length := by
  rw [rowBytes, List.length_append, List.length_append, List.length_append, length_nullHeader,
    length_varEnds, length_fixedPart h, layoutBytes, fixedBase]

/-! ### The null bitmap -/

theorem toInt_toInt32_ofNat {r : ℕ} (h : r < 2 ^ 32) :
    (UInt32.ofNat r).toInt32.toInt = if r < 2 ^ 31 then (r : ℤ) else (r : ℤ) - 2 ^ 32 := by
  have hbmod : (UInt32.ofNat r).toInt32.toInt = Int.bmod (UInt32.ofNat r).toNat (2 ^ 32) :=
    BitVec.toInt_eq_toNat_bmod _
  rw [hbmod, UInt32.toNat_ofNat', Nat.mod_eq_of_lt h, Int.bmod]
  split <;> split <;> omega

/-- The position of a null bit, as the layout holds it. -/
def nullBitAt (nullable : Bool) (r : ℕ) : Int32 :=
  if nullable = true then (UInt32.ofNat r).toInt32 else -1

theorem nullBitAt_nonneg {nullable : Bool} {r : ℕ} (hr : r < 2 ^ 32) :
    0 ≤ nullBitAt nullable r ↔ nullable = true ∧ r < 2 ^ 31 := by
  cases nullable with
  | false =>
      have hneg : ¬ (0 : Int32) ≤ nullBitAt false r := by
        rw [nullBitAt, if_neg (by decide)]
        decide
      exact ⟨fun h => absurd h hneg, fun h => absurd h.1 (by decide)⟩
  | true =>
      have hzero : (0 : Int32).toInt = 0 := rfl
      rw [nullBitAt, if_pos rfl, Int32.le_iff_toInt_le, toInt_toInt32_ofNat hr, hzero]
      split <;> simp <;> omega

theorem toNatClampNeg_nullBitAt {r : ℕ} (hr : r < 2 ^ 31) :
    (nullBitAt true r).toNatClampNeg = r := by
  show (UInt32.ofNat r).toInt32.toInt.toNat = r
  rw [toInt_toInt32_ofNat (by omega), if_pos hr, Int.toNat_natCast]

theorem encodeNull_spec {layout : ValueLayout} {c : Cell} {out header : Bytes} {i r : ℕ}
    (hnb : layout.nullBit[i]? = some (nullBitAt c.1.nullable r))
    (hr : r < 2 ^ 32) (hheader : HasAt out 0 header)
    (hroom : c.1.nullable = true → r / 8 < header.length) :
    ∃ out', encodeNull layout out i c.2 = some out' ∧ out'.length = out.length ∧
      HasAt out' 0 ((nullRanks r [c]).foldl markNull header) ∧
      ∀ off bs, header.length ≤ off → HasAt out off bs → HasAt out' off bs := by
  have hiff : (c.2 = .null ∧ 0 ≤ nullBitAt c.1.nullable r) ↔
      c.2 = .null ∧ c.1.nullable = true ∧ r < 2 ^ 31 := by rw [nullBitAt_nonneg hr]
  by_cases hmark : c.2 = .null ∧ c.1.nullable = true ∧ r < 2 ^ 31
  · have hlt := hroom hmark.2.1
    have hclamp := toNatClampNeg_nullBitAt hmark.2.2
    rw [← hmark.2.1] at hclamp
    have hbyte : out[r / 8]? = some (header.getD (r / 8) 0) := by
      obtain ⟨pre, post, hout, hpre⟩ := hheader
      obtain rfl := List.length_eq_zero_iff.1 hpre
      rw [hout, List.nil_append, List.getElem?_append_left hlt, List.getD_eq_getElem?_getD,
        List.getElem?_eq_getElem hlt, Option.getD_some]
    have hlen := hheader.length_le
    have hroom : r / 8 + [header.getD (r / 8) 0 ||| UInt8.ofNat (2 ^ (r % 8))].length ≤
        out.length := by
      rw [List.length_singleton]
      omega
    obtain ⟨out', hwrite⟩ := exists_writeAt out _ hroom
    refine ⟨out', ?_, length_writeAt hwrite, ?_, fun off bs hoff hbs => ?_⟩
    · simp only [encodeNull, hnb, Option.bind_eq_bind, Option.bind_some, hiff.2 hmark, and_self,
        if_true, hclamp, hbyte, hwrite]
    · rw [nullRanks, if_pos hmark]
      refine hheader.set hlt ?_
      rw [Nat.zero_add]
      exact hwrite
    · refine hbs.writeAt hwrite (Or.inr ?_)
      rw [List.length_singleton]
      omega
  · refine ⟨out, ?_, rfl, ?_, fun _ _ _ h => h⟩
    · simp only [encodeNull, hnb, Option.bind_eq_bind, Option.bind_some, mt hiff.1 hmark, if_false]
      rfl
    · rw [nullRanks, if_neg hmark]
      exact hheader

/-! ### The loop -/

section Body

variable {layout : ValueLayout} {st : EncodeState} {i : ℕ} {v : AttrView} {out out' : Bytes}

theorem encodeAttr_fixed {slot : UInt32} {s : AttrSpec} {bytes : Bytes}
    (hnull : encodeNull layout st.out i v = some out) (hfixed : layout.isFixed[i]? = some true)
    (hslot : layout.slot[i]? = some slot) (hspec : layout.specs[i]? = some s)
    (hbytes : (if v = .null then some (List.replicate s.width.toNat 0) else encodeFixed v s) =
      some bytes)
    (hwrite : writeAt out slot.toNat bytes = some out') :
    encodeAttr layout st i v = some { st with out := out' } := by
  by_cases hv : v = .null
  · rw [if_pos hv, Option.some.injEq] at hbytes
    subst hbytes hv
    simp [encodeAttr, hnull, hfixed, hslot, hspec, hwrite]
  · rw [if_neg hv] at hbytes
    simp [encodeAttr, hnull, hfixed, hslot, hspec, hv, hbytes, hwrite]

theorem encodeAttr_variable {str out₁ : Bytes} (hnull : encodeNull layout st.out i v = some out)
    (hfixed : layout.isFixed[i]? = some false)
    (hstr : v = .null ∧ str = [] ∨ v = .bytes str)
    (hwrite₁ : writeAt out st.variablePtr str = some out₁)
    (hwrite₂ : writeAt out₁ (layout.nullBitmapBytes.toNat + st.variableSeen.toNat * 4)
      (leBytes 4 (st.varEnd + UInt32.ofNat str.length).toNat) = some out') :
    encodeAttr layout st i v = some
      { out := out'
        variablePtr := st.variablePtr + str.length
        varEnd := st.varEnd + UInt32.ofNat str.length
        variableSeen := st.variableSeen + 1 } := by
  rcases hstr with ⟨rfl, rfl⟩ | rfl
  · simp only [encodeAttr, hnull, hfixed, Option.bind_eq_bind, Option.bind_some, hwrite₁, hwrite₂]
    rfl
  · simp only [encodeAttr, hnull, hfixed, Option.bind_eq_bind, Option.bind_some, hwrite₁, hwrite₂]
    rfl

end Body

/-- The buffer after the attributes `done` of a row of `specs`, with the
null bits of `marked`. -/
structure Encoded (specs : List AttrSpec) (size : ℕ) (marked done : List Cell)
    (st : EncodeState) : Prop where
  length : st.out.length = size
  header : HasAt st.out 0 (nullHeader (headerBytes specs) (nullRanks 0 marked))
  ends : HasAt st.out (headerBytes specs) (varEnds 0 done)
  fixed : HasAt st.out (fixedBase specs) (fixedPart done)
  vars : HasAt st.out (layoutBytes specs) (variablePart done)
  ptr : st.variablePtr = layoutBytes specs + (variablePart done).length
  varEnd : st.varEnd = UInt32.ofNat (variablePart done).length
  seen : st.variableSeen = UInt32.ofNat (variableCount (done.map Prod.fst))

/-- What the walk over `cells` relies on. -/
structure Walk (layout : ValueLayout) (size : ℕ) (cells : List Cell) : Prop where
  placed : layout.Placed (cells.map Prod.fst)
  encodable : ∀ c ∈ cells, Encodable c ∧ c.1.valid = true
  room : layoutBytes (cells.map Prod.fst) + (variablePart cells).length ≤ size
  small : layoutBytes (cells.map Prod.fst) + (variablePart cells).length < 2 ^ 32

section Step

variable {layout : ValueLayout} {size : ℕ} {done rest : List Cell} {c : Cell} {st : EncodeState}

/-- The regions of the attribute behind `done` lie inside those of the row. -/
theorem Walk.bounds (w : Walk layout size (done ++ c :: rest)) :
    nullableCount (done.map Prod.fst) < 2 ^ 32 ∧
    (c.1.nullable = true →
      nullableCount (done.map Prod.fst) / 8 < headerBytes ((done ++ c :: rest).map Prod.fst)) ∧
    variableCount (done.map Prod.fst) + variableCount [c.1] ≤
      variableCount ((done ++ c :: rest).map Prod.fst) ∧
    fixedBytes (done.map Prod.fst) + fixedBytes [c.1] ≤
      fixedBytes ((done ++ c :: rest).map Prod.fst) ∧
    (variablePart done).length + (variableCell c).length ≤
      (variablePart (done ++ c :: rest)).length := by
  have hsplit : (done ++ c :: rest).map Prod.fst =
      done.map Prod.fst ++ ([c.1] ++ rest.map Prod.fst) := by simp
  have hvalid : ∀ s ∈ (done ++ c :: rest).map Prod.fst, s.valid = true := by
    intro s hs
    obtain ⟨c', hc', rfl⟩ := List.mem_map.1 hs
    exact (w.encodable c' hc').2
  have hslots := length_le_slots hvalid
  have hcount : nullableCount ((done ++ c :: rest).map Prod.fst) ≤ _ := List.countP_le_length
  have hsmall := w.small
  have hvars : variablePart (done ++ c :: rest) =
      variablePart done ++ (variableCell c ++ variablePart rest) := by
    rw [variablePart_append]
    rfl
  rw [layoutBytes, fixedBase] at hsmall
  rw [headerBytes, hvars, hsplit] at *
  simp only [nullableCount_append, variableCount_append, fixedBytes_append,
    List.length_append] at *
  refine ⟨by omega, fun hnullable => ?_, by omega, by omega, by omega⟩
  rw [nullableCount_singleton, if_pos hnullable]
  omega

theorem specs_at : ((done ++ c :: rest).map Prod.fst)[done.length]? = some c.1 := by
  rw [List.map_append, List.map_cons, ← List.length_map Prod.fst, List.getElem?_append_right le_rfl,
    Nat.sub_self, List.getElem?_cons_zero]

theorem take_specs : ((done ++ c :: rest).map Prod.fst).take done.length = done.map Prod.fst := by
  rw [List.map_append, List.take_left' (List.length_map _)]

theorem Walk.encodeNull (w : Walk layout size (done ++ c :: rest))
    (h : Encoded ((done ++ c :: rest).map Prod.fst) size done done st) :
    ∃ out, encodeNull layout st.out done.length c.2 = some out ∧
      Encoded ((done ++ c :: rest).map Prod.fst) size (done ++ [c]) done { st with out } := by
  obtain ⟨hrank, hroom, -⟩ := w.bounds
  have hnb := w.placed.nullBit _ _ specs_at
  rw [take_specs] at hnb
  obtain ⟨out, hnull, hlen, hheader, hkeep⟩ := encodeNull_spec hnb hrank h.header
    (by rw [length_nullHeader]; exact hroom)
  rw [length_nullHeader] at hkeep
  refine ⟨out, hnull, hlen.trans h.length, ?_, hkeep _ _ le_rfl h.ends, hkeep _ _ ?_ h.fixed,
    hkeep _ _ ?_ h.vars, h.ptr, h.varEnd, h.seen⟩
  · rw [nullRanks_append, nullHeader, List.foldl_append, Nat.zero_add]
    exact hheader
  · rw [fixedBase]
    omega
  · rw [layoutBytes, fixedBase]
    omega

theorem Walk.encodeAttr_of_fixed (w : Walk layout size (done ++ c :: rest))
    (h : Encoded ((done ++ c :: rest).map Prod.fst) size done done st) (hf : c.1.isFixed = true) :
    ∃ st', encodeAttr layout st done.length c.2 = some st' ∧
      Encoded ((done ++ c :: rest).map Prod.fst) size (done ++ [c]) (done ++ [c]) st' := by
  obtain ⟨henc, hvalid⟩ := w.encodable c (by simp)
  obtain ⟨-, -, hvars, hfixedLe, -⟩ := w.bounds
  obtain ⟨slot, hslot, hslotEq⟩ := w.placed.slot _ _ specs_at
  obtain ⟨out, hnull, hout⟩ := w.encodeNull h
  have hspec : layout.specs[done.length]? = some c.1 := by rw [w.placed.specs_eq, specs_at]
  have hisFixed : layout.isFixed[done.length]? = some true := by
    rw [w.placed.isFixed, List.getElem?_map, specs_at, Option.map_some, hf]
  have hsize := w.room
  have hfixedLen := length_fixedPart fun c' hc' => w.encodable c' (List.mem_append_left _ hc')
  have hendsLen := length_varEnds 0 done
  have hcellLen := length_fixedCell henc hvalid hf
  have hvarCell : variableCell c = [] := by rw [variableCell, if_pos hf]
  have hbytes : (if c.2 = .null then some (List.replicate c.1.width.toNat 0)
      else encodeFixed c.2 c.1) = some (fixedCell c) := by
    rw [fixedCell, if_pos hf]
    split
    · rfl
    · next hne =>
        obtain ⟨bs, hbs, -⟩ := henc.fixed hvalid hf hne
        rw [hbs]
        rfl
  rw [take_specs, if_pos hf] at hslotEq
  rw [fixedBytes_singleton, if_pos hf] at hfixedLe
  generalize (done ++ c :: rest).map Prod.fst = specs at *
  have hbase : layoutBytes specs = fixedBase specs + fixedBytes specs := rfl
  have hfixedBase : fixedBase specs = headerBytes specs + 4 * variableCount specs := rfl
  have hroom : slot.toNat + (fixedCell c).length ≤ out.length := by
    have hlen : out.length = size := hout.length
    omega
  obtain ⟨out', hwrite⟩ := exists_writeAt out (fixedCell c) hroom
  refine ⟨_, encodeAttr_fixed hnull hisFixed hslot hspec hbytes hwrite,
    (length_writeAt hwrite).trans hout.length, hout.header.writeAt hwrite (Or.inl ?_), ?_, ?_, ?_,
    ?_, ?_, ?_⟩
  · rw [length_nullHeader]
    omega
  · rw [varEnds_append, varEnds, if_pos hf, varEnds, List.append_nil, List.append_nil]
    exact hout.ends.writeAt hwrite (Or.inl (by omega))
  · rw [fixedPart_append, fixedPart_singleton]
    refine hout.fixed.concat ?_
    rw [hfixedLen, ← hslotEq]
    exact hwrite
  · rw [variablePart_append, variablePart_singleton, hvarCell, List.append_nil]
    exact hout.vars.writeAt hwrite (Or.inr (by omega))
  · rw [variablePart_append, variablePart_singleton, hvarCell, List.append_nil]
    exact h.ptr
  · rw [variablePart_append, variablePart_singleton, hvarCell, List.append_nil]
    exact h.varEnd
  · rw [List.map_append, variableCount_append, List.map_singleton, variableCount_singleton,
      if_pos hf]
    exact h.seen

theorem Walk.encodeAttr_of_variable (w : Walk layout size (done ++ c :: rest))
    (h : Encoded ((done ++ c :: rest).map Prod.fst) size done done st)
    (hf : c.1.isFixed ≠ true) :
    ∃ st', encodeAttr layout st done.length c.2 = some st' ∧
      Encoded ((done ++ c :: rest).map Prod.fst) size (done ++ [c]) (done ++ [c]) st' := by
  obtain ⟨henc, -⟩ := w.encodable c (by simp)
  obtain ⟨-, -, hvars, hfixedLe, hvarsLe⟩ := w.bounds
  obtain ⟨out, hnull, hout⟩ := w.encodeNull h
  have hisFixed : layout.isFixed[done.length]? = some false := by
    rw [w.placed.isFixed, List.getElem?_map, specs_at, Option.map_some, Bool.eq_false_iff.2 hf]
  have hstr : c.2 = .null ∧ variableCell c = [] ∨ c.2 = .bytes (variableCell c) := by
    rw [variableCell, if_neg hf]
    rcases henc with hnull | ⟨hfits, -⟩
    · exact Or.inl ⟨hnull, by rw [hnull]⟩
    · right
      have hp : c.1.physicalType = .varBinary := by simpa [AttrSpec.isFixed] using hf
      rw [hp] at hfits
      cases hv : c.2 <;> simp_all [AttrView.fits]
  have hsize := w.room
  have hsmall := w.small
  have hheader := w.placed.header
  have hfixedLen := length_fixedPart fun c' hc' => w.encodable c' (List.mem_append_left _ hc')
  have hendsLen := length_varEnds 0 done
  have hfixedCell : fixedCell c = [] := by rw [fixedCell, if_neg hf]
  rw [variableCount_singleton, if_neg hf] at hvars
  generalize (done ++ c :: rest).map Prod.fst = specs at *
  have hbase : layoutBytes specs = fixedBase specs + fixedBytes specs := rfl
  have hfixedBase : fixedBase specs = headerBytes specs + 4 * variableCount specs := rfl
  have hseen : st.variableSeen.toNat = variableCount (done.map Prod.fst) := by
    rw [h.seen, UInt32.toNat_ofNat']
    omega
  have hend : st.varEnd + UInt32.ofNat (variableCell c).length =
      UInt32.ofNat (variablePart (done ++ [c])).length := by
    rw [h.varEnd, variablePart_append, variablePart_singleton, List.length_append,
      UInt32.ofNat_add]
  have hendNat : (UInt32.ofNat (variablePart (done ++ [c])).length).toNat =
      (variablePart done).length + (variableCell c).length := by
    rw [variablePart_append, variablePart_singleton, List.length_append, UInt32.toNat_ofNat']
    omega
  have hlen : out.length = size := hout.length
  have hroom₁ : st.variablePtr + (variableCell c).length ≤ out.length := by
    rw [h.ptr]
    omega
  obtain ⟨out₁, hwrite₁⟩ := exists_writeAt out _ hroom₁
  have hlen₁ := length_writeAt hwrite₁
  have hroom₂ : layout.nullBitmapBytes.toNat + st.variableSeen.toNat * 4 +
      (leBytes 4 (st.varEnd + UInt32.ofNat (variableCell c).length).toNat).length ≤
        out₁.length := by
    rw [length_leBytes, hheader, hseen]
    omega
  obtain ⟨out', hwrite₂⟩ := exists_writeAt out₁ _ hroom₂
  have hstep := encodeAttr_variable hnull hisFixed hstr hwrite₁ hwrite₂
  rw [h.ptr] at hwrite₁
  rw [hheader, hseen, hend, hendNat] at hwrite₂
  refine ⟨_, hstep, (length_writeAt hwrite₂).trans (hlen₁.trans hlen), ?_, ?_, ?_, ?_, ?_, hend, ?_⟩
  · refine (hout.header.writeAt hwrite₁ (Or.inl ?_)).writeAt hwrite₂ (Or.inl ?_)
    · rw [length_nullHeader]
      omega
    · rw [length_nullHeader]
      omega
  · rw [varEnds_append, varEnds, if_neg hf, varEnds, List.append_nil, Nat.zero_add]
    refine (hout.ends.writeAt hwrite₁ (Or.inl (by omega))).concat ?_
    rw [hendsLen, Nat.mul_comm 4]
    exact hwrite₂
  · rw [fixedPart_append, fixedPart_singleton, hfixedCell, List.append_nil]
    refine (hout.fixed.writeAt hwrite₁ (Or.inl (by omega))).writeAt hwrite₂ (Or.inr ?_)
    rw [length_leBytes]
    omega
  · rw [variablePart_append, variablePart_singleton]
    refine (hout.vars.concat hwrite₁).writeAt hwrite₂ (Or.inr ?_)
    rw [length_leBytes]
    omega
  · show st.variablePtr + _ = _
    rw [h.ptr, variablePart_append, variablePart_singleton, List.length_append, Nat.add_assoc]
  · show st.variableSeen + 1 = _
    rw [h.seen, List.map_append, variableCount_append, List.map_singleton,
      variableCount_singleton, if_neg hf, UInt32.ofNat_add]
    rfl

theorem Walk.encodeAttr (w : Walk layout size (done ++ c :: rest))
    (h : Encoded ((done ++ c :: rest).map Prod.fst) size done done st) :
    ∃ st', encodeAttr layout st done.length c.2 = some st' ∧
      Encoded ((done ++ c :: rest).map Prod.fst) size (done ++ [c]) (done ++ [c]) st' := by
  by_cases hf : c.1.isFixed = true
  · exact w.encodeAttr_of_fixed h hf
  · exact w.encodeAttr_of_variable h hf

end Step

theorem Walk.encodeAttrs {layout : ValueLayout} {size : ℕ} {done rest : List Cell}
    {st : EncodeState} (w : Walk layout size (done ++ rest))
    (h : Encoded ((done ++ rest).map Prod.fst) size done done st) :
    ∃ st', encodeAttrs layout st done.length (rest.map Prod.snd) = some st' ∧
      Encoded ((done ++ rest).map Prod.fst) size (done ++ rest) (done ++ rest) st' := by
  induction rest generalizing done st with
  | nil =>
      rw [List.append_nil] at *
      exact ⟨st, rfl, h⟩
  | cons c rest ih =>
      obtain ⟨st₁, hstep, h₁⟩ := w.encodeAttr h
      have happ : done ++ c :: rest = (done ++ [c]) ++ rest := by simp
      rw [happ] at w h₁ ⊢
      obtain ⟨st', hrun, h'⟩ := ih w h₁
      refine ⟨st', ?_, h'⟩
      rw [List.length_append, List.length_singleton] at hrun
      rw [List.map_cons, BitLSM.encodeAttrs, hstep]
      exact hrun

theorem variableBytesOf_eq {cells : List Cell} (h : ∀ c ∈ cells, Encodable c) :
    variableBytesOf (cells.map fun c => c.1.isFixed) (cells.map Prod.snd) =
      some (UInt32.ofNat (variablePart cells).length) := by
  induction cells with
  | nil => rfl
  | cons c cells ih =>
      rw [List.forall_mem_cons] at h
      have hparts : variablePart (c :: cells) = variableCell c ++ variablePart cells := rfl
      rw [List.map_cons, List.map_cons, variableBytesOf, ih h.2, hparts, List.length_append,
        UInt32.ofNat_add, variableCell]
      obtain ⟨s, v⟩ := c
      cases hf : s.isFixed with
      | true => simp
      | false =>
          have hp : s.physicalType = .varBinary := by simpa [AttrSpec.isFixed] using hf
          rcases h.1 with hnull | ⟨hfits, -⟩
          · obtain rfl : v = .null := hnull
            simp
          · rw [hp] at hfits
            cases v <;> simp_all [AttrView.fits]

theorem Encoded.start {specs : List AttrSpec} {size : ℕ} {out : Bytes} (hlen : out.length = size)
    (hout : HasAt out 0 (List.replicate (headerBytes specs) 0)) (hroom : layoutBytes specs ≤ size) :
    Encoded specs size [] [] { out, variablePtr := layoutBytes specs } := by
  have hbase : layoutBytes specs = headerBytes specs + 4 * variableCount specs + fixedBytes specs :=
    rfl
  have hfixedBase : fixedBase specs = headerBytes specs + 4 * variableCount specs := rfl
  have hnil (off : ℕ) (hoff : off ≤ size) : HasAt out off [] := HasAt.nil (by omega)
  exact ⟨hlen, hout, hnil _ (by omega), hnil _ (by omega), hnil _ hroom, rfl, rfl, rfl⟩

theorem Encoded.row {cells : List Cell} {size : ℕ} {st : EncodeState}
    (hcells : ∀ c ∈ cells, Encodable c ∧ c.1.valid = true)
    (h : Encoded (cells.map Prod.fst) size cells cells st) : HasAt st.out 0 (rowBytes cells) := by
  refine ((h.header.join ?_).join ?_).join ?_
  · rw [length_nullHeader, Nat.zero_add]
    exact h.ends
  · rw [List.length_append, length_nullHeader, length_varEnds, Nat.zero_add]
    exact h.fixed
  · rw [List.length_append, List.length_append, length_nullHeader, length_varEnds,
      length_fixedPart hcells, Nat.zero_add]
    exact h.vars

/-- A row, whatever the buffer held before. -/
theorem encodeValue_eq {o : BitLSMOptions} {cells : List Cell} (hschema : validateAttrSpecs o = .ok)
    (hspecs : o.attrSpecs = cells.map Prod.fst) (henc : ∀ c ∈ cells, Encodable c)
    (hsmall : layoutBytes o.attrSpecs + (variablePart cells).length < 2 ^ 32)
    (payload prev : Bytes) :
    encodeValue (.ofOptions o) (cells.map Prod.snd) payload prev =
      some (rowBytes cells ++ payload) := by
  have hplaced := ValueLayout.placed hschema (by omega)
  have hvalid := (validateAttrSpecs_eq_ok.1 hschema).2
  have hcells : ∀ c ∈ cells, Encodable c ∧ c.1.valid = true := fun c hc =>
    ⟨henc c hc, hvalid _ (by rw [hspecs]; exact List.mem_map_of_mem hc)⟩
  have hbase := hplaced.base
  rw [hspecs] at hplaced hsmall hbase
  have hvars : variableBytesOf (ValueLayout.ofOptions o).isFixed (cells.map Prod.snd) =
      some (UInt32.ofNat (variablePart cells).length) := by
    rw [hplaced.isFixed, List.map_map]
    exact variableBytesOf_eq henc
  have hsum : ((ValueLayout.ofOptions o).variableBase +
      UInt32.ofNat (variablePart cells).length).toNat =
      layoutBytes (cells.map Prod.fst) + (variablePart cells).length := by
    rw [UInt32.toNat_add, hbase, UInt32.toNat_ofNat']
    omega
  rw [encodeValue, hvars]
  simp only [Option.bind_eq_bind, Option.bind_some]
  rw [hsum, hplaced.header, hbase]
  have hroom : headerBytes (cells.map Prod.fst) ≤ layoutBytes (cells.map Prod.fst) := by
    rw [layoutBytes, fixedBase]
    omega
  generalize hsize : layoutBytes (cells.map Prod.fst) + (variablePart cells).length +
    payload.length = size
  have hstart : (prev.take size ++ List.replicate (size - prev.length) (0 : UInt8)).length =
      size := by
    rw [List.length_append, List.length_take, List.length_replicate]
    omega
  have hzeros : 0 + (List.replicate (headerBytes (cells.map Prod.fst)) (0 : UInt8)).length ≤
      (prev.take size ++ List.replicate (size - prev.length) 0).length := by
    rw [List.length_replicate, hstart]
    omega
  obtain ⟨out, hout⟩ := exists_writeAt _ _ hzeros
  have hle : layoutBytes (cells.map Prod.fst) + (variablePart cells).length ≤ size := by omega
  have hwalk : Walk (.ofOptions o) size ([] ++ cells) := ⟨hplaced, hcells, hle, hsmall⟩
  obtain ⟨st, hrun, hst⟩ := hwalk.encodeAttrs
    (Encoded.start ((length_writeAt hout).trans hstart) (hasAt_writeAt hout)
      (le_trans (Nat.le_add_right _ _) hle))
  rw [List.nil_append] at hst hrun
  rw [List.length_nil] at hrun
  have hpayload : st.variablePtr + payload.length ≤ st.out.length := by
    rw [hst.ptr, hst.length]
    omega
  obtain ⟨row, hwrite⟩ := exists_writeAt st.out payload hpayload
  rw [hout, Option.bind_some, hrun, Option.bind_some, hwrite]
  have hrowLen := length_rowBytes hcells
  have hrow : HasAt row 0 (rowBytes cells ++ payload) := by
    refine (hst.row hcells).concat ?_
    rw [hrowLen, Nat.zero_add, ← hst.ptr]
    exact hwrite
  rw [hrow.eq_of_length]
  rw [List.length_append, hrowLen, length_writeAt hwrite, hst.length]
  exact hsize

end BitLSM
