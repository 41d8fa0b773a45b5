import BitLSM.Lib.Binary64
import BitLSM.Schema

/-!
Encoding a row and decoding one attribute of it.

The encoder writes into a caller's buffer, whose old contents survive
wherever it does not write; a write past the buffer's end, and a value of
an alternative its attribute does not have, is `none`.

Row bytes are read at positions the layout dictates. A read that would run
past the row's end returns the bytes that are there: the encoder never
produces such a row, and the evaluators that share these reads are compared
on every byte string. Indexing one of the layout's arrays out of range is
undefined in the source and is `none` here.
-/

namespace BitLSM

open Wire

/-- A decoded attribute; `null` is the source's `monostate`. -/
inductive AttrView where
  | null
  | int (x : Int64)
  | uint (x : UInt64)
  | float (d : Binary64)
  | bytes (s : Bytes)
  deriving DecidableEq, Repr

/-- The alternative the decoder returns for a non-NULL attribute. -/
def AttrView.fits : AttrView → PhysicalType → Bool
  | .int _, .int => true
  | .uint _, .uint => true
  | .float _, .float => true
  | .bytes _, .binary => true
  | .bytes _, .varBinary => true
  | _, _ => false

/-- The `width` bytes of a fixed slot. -/
def encodeFixed (v : AttrView) (s : AttrSpec) : Option Bytes :=
  match s.physicalType, v with
  | .float, .float d =>
      if s.width = 8 then some (leBytes 8 d.bits.toNat)
      else some (leBytes 4 d.toBinary32.toNat)
  | .int, .int x => some (leBytes s.width.toNat x.toUInt64.toNat)
  | .uint, .uint x => some (leBytes s.width.toNat x.toNat)
  -- copies `width` bytes whatever the string's length
  | .binary, .bytes str => readAt str 0 s.width.toNat
  | .varBinary, _ => some []
  | _, _ => none

/-- The encoder's buffer and its three cursors. -/
structure EncodeState where
  out : Bytes
  variablePtr : ℕ
  varEnd : UInt32 := 0
  variableSeen : UInt32 := 0

/-- The u32 sum of the lengths of the variable attributes that are not NULL. -/
def variableBytesOf : List Bool → List AttrView → Option UInt32
  | _, [] => some 0
  | isFixed :: fs, v :: vs => do
      let rest ← variableBytesOf fs vs
      match isFixed, v with
      | true, _ => return rest
      | false, .null => return rest
      | false, .bytes str => return UInt32.ofNat str.length + rest
      | false, _ => none
  | [], _ :: _ => none

/-- Mark attribute `i` NULL in the header when it is. -/
def encodeNull (layout : ValueLayout) (out : Bytes) (i : ℕ) (v : AttrView) : Option Bytes := do
  let nb ← layout.nullBit[i]?
  if v = .null ∧ 0 ≤ nb then
    let byte ← out[nb.toNatClampNeg / 8]?
    writeAt out (nb.toNatClampNeg / 8) [byte ||| UInt8.ofNat (2 ^ (nb.toNatClampNeg % 8))]
  else return out

def encodeAttr (layout : ValueLayout) (st : EncodeState) (i : ℕ) (v : AttrView) :
    Option EncodeState := do
  let out ← encodeNull layout st.out i v
  let isFixed ← layout.isFixed[i]?
  if isFixed then
    let slot ← layout.slot[i]?
    let spec ← layout.specs[i]?
    let bytes ← if v = .null then some (List.replicate spec.width.toNat 0) else encodeFixed v spec
    return { st with out := ← writeAt out slot.toNat bytes }
  else
    let str ← match v with
      | .null => some []
      | .bytes str => some str
      | _ => none
    let out ← writeAt out st.variablePtr str
    let varEnd := st.varEnd + UInt32.ofNat str.length
    let out ← writeAt out (layout.nullBitmapBytes.toNat + st.variableSeen.toNat * 4)
      (leBytes 4 varEnd.toNat)
    return {
      out
      variablePtr := st.variablePtr + str.length
      varEnd
      variableSeen := st.variableSeen + 1 }

def encodeAttrs (layout : ValueLayout) : EncodeState → ℕ → List AttrView → Option EncodeState
  | st, _, [] => some st
  | st, i, v :: vs => do encodeAttrs layout (← encodeAttr layout st i v) (i + 1) vs

/-- The row of `attrs` and `payload`, written over a buffer that held `prev`. -/
def encodeValue (layout : ValueLayout) (attrs : List AttrView) (payload prev : Bytes) :
    Option Bytes := do
  let variableBytes ← variableBytesOf layout.isFixed attrs
  let size := (layout.variableBase + variableBytes).toNat + payload.length
  let out := prev.take size ++ List.replicate (size - prev.length) 0
  let out ← writeAt out 0 (List.replicate layout.nullBitmapBytes.toNat 0)
  let st ← encodeAttrs layout { out, variablePtr := layout.variableBase.toNat } 0 attrs
  writeAt st.out st.variablePtr payload

/-- Test bit `nullBit` of the leading null bitmap. -/
def isNullBitSet (base : Bytes) (nullBit : Int32) : Bool :=
  let byte := base.getD (nullBit.toNatClampNeg / 8) 0
  (byte.toNat / 2 ^ (nullBit.toNatClampNeg % 8)) % 2 = 1

/-- A `uint32_t` copied out of the row. -/
def loadU32 (src : Bytes) : UInt32 := UInt32.ofNat (leVal (src.take 4))

/-- A `width`-byte integer copied into a zeroed `uint64_t`. -/
def loadRaw (src : Bytes) (width : UInt16) : UInt64 :=
  UInt64.ofNat (leVal (src.take width.toNat))

/-- Sign extension from `width * 8` bits. -/
def signExtend (raw : UInt64) (width : UInt16) : UInt64 :=
  if width < 8 then
    let signBit : UInt64 := 1 <<< (UInt64.ofNat (width.toNat * 8 - 1))
    if raw &&& signBit ≠ 0 then raw ||| ~~~((1 <<< (UInt64.ofNat (width.toNat * 8))) - 1) else raw
  else raw

def loadDouble (src : Bytes) : Binary64 := ⟨BitVec.ofNat 64 (leVal (src.take 8))⟩

def decodeFixed (src : Bytes) (s : AttrSpec) : AttrView :=
  match s.physicalType with
  | .float =>
      if s.width = 8 then .float (loadDouble src)
      else .float (Binary64.ofBinary32 (BitVec.ofNat 32 (leVal (src.take 4))))
  | .int => .int (signExtend (loadRaw src s.width) s.width).toInt64
  | .uint => .uint (loadRaw src s.width)
  | .binary => .bytes (src.take s.width.toNat)
  | .varBinary => .null

def decodeAttr (layout : ValueLayout) (buffer : Bytes) (attrIdx : UInt32) : Option AttrView := do
  let nb ← layout.nullBit[attrIdx.toNat]?
  if 0 ≤ nb ∧ isNullBitSet buffer nb then return .null
  let fixed ← layout.isFixed[attrIdx.toNat]?
  let slot ← layout.slot[attrIdx.toNat]?
  if fixed then
    let spec ← layout.specs[attrIdx.toNat]?
    return decodeFixed (buffer.drop slot.toNat) spec
  let rank := slot
  let ve := buffer.drop layout.nullBitmapBytes.toNat
  let stop := loadU32 (ve.drop (rank.toNat * 4))
  let start := if 0 < rank then loadU32 (ve.drop ((rank - 1).toNat * 4)) else 0
  return .bytes (slice buffer (layout.variableBase.toNat + start.toNat) (stop - start).toNat)

/-- The payload, from the last variable end to the end of the row; `substr`
throws past the end. -/
def decodePayload (layout : ValueLayout) (buffer : Bytes) : Option Bytes :=
  let start :=
    if 0 < layout.nVariable then
      loadU32 (buffer.drop (layout.nullBitmapBytes.toNat + (layout.nVariable - 1).toNat * 4))
    else 0
  let pos := (layout.variableBase + start).toNat
  if pos ≤ buffer.length then some (buffer.drop pos) else none

theorem decodeFixed_fits (src : Bytes) {s : AttrSpec} (h : s.isFixed = true) :
    (decodeFixed src s).fits s.physicalType = true := by
  unfold decodeFixed
  cases hp : s.physicalType with
  | float => simp only []; split <;> rfl
  | int => rfl
  | uint => rfl
  | binary => rfl
  | varBinary => simp [AttrSpec.isFixed, hp] at h

/-! ### One attribute of a schema's layout

The parallel arrays agree in length, so a decode in range reads all of
them. `ValueLayout.At` names what it reads. -/

/-- The layout's data for one attribute. -/
structure AttrSlot where
  spec : AttrSpec
  nullBit : Int32
  slot : UInt32

/-- `l` holds the data `a` for attribute `attrIdx`. -/
structure ValueLayout.At (l : ValueLayout) (attrIdx : UInt32) (a : AttrSlot) : Prop where
  specs : l.specs[attrIdx.toNat]? = some a.spec
  nullBit : l.nullBit[attrIdx.toNat]? = some a.nullBit
  slot : l.slot[attrIdx.toNat]? = some a.slot
  isFixed : l.isFixed[attrIdx.toNat]? = some a.spec.isFixed

theorem ValueLayout.exists_at {o : BitLSMOptions} {attrIdx : UInt32} {spec : AttrSpec}
    (h : o.attrSpecs[attrIdx.toNat]? = some spec) :
    ∃ a, (ofOptions o).At attrIdx a ∧ a.spec = spec := by
  obtain ⟨hlt, -⟩ := List.getElem?_eq_some_iff.1 h
  have hnull : attrIdx.toNat < (ofOptions o).nullBit.length := by simpa using hlt
  have hslot : attrIdx.toNat < (ofOptions o).slot.length := by simpa using hlt
  refine ⟨⟨spec, (ofOptions o).nullBit[attrIdx.toNat], (ofOptions o).slot[attrIdx.toNat]⟩,
    ⟨h, ?_, ?_, ?_⟩, rfl⟩
  · exact List.getElem?_eq_getElem hnull
  · exact List.getElem?_eq_getElem hslot
  · simp [h]

/-- The attribute is marked NULL in the row. -/
def AttrSlot.isNull (a : AttrSlot) (buffer : Bytes) : Prop :=
  0 ≤ a.nullBit ∧ isNullBitSet buffer a.nullBit = true

instance (a : AttrSlot) (buffer : Bytes) : Decidable (a.isNull buffer) :=
  inferInstanceAs (Decidable (_ ∧ _))

/-- The variable attribute's bytes, between the two `var_end` entries. -/
def ValueLayout.variableBytes (l : ValueLayout) (buffer : Bytes) (rank : UInt32) : Bytes :=
  let ve := buffer.drop l.nullBitmapBytes.toNat
  let stop := loadU32 (ve.drop (rank.toNat * 4))
  let start := if 0 < rank then loadU32 (ve.drop ((rank - 1).toNat * 4)) else 0
  slice buffer (l.variableBase.toNat + start.toNat) (stop - start).toNat

/-- What the decoder returns, given the layout's data for the attribute. -/
theorem decodeAttr_eq {l : ValueLayout} {attrIdx : UInt32} {a : AttrSlot}
    (h : l.At attrIdx a) (buffer : Bytes) :
    decodeAttr l buffer attrIdx =
      some (if a.isNull buffer then .null
        else if a.spec.isFixed then decodeFixed (buffer.drop a.slot.toNat) a.spec
        else .bytes (l.variableBytes buffer a.slot)) := by
  by_cases hnull : a.isNull buffer
  · have hnull' := hnull
    unfold AttrSlot.isNull at hnull'
    simp [decodeAttr, h.nullBit, hnull, hnull']
  · have hnull' := hnull
    unfold AttrSlot.isNull at hnull'
    cases hf : a.spec.isFixed <;>
      simp [decodeAttr, h.nullBit, h.isFixed, h.slot, h.specs, hnull, hnull', hf,
        ValueLayout.variableBytes]

theorem decodeAttr_fits {l : ValueLayout} {attrIdx : UInt32} {a : AttrSlot}
    (h : l.At attrIdx a) (buffer : Bytes) :
    ∃ v, decodeAttr l buffer attrIdx = some v ∧
      (v = .null ∨ v.fits a.spec.physicalType = true) := by
  refine ⟨_, decodeAttr_eq h buffer, ?_⟩
  split
  · exact Or.inl rfl
  · right
    split
    · next hf => exact decodeFixed_fits _ hf
    · next hf =>
        have hp : a.spec.physicalType = .varBinary := by
          simpa [AttrSpec.isFixed] using hf
        rw [hp]
        rfl

end BitLSM
