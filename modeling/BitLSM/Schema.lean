import BitLSM.Lib.Bytes

/-!
The schema of a BitLSM column family and the row layout derived from it.

An `AttrSpec` says which predicates the index accelerates on an attribute
and how its value lies in the row. `validateAttrSpecs` is the check at open
and create; everything downstream is about schemas that pass it.

`ValueLayout` is computed once per schema. Its arrays are parallel, one
entry per attribute: the fixed slot's byte offset or the rank among the
variable attributes, whether the attribute has a fixed slot, and its
position in the null bitmap, `-1` for an attribute that is not nullable.
-/

namespace BitLSM

open Wire

/-- The status kinds the engine reports, with their message. -/
inductive Status where
  | ok
  | notFound (msg : String)
  | corruption (msg : String)
  | invalidArgument (msg : String)
  | ioError (msg : String)
  deriving DecidableEq, Repr

inductive IndexType where
  | equality
  | range
  deriving DecidableEq, Repr

/-- The byte the SABI directory stores. -/
def IndexType.toByte : IndexType → UInt8
  | .equality => 0
  | .range => 1

inductive PhysicalType where
  | int
  | uint
  | float
  | binary
  | varBinary
  deriving DecidableEq, Repr

structure AttrSpec where
  indexType : IndexType
  physicalType : PhysicalType
  /-- `int`/`uint`: 1, 2, 4 or 8; `float`: 4 or 8; `binary`: the fixed byte
  count; `varBinary`: 0. -/
  width : UInt16 := 0
  nullable : Bool := false
  deriving DecidableEq, Repr

namespace AttrSpec

def isNumeric (s : AttrSpec) : Bool :=
  s.physicalType = .int || s.physicalType = .uint || s.physicalType = .float

def isFixed (s : AttrSpec) : Bool := s.physicalType ≠ .varBinary

def valid (s : AttrSpec) : Bool :=
  match s.physicalType with
  | .int | .uint => s.width = 1 || s.width = 2 || s.width = 4 || s.width = 8
  | .float => s.width = 4 || s.width = 8
  | .binary => 0 < s.width
  | .varBinary => s.width = 0

end AttrSpec

/-- The options the index and the row format read. -/
structure BitLSMOptions where
  attrNum : UInt32
  attrSpecs : List AttrSpec
  deriving DecidableEq, Repr

/-- The first attribute from position `i` on whose width does not fit. -/
def firstInvalidSpec : ℕ → List AttrSpec → Status
  | _, [] => .ok
  | i, s :: rest =>
      if s.valid then firstInvalidSpec (i + 1) rest
      else .invalidArgument ("attr " ++ toString i ++ ": width " ++ toString s.width.toNat ++
        " is invalid for its physical type")

def validateAttrSpecs (o : BitLSMOptions) : Status :=
  if o.attrSpecs.length ≠ o.attrNum.toNat then
    .invalidArgument "attr_num does not match attr_specs size"
  else firstInvalidSpec 0 o.attrSpecs

theorem firstInvalidSpec_eq_ok {i : ℕ} {specs : List AttrSpec} :
    firstInvalidSpec i specs = .ok ↔ ∀ s ∈ specs, s.valid = true := by
  induction specs generalizing i with
  | nil => simp [firstInvalidSpec]
  | cons s rest ih =>
      by_cases h : s.valid = true
      · simp [firstInvalidSpec, h, ih]
      · simp [firstInvalidSpec, h]

theorem validateAttrSpecs_eq_ok {o : BitLSMOptions} :
    validateAttrSpecs o = .ok ↔
      o.attrSpecs.length = o.attrNum.toNat ∧ ∀ s ∈ o.attrSpecs, s.valid = true := by
  by_cases h : o.attrSpecs.length = o.attrNum.toNat
  · simp [validateAttrSpecs, h, firstInvalidSpec_eq_ok]
  · simp [validateAttrSpecs, h]

/-! ### Row layout

Row value format:
`[null bitmap][var_end u32 × n_variable][fixed slots][variable bytes][payload]`. -/

structure ValueLayout where
  nVariable : UInt32
  nNullable : UInt32
  nullBitmapBytes : UInt32
  variableBase : UInt32
  /-- Fixed: byte offset of the slot. Variable: rank among variable attributes. -/
  slot : List UInt32
  isFixed : List Bool
  nullBit : List Int32
  specs : List AttrSpec
  deriving DecidableEq, Repr

/-- First pass of the layout: counts and null bit positions. -/
structure LayoutCounts where
  nVariable : UInt32 := 0
  nNullable : UInt32 := 0
  nullBit : List Int32 := []

def LayoutCounts.add (c : LayoutCounts) (s : AttrSpec) : LayoutCounts where
  nVariable := if s.isFixed then c.nVariable else c.nVariable + 1
  nNullable := if s.nullable then c.nNullable + 1 else c.nNullable
  nullBit := c.nullBit ++ [if s.nullable then c.nNullable.toInt32 else -1]

/-- Second pass: the running offset, the running rank and the slots so far. -/
structure LayoutSlots where
  off : UInt32
  variableRank : UInt32 := 0
  slot : List UInt32 := []
  isFixed : List Bool := []

def LayoutSlots.add (p : LayoutSlots) (s : AttrSpec) : LayoutSlots :=
  if s.isFixed then
    { p with
      off := p.off + s.width.toUInt32
      slot := p.slot ++ [p.off]
      isFixed := p.isFixed ++ [true] }
  else
    { p with
      variableRank := p.variableRank + 1
      slot := p.slot ++ [p.variableRank]
      isFixed := p.isFixed ++ [false] }

/-- The layout of a schema whose `attrNum` agrees with its specs. -/
def ValueLayout.ofOptions (o : BitLSMOptions) : ValueLayout :=
  let c := o.attrSpecs.foldl LayoutCounts.add {}
  let nullBitmapBytes := (c.nNullable + 7) / 8
  let p := o.attrSpecs.foldl LayoutSlots.add { off := nullBitmapBytes + c.nVariable * 4 }
  { nVariable := c.nVariable
    nNullable := c.nNullable
    nullBitmapBytes
    variableBase := p.off
    slot := p.slot
    isFixed := p.isFixed
    nullBit := c.nullBit
    specs := o.attrSpecs }

theorem LayoutCounts.length_nullBit (specs : List AttrSpec) (c : LayoutCounts) :
    (specs.foldl LayoutCounts.add c).nullBit.length = c.nullBit.length + specs.length := by
  induction specs generalizing c with
  | nil => rfl
  | cons s rest ih =>
      simp only [List.foldl_cons, ih, LayoutCounts.add, List.length_append, List.length_cons,
        List.length_nil]
      omega

theorem LayoutSlots.foldl_add (specs : List AttrSpec) (p : LayoutSlots) :
    (specs.foldl LayoutSlots.add p).isFixed = p.isFixed ++ specs.map AttrSpec.isFixed ∧
      (specs.foldl LayoutSlots.add p).slot.length = p.slot.length + specs.length := by
  induction specs generalizing p with
  | nil => simp
  | cons s rest ih =>
      rw [List.foldl_cons, (ih _).1, (ih _).2]
      by_cases h : s.isFixed = true
      · simp [LayoutSlots.add, h]
        omega
      · simp [LayoutSlots.add, h]
        omega

namespace ValueLayout

@[simp] theorem specs_ofOptions (o : BitLSMOptions) : (ofOptions o).specs = o.attrSpecs := rfl

@[simp] theorem isFixed_ofOptions (o : BitLSMOptions) :
    (ofOptions o).isFixed = o.attrSpecs.map AttrSpec.isFixed :=
  (LayoutSlots.foldl_add o.attrSpecs _).1.trans (List.nil_append _)

@[simp] theorem length_slot_ofOptions (o : BitLSMOptions) :
    (ofOptions o).slot.length = o.attrSpecs.length :=
  (LayoutSlots.foldl_add o.attrSpecs _).2.trans (Nat.zero_add _)

@[simp] theorem length_nullBit_ofOptions (o : BitLSMOptions) :
    (ofOptions o).nullBit.length = o.attrSpecs.length :=
  (LayoutCounts.length_nullBit o.attrSpecs _).trans (Nat.zero_add _)

end ValueLayout

end BitLSM
