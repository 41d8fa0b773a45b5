import BitLSM.Row

/-!
Where the parts of a row are.

The layout computes its offsets in 32 bits. Here they are counted without a
bound, from the attributes in front of a slot, and a schema whose fixed part
is below `2 ^ 32` bytes has exactly these offsets.
-/

namespace BitLSM

/-! ### Counting -/

def variableCount (specs : List AttrSpec) : ℕ := specs.countP fun s => !s.isFixed

def nullableCount (specs : List AttrSpec) : ℕ := specs.countP AttrSpec.nullable

def fixedBytes (specs : List AttrSpec) : ℕ :=
  (specs.map fun s => if s.isFixed = true then s.width.toNat else 0).sum

def headerBytes (specs : List AttrSpec) : ℕ := (nullableCount specs + 7) / 8

/-- The null bitmap and the `var_end` array. -/
def fixedBase (specs : List AttrSpec) : ℕ := headerBytes specs + 4 * variableCount specs

/-- Everything in front of the variable bytes. -/
def layoutBytes (specs : List AttrSpec) : ℕ := fixedBase specs + fixedBytes specs

section Append

variable (xs ys : List AttrSpec)

@[simp] theorem variableCount_append :
    variableCount (xs ++ ys) = variableCount xs + variableCount ys := List.countP_append

@[simp] theorem nullableCount_append :
    nullableCount (xs ++ ys) = nullableCount xs + nullableCount ys := List.countP_append

@[simp] theorem fixedBytes_append : fixedBytes (xs ++ ys) = fixedBytes xs + fixedBytes ys := by
  simp [fixedBytes]

end Append

section Singleton

variable {s : AttrSpec}

theorem variableCount_singleton : variableCount [s] = if s.isFixed = true then 0 else 1 := by
  cases h : s.isFixed <;> simp [variableCount, h]

theorem nullableCount_singleton : nullableCount [s] = if s.nullable = true then 1 else 0 := by
  cases h : s.nullable <;> simp [nullableCount, h]

theorem fixedBytes_singleton : fixedBytes [s] = if s.isFixed = true then s.width.toNat else 0 := by
  simp [fixedBytes]

end Singleton

/-- A slot takes a byte at least. -/
theorem length_le_slots {specs : List AttrSpec} (h : ∀ s ∈ specs, s.valid = true) :
    specs.length ≤ 4 * variableCount specs + fixedBytes specs := by
  induction specs with
  | nil => simp
  | cons s specs ih =>
      rw [List.forall_mem_cons] at h
      have hone : 1 ≤ 4 * variableCount [s] + fixedBytes [s] := by
        rw [variableCount_singleton, fixedBytes_singleton]
        by_cases hf : s.isFixed = true
        · have hwidth : 0 < s.width.toNat := by
            have hvalid := h.1
            rw [AttrSpec.valid] at hvalid
            cases hp : s.physicalType <;> simp [hp] at hvalid
            · rcases hvalid with ((hw | hw) | hw) | hw <;> simp [hw]
            · rcases hvalid with ((hw | hw) | hw) | hw <;> simp [hw]
            · rcases hvalid with hw | hw <;> simp [hw]
            · simpa [UInt16.lt_iff_toNat_lt] using hvalid
            · simp [AttrSpec.isFixed, hp] at hf
          simp only [hf, if_true]
          omega
        · simp [hf]
      have hcons : s :: specs = [s] ++ specs := rfl
      rw [hcons, variableCount_append, fixedBytes_append, List.length_append,
        List.length_singleton]
      have := ih h.2
      omega

/-! ### The two passes -/

theorem LayoutCounts.foldl_eq (specs : List AttrSpec) :
    (specs.foldl LayoutCounts.add {}).nVariable = UInt32.ofNat (variableCount specs) ∧
    (specs.foldl LayoutCounts.add {}).nNullable = UInt32.ofNat (nullableCount specs) ∧
    ∀ (i : ℕ) s, specs[i]? = some s → (specs.foldl LayoutCounts.add {}).nullBit[i]? =
      some (if s.nullable = true then (UInt32.ofNat (nullableCount (specs.take i))).toInt32
        else -1) := by
  induction specs using List.reverseRecOn with
  | nil => simp [variableCount, nullableCount]
  | append_singleton specs s ih =>
      obtain ⟨hvar, hnull, hbit⟩ := ih
      have hlength := LayoutCounts.length_nullBit specs {}
      rw [List.foldl_append, List.foldl_cons, List.foldl_nil, LayoutCounts.add, hvar, hnull,
        variableCount_append, nullableCount_append, variableCount_singleton,
        nullableCount_singleton]
      refine ⟨?_, ?_, fun i t ht => ?_⟩
      · by_cases hf : s.isFixed = true <;> simp [hf, UInt32.ofNat_add]
      · by_cases hn : s.nullable = true <;> simp [hn, UInt32.ofNat_add]
      · simp only [List.length_nil, Nat.zero_add] at hlength
        rcases Nat.lt_or_ge i specs.length with hi | hi
        · rw [List.getElem?_append_left hi] at ht
          rw [List.getElem?_append_left (by omega), hbit i t ht,
            List.take_append_of_le_length (by omega)]
        · have hlt := (List.getElem?_eq_some_iff.1 ht).1
          rw [List.length_append, List.length_singleton] at hlt
          obtain rfl : i = specs.length := by omega
          rw [List.getElem?_concat_length, Option.some.injEq] at ht
          subst ht
          rw [← hlength, List.getElem?_concat_length, hlength, List.take_left]

theorem LayoutSlots.foldl_eq (specs : List AttrSpec) (off : UInt32) :
    (specs.foldl LayoutSlots.add { off }).off = off + UInt32.ofNat (fixedBytes specs) ∧
    (specs.foldl LayoutSlots.add { off }).variableRank = UInt32.ofNat (variableCount specs) ∧
    ∀ (i : ℕ) s, specs[i]? = some s → (specs.foldl LayoutSlots.add { off }).slot[i]? =
      some (if s.isFixed = true then off + UInt32.ofNat (fixedBytes (specs.take i))
        else UInt32.ofNat (variableCount (specs.take i))) := by
  induction specs using List.reverseRecOn with
  | nil => simp [variableCount, fixedBytes]
  | append_singleton specs s ih =>
      obtain ⟨hoff, hrank, hslot⟩ := ih
      have hlength := (LayoutSlots.foldl_add specs { off }).2
      simp only [List.length_nil, Nat.zero_add] at hlength
      have hnext : (specs.foldl LayoutSlots.add { off }).add s =
          { off := off + UInt32.ofNat (fixedBytes (specs ++ [s]))
            variableRank := UInt32.ofNat (variableCount (specs ++ [s]))
            slot := (specs.foldl LayoutSlots.add { off }).slot ++
              [if s.isFixed = true then off + UInt32.ofNat (fixedBytes specs)
                else UInt32.ofNat (variableCount specs)]
            isFixed := (specs.foldl LayoutSlots.add { off }).isFixed ++ [s.isFixed] } := by
        rw [LayoutSlots.add, hoff, hrank, fixedBytes_append, variableCount_append,
          fixedBytes_singleton, variableCount_singleton]
        by_cases hf : s.isFixed = true
        · simp [hf, UInt32.ofNat_add, UInt32.add_assoc]
        · simp [hf, UInt32.ofNat_add]
      rw [List.foldl_append, List.foldl_cons, List.foldl_nil, hnext]
      refine ⟨rfl, rfl, fun i t ht => ?_⟩
      rcases Nat.lt_or_ge i specs.length with hi | hi
      · rw [List.getElem?_append_left hi] at ht
        rw [List.getElem?_append_left (by omega), hslot i t ht,
          List.take_append_of_le_length (by omega)]
      · have hlt := (List.getElem?_eq_some_iff.1 ht).1
        rw [List.length_append, List.length_singleton] at hlt
        obtain rfl : i = specs.length := by omega
        rw [List.getElem?_concat_length, Option.some.injEq] at ht
        subst ht
        rw [← hlength, List.getElem?_concat_length, hlength, List.take_left]

/-! ### A layout without wrap -/

/-- The offsets of `l` are those counted from the attributes. -/
structure ValueLayout.Placed (specs : List AttrSpec) (l : ValueLayout) : Prop where
  specs_eq : l.specs = specs
  isFixed : l.isFixed = specs.map AttrSpec.isFixed
  header : l.nullBitmapBytes.toNat = headerBytes specs
  base : l.variableBase.toNat = layoutBytes specs
  nVariable : l.nVariable.toNat = variableCount specs
  nullBit : ∀ (i : ℕ) s, specs[i]? = some s → l.nullBit[i]? =
    some (if s.nullable = true then (UInt32.ofNat (nullableCount (specs.take i))).toInt32 else -1)
  slot : ∀ (i : ℕ) s, specs[i]? = some s → ∃ slot, l.slot[i]? = some slot ∧
    slot.toNat = if s.isFixed = true then fixedBase specs + fixedBytes (specs.take i)
      else variableCount (specs.take i)

theorem fixedBytes_take_le (specs : List AttrSpec) (i : ℕ) :
    fixedBytes (specs.take i) ≤ fixedBytes specs := by
  conv_rhs => rw [← List.take_append_drop i specs, fixedBytes_append]
  omega

theorem variableCount_take_le (specs : List AttrSpec) (i : ℕ) :
    variableCount (specs.take i) ≤ variableCount specs := by
  conv_rhs => rw [← List.take_append_drop i specs, variableCount_append]
  omega

theorem ValueLayout.placed {o : BitLSMOptions} (hschema : validateAttrSpecs o = .ok)
    (hlayout : layoutBytes o.attrSpecs < 2 ^ 32) :
    (ofOptions o).Placed o.attrSpecs := by
  obtain ⟨hnum, hvalid⟩ := validateAttrSpecs_eq_ok.1 hschema
  obtain ⟨hvar, hnull, hbit⟩ := LayoutCounts.foldl_eq o.attrSpecs
  have hslots := length_le_slots hvalid
  have hnullable : nullableCount o.attrSpecs ≤ o.attrSpecs.length := List.countP_le_length
  have hvariable : variableCount o.attrSpecs ≤ o.attrSpecs.length := List.countP_le_length
  rw [layoutBytes, fixedBase, headerBytes] at hlayout
  have hheader : (ofOptions o).nullBitmapBytes.toNat = headerBytes o.attrSpecs := by
    show ((_ + 7) / 8 : UInt32).toNat = _
    rw [hnull, UInt32.toNat_div, UInt32.toNat_add, UInt32.toNat_ofNat']
    show (_ % 2 ^ 32 + 7) % 2 ^ 32 / 8 = _
    rw [headerBytes]
    omega
  have hvars : (ofOptions o).nVariable.toNat = variableCount o.attrSpecs := by
    show (o.attrSpecs.foldl LayoutCounts.add {}).nVariable.toNat = _
    rw [hvar, UInt32.toNat_ofNat']
    omega
  have hbase : ((ofOptions o).nullBitmapBytes + (ofOptions o).nVariable * 4).toNat =
      fixedBase o.attrSpecs := by
    rw [UInt32.toNat_add, UInt32.toNat_mul, hheader, hvars, fixedBase, headerBytes]
    show (_ + _ * 4 % 2 ^ 32) % 2 ^ 32 = _
    omega
  obtain ⟨hoff, hrank, hslot⟩ := LayoutSlots.foldl_eq o.attrSpecs
    ((ofOptions o).nullBitmapBytes + (ofOptions o).nVariable * 4)
  have hadd (n : ℕ) (hn : n ≤ fixedBytes o.attrSpecs) :
      ((ofOptions o).nullBitmapBytes + (ofOptions o).nVariable * 4 + UInt32.ofNat n).toNat =
        fixedBase o.attrSpecs + n := by
    rw [UInt32.toNat_add, hbase, UInt32.toNat_ofNat', fixedBase, headerBytes]
    omega
  refine ⟨rfl, isFixed_ofOptions o, hheader, ?_, hvars, hbit, fun i s hs => ?_⟩
  · exact (congrArg UInt32.toNat hoff).trans (hadd _ le_rfl)
  · refine ⟨_, hslot i s hs, ?_⟩
    split
    · exact hadd _ (fixedBytes_take_le _ i)
    · have hle := variableCount_take_le o.attrSpecs i
      rw [UInt32.toNat_ofNat']
      omega

end BitLSM
