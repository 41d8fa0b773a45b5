import BitLSM.RowEncode

/-!
Rows round trip.

The regions of an encoded row are known byte by byte, and the decoder is
read off them. A row round trips when its offsets fit 32 bits. The encoder
adds the fixed part and the variable bytes in 32 bits before it resizes the
buffer, so that a row beyond that bound is written past the buffer's end.
-/

namespace BitLSM

open Wire

/-! ### Reading a row -/

/-- Bit `k` of the bitmap. -/
def bitAt (header : Bytes) (k : ℕ) : Bool := (header.getD (k / 8) 0).toNat.testBit (k % 8)

theorem isNullBitSet_eq (base : Bytes) (nb : Int32) :
    isNullBitSet base nb = bitAt base nb.toNatClampNeg := by
  rw [isNullBitSet, bitAt, Nat.testBit_eq_decide_div_mod_eq]

theorem bitAt_markNull {header : Bytes} {k : ℕ} (hk : k / 8 < header.length) (j : ℕ) :
    bitAt (markNull header k) j = (bitAt header j || decide (j = k)) := by
  have hbit : (UInt8.ofNat (2 ^ (k % 8))).toNat = 2 ^ (k % 8) := by
    rw [UInt8.toNat_ofNat']
    exact Nat.mod_eq_of_lt (Nat.pow_lt_pow_right (by decide) (Nat.mod_lt _ (by decide)))
  rw [bitAt, bitAt, markNull, List.getD_eq_getElem?_getD, List.getElem?_set]
  by_cases hbyte : k / 8 = j / 8
  · rw [if_pos hbyte, if_pos hk, Option.getD_some, UInt8.toNat_or, Nat.testBit_or, hbit,
      Nat.testBit_two_pow, hbyte]
    congr 1
    rw [decide_eq_decide]
    omega
  · rw [if_neg hbyte, ← List.getD_eq_getElem?_getD]
    have hne : j ≠ k := fun h => hbyte (by rw [h])
    simp [hne]

theorem bitAt_nullHeader {n : ℕ} {ranks : List ℕ} (h : ∀ k ∈ ranks, k / 8 < n) (j : ℕ) :
    bitAt (nullHeader n ranks) j = decide (j ∈ ranks) := by
  induction ranks using List.reverseRecOn with
  | nil =>
      have hzero : (List.replicate n (0 : UInt8)).getD (j / 8) 0 = 0 := by
        rw [List.getD_eq_getElem?_getD, List.getElem?_replicate]
        split <;> rfl
      rw [nullHeader, List.foldl_nil, bitAt, hzero]
      simp
  | append_singleton ranks k ih =>
      have hlast : nullHeader n (ranks ++ [k]) = markNull (nullHeader n ranks) k := by
        rw [nullHeader, List.foldl_concat]
        rfl
      rw [hlast, bitAt_markNull (by rw [length_nullHeader]; exact h k (by simp)),
        ih fun k' hk' => h k' (List.mem_append_left _ hk')]
      simp

theorem loadU32_of_hasAt {row : Bytes} {off n : ℕ} (h : HasAt row off (leBytes 4 n))
    (hn : n < 2 ^ 32) : (loadU32 (row.drop off)).toNat = n := by
  obtain ⟨rest, hdrop⟩ := h.drop_eq
  rw [hdrop, loadU32, List.take_left' (length_leBytes _ _), leVal_leBytes,
    Nat.mod_eq_of_lt (show n < 256 ^ 4 from hn), UInt32.toNat_ofNat', Nat.mod_eq_of_lt hn]

theorem variableCell_of_fixed {c : Cell} (h : c.1.isFixed = true) : variableCell c = [] := if_pos h

/-- The last entry of the array is the end of the variable bytes. -/
theorem varEnds_last {n : ℕ} {cells : List Cell} (h : 0 < variableCount (cells.map Prod.fst)) :
    HasAt (varEnds n cells) (4 * (variableCount (cells.map Prod.fst) - 1))
      (leBytes 4 (n + (variablePart cells).length)) := by
  induction cells using List.reverseRecOn with
  | nil => cases h
  | append_singleton cells c ih =>
      have hcount : variableCount ((cells ++ [c]).map Prod.fst) =
          variableCount (cells.map Prod.fst) + if c.1.isFixed = true then 0 else 1 := by
        rw [List.map_append, List.map_singleton, variableCount_append, variableCount_singleton]
      rw [varEnds_append, variablePart_append, variablePart_singleton, varEnds, varEnds,
        List.append_nil]
      by_cases hf : c.1.isFixed = true
      · rw [if_pos hf, Nat.add_zero] at hcount
        rw [hcount] at h ⊢
        rw [if_pos hf, variableCell_of_fixed hf, List.append_nil, List.append_nil]
        exact ih h
      · rw [if_neg hf] at hcount
        rw [hcount, if_neg hf, List.length_append, ← Nat.add_assoc, Nat.add_sub_cancel,
          ← length_varEnds n cells]
        have hlast := HasAt.intro (varEnds n cells)
          (leBytes 4 (n + (variablePart cells).length + (variableCell c).length)) []
        rwa [List.append_nil] at hlast

theorem variablePart_eq_nil {cells : List Cell} (h : variableCount (cells.map Prod.fst) = 0) :
    variablePart cells = [] := by
  rw [variablePart, List.flatMap_eq_nil_iff]
  intro c hc
  rw [variableCount, List.countP_eq_zero] at h
  have := h c.1 (List.mem_map_of_mem hc)
  exact variableCell_of_fixed (by simpa using this)

section Read

variable {cells pre post : List Cell} {c : Cell} {layout : ValueLayout} {size : ℕ}
  (payload : Bytes)

/-- The regions of a row. -/
theorem rowBytes_regions (hcells : ∀ c ∈ cells, Encodable c ∧ c.1.valid = true) :
    HasAt (rowBytes cells ++ payload) 0
      (nullHeader (headerBytes (cells.map Prod.fst)) (nullRanks 0 cells)) ∧
    HasAt (rowBytes cells ++ payload) (headerBytes (cells.map Prod.fst)) (varEnds 0 cells) ∧
    HasAt (rowBytes cells ++ payload) (fixedBase (cells.map Prod.fst)) (fixedPart cells) ∧
    HasAt (rowBytes cells ++ payload) (layoutBytes (cells.map Prod.fst)) (variablePart cells) := by
  have hrow : HasAt (rowBytes cells ++ payload) 0 (rowBytes cells) := (HasAt.self _).append payload
  refine ⟨hrow.left.left.left, ?_, ?_, ?_⟩
  · have := hrow.left.left.right
    rwa [length_nullHeader, Nat.zero_add] at this
  · have := hrow.left.right
    rwa [List.length_append, length_nullHeader, length_varEnds, Nat.zero_add] at this
  · have := hrow.right
    rwa [List.length_append, List.length_append, length_nullHeader, length_varEnds,
      length_fixedPart hcells, Nat.zero_add] at this

/-- Where the variable bytes behind `pre` start. -/
theorem loadStart_eq (hcells : ∀ c ∈ pre ++ post, Encodable c ∧ c.1.valid = true)
    (hsmall : (variablePart (pre ++ post)).length < 2 ^ 32) {rank : UInt32}
    (hrank : rank.toNat = variableCount (pre.map Prod.fst)) :
    (if 0 < rank then
      loadU32 ((rowBytes (pre ++ post) ++ payload).drop
        (headerBytes ((pre ++ post).map Prod.fst) + (rank - 1).toNat * 4))
      else 0).toNat = (variablePart pre).length := by
  obtain ⟨-, hends, -⟩ := rowBytes_regions payload hcells
  by_cases hpos : 0 < rank
  · have hposNat : 0 < variableCount (pre.map Prod.fst) := by
      rw [← hrank]
      exact UInt32.lt_iff_toNat_lt.1 hpos
    have hpred : (rank - 1).toNat = variableCount (pre.map Prod.fst) - 1 := by
      rw [UInt32.toNat_sub_of_le, hrank]
      · rfl
      · rw [UInt32.le_iff_toNat_le, hrank]
        exact hposNat
    rw [varEnds_append] at hends
    have hlast := hends.left.trans (varEnds_last hposNat)
    rw [variablePart_append, List.length_append] at hsmall
    rw [if_pos hpos, hpred, Nat.mul_comm _ 4, loadU32_of_hasAt hlast (by omega), Nat.zero_add]
  · have hzero : variableCount (pre.map Prod.fst) = 0 := by
      rw [← hrank]
      rw [UInt32.lt_iff_toNat_lt] at hpos
      exact Nat.le_zero.1 (Nat.not_lt.1 hpos)
    rw [if_neg hpos, variablePart_eq_nil hzero]
    rfl

/-- What the layout holds for the attribute behind `pre`. -/
theorem ValueLayout.Placed.at {layout : ValueLayout}
    (h : layout.Placed ((pre ++ c :: post).map Prod.fst)) {attrIdx : UInt32}
    (hidx : attrIdx.toNat = pre.length) :
    ∃ slot, layout.At attrIdx
        ⟨c.1, nullBitAt c.1.nullable (nullableCount (pre.map Prod.fst)), slot⟩ ∧
      slot.toNat = if c.1.isFixed = true then
          fixedBase ((pre ++ c :: post).map Prod.fst) + fixedBytes (pre.map Prod.fst)
        else variableCount (pre.map Prod.fst) := by
  obtain ⟨slot, hslot, hslotEq⟩ := h.slot _ _ specs_at
  have hnb := h.nullBit _ _ specs_at
  rw [take_specs] at hslotEq hnb
  refine ⟨slot, ⟨?_, ?_, ?_, ?_⟩, hslotEq⟩ <;> rw [hidx]
  · rw [h.specs_eq, specs_at]
  · exact hnb
  · exact hslot
  · rw [h.isFixed, List.getElem?_map, specs_at, Option.map_some]

theorem mem_nullRanks (hnullable : c.1.nullable = true) :
    nullableCount (pre.map Prod.fst) ∈ nullRanks 0 (pre ++ c :: post) ↔
      c.2 = .null ∧ nullableCount (pre.map Prod.fst) < 2 ^ 31 := by
  rw [nullRanks_append, nullRanks, Nat.zero_add, List.mem_append, List.mem_append,
    nullableCount_singleton]
  simp only [hnullable, if_true, true_and]
  constructor
  · rintro (h | h | h)
    · have := nullRanks_bounds h
      omega
    · split at h
      · assumption
      · cases h
    · have := nullRanks_bounds h
      omega
  · intro h
    rw [if_pos h]
    simp

/-- Exactly the attributes marked NULL read as NULL. -/
theorem isNull_row (w : Walk layout size (pre ++ c :: post)) (slot : UInt32) :
    AttrSlot.isNull ⟨c.1, nullBitAt c.1.nullable (nullableCount (pre.map Prod.fst)), slot⟩
        (rowBytes (pre ++ c :: post) ++ payload) ↔
      c.2 = .null ∧ c.1.nullable = true ∧ nullableCount (pre.map Prod.fst) < 2 ^ 31 := by
  obtain ⟨hheader, -⟩ := rowBytes_regions payload w.encodable
  obtain ⟨hrank, hroom, -⟩ := w.bounds
  rw [AttrSlot.isNull, nullBitAt_nonneg hrank]
  by_cases hlow : c.1.nullable = true ∧ nullableCount (pre.map Prod.fst) < 2 ^ 31
  · have hbyte := hroom hlow.1
    have hbound : ∀ k ∈ nullRanks 0 (pre ++ c :: post),
        k / 8 < headerBytes ((pre ++ c :: post).map Prod.fst) := by
      intro k hk
      have := nullRanks_bounds hk
      rw [headerBytes]
      omega
    have hbit : bitAt (rowBytes (pre ++ c :: post) ++ payload)
        (nullableCount (pre.map Prod.fst)) =
        decide (nullableCount (pre.map Prod.fst) ∈ nullRanks 0 (pre ++ c :: post)) := by
      rw [← bitAt_nullHeader hbound, bitAt, bitAt]
      obtain ⟨rest, hrest⟩ := hheader.drop_eq
      rw [List.drop_zero] at hrest
      rw [hrest, List.getD_append _ _ _ _ (by rw [length_nullHeader]; exact hbyte)]
    rw [isNullBitSet_eq, hlow.1, toNatClampNeg_nullBitAt hlow.2, hbit, decide_eq_true_eq,
      mem_nullRanks hlow.1]
    tauto
  · tauto

/-- Where the variable bytes of the attribute behind `pre` stop. -/
theorem loadStop_eq (w : Walk layout size (pre ++ c :: post)) (hf : c.1.isFixed ≠ true)
    {rank : UInt32} (hrank : rank.toNat = variableCount (pre.map Prod.fst)) :
    (loadU32 ((rowBytes (pre ++ c :: post) ++ payload).drop
      (headerBytes ((pre ++ c :: post).map Prod.fst) + rank.toNat * 4))).toNat =
      (variablePart pre).length + (variableCell c).length := by
  obtain ⟨-, hends, -⟩ := rowBytes_regions payload w.encodable
  obtain ⟨-, -, -, -, hle⟩ := w.bounds
  have hsmall := w.small
  rw [varEnds_append, varEnds, if_neg hf] at hends
  have hentry := hends.right.left
  rw [length_varEnds, ← hrank, Nat.mul_comm, Nat.zero_add] at hentry
  exact loadU32_of_hasAt hentry (by omega)

theorem variableCell_at (hcells : ∀ c' ∈ pre ++ c :: post, Encodable c' ∧ c'.1.valid = true) :
    HasAt (rowBytes (pre ++ c :: post) ++ payload)
      (layoutBytes ((pre ++ c :: post).map Prod.fst) + (variablePart pre).length)
      (variableCell c) := by
  obtain ⟨-, -, -, hvars⟩ := rowBytes_regions payload hcells
  have hsplit : variablePart (pre ++ c :: post) =
      variablePart pre ++ (variableCell c ++ variablePart post) := by
    rw [variablePart_append]
    rfl
  rw [hsplit] at hvars
  exact hvars.right.left

theorem variableBytes_row (w : Walk layout size (pre ++ c :: post)) (hf : c.1.isFixed ≠ true)
    {rank : UInt32} (hrank : rank.toNat = variableCount (pre.map Prod.fst)) :
    layout.variableBytes (rowBytes (pre ++ c :: post) ++ payload) rank = variableCell c := by
  have hsmall := w.small
  have hstart := loadStart_eq payload w.encodable (by omega) hrank
  have hstop := loadStop_eq payload w hf hrank
  rw [ValueLayout.variableBytes]
  simp only [List.drop_drop, w.placed.header]
  generalize (if 0 < rank then loadU32 _ else 0) = start at hstart ⊢
  generalize loadU32 _ = stop at hstop ⊢
  rw [UInt32.toNat_sub_of_le, hstart, hstop, w.placed.base, Nat.add_sub_cancel_left]
  · exact (variableCell_at payload w.encodable).slice_eq
  · rw [UInt32.le_iff_toNat_le, hstart, hstop]
    exact Nat.le_add_right _ _

/-- A value that is not NULL, read back. -/
theorem decodeAttr_row (w : Walk layout size (pre ++ c :: post)) {attrIdx : UInt32}
    (hidx : attrIdx.toNat = pre.length) (hnull : c.2 ≠ .null) :
    decodeAttr layout (rowBytes (pre ++ c :: post) ++ payload) attrIdx =
      some (c.2.narrow c.1) := by
  obtain ⟨slot, hat, hslot⟩ := w.placed.at hidx
  obtain ⟨henc, hvalid⟩ := w.encodable c (by simp)
  obtain ⟨-, hends, hfixed, hvars⟩ := rowBytes_regions payload w.encodable
  rw [decodeAttr_eq hat, if_neg (fun h => hnull ((isNull_row payload w slot).1 h).1)]
  by_cases hf : c.1.isFixed = true
  · rw [if_pos hf] at hslot
    obtain ⟨bs, hbs, -, hdecode⟩ := henc.fixed hvalid hf hnull
    have hcell : fixedCell c = bs := by rw [fixedCell, if_pos hf, if_neg hnull, hbs]; rfl
    have hsplit : fixedPart (pre ++ c :: post) = fixedPart pre ++ (bs ++ fixedPart post) := by
      rw [fixedPart_append, ← hcell]
      rfl
    rw [hsplit] at hfixed
    have hslotAt := hfixed.right.left
    rw [length_fixedPart fun c' hc' => w.encodable c' (List.mem_append_left _ hc'), ← hslot]
      at hslotAt
    obtain ⟨rest, hrest⟩ := hslotAt.drop_eq
    rw [if_pos hf, hrest, hdecode]
  · rw [if_neg hf] at hslot ⊢
    obtain ⟨hfits, -⟩ := henc.resolve_left hnull
    have hp : c.1.physicalType = .varBinary := by simpa [AttrSpec.isFixed] using hf
    rw [hp] at hfits
    obtain ⟨b, hb⟩ : ∃ b, c.2 = .bytes b := by cases hv : c.2 <;> simp_all [AttrView.fits]
    rw [variableBytes_row payload w hf hslot, variableCell, if_neg hf, hb, AttrView.narrow, hp]
    rfl

theorem decodeAttr_row_null (w : Walk layout size (pre ++ c :: post)) {attrIdx : UInt32}
    (hidx : attrIdx.toNat = pre.length) (hnull : c.2 = .null) (hnullable : c.1.nullable = true)
    (hlow : nullableCount (pre.map Prod.fst) < 2 ^ 31) :
    decodeAttr layout (rowBytes (pre ++ c :: post) ++ payload) attrIdx = some .null := by
  obtain ⟨slot, hat, -⟩ := w.placed.at hidx
  rw [decodeAttr_eq hat, if_pos ((isNull_row payload w slot).2 ⟨hnull, hnullable, hlow⟩)]

theorem decodePayload_row (w : Walk layout size cells) :
    decodePayload layout (rowBytes cells ++ payload) = some payload := by
  have hsmall := w.small
  have hcells : ∀ c ∈ cells ++ [], Encodable c ∧ c.1.valid = true := by
    rw [List.append_nil]
    exact w.encodable
  have hstart := loadStart_eq payload hcells (by rw [List.append_nil]; omega) w.placed.nVariable
  rw [List.append_nil] at hstart
  have hpos : (layout.variableBase + if 0 < layout.nVariable then
      loadU32 ((rowBytes cells ++ payload).drop
        (layout.nullBitmapBytes.toNat + (layout.nVariable - 1).toNat * 4)) else 0).toNat =
      (rowBytes cells).length := by
    rw [UInt32.toNat_add, w.placed.header, hstart, w.placed.base, length_rowBytes w.encodable]
    omega
  rw [decodePayload, hpos, if_pos (by simp), List.drop_left]

end Read

/-! ### The converse: what a row that was written tells -/

theorem length_encodeNull {layout : ValueLayout} {out out' : Bytes} {i : ℕ} {v : AttrView}
    (h : encodeNull layout out i v = some out') : out'.length = out.length := by
  simp only [encodeNull, Option.bind_eq_bind, Option.bind_eq_some_iff] at h
  obtain ⟨nb, -, h⟩ := h
  split at h
  · obtain ⟨byte, -, h⟩ := Option.bind_eq_some_iff.1 h
    exact length_writeAt h
  · exact congrArg List.length (Option.some.inj h).symm

theorem encodeAttr_cursor {layout : ValueLayout} {st st' : EncodeState} {i : ℕ} {c : Cell}
    (hfixed : layout.isFixed[i]? = some c.1.isFixed)
    (h : encodeAttr layout st i c.2 = some st') :
    st'.out.length = st.out.length ∧
      st'.variablePtr = st.variablePtr + (variableCell c).length := by
  rw [encodeAttr, Option.bind_eq_bind, Option.bind_eq_some_iff] at h
  obtain ⟨out, hnull, h⟩ := h
  have hlen := length_encodeNull hnull
  simp only [hfixed, Option.bind_eq_bind, Option.bind_some] at h
  by_cases hf : c.1.isFixed = true
  · rw [variableCell_of_fixed hf]
    rw [if_pos hf] at h
    obtain ⟨slot, -, h⟩ := Option.bind_eq_some_iff.1 h
    obtain ⟨spec, -, h⟩ := Option.bind_eq_some_iff.1 h
    have hwrite : ∃ bytes out', writeAt out slot.toNat bytes = some out' ∧
        some { st with out := out' } = some st' := by
      split at h
      · obtain ⟨out', hwrite, h⟩ := Option.bind_eq_some_iff.1 h
        exact ⟨_, out', hwrite, h⟩
      · obtain ⟨bytes, -, h⟩ := Option.bind_eq_some_iff.1 h
        obtain ⟨out', hwrite, h⟩ := Option.bind_eq_some_iff.1 h
        exact ⟨bytes, out', hwrite, h⟩
    obtain ⟨bytes, out', hwrite, h⟩ := hwrite
    rw [Option.some.injEq] at h
    subst h
    exact ⟨(length_writeAt hwrite).trans hlen, rfl⟩
  · rw [if_neg hf] at h
    have hwrite : ∃ out₁ out', writeAt out st.variablePtr (variableCell c) = some out₁ ∧
        (∃ off bs, writeAt out₁ off bs = some out') ∧ st'.out = out' ∧
        st'.variablePtr = st.variablePtr + (variableCell c).length := by
      rw [variableCell, if_neg hf]
      cases hv : c.2 <;> rw [hv] at h <;> simp only [] at h
      all_goals
        first
        | cases h
        | obtain ⟨out₁, hwrite₁, h⟩ := Option.bind_eq_some_iff.1 h
          obtain ⟨out', hwrite₂, h⟩ := Option.bind_eq_some_iff.1 h
          rw [Option.pure_def, Option.some.injEq] at h
          subst h
          exact ⟨out₁, out', hwrite₁, ⟨_, _, hwrite₂⟩, rfl, rfl⟩
    obtain ⟨out₁, out', hwrite₁, ⟨off, bs, hwrite₂⟩, hout, hptr⟩ := hwrite
    rw [hout, length_writeAt hwrite₂, length_writeAt hwrite₁, hlen]
    exact ⟨rfl, hptr⟩

theorem encodeAttrs_cursor {layout : ValueLayout} {st st' : EncodeState} {i : ℕ}
    {cells : List Cell}
    (hfixed : ∀ (j : ℕ) c, cells[j]? = some c → layout.isFixed[i + j]? = some c.1.isFixed)
    (h : encodeAttrs layout st i (cells.map Prod.snd) = some st') :
    st'.out.length = st.out.length ∧
      st'.variablePtr = st.variablePtr + (variablePart cells).length := by
  induction cells generalizing st i with
  | nil =>
      obtain rfl : st = st' := Option.some.inj h
      exact ⟨rfl, rfl⟩
  | cons c cells ih =>
      rw [List.map_cons, encodeAttrs, Option.bind_eq_bind, Option.bind_eq_some_iff] at h
      obtain ⟨st₁, hstep, hrun⟩ := h
      obtain ⟨hlen₁, hptr₁⟩ := encodeAttr_cursor (hfixed 0 c rfl) hstep
      obtain ⟨hlen, hptr⟩ := ih (fun j c' hc' => by
        rw [Nat.add_assoc, Nat.add_comm 1]
        exact hfixed (j + 1) c' hc') hrun
      have hparts : variablePart (c :: cells) = variableCell c ++ variablePart cells := rfl
      rw [hlen, hlen₁, hptr, hptr₁, hparts, List.length_append]
      exact ⟨rfl, by omega⟩

/-- The payload is written behind the variable bytes, inside the buffer. -/
theorem encodeValue_room {o : BitLSMOptions} {cells : List Cell}
    (hschema : validateAttrSpecs o = .ok) (hspecs : o.attrSpecs = cells.map Prod.fst)
    (henc : ∀ c ∈ cells, Encodable c) (hlayout : layoutBytes o.attrSpecs < 2 ^ 32)
    {payload prev row : Bytes}
    (h : encodeValue (.ofOptions o) (cells.map Prod.snd) payload prev = some row) :
    layoutBytes o.attrSpecs + (variablePart cells).length < 2 ^ 32 := by
  have hplaced := ValueLayout.placed hschema hlayout
  have hbase := hplaced.base
  have hfixed : (ValueLayout.ofOptions o).isFixed = cells.map fun c => c.1.isFixed := by
    rw [hplaced.isFixed, hspecs, List.map_map]
    rfl
  rw [encodeValue, hfixed, variableBytesOf_eq henc] at h
  simp only [Option.bind_eq_bind, Option.bind_some] at h
  obtain ⟨out, hout, h⟩ := Option.bind_eq_some_iff.1 h
  obtain ⟨st, hrun, h⟩ := Option.bind_eq_some_iff.1 h
  obtain ⟨hlen, hptr⟩ := encodeAttrs_cursor (fun j c hc => by
    rw [hfixed, List.getElem?_map, Nat.zero_add, hc]
    rfl) hrun
  obtain ⟨hroom, -⟩ := writeAt_eq_some h
  rw [hptr, hlen, length_writeAt hout] at hroom
  simp only [List.length_append, List.length_take, List.length_replicate] at hroom
  rw [UInt32.toNat_add, hbase, UInt32.toNat_ofNat'] at hroom
  omega

/-! ### The round trip -/

/-- A value an attribute may be given: NULL for a nullable attribute, or its
physical type's alternative, in the range of the width. -/
def AttrView.Storable (s : AttrSpec) (v : AttrView) : Prop :=
  v = .null ∧ s.nullable = true ∨ v.fits s.physicalType = true ∧ v.InWidth s

/-- Encoding, over whatever the buffer held, and decoding give back every
value and the payload. -/
def RoundTrips (o : BitLSMOptions) (attrs : List AttrView) (payload : Bytes) : Prop :=
  ∃ row, (∀ prev, encodeValue (.ofOptions o) attrs payload prev = some row) ∧
    (∀ (attrIdx : UInt32) v, attrs[attrIdx.toNat]? = some v →
      decodeAttr (.ofOptions o) row attrIdx = some v) ∧
    decodePayload (.ofOptions o) row = some payload

/-- The row's offsets fit a `uint32_t` and its null bits an `int32_t`. -/
structure RowAddressable (o : BitLSMOptions) (attrs : List AttrView) : Prop where
  bytes : layoutBytes o.attrSpecs + (variablePart (o.attrSpecs.zip attrs)).length < 2 ^ 32
  nulls : ∀ i : ℕ, attrs[i]? = some .null → nullableCount (o.attrSpecs.take i) < 2 ^ 31

theorem AttrView.Storable.encodable {c : Cell} (h : c.2.Storable c.1) : Encodable c := by
  rcases h with ⟨hnull, -⟩ | ⟨hfits, hwidth⟩
  · exact Or.inl hnull
  · refine Or.inr ⟨hfits, fun b hb hp => ?_⟩
    rw [hb] at hwidth
    exact (hwidth hp).ge

section RoundTrip

variable {o : BitLSMOptions} {cells : List Cell} (hschema : validateAttrSpecs o = .ok)
  (hspecs : o.attrSpecs = cells.map Prod.fst)
include hschema hspecs

theorem Walk.ofOptions (henc : ∀ c ∈ cells, Encodable c)
    (hsmall : layoutBytes o.attrSpecs + (variablePart cells).length < 2 ^ 32) :
    Walk (.ofOptions o) (layoutBytes o.attrSpecs + (variablePart cells).length) cells := by
  have hvalid := (validateAttrSpecs_eq_ok.1 hschema).2
  have hplaced := ValueLayout.placed hschema (by omega)
  rw [hspecs] at *
  exact ⟨hplaced, fun c hc => ⟨henc c hc, hvalid _ (List.mem_map_of_mem hc)⟩, le_rfl, hsmall⟩

theorem roundTrips_of_addressable (hstorable : ∀ c ∈ cells, c.2.Storable c.1)
    (hsmall : layoutBytes o.attrSpecs + (variablePart cells).length < 2 ^ 32)
    (hnulls : ∀ pre c post, cells = pre ++ c :: post → c.2 = .null →
      nullableCount (pre.map Prod.fst) < 2 ^ 31) (payload : Bytes) :
    RoundTrips o (cells.map Prod.snd) payload := by
  have henc : ∀ c ∈ cells, Encodable c := fun c hc => (hstorable c hc).encodable
  have hvalid := (validateAttrSpecs_eq_ok.1 hschema).2
  have hwalk := Walk.ofOptions hschema hspecs henc hsmall
  refine ⟨rowBytes cells ++ payload, encodeValue_eq hschema hspecs henc hsmall payload,
    fun attrIdx v hv => ?_, decodePayload_row payload hwalk⟩
  rw [List.getElem?_map, Option.map_eq_some_iff] at hv
  obtain ⟨c, hc, rfl⟩ := hv
  obtain ⟨hlt, hget⟩ := List.getElem?_eq_some_iff.1 hc
  have hsplit : cells = cells.take attrIdx.toNat ++ c :: cells.drop (attrIdx.toNat + 1) := by
    rw [← hget, List.cons_getElem_drop_succ, List.take_append_drop]
  have hidx : attrIdx.toNat = (cells.take attrIdx.toNat).length :=
    (List.length_take_of_le hlt.le).symm
  have hmem : c ∈ cells := List.mem_of_getElem? hc
  have hcvalid : c.1.valid = true := hvalid _ (by rw [hspecs]; exact List.mem_map_of_mem hmem)
  have hlow := hnulls _ _ _ hsplit
  generalize cells.take attrIdx.toNat = pre at *
  generalize cells.drop (attrIdx.toNat + 1) = post at *
  subst hsplit
  rcases hstorable c hmem with ⟨hnull, hnullable⟩ | ⟨hfits, hwidth⟩
  · rw [decodeAttr_row_null payload hwalk hidx hnull hnullable (hlow hnull), hnull]
  · have hne : c.2 ≠ .null := by
      rintro hnull
      rw [hnull] at hfits
      cases hfits
    rw [decodeAttr_row payload hwalk hidx hne, AttrView.narrow_of_inWidth hcvalid hfits hwidth]

end RoundTrip

/-- An attribute whose null bit is not set does not read as NULL. -/
theorem decodeAttr_ne_null {l : ValueLayout} {attrIdx : UInt32} {a : AttrSlot}
    (h : l.At attrIdx a) {buffer : Bytes} (hnull : ¬ a.isNull buffer) :
    decodeAttr l buffer attrIdx ≠ some .null := by
  rw [decodeAttr_eq h, if_neg hnull]
  split
  · next hf =>
      intro heq
      have hfits := decodeFixed_fits (buffer.drop a.slot.toNat) hf
      rw [Option.some.inj heq] at hfits
      cases hfits
  · exact fun heq => by cases heq

theorem addressable_of_roundTrips {o : BitLSMOptions} {attrs : List AttrView} {payload : Bytes}
    (hschema : validateAttrSpecs o = .ok) (hlen : attrs.length = o.attrNum.toNat)
    (hstorable : ∀ c ∈ o.attrSpecs.zip attrs, c.2.Storable c.1)
    (hlayout : layoutBytes o.attrSpecs < 2 ^ 32) (h : RoundTrips o attrs payload) :
    RowAddressable o attrs := by
  obtain ⟨row, hrow, hdecode, -⟩ := h
  have hnum := (validateAttrSpecs_eq_ok.1 hschema).1
  have hfst : o.attrSpecs = (o.attrSpecs.zip attrs).map Prod.fst :=
    (List.map_fst_zip (by omega)).symm
  have hsnd : attrs = (o.attrSpecs.zip attrs).map Prod.snd := (List.map_snd_zip (by omega)).symm
  refine ⟨?_, fun i hi => ?_⟩
  · have henc := hrow []
    rw [hsnd] at henc
    exact encodeValue_room hschema hfst (fun c hc => (hstorable c hc).encodable) hlayout henc
  · obtain ⟨hlt, -⟩ := List.getElem?_eq_some_iff.1 hi
    have hidx : (UInt32.ofNat i).toNat = i := by
      rw [UInt32.toNat_ofNat']
      exact Nat.mod_eq_of_lt (by have := o.attrNum.toNat_lt; omega)
    obtain ⟨s, hs⟩ : ∃ s, o.attrSpecs[i]? = some s :=
      ⟨_, List.getElem?_eq_getElem (by omega)⟩
    have hmem : (s, AttrView.null) ∈ o.attrSpecs.zip attrs :=
      List.mem_of_getElem? (List.getElem?_zip_eq_some.2 ⟨hs, hi⟩)
    have hnullable : s.nullable = true := by
      rcases hstorable _ hmem with ⟨-, hnullable⟩ | ⟨hfits, -⟩
      · exact hnullable
      · cases hfits
    have hnb := (ValueLayout.placed hschema hlayout).nullBit i s hs
    have hspec : o.attrSpecs[(UInt32.ofNat i).toNat]? = some s := by
      rw [hidx]
      exact hs
    obtain ⟨a, hat, rfl⟩ := ValueLayout.exists_at hspec
    have hbit := hat.nullBit
    rw [hidx, hnb, if_pos hnullable, Option.some.injEq] at hbit
    by_contra hhigh
    refine decodeAttr_ne_null hat ?_ (hdecode (UInt32.ofNat i) .null (by rw [hidx]; exact hi))
    rintro ⟨hnonneg, -⟩
    have hrank : nullableCount (o.attrSpecs.take i) < 2 ^ 32 := by
      have hcount : nullableCount (o.attrSpecs.take i) ≤ _ := List.countP_le_length
      rw [List.length_take] at hcount
      have := o.attrNum.toNat_lt
      omega
    have hneg := @nullBitAt_nonneg true _ hrank
    rw [nullBitAt, if_pos rfl, hbit] at hneg
    exact hhigh (hneg.1 hnonneg).2

/-- Every accepted schema and every row of storable values: if the offsets
fit, the row round trips, and for a layout whose fixed part fits, only then. -/
theorem encodeValue_roundTrips {o : BitLSMOptions} {attrs : List AttrView} (payload : Bytes)
    (hschema : validateAttrSpecs o = .ok) (hlen : attrs.length = o.attrNum.toNat)
    (hstorable : ∀ c ∈ o.attrSpecs.zip attrs, c.2.Storable c.1) :
    (RowAddressable o attrs → RoundTrips o attrs payload) ∧
      (layoutBytes o.attrSpecs < 2 ^ 32 → RoundTrips o attrs payload → RowAddressable o attrs) := by
  refine ⟨fun h => ?_, addressable_of_roundTrips hschema hlen hstorable⟩
  have hnum := (validateAttrSpecs_eq_ok.1 hschema).1
  have hfst : o.attrSpecs = (o.attrSpecs.zip attrs).map Prod.fst :=
    (List.map_fst_zip (by omega)).symm
  have hsnd : attrs = (o.attrSpecs.zip attrs).map Prod.snd := (List.map_snd_zip (by omega)).symm
  have htrip := roundTrips_of_addressable hschema hfst hstorable h.bytes
    (fun pre c post hsplit hnull => ?_) payload
  · rwa [← hsnd] at htrip
  · have hi := h.nulls pre.length
    rw [hfst, hsplit, take_specs] at hi
    refine hi ?_
    rw [hsnd, hsplit, List.getElem?_map, List.getElem?_append_right le_rfl, Nat.sub_self,
      List.getElem?_cons_zero, Option.map_some, hnull]

/-- A narrow integer, a NULL and two strings, one of them empty. -/
def mixedSchema : BitLSMOptions :=
  ⟨4, [⟨.range, .int, 2, false⟩, ⟨.equality, .varBinary, 0, true⟩,
    ⟨.equality, .varBinary, 0, false⟩, ⟨.equality, .varBinary, 0, true⟩]⟩

def mixedRow : List AttrView := [.int (-300), .null, .bytes [7, 8], .bytes []]

theorem encodeValue_roundTrips_mixedRow :
    validateAttrSpecs mixedSchema = .ok ∧ RowAddressable mixedSchema mixedRow ∧
      RoundTrips mixedSchema mixedRow [9] := by
  have hstorable : ∀ c ∈ mixedSchema.attrSpecs.zip mixedRow, c.2.Storable c.1 := by
    intro c hc
    simp only [mixedSchema, mixedRow, List.zip_cons_cons, List.zip_nil_right, List.mem_cons,
      List.not_mem_nil, or_false] at hc
    rcases hc with rfl | rfl | rfl | rfl
    · exact Or.inr ⟨rfl, by constructor <;> decide⟩
    · exact Or.inl ⟨rfl, rfl⟩
    · exact Or.inr ⟨rfl, fun h => by cases h⟩
    · exact Or.inr ⟨rfl, fun h => by cases h⟩
  have hnulls : ∀ i : ℕ, mixedRow[i]? = some .null →
      nullableCount (mixedSchema.attrSpecs.take i) < 2 ^ 31 := by
    intro i _
    refine lt_of_le_of_lt List.countP_le_length ?_
    rw [List.length_take]
    exact lt_of_le_of_lt (min_le_right _ _) (by decide)
  have hfits : RowAddressable mixedSchema mixedRow := ⟨by decide, hnulls⟩
  exact ⟨rfl, hfits, (encodeValue_roundTrips [9] rfl rfl hstorable).1 hfits⟩

theorem not_roundTrips_of_length {long : Bytes} (hlength : long.length = 2 ^ 32 - 4) :
    AttrView.Storable ⟨.equality, .varBinary, 0, false⟩ (.bytes long) ∧
      ¬ RoundTrips ⟨1, [⟨.equality, .varBinary, 0, false⟩]⟩ [.bytes long] [] := by
  have hstorable : AttrView.Storable ⟨.equality, .varBinary, 0, false⟩ (.bytes long) :=
    Or.inr ⟨rfl, fun h => by cases h⟩
  refine ⟨hstorable, fun h => ?_⟩
  have hfits := addressable_of_roundTrips rfl rfl (by simpa using hstorable) (by decide) h
  have hpart : variablePart [(⟨.equality, .varBinary, 0, false⟩, .bytes long)] = long := by
    rw [variablePart_singleton]
    rfl
  have hbytes : layoutBytes [⟨.equality, .varBinary, 0, false⟩] + long.length < 2 ^ 32 := by
    rw [← hpart]
    exact hfits.bytes
  rw [hlength] at hbytes
  exact absurd hbytes (by decide)

/-- A string as long as a `uint32_t` counts, less the four bytes of the
`var_end` entry in front of it: the sum of the two wraps to zero, and the row
is written into an empty buffer. -/
theorem encodeValue_not_roundTrips :
    validateAttrSpecs ⟨1, [⟨.equality, .varBinary, 0, false⟩]⟩ = .ok ∧
      ∃ long : Bytes, long.length = 2 ^ 32 - 4 ∧
        AttrView.Storable ⟨.equality, .varBinary, 0, false⟩ (.bytes long) ∧
        ¬ RoundTrips ⟨1, [⟨.equality, .varBinary, 0, false⟩]⟩ [.bytes long] [] :=
  ⟨rfl, List.replicate (2 ^ 32 - 4) 0, List.length_replicate,
    not_roundTrips_of_length List.length_replicate⟩

end BitLSM
