import BitLSM.RangeBins
import BitLSM.Builder.FairBudget

/-!
How tight a selection of bins is.

`SelectBins` answers an interval with whole bins. The rows of every bin
between the two ends lie in the interval, and so do the rows of an end bin
whose boundary is the end of the interval. Only where an end falls inside
a bin are rows selected that the scan has to drop.
-/

namespace BitLSM

open Wire

/-! ### Bins and the ends of an interval -/

section Ends

variable {vs bs : List Bytes} {bins : ℕ} {v : Bytes} {w : ByteInterval}

/-- The rows above the first bin are above the lower end. -/
theorem lo_lt_of_lt_rangeBin
    (h : min (bins - 1) ((bs.countP fun b => decide (b ≤ w.lo)) - 1) < rangeBin bins bs v) :
    w.lo < v := by
  by_contra hle
  have hcount := @countP_le_countP bs _ _ (not_lt.1 hle)
  rw [rangeBin] at h
  omega

/-- The rows below the last bin are below the upper end. -/
theorem belowHi_of_rangeBin_lt (h : rangeBin bins bs v < min (bins - 1) (hiCount bs w - 1)) :
    w.belowHi v := by
  rw [rangeBin] at h
  rw [hiCount] at h
  cases hunbounded : w.hiUnbounded with
  | true => exact Or.inl hunbounded
  | false =>
      rw [hunbounded, if_neg (by decide)] at h
      refine ByteInterval.belowHi_of_lt ?_
      by_contra hle
      have hle := not_lt.1 hle
      have hclosed := @countP_le_countP bs _ _ hle
      have hopen : (bs.countP fun b => decide (b < w.hi)) ≤ bs.countP fun b => decide (b ≤ v) :=
        List.countP_mono_left fun b _ hb => by
          rw [decide_eq_true_eq] at hb ⊢
          exact hb.le.trans hle
      split at h <;> omega

/-- Fewer boundaries than there are lie at or below one that is not the greatest. -/
theorem RangeBoundaries.countP_le_bins (h : RangeBoundaries vs bins bs) {b : Bytes}
    (htop : ∀ top, bs.getLast? = some top → b < top) :
    (bs.countP fun x => decide (x ≤ b)) ≤ bins := by
  have hlen := h.length
  have hne : bs ≠ [] := List.ne_nil_of_length_pos (by omega)
  have hlt : (bs.countP fun x => decide (x ≤ b)) < bs.length :=
    List.countP_lt_length_iff.2 ⟨bs.getLast hne, List.getLast_mem hne,
      decide_eq_false (not_le.2 (htop _ (List.getLast?_eq_some_getLast hne)))⟩
  omega

/-- A bin that begins with the lower end has no row below it. -/
theorem RangeBoundaries.lo_le_of_rangeBin_eq (h : RangeBoundaries vs bins bs) (hv : v ∈ vs)
    (hlo : w.lo ∈ bs) (htop : ∀ top, bs.getLast? = some top → w.lo < top)
    (hbin : rangeBin bins bs v =
      min (bins - 1) ((bs.countP fun b => decide (b ≤ w.lo)) - 1)) : w.lo ≤ v := by
  by_contra hlt
  have hlt := not_le.1 hlt
  have hone := h.one_le_countP hv
  have hbins := h.countP_le_bins htop
  have hcount : (bs.countP fun b => decide (b ≤ v)) < bs.countP fun b => decide (b ≤ w.lo) :=
    countP_lt_countP (fun x hx => decide_eq_true ((of_decide_eq_true hx).trans hlt.le)) hlo
      (decide_eq_false (not_le.2 hlt)) (decide_eq_true le_rfl)
  rw [rangeBin] at hbin
  omega

/-- A bin in front of an open upper end that is a boundary has no row at or above it. -/
theorem RangeBoundaries.lt_hi_of_rangeBin_eq (h : RangeBoundaries vs bins bs)
    (hbounded : w.hiUnbounded = false) (hopen : w.hiOpen = true) (hhi : w.hi ∈ bs)
    (htop : ∀ top, bs.getLast? = some top → w.hi < top) (hsome : hiCount bs w ≠ 0)
    (hbin : rangeBin bins bs v = min (bins - 1) (hiCount bs w - 1)) : v < w.hi := by
  by_contra hle
  have hle := not_lt.1 hle
  have hbins := h.countP_le_bins htop
  have hcount : (bs.countP fun b => decide (b < w.hi)) < bs.countP fun b => decide (b ≤ w.hi) :=
    countP_lt_countP (fun x hx => decide_eq_true (of_decide_eq_true hx).le) hhi
      (decide_eq_false (lt_irrefl _)) (decide_eq_true le_rfl)
  have hmono := @countP_le_countP bs _ _ hle
  rw [hiCount, hbounded, if_neg (by decide), if_pos hopen] at hbin hsome
  rw [rangeBin] at hbin
  omega

end Ends

/-! ### Selections of a built index -/

/-- Every row of the flat bin `k` has a value of attribute `i`, with `P`. -/
def BitmapIndex.AllRows (idx : BitmapIndex) (rows : List (Option (List EncodedAttr))) (i k : ℕ)
    (P : Bytes → Prop) : Prop :=
  ∀ bitmap, idx.bitmaps[k]? = some bitmap → ∀ j ∈ bitmap,
    ∃ v, (cells i rows)[j]? = some (some v) ∧ P v

/-- A selection for the interval `w` of attribute `i`, which has the
boundaries `bs` and `bins` bins from `offset` on. -/
structure BinSelection.Tight (s : BinSelection) (idx : BitmapIndex)
    (rows : List (Option (List EncodedAttr))) (i : ℕ) (bs : List Bytes) (offset bins : ℕ)
    (w : ByteInterval) : Prop where
  ordered : s.first ≤ s.last
  inRange : offset ≤ s.first.toNat ∧ s.last.toNat < offset + bins
  between : ∀ k, s.first.toNat < k → k < s.last.toNat → idx.AllRows rows i k (· ∈ w)
  first_bin : w.loOpen = false → w.lo ∈ bs → (∀ top, bs.getLast? = some top → w.lo < top) →
    idx.AllRows rows i s.first.toNat w.aboveLo
  last_bin : w.hiUnbounded = false → w.hiOpen = true → w.hi ∈ bs →
    (∀ top, bs.getLast? = some top → w.hi < top) → idx.AllRows rows i s.last.toNat w.belowHi

/-- What `SelectBins` reads of an index. -/
structure SABIReader.Holds (r : SABIReader) (schema : SABISchema) (idx : BitmapIndex) : Prop where
  indexTypes : r.indexTypes = schema.indexTypes
  bitmapNums : r.bitmapNums = idx.bitmapNums.map UInt32.ofNat
  binningPolicy : r.binningPolicy = idx.binningPolicy

section Index

variable {r : SABIReader} {schema : SABISchema} {idx : BitmapIndex}
  {rows : List (Option (List EncodedAttr))} {i bins : ℕ} {bitmaps : List Roaring}

theorem SABIReader.Holds.attrBinOffset_eq (h : r.Holds schema idx)
    (hsum : idx.bitmapNums.sum < 2 ^ 32) (hi : i ≤ idx.bitmapNums.length) :
    ∃ offset, r.attrBinOffset i = some offset ∧
      offset.toNat = (idx.bitmapNums.take i).sum := by
  refine ⟨_, if_pos (by rw [h.bitmapNums, List.length_map]; exact hi), ?_⟩
  have hle : (idx.bitmapNums.take i).sum ≤ idx.bitmapNums.sum :=
    (List.take_sublist i _).sum_le_sum fun _ _ => Nat.zero_le _
  rw [h.bitmapNums, ← List.map_take, foldl_add_toNat]
  show (0 + _) % _ = _
  omega

/-- The rows of an attribute's bin, by its flat index. -/
theorem AttrIndexed.allRows {policy : BinningPolicy} {binOf : Bytes → ℕ}
    (h : AttrIndexed (cells i rows) bins policy bitmaps binOf)
    (hlengths : idx.attrBitmaps.map List.length = idx.bitmapNums)
    (hbitmaps : idx.attrBitmaps[i]? = some bitmaps) {k : ℕ} (hk : k < bins) {P : Bytes → Prop}
    (hP : ∀ v ∈ (cells i rows).reduceOption, binOf v = k → P v) :
    idx.AllRows rows i ((idx.bitmapNums.take i).sum + k) P := by
  intro bitmap hbitmap j hj
  rw [← hlengths, BitmapIndex.bitmaps, List.getElem?_append_left, getElem?_flatten_take hbitmaps
    (by rw [h.length]; exact hk)] at hbitmap
  · obtain ⟨v, hv, hbin⟩ := (h.mem k j).1 (by rwa [List.getD_eq_getElem?_getD, hbitmap])
    exact ⟨v, hv, hP v (List.reduceOption_mem_iff.2 (List.mem_of_getElem? hv)) hbin⟩
  · have hle := sum_take_add_le hbitmaps
    have hlen := h.length
    omega

/-- The selection for an interval, from its two ends. -/
theorem RangeBoundaries.tight {bs : List Bytes} {w : ByteInterval} {offset : UInt32}
    (h : RangeBoundaries (cells i rows).reduceOption bins bs) (hempty : w.empty = false)
    (hattr : AttrIndexed (cells i rows) bins (.range (BytesList.ofList bs)) bitmaps
      (rangeBin bins bs))
    (hlengths : idx.attrBitmaps.map List.length = idx.bitmapNums)
    (hbitmaps : idx.attrBitmaps[i]? = some bitmaps)
    (hoffset : offset.toNat = (idx.bitmapNums.take i).sum)
    (hfits : offset.toNat + bins ≤ 2 ^ 32) (hsome : hiCount bs w ≠ 0) :
    BinSelection.Tight ⟨offset + UInt32.ofNat (min (bins - 1)
          ((bs.countP fun b => decide (b ≤ w.lo)) - 1)),
        offset + UInt32.ofNat (min (bins - 1) (hiCount bs w - 1))⟩
      idx rows i bs offset.toNat bins w := by
  have hpos := hattr.bins_pos
  have hordered := @countP_le_hiCount bs w hempty
  have hadd (n : ℕ) (hn : n < bins) : (offset + UInt32.ofNat n).toNat = offset.toNat + n := by
    rw [UInt32.toNat_add, UInt32.toNat_ofNat']
    omega
  have hrows {k : ℕ} (hk : k < bins) {P : Bytes → Prop}
      (hP : ∀ v ∈ (cells i rows).reduceOption, rangeBin bins bs v = k → P v) :
      idx.AllRows rows i (offset.toNat + k) P := by
    rw [hoffset]
    exact hattr.allRows hlengths hbitmaps hk hP
  have hfirst := hadd (min (bins - 1) ((bs.countP fun b => decide (b ≤ w.lo)) - 1)) (by omega)
  have hlast := hadd (min (bins - 1) (hiCount bs w - 1)) (by omega)
  constructor
  · rw [UInt32.le_iff_toNat_le, hfirst, hlast]
    omega
  · simp only [hfirst, hlast]
    omega
  · intro k hk hk'
    simp only [hfirst] at hk
    simp only [hlast] at hk'
    obtain ⟨n, rfl⟩ := Nat.exists_eq_add_of_le (show offset.toNat ≤ k by omega)
    refine hrows (by omega) fun v hv hbin => ⟨?_, ?_⟩
    · exact ByteInterval.aboveLo_of_lt (@lo_lt_of_lt_rangeBin bs bins v w (by omega))
    · exact @belowHi_of_rangeBin_lt bs bins v w (by omega)
  · intro hclosed hlo htop
    simp only [hfirst]
    refine hrows (by omega) fun v hv hbin => ?_
    rw [ByteInterval.aboveLo, hclosed, if_neg (by decide)]
    exact h.lo_le_of_rangeBin_eq hv hlo htop hbin
  · intro hbounded hopen hhi htop
    simp only [hlast]
    refine hrows (by omega) fun v hv hbin => ?_
    exact ByteInterval.belowHi_of_lt (h.lt_hi_of_rangeBin_eq hbounded hopen hhi htop hsome hbin)

/-- `SelectBins` selects tightly, or finds that no row is in the interval. -/
theorem SABIReader.Holds.selectBins_tight (h : r.Holds schema idx) {bs : List Bytes}
    (hbounds : RangeBoundaries (cells i rows).reduceOption bins bs)
    (hattr : AttrIndexed (cells i rows) bins (.range (BytesList.ofList bs)) bitmaps
      (rangeBin bins bs))
    (hlengths : idx.attrBitmaps.map List.length = idx.bitmapNums)
    (hbitmaps : idx.attrBitmaps[i]? = some bitmaps) (hbins : idx.bitmapNums[i]? = some bins)
    (hpolicy : idx.binningPolicy[i]? = some (.range (BytesList.ofList bs)))
    (ht : schema.indexTypes[i]? = some .range) (hsum : idx.bitmapNums.sum < 2 ^ 32)
    (hsmall : bins < 2 ^ 31) (hbytes : bs.flatten.length < 2 ^ 32) {c : SABICondition}
    (hc : c.attrIdx.toNat = i) (hempty : c.win.empty = false) :
    (r.selectBins c = some none ∧ ∀ v ∈ (cells i rows).reduceOption, v ∉ c.win) ∨
      ∃ s, r.selectBins c = some (some s) ∧
        s.Tight idx rows i bs (idx.bitmapNums.take i).sum bins c.win := by
  have hi := (List.getElem?_eq_some_iff.1 hbins).1
  obtain ⟨offset, hoffset, hsumOffset⟩ := h.attrBinOffset_eq hsum hi.le
  have hnums : r.bitmapNums[i]? = some (UInt32.ofNat bins) := by
    rw [h.bitmapNums, List.getElem?_map, hbins]
    rfl
  have hselect : r.selectBins c =
      some (selectRange (BytesList.ofList bs) (UInt32.ofNat bins) offset c.win) := by
    rw [SABIReader.selectBins, hc, h.indexTypes, ht, hoffset, h.binningPolicy, hpolicy, hnums]
    simp [hempty]
  rw [hselect, selectRange_eq hbounds hattr.bins_pos hsmall hbytes]
  by_cases hzero : hiCount bs c.win = 0
  · rw [if_pos hzero]
    exact Or.inl ⟨rfl, fun v hv hwin => (rangeBin_mem_selectRange hbounds hv hwin).1 hzero⟩
  · rw [if_neg hzero]
    have hfits : offset.toNat + bins ≤ 2 ^ 32 := by
      have hle := sum_take_add_le hbitmaps
      rw [hlengths, hattr.length, List.length_flatten, hlengths] at hle
      omega
    refine Or.inr ⟨_, rfl, ?_⟩
    rw [← hsumOffset]
    exact hbounds.tight hempty hattr hlengths hbitmaps hsumOffset hfits hzero

end Index

/-- All bins of an index together have a 32-bit number. -/
theorem SABIBuilder.sum_binCounts_lt (rt : Runtime) {b : SABIBuilder}
    (hattrs : b.columns.length < 2 ^ 32) : (b.binCounts rt).sum < 2 ^ 32 := by
  have hle := Budget.sum_final_le rt.fpu
    (rt.fpu.toUInt32 (rt.fpu.div (rt.fpu.ofNat b.columns.length) b.schema.rho))
    (b.columns.map fun c => c.buf.cardinality rt.sort
      (rt.fpu.toUInt32 (rt.fpu.div (rt.fpu.ofNat b.columns.length) b.schema.rho)).toNat)
  have hlt := Int32.toInt_lt
    (rt.fpu.toUInt32 (rt.fpu.div (rt.fpu.ofNat b.columns.length) b.schema.rho)).toInt32
  rw [List.length_map] at hle
  show (Budget.final _ _ _).bitmapNums.sum < 2 ^ 32
  omega

/-- In every index with boundaries in reach of their end offsets, a range
attribute's bins are selected tightly. -/
theorem selection_tight {extract : AttrExtractor} {schema : SABISchema}
    {calls : List BuilderCall} (hextract : Extracts extract schema calls)
    (hfit : RowsFit (rowsOf extract calls)) (hattrs : schema.indexTypes.length < 2 ^ 32)
    (rt : Runtime) :
    ∃ b idx, SABIBuilder.run rt.hash extract schema calls = some b ∧ b.buildIndex rt = some idx ∧
      ∀ i, schema.indexTypes[i]? = some .range → ∃ bs bins,
        idx.binningPolicy[i]? = some (.range (BytesList.ofList bs)) ∧
        idx.bitmapNums[i]? = some bins ∧ (bs.flatten.length < 2 ^ 32 →
          ∀ (r : SABIReader) (c : SABICondition), r.Holds schema idx → c.attrIdx.toNat = i →
            c.win.empty = false →
            (r.selectBins c = some none ∧
              ∀ v ∈ (cells i (rowsOf extract calls)).reduceOption, v ∉ c.win) ∨
            ∃ s, r.selectBins c = some (some s) ∧
              s.Tight idx (rowsOf extract calls) i bs (idx.bitmapNums.take i).sum bins c.win) := by
  obtain ⟨b, hrun, hbuilt⟩ := @SABIBuilder.run_built rt.hash _ _ _ hextract hfit
  obtain ⟨idx, hbuild, hidx⟩ := hbuilt.buildIndex hfit rt
  have hnums : idx.bitmapNums = b.binCounts rt := by
    obtain ⟨attrs, -, h⟩ := Option.bind_eq_some_iff.1 hbuild
    rw [← Option.some.inj h]
  have hsum : idx.bitmapNums.sum < 2 ^ 32 := by
    rw [hnums]
    refine b.sum_binCounts_lt rt ?_
    rw [← (b.binCounts_spec rt).1, ← hnums, hidx.lengths.1]
    exact hattrs
  refine ⟨b, idx, hrun, hbuild, fun i ht => ?_⟩
  obtain ⟨bins, policy, bitmaps, binOf, hbins, hpolicy, hbitmaps, htype, hattr⟩ := hidx.attrs i _ ht
  have hsmall := b.binCounts_lt rt bins (hnums ▸ List.mem_of_getElem? hbins)
  cases hattr.policy with
  | equality hdict => cases htype
  | @range bs hbounds =>
      refine ⟨bs, bins, hpolicy, hbins, fun hbytes r c hr hc hempty => ?_⟩
      exact hr.selectBins_tight hbounds hattr (SABIBuilder.buildIndex_shaped hbuild).bitmapNums
        hbitmaps hbins hpolicy ht hsum hsmall hbytes hc hempty

/-- A reader with what `SelectBins` reads of an index. -/
def twoAttrReader (idx : BitmapIndex) : SABIReader :=
  { rangeReader {} 0 with
    indexTypes := twoAttrSchema.indexTypes
    bitmapNums := idx.bitmapNums.map UInt32.ofNat
    binningPolicy := idx.binningPolicy }

/-- Of the three bins of the first attribute, the two from `[7]` on are
selected. -/
theorem selection_tight_fiveRows : ∃ b idx bs,
    SABIBuilder.run Runtime.oneRow.hash twoByteExtractor twoAttrSchema fiveRowCalls = some b ∧
    b.buildIndex .oneRow = some idx ∧ (twoAttrReader idx).Holds twoAttrSchema idx ∧
    (twoAttrReader idx).selectBins { attrIdx := 0, win := .fromOp .greaterEqual [7] } =
      some (some ⟨1, 2⟩) ∧
    BinSelection.Tight ⟨1, 2⟩ idx (rowsOf twoByteExtractor fiveRowCalls) 0 bs 0 3
      (.fromOp .greaterEqual [7]) := by
  have hextract : Extracts twoByteExtractor twoAttrSchema fiveRowCalls :=
    fun _ _ _ => ⟨_, rfl, rfl⟩
  have hfit : RowsFit (rowsOf twoByteExtractor fiveRowCalls) := by
    refine ⟨by decide, fun i => ?_⟩
    obtain _ | _ | i := i
    · decide
    · decide
    · exact Nat.two_pow_pos 32
  obtain ⟨b, idx, hrun, hbuild, h⟩ := selection_tight hextract hfit (by decide) .oneRow
  obtain ⟨bs, bins, hpolicy, hbins, hselect⟩ := h 0 rfl
  have hvalue : ((SABIBuilder.run Runtime.oneRow.hash twoByteExtractor twoAttrSchema
      fiveRowCalls).bind fun b => (b.buildIndex .oneRow).map fun idx =>
        (idx.binningPolicy[0]?, idx.bitmapNums[0]?, (twoAttrReader idx).selectBins
          { attrIdx := 0, win := .fromOp .greaterEqual [7] })) =
      some (some (.range (BytesList.ofList [[3], [7], [9], [9]])), some 3,
        some (some ⟨1, 2⟩)) := by
    decide +kernel
  rw [hrun, Option.bind_some, hbuild, Option.map_some, Option.some.injEq, Prod.mk.injEq,
    Prod.mk.injEq, hpolicy, hbins, Option.some.injEq, Option.some.injEq] at hvalue
  obtain ⟨hbounds, rfl, hselected⟩ := hvalue
  have hbytes : bs.flatten.length < 2 ^ 32 := by
    injection hbounds with hbounds
    rw [← BytesList.arena_ofList, hbounds]
    decide
  have hr : (twoAttrReader idx).Holds twoAttrSchema idx := ⟨rfl, rfl, rfl⟩
  refine ⟨b, idx, bs, hrun, hbuild, hr, hselected, ?_⟩
  rcases hselect hbytes _ { attrIdx := 0, win := .fromOp .greaterEqual [7] } hr rfl rfl with
    ⟨hnone, -⟩ | ⟨s, hs, htight⟩
  · cases hnone.symm.trans hselected
  · obtain rfl := Option.some.inj (Option.some.inj (hs.symm.trans hselected))
    exact htight

/-- With boundaries out of reach of their end offsets, the open end of
`x < [254]` is a boundary, and the last selected bin has the long value. -/
theorem selection_not_tight : ∃ long,
    Extracts wholeValueExtractor sevenBinsSchema (longValueCalls long) ∧
    RowsFit (rowsOf wholeValueExtractor (longValueCalls long)) ∧
    ∃ b idx bitmap, ∃ (r : SABIReader) (s : BinSelection),
      SABIBuilder.run Runtime.oneRow.hash wholeValueExtractor sevenBinsSchema
        (longValueCalls long) = some b ∧
      b.buildIndex .oneRow = some idx ∧ r.Holds sevenBinsSchema idx ∧
      idx.binningPolicy =
        [.range (BytesList.ofList [[0], [254], long, long, long, long, long, long])] ∧
      r.selectBins { attrIdx := 0, win := .fromOp .less [254] } = some (some s) ∧
      idx.bitmaps[s.last.toNat]? = some bitmap ∧ 31 ∈ bitmap ∧
      (cells 0 (rowsOf wholeValueExtractor (longValueCalls long)))[31]? = some (some long) ∧
      [254] < long := by
  obtain ⟨n, hn⟩ : ∃ n, n = 2 ^ 31 - 1 := ⟨_, rfl⟩
  obtain ⟨long, hlong⟩ : ∃ long : Bytes, long = 255 :: 255 :: List.replicate n 0 := ⟨_, rfl⟩
  have habove : [254] < long := by
    rw [hlong]
    exact List.cons_lt_cons_iff.2 (.inl (by decide))
  have hlen : long.length = 2 ^ 31 + 1 := by
    rw [hlong, List.length_cons, List.length_cons, List.length_replicate]
    omega
  have hlower := (bounds_longValue hn hlong).2
  obtain ⟨hextract, hfit, b, idx, bins, hrun, hbuild, hnums, hpolicy, hbitmaps, hlength, hmem⟩ :=
    buildIndex_longValue habove hlen
  have hcell : (cells 0 (rowsOf wholeValueExtractor (longValueCalls long)))[31]? =
      some (some long) := by
    rw [cells_longValueCalls, List.getElem?_map]
    rfl
  -- all eight boundaries are at or below the long value
  have hbin : rangeBin 7 [[0], [254], long, long, long, long, long, long] long = 6 := by
    have hzero : [0] ≤ long := le_trans (by decide) habove.le
    simp [rangeBin, hzero, habove.le]
  have hmember : 31 ∈ bins.getD 6 ∅ := (hmem 6 31).2 ⟨long, hcell, hbin⟩
  have hflat : idx.bitmaps[6]? = some (bins.getD 6 ∅) := by
    rw [BitmapIndex.bitmaps, hbitmaps, List.flatten_singleton,
      List.getElem?_append_left (by omega), List.getElem?_eq_getElem (by omega),
      List.getD_eq_getElem _ _ (by omega)]
  have hlast : binOf (BytesList.ofList [[0], [254], long, long, long, long, long, long]) 6
      [254] true = 6 := by
    simp only [binOf, if_true, hlower]
    rw [BytesList.size_ofList]
    rfl
  obtain ⟨first, hselect⟩ : ∃ first,
      (rangeReader (BytesList.ofList [[0], [254], long, long, long, long, long, long])
        7).selectBins { attrIdx := 0, win := .fromOp .less [254] } = some (some ⟨first, 6⟩) := by
    rw [selectBins_rangeReader _ _ rfl rfl, selectRange]
    simp [ByteInterval.fromOp, hlast]
    rfl
  exact ⟨long, hextract, hfit, b, idx, bins.getD 6 ∅, _, _, hrun, hbuild,
    ⟨rfl, by rw [hnums]; rfl, hpolicy.symm⟩, hpolicy, hselect, hflat, hmember, hcell, habove⟩

end BitLSM
