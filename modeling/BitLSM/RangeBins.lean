import Mathlib.Order.Bounds.Basic
import BitLSM.Partition

/-!
The bins of a range attribute.

Two things are said about them. The boundaries are the rule by which the
reader finds the bin of a value. And boundaries and bins are a function of
the values: neither the branch of the sort nor the order of the rows has a
part in them.
-/

namespace BitLSM

open Wire

/-- The buffer after pushing `vs`. -/
def RangeAttrBuf.ofList (vs : List Bytes) : RangeAttrBuf := vs.foldl RangeAttrBuf.push {}

theorem RangeAttrBuf.pushed_ofList (vs : List Bytes) : Pushed vs (ofList vs) := by
  induction vs using List.reverseRecOn with
  | nil => exact pushed_nil
  | append_singleton vs v ih =>
      rw [ofList, List.foldl_append]
      exact ih.push v

/-! ### The rule of the reader -/

/-- Boundaries by which bins can be found: from the least to the greatest of
the values, each of them a value, and none twice below the greatest. -/
structure RangeRule (vs : List Bytes) (bins : ℕ) (bs : List Bytes) : Prop where
  length : bs.length = bins + 1
  ordered : bs.Pairwise (· ≤ ·)
  first : ∃ b, bs.head? = some b ∧ IsLeast {v | v ∈ vs} b
  last : ∃ b, bs.getLast? = some b ∧ IsGreatest {v | v ∈ vs} b
  occurs : ∀ b ∈ bs, b ∈ vs
  strict : ∀ top, bs.getLast? = some top → bs.Pairwise fun a b => b < top → a < b

section Rule

variable {vs : List Bytes} {runs : SortedRuns} {bins : ℕ}

theorem SortedRuns.Of.value_mem (h : runs.Of vs) {r : ℕ} (hr : r < runs.distinct) :
    runs.value vs r ∈ vs := by
  obtain ⟨-, -, hval⟩ := h.start hr
  exact h.perm_ordering.mem_iff.1 (List.mem_of_getElem? hval)

/-- The thresholds of a sweep are such boundaries. -/
theorem thresholdRunsBy_rule {rule : CloseRule} {boundaries : BytesList}
    (h : Thresholds vs runs bins boundaries (thresholdRunsBy rule bins runs.runStart))
    (hruns : runs.Of vs) (hne : vs ≠ []) :
    RangeRule vs bins ((thresholdRunsBy rule bins runs.runStart).map (runs.value vs)) := by
  have hbounds := h.rangeBoundaries hruns
  have hoccurs : ∀ b ∈ (thresholdRunsBy rule bins runs.runStart).map (runs.value vs), b ∈ vs := by
    intro b hb
    obtain ⟨r, hr, rfl⟩ := List.mem_map.1 hb
    exact hruns.value_mem (h.below r hr)
  have hlast : ((thresholdRunsBy rule bins runs.runStart).map (runs.value vs)).getLast? =
      some (runs.value vs (runs.distinct - 1)) := by
    rw [List.getLast?_map, h.last, Option.map_some]
  have hhead : ((thresholdRunsBy rule bins runs.runStart).map (runs.value vs)).head? =
      some (runs.value vs 0) := by
    rw [List.head?_map, h.head, Option.map_some]
  refine ⟨hbounds.length, hbounds.ordered, ⟨_, hhead, ?_⟩, ⟨_, hlast, ?_⟩, hoccurs, ?_⟩
  · exact ⟨hoccurs _ (List.mem_of_head? hhead), hbounds.least _ hhead⟩
  · exact ⟨hoccurs _ (List.mem_of_getLast? hlast), hbounds.greatest _ hlast⟩
  · intro top htop
    obtain rfl := Option.some.inj (hlast.symm.trans htop)
    have hstrict := thresholdRunsBy_strict rule bins runs.runStart
    rw [hruns.length_runStart hne] at hstrict
    rw [List.pairwise_map]
    refine hstrict.imp_of_mem fun {a b} ha hb hab hlt => ?_
    have hb := h.below b hb
    refine hruns.value_lt (hab ?_) hb
    by_contra hge
    exact absurd hlt (not_lt.2 ((hruns.value_le_iff (by omega) hb).2 (Nat.le_of_not_lt hge)))

/-- The interval of an equality is the bin of its value. -/
theorem RangeBoundaries.selectRange_equal {bs : List Bytes} (h : RangeBoundaries vs bins bs)
    (hbins : 1 ≤ bins) (hsmall : bins < 2 ^ 31) (hbytes : bs.flatten.length < 2 ^ 32) {v : Bytes}
    (hv : v ∈ vs) (offset : UInt32) :
    selectRange (BytesList.ofList bs) (UInt32.ofNat bins) offset (.fromOp .equal v) =
      some ⟨offset + UInt32.ofNat (rangeBin bins bs v),
        offset + UInt32.ofNat (rangeBin bins bs v)⟩ := by
  have hcount : hiCount bs (.fromOp .equal v) = bs.countP fun b => decide (b ≤ v) := rfl
  have hone := h.one_le_countP hv
  rw [selectRange_eq h hbins hsmall hbytes, hcount, if_neg (by omega)]
  rfl

theorem SABIReader.selectBins_equal {r : SABIReader} {c : SABICondition} {bs : List Bytes}
    (h : RangeBoundaries vs bins bs) (hbins : 1 ≤ bins) (hsmall : bins < 2 ^ 31)
    (hbytes : bs.flatten.length < 2 ^ 32) {v : Bytes} (hv : v ∈ vs)
    (htype : r.indexTypes[c.attrIdx.toNat]? = some .range)
    (hpolicy : r.binningPolicy[c.attrIdx.toNat]? = some (.range (BytesList.ofList bs)))
    (hnums : r.bitmapNums[c.attrIdx.toNat]? = some (UInt32.ofNat bins))
    (hwin : c.win = .fromOp .equal v) :
    ∃ offset, r.attrBinOffset c.attrIdx.toNat = some offset ∧
      r.selectBins c = some (some ⟨offset + UInt32.ofNat (rangeBin bins bs v),
        offset + UInt32.ofNat (rangeBin bins bs v)⟩) := by
  have hlt := (List.getElem?_eq_some_iff.1 hnums).1
  refine ⟨_, if_pos hlt.le, ?_⟩
  have hempty : (ByteInterval.fromOp .equal v).empty = false := by
    rw [ByteInterval.empty, ByteInterval.fromOp]
    simp [Bytes.compare_pos]
  rw [selectBins, htype, attrBinOffset, if_pos hlt.le, hpolicy, hnums]
  simp only [Option.bind_eq_bind, Option.bind_some, hwin, hempty, Bool.false_eq_true, if_false]
  rw [h.selectRange_equal hbins hsmall hbytes hv]
  rfl

/-- The pushed boundaries are the rule of the rows' bins. As long as they
are within reach of their own end offsets they are read back as pushed, and
`SelectBins` resolves an equality to the bin of its rows. -/
theorem range_binning_rule (fpu : Fpu) (std : StdSort) (hne : vs ≠ []) (hbins : 1 ≤ bins)
    (hrows : vs.length < 2 ^ 32) (hbytes : vs.flatten.length < 2 ^ 32) :
    ∃ bs, (setRangeBinningPolicy fpu bins (RangeAttrBuf.ofList vs).values
        ((RangeAttrBuf.ofList vs).sort std)).1 = BytesList.ofList bs ∧
      RangeRule vs bins bs ∧
      (setRangeBinningPolicy fpu bins (RangeAttrBuf.ofList vs).values
        ((RangeAttrBuf.ofList vs).sort std)).2 = vs.map (rangeBin bins bs) ∧
      (bs.flatten.length < 2 ^ 32 →
        (List.range (bins + 1)).map (BytesList.ofList bs).get = bs ∧
        (bins < 2 ^ 31 → ∀ v ∈ vs, ∀ (r : SABIReader) (c : SABICondition),
          r.indexTypes[c.attrIdx.toNat]? = some .range →
          r.binningPolicy[c.attrIdx.toNat]? = some (.range (BytesList.ofList bs)) →
          r.bitmapNums[c.attrIdx.toNat]? = some (UInt32.ofNat bins) →
          c.win = .fromOp .equal v →
          ∃ offset, r.attrBinOffset c.attrIdx.toNat = some offset ∧
            r.selectBins c = some (some ⟨offset + UInt32.ofNat (rangeBin bins bs v),
              offset + UInt32.ofNat (rangeBin bins bs v)⟩))) := by
  have hpushed := RangeAttrBuf.pushed_ofList vs
  have hruns := hpushed.sort std hrows hbytes
  have hget : ∀ i < vs.length, (RangeAttrBuf.ofList vs).values.get i = vs.getD i [] := by
    intro i hi
    rw [hpushed.values, BytesList.get_ofList hbytes hi, List.getD_eq_getElem _ _ hi]
  obtain ⟨hthresholds, hbin⟩ := setRangeBinningPolicyBy_eq (Sweep.closes fpu) hbins hget hruns hne
  have hrule := thresholdRunsBy_rule hthresholds hruns hne
  rw [setRangeBinningPolicy]
  refine ⟨_, hthresholds.boundaries, hrule, hbin, fun hfits => ⟨?_, ?_⟩⟩
  · refine List.ext_getElem (by rw [List.length_map, List.length_range, hrule.length]) ?_
    intro i _ hi
    rw [List.getElem_map, List.getElem_range, BytesList.get_ofList hfits hi]
  · intro hsmall v hv r c htype hpolicy hnums hwin
    exact SABIReader.selectBins_equal (hthresholds.rangeBoundaries hruns) hbins hsmall hfits hv
      htype hpolicy hnums hwin

end Rule

/-- A reader of one range attribute. -/
def rangeReader (boundaries : BytesList) (bins : UInt32) : SABIReader where
  mode := .resident
  indexTypes := [.range]
  bitmapNums := [bins]
  distinctCnts := []
  binCardinalities := []
  bitmapSizes := []
  bitmapOffsets := []
  binningPolicy := [.range boundaries]
  dataEntriesCntPsum := []
  blockHandles := []
  bitmaps := []
  tombstoneBitmap := ∅

theorem selectBins_rangeReader (boundaries : BytesList) (bins : UInt32) {c : SABICondition}
    (hidx : c.attrIdx = 0) (hempty : c.win.empty = false) :
    (rangeReader boundaries bins).selectBins c = some (selectRange boundaries bins 0 c.win) := by
  simp [SABIReader.selectBins, SABIReader.attrBinOffset, rangeReader, hidx, hempty]

theorem range_binning_rule_threeRows : ∃ bs,
    (setRangeBinningPolicy .truncating 2 (RangeAttrBuf.ofList [[5], [1], [5]]).values
      ((RangeAttrBuf.ofList [[5], [1], [5]]).sort .insertion)).1 = BytesList.ofList bs ∧
    RangeRule [[5], [1], [5]] 2 bs ∧
    ∃ offset, (rangeReader (BytesList.ofList bs) 2).selectBins
        { attrIdx := 0, win := .fromOp .equal [5] } =
      some (some ⟨offset + UInt32.ofNat (rangeBin 2 bs [5]),
        offset + UInt32.ofNat (rangeBin 2 bs [5])⟩) := by
  obtain ⟨bs, hpolicy, hrule, -, hread⟩ := @range_binning_rule [[5], [1], [5]] 2 .truncating
    .insertion (by decide) (by decide) (by decide) (by decide)
  have hone : ∀ b ∈ bs, b.length = 1 := by
    have hvalues : ∀ v ∈ ([[5], [1], [5]] : List Bytes), v.length = 1 := by decide
    exact fun b hb => hvalues b (hrule.occurs b hb)
  have hfits : bs.flatten.length < 2 ^ 32 := by
    rw [List.length_flatten, List.map_congr_left hone, List.map_const', List.sum_replicate_nat,
      hrule.length]
    decide
  obtain ⟨offset, -, hselect⟩ := (hread hfits).2 (by decide) [5] (by decide)
    (rangeReader (BytesList.ofList bs) 2) { attrIdx := 0, win := .fromOp .equal [5] }
    rfl rfl rfl rfl
  exact ⟨bs, hpolicy, hrule, offset, hselect⟩

/-- With boundaries out of reach of their end offsets, `SelectBins` looks for
the heavy value in bin 6; its rows are in bin 1. -/
theorem selectBins_misses_heavy_value : ∃ long : Bytes,
    (labels.map (labelValue long)).length < 2 ^ 32 ∧
    (labels.map (labelValue long)).flatten.length < 2 ^ 32 ∧
    (labels.map (labelValue long))[5]? = some [254] ∧
    (setRangeBinningPolicy .truncating 7
      (RangeAttrBuf.ofList (labels.map (labelValue long))).values
      ((RangeAttrBuf.ofList (labels.map (labelValue long))).sort .insertion)).2[5]? = some 1 ∧
    (rangeReader (setRangeBinningPolicy .truncating 7
      (RangeAttrBuf.ofList (labels.map (labelValue long))).values
      ((RangeAttrBuf.ofList (labels.map (labelValue long))).sort .insertion)).1 7).selectBins
        { attrIdx := 0, win := .fromOp .equal [254] } = some (some ⟨6, 6⟩) := by
  obtain ⟨n, hn⟩ : ∃ n, n = 2 ^ 31 - 1 := ⟨_, rfl⟩
  obtain ⟨long, hlong⟩ : ∃ long : Bytes, long = 255 :: 255 :: List.replicate n 0 := ⟨_, rfl⟩
  have habove : [254] < long := by
    rw [hlong]
    exact List.cons_lt_cons_iff.2 (.inl (by decide))
  have hlen : long.length = 2 ^ 31 + 1 := by
    rw [hlong, List.length_cons, List.length_cons, List.length_replicate]
    omega
  have hupper := (bounds_longValue hn hlong).1
  have hpolicy := (setRangeBinningPolicy_longValue habove hlen
    (RangeAttrBuf.pushed_ofList _) .insertion).1
  refine ⟨long, ?_, ?_, rfl, ?_, ?_⟩
  · rw [List.length_map]
    decide
  · rw [length_values, hlen]
    decide
  · rw [hpolicy, List.getElem?_map]
    exact congrArg some (rangeBin_longValue habove)
  · rw [hpolicy]
    have hbin : binOf (BytesList.ofList [[0], [254], long, long, long, long, long, long]) 6
        [254] false = 6 := by
      simp only [binOf, Bool.false_eq_true, if_false, hupper]
      rw [BytesList.size_ofList]
      rfl
    rw [selectBins_rangeReader _ _ rfl rfl, selectRange]
    simp [ByteInterval.fromOp, hbin]
    rfl

/-! ### The order of rows does not matter -/

namespace SortedRuns

variable {vs vs' : List Bytes} {runs runs' : SortedRuns}

/-- The values in order are the same for every order of the rows. -/
theorem Of.ordering_congr (h : runs.Of vs) (h' : runs'.Of vs') (hvs : vs.Perm vs') :
    runs.ordering vs = runs'.ordering vs' :=
  List.Perm.eq_of_pairwise (fun _ _ _ _ => le_antisymm) h.ordered h'.ordered
    (h.perm_ordering.trans (hvs.trans h'.perm_ordering.symm))

theorem Of.value_congr (h : runs.Of vs) (h' : runs'.Of vs') (hvs : vs.Perm vs') {r : ℕ}
    (hr : r < runs.distinct) : runs.value vs r = runs'.value vs' r := by
  have hordering := h.ordering_congr h' hvs
  have hstart : runs.runStart = runs'.runStart := by rw [h.runStart, h'.runStart, hordering]
  have hr' : r < runs'.distinct := by rwa [h'.distinct, ← hordering, ← h.distinct]
  obtain ⟨-, -, hval⟩ := h.start hr
  obtain ⟨-, -, hval'⟩ := h'.start hr'
  rw [hordering, hstart] at hval
  exact Option.some.inj (hval.symm.trans hval')

end SortedRuns

/-- Boundaries and bins depend on the values alone. -/
theorem setRangeBinningPolicy_congr {vs vs' : List Bytes} {runs runs' : SortedRuns}
    {values values' : BytesList} {bins : ℕ} (fpu : Fpu) (hbins : 1 ≤ bins)
    (hvalues : ∀ i < vs.length, values.get i = vs.getD i [])
    (hvalues' : ∀ i < vs'.length, values'.get i = vs'.getD i [])
    (hruns : runs.Of vs) (hruns' : runs'.Of vs') (hvs : vs.Perm vs') :
    (setRangeBinningPolicy fpu bins values runs).1 =
        (setRangeBinningPolicy fpu bins values' runs').1 ∧
      ∃ binOf, (setRangeBinningPolicy fpu bins values runs).2 = vs.map binOf ∧
        (setRangeBinningPolicy fpu bins values' runs').2 = vs'.map binOf := by
  rcases eq_or_ne vs [] with rfl | hne
  · obtain rfl : vs' = [] := List.nil_perm.1 hvs
    have hsorted : runs.sorted = [] := List.length_eq_zero_iff.1 hruns.length_sorted
    have hsorted' : runs'.sorted = [] := List.length_eq_zero_iff.1 hruns'.length_sorted
    simp [setRangeBinningPolicy, setRangeBinningPolicyBy, hsorted, hsorted']
  · have hne' : vs' ≠ [] := fun h => hne (List.perm_nil.1 (h ▸ hvs))
    obtain ⟨hthresholds, hrows⟩ := setRangeBinningPolicy_eq fpu hbins hvalues hruns hne
    obtain ⟨hthresholds', hrows'⟩ := setRangeBinningPolicy_eq fpu hbins hvalues' hruns' hne'
    have hstart : runs.runStart = runs'.runStart := by
      rw [hruns.runStart, hruns'.runStart, hruns.ordering_congr hruns' hvs]
    have hbounds : (thresholdRuns fpu bins runs.runStart).map (runs.value vs) =
        (thresholdRuns fpu bins runs'.runStart).map (runs'.value vs') := by
      rw [← hstart]
      exact List.map_congr_left fun r hr =>
        hruns.value_congr hruns' hvs (hthresholds.below r hr)
    refine ⟨?_, _, hrows, ?_⟩
    · rw [hthresholds.boundaries, hbounds, hthresholds'.boundaries]
    · rw [hrows', hbounds]

/-- Values of one length are read back with that length, however long the
arena is: an end offset that wraps takes the next start along. -/
theorem BytesList.length_get_ofList {vs : List Bytes} {len : ℕ} (hlen : len < 2 ^ 32)
    (hvs : ∀ v ∈ vs, v.length = len) {i : ℕ} (hi : i < vs.length) :
    ((BytesList.ofList vs).get i).length = len := by
  have hflat (ws : List Bytes) (hws : ∀ w ∈ ws, w.length = len) :
      ws.flatten.length = ws.length * len := by
    rw [List.length_flatten, List.map_congr_left hws, List.map_const', List.sum_replicate_nat]
  have htake (k : ℕ) (hk : k ≤ vs.length) : (vs.take k).flatten.length = k * len := by
    rw [hflat _ fun w hw => hvs w (List.mem_of_mem_take hw), List.length_take, min_eq_left hk]
  have hend (k : ℕ) (hk : k < vs.length) :
      (BytesList.ofList vs).ends.getD k 0 = UInt32.ofNat ((k + 1) * len) := by
    rw [BytesList.ends_ofList, List.getD_eq_getElem?_getD, List.getElem?_map,
      List.getElem?_range hk, Option.map_some, Option.getD_some, htake _ hk]
  have hstart : (if i = 0 then 0 else (BytesList.ofList vs).ends.getD (i - 1) 0) =
      UInt32.ofNat (i * len) := by
    cases i with
    | zero => simp
    | succ i => rw [if_neg (Nat.succ_ne_zero i), Nat.add_sub_cancel, hend i (by omega)]
  have hsub : (UInt32.ofNat ((i + 1) * len) - UInt32.ofNat (i * len)).toNat = len := by
    rw [Nat.succ_mul, UInt32.ofNat_add, UInt32.add_comm, UInt32.add_sub_cancel,
      UInt32.toNat_ofNat', Nat.mod_eq_of_lt hlen]
  have hle : (UInt32.ofNat (i * len)).toNat + len ≤ vs.flatten.length := by
    have hmod := Nat.mod_le (i * len) (2 ^ 32)
    have hmul := Nat.mul_le_mul_right len hi
    rw [Nat.succ_mul] at hmul
    rw [UInt32.toNat_ofNat', hflat vs hvs]
    omega
  rw [BytesList.get, hstart, hend i hi, hsub, BytesList.arena_ofList]
  exact length_slice hle

/-- The two branches of the sort leave the same runs behind for values that
are eight bytes long, and boundaries and bins follow the runs. Below the
32-bit limits of the buffer they follow the values alone. -/
theorem range_binning_order_irrelevant (fpu : Fpu) (std std' : StdSort) (vs : List Bytes) :
    ((∀ v ∈ vs, v.length = 8) →
      ((RangeAttrBuf.ofList vs).sortOkeys std).distinct =
          ((RangeAttrBuf.ofList vs).sortBytes std').distinct ∧
        ((RangeAttrBuf.ofList vs).sortOkeys std).runStart =
          ((RangeAttrBuf.ofList vs).sortBytes std').runStart ∧
        ∀ bins, 1 ≤ bins →
          setRangeBinningPolicy fpu bins (RangeAttrBuf.ofList vs).values
              ((RangeAttrBuf.ofList vs).sortOkeys std) =
            setRangeBinningPolicy fpu bins (RangeAttrBuf.ofList vs).values
              ((RangeAttrBuf.ofList vs).sortBytes std')) ∧
    (vs.length < 2 ^ 32 → vs.flatten.length < 2 ^ 32 → ∀ vs', vs.Perm vs' →
      ((RangeAttrBuf.ofList vs).sort std).distinct =
          ((RangeAttrBuf.ofList vs').sort std').distinct ∧
        ∀ bins, 1 ≤ bins →
          (setRangeBinningPolicy fpu bins (RangeAttrBuf.ofList vs).values
              ((RangeAttrBuf.ofList vs).sort std)).1 =
            (setRangeBinningPolicy fpu bins (RangeAttrBuf.ofList vs').values
              ((RangeAttrBuf.ofList vs').sort std')).1 ∧
          (∀ bin, (setRangeBinningPolicy fpu bins (RangeAttrBuf.ofList vs).values
              ((RangeAttrBuf.ofList vs).sort std)).2.count bin =
            (setRangeBinningPolicy fpu bins (RangeAttrBuf.ofList vs').values
              ((RangeAttrBuf.ofList vs').sort std')).2.count bin) ∧
          ∀ i i' : ℕ, vs[i]? = vs'[i']? →
            (setRangeBinningPolicy fpu bins (RangeAttrBuf.ofList vs).values
                ((RangeAttrBuf.ofList vs).sort std)).2[i]? =
              (setRangeBinningPolicy fpu bins (RangeAttrBuf.ofList vs').values
                ((RangeAttrBuf.ofList vs').sort std')).2[i']?) := by
  refine ⟨fun h8 => ?_, fun hrows hbytes vs' hvs => ?_⟩
  · set b := RangeAttrBuf.ofList vs with hb
    have hreads : ∀ v ∈ b.reads, v.length = 8 := by
      intro v hv
      obtain ⟨i, hi, rfl⟩ := List.mem_map.1 hv
      have hi := lt_of_lt_of_le (List.mem_range.1 hi) (Nat.mod_le _ _)
      rw [(RangeAttrBuf.pushed_ofList vs).values, BytesList.size_ofList] at hi
      rw [hb, (RangeAttrBuf.pushed_ofList vs).values]
      exact BytesList.length_get_ofList (by decide) h8 hi
    have hokeys := RangeAttrBuf.sortOkeys_of std hreads
    have hbytes := RangeAttrBuf.sortBytes_of std' b
    have hordering := hokeys.ordering_congr hbytes (.refl _)
    refine ⟨by rw [hokeys.distinct, hbytes.distinct, hordering],
      by rw [hokeys.runStart, hbytes.runStart, hordering], fun bins hbins => ?_⟩
    obtain ⟨hbounds, binOf, hrows, hrows'⟩ := setRangeBinningPolicy_congr fpu hbins
      (fun i hi => b.get_eq_reads hi) (fun i hi => b.get_eq_reads hi) hokeys hbytes (.refl _)
    exact Prod.ext hbounds (hrows.trans hrows'.symm)
  · have hrows' : vs'.length < 2 ^ 32 := by rwa [← hvs.length_eq]
    have hbytes' : vs'.flatten.length < 2 ^ 32 := by rwa [← hvs.flatten.length_eq]
    have hget (ws : List Bytes) (hws : ws.flatten.length < 2 ^ 32) (i : ℕ) (hi : i < ws.length) :
        (RangeAttrBuf.ofList ws).values.get i = ws.getD i [] := by
      rw [(RangeAttrBuf.pushed_ofList ws).values, BytesList.get_ofList hws hi,
        List.getD_eq_getElem _ _ hi]
    have hruns := (RangeAttrBuf.pushed_ofList vs).sort std hrows hbytes
    have hruns' := (RangeAttrBuf.pushed_ofList vs').sort std' hrows' hbytes'
    refine ⟨by rw [hruns.distinct, hruns'.distinct, hruns.ordering_congr hruns' hvs],
      fun bins hbins => ?_⟩
    obtain ⟨hbounds, binOf, hbin, hbin'⟩ := setRangeBinningPolicy_congr fpu hbins
      (hget vs hbytes) (hget vs' hbytes') hruns hruns' hvs
    refine ⟨hbounds, fun bin => ?_, fun i i' hsame => ?_⟩
    · rw [hbin, hbin']
      exact (hvs.map binOf).count_eq bin
    · rw [hbin, hbin', List.getElem?_map, List.getElem?_map, hsame]

/-- Three okeys, the least and the greatest of them pushed first. -/
def threeOkeys : List Bytes := [okeyToBytes 7, okeyToBytes 300, okeyToBytes 20, okeyToBytes 7]

theorem range_binning_order_irrelevant_okeys :
    (setRangeBinningPolicy .truncating 2 (RangeAttrBuf.ofList threeOkeys).values
        ((RangeAttrBuf.ofList threeOkeys).sortOkeys .insertion)).2 =
      (setRangeBinningPolicy .truncating 2 (RangeAttrBuf.ofList threeOkeys).values
        ((RangeAttrBuf.ofList threeOkeys).sortBytes .insertion)).2 ∧
    (setRangeBinningPolicy .truncating 2 (RangeAttrBuf.ofList threeOkeys).values
        ((RangeAttrBuf.ofList threeOkeys).sort .insertion)).1 =
      (setRangeBinningPolicy .truncating 2 (RangeAttrBuf.ofList threeOkeys.reverse).values
        ((RangeAttrBuf.ofList threeOkeys.reverse).sort .insertion)).1 := by
  have h := range_binning_order_irrelevant .truncating .insertion .insertion threeOkeys
  refine ⟨?_, ?_⟩
  · exact congrArg Prod.snd ((h.1 (by decide)).2.2 2 (by decide))
  · exact ((h.2 (by decide) (by decide) _ (List.reverse_perm _).symm).2 2 (by decide)).1

/-- The boundaries of a single bin are the two ends. -/
theorem RangeRule.eq_pair {vs bs : List Bytes} {lo hi : Bytes} (h : RangeRule vs 1 bs)
    (hlo : IsLeast {v | v ∈ vs} lo) (hhi : IsGreatest {v | v ∈ vs} hi) : bs = [lo, hi] := by
  obtain ⟨a, b, rfl⟩ := List.length_eq_two.1 h.length
  obtain ⟨_, ⟨⟩, hfirst⟩ := h.first
  obtain ⟨_, ⟨⟩, hlast⟩ := h.last
  have hlast : IsGreatest {v | v ∈ vs} b := hlast
  rw [hfirst.unique hlo, hlast.unique hhi]

/-- The boundaries are those of what the buffer reads back. -/
theorem RangeAttrBuf.sort_rule {b : RangeAttrBuf} {bins : ℕ} (fpu : Fpu) (std : StdSort)
    (huniform : b.uniformLen ≠ 8) (hbins : 1 ≤ bins) (hne : b.reads ≠ []) :
    ∃ bs, (setRangeBinningPolicy fpu bins b.values (b.sort std)).1 = BytesList.ofList bs ∧
      RangeRule b.reads bins bs := by
  have hruns := sortBytes_of std b
  obtain ⟨hthresholds, -⟩ := setRangeBinningPolicyBy_eq (Sweep.closes fpu) hbins
    (fun i hi => b.get_eq_reads hi) hruns hne
  rw [RangeAttrBuf.sort, if_neg huniform, setRangeBinningPolicy]
  exact ⟨_, hthresholds.boundaries, thresholdRunsBy_rule hthresholds hruns hne⟩

/-- A value that wraps the end offsets: what is read back depends on which
of the two values was pushed first. -/
theorem boundaries_depend_on_row_order : ∃ long : Bytes,
    [long, [1]].Perm [[1], long] ∧
    (setRangeBinningPolicy .truncating 1 (RangeAttrBuf.ofList [long, [1]]).values
        ((RangeAttrBuf.ofList [long, [1]]).sort .insertion)).1 ≠
      (setRangeBinningPolicy .truncating 1 (RangeAttrBuf.ofList [[1], long]).values
        ((RangeAttrBuf.ofList [[1], long]).sort .insertion)).1 := by
  obtain ⟨n, hn⟩ : ∃ n, n = 2 ^ 32 - 1 := ⟨_, rfl⟩
  obtain ⟨long, hlong⟩ : ∃ long : Bytes, long = 0 :: List.replicate n 0 := ⟨_, rfl⟩
  have hlen : long.length = 4294967296 := by
    rw [hlong, List.length_cons, List.length_replicate]
    omega
  have hreads : (RangeAttrBuf.ofList [long, [1]]).reads = [[], [0]] := by
    have hends : (BytesList.ofList [long, [1]]).ends = [0, 1] := by
      rw [BytesList.ends_ofList]
      simp [List.range_succ, hlen]
    rw [RangeAttrBuf.reads, (RangeAttrBuf.pushed_ofList _).values, BytesList.size_ofList]
    simp only [List.length_cons, List.length_nil, Nat.reduceAdd, Nat.reduceMod, Nat.reducePow,
      List.range_succ, List.range_zero, List.nil_append, List.cons_append, List.map_cons,
      List.map_nil, BytesList.get, hends, BytesList.arena_ofList, slice]
    simp [hlong]
  have hreads' : (RangeAttrBuf.ofList [[1], long]).reads = [[1], []] := by
    have hends : (BytesList.ofList [[1], long]).ends = [1, 1] := by
      rw [BytesList.ends_ofList]
      simp [List.range_succ, hlen]
    rw [RangeAttrBuf.reads, (RangeAttrBuf.pushed_ofList _).values, BytesList.size_ofList]
    simp [List.range_succ, BytesList.get, hends, slice]
  have huniform : (RangeAttrBuf.ofList [long, [1]]).uniformLen ≠ 8 := by
    simp [RangeAttrBuf.ofList, RangeAttrBuf.push, hlen]
  have huniform' : (RangeAttrBuf.ofList [[1], long]).uniformLen ≠ 8 := by
    simp [RangeAttrBuf.ofList, RangeAttrBuf.push, hlen]
  obtain ⟨bs, hpolicy, hrule⟩ := RangeAttrBuf.sort_rule .truncating .insertion huniform
    le_rfl (by rw [hreads]; decide)
  obtain ⟨bs', hpolicy', hrule'⟩ := RangeAttrBuf.sort_rule .truncating .insertion huniform'
    le_rfl (by rw [hreads']; decide)
  rw [hreads] at hrule
  rw [hreads'] at hrule'
  have hbs := @RangeRule.eq_pair _ _ [] [0] hrule
    ⟨by simp, fun v _ => ByteInterval.nil_le v⟩
    ⟨by simp, by simp [upperBounds, ByteInterval.nil_le]⟩
  have hbs' := @RangeRule.eq_pair _ _ [] [1] hrule'
    ⟨by simp, fun v _ => ByteInterval.nil_le v⟩
    ⟨by simp, by simp [upperBounds, ByteInterval.nil_le]⟩
  refine ⟨long, List.Perm.swap _ _ _, ?_⟩
  rw [hpolicy, hpolicy', hbs, hbs']
  decide

end BitLSM
