import BitLSM.Builder.Finish
import BitLSM.Index

/-!
The index as a partition of the table.

For each attribute the bins, the NULL rows and the tombstones are disjoint
and have every row between them. A row is in the bin that the stored policy
finds for its value, as long as the policy's own 32-bit offsets reach all
boundaries.
-/

namespace BitLSM

open Wire

/-- The bin the stored policy gives a value: the entry of the dictionary, or
the last boundary at or below the value. -/
def BinningPolicy.binOf (bins : ℕ) (v : Bytes) : BinningPolicy → Option ℕ
  | .equality entries => findEntry entries v
  | .range boundaries => some (clampBin bins (boundaries.upperBound v))

/-- All boundaries are within reach of a `uint32_t` end offset. -/
def BinningPolicy.Addressable : BinningPolicy → Prop
  | .equality _ => True
  | .range boundaries => boundaries.arena.length < 2 ^ 32

/-- The value type of each row. -/
def rowTypes (calls : List BuilderCall) : List ValueType :=
  calls.filterMap fun
    | .onKeyAdded _ type _ => some type
    | .addIndexEntry _ _ => none

/-- The value rows without a value of attribute `i`. -/
def nullRows (i : ℕ) (rows : List (Option (List EncodedAttr))) : Roaring :=
  (Finset.range rows.length).filter fun j =>
    rows[j]?.join.any (fun attrs => attrs[i]?.join.isNone) = true

theorem mem_nullRows {i j : ℕ} {rows : List (Option (List EncodedAttr))} :
    j ∈ nullRows i rows ↔ ∃ attrs, rows[j]? = some (some attrs) ∧ attrs[i]?.join = none := by
  rw [nullRows, Finset.mem_filter, Finset.mem_range, Option.any_eq_true]
  constructor
  · rintro ⟨-, attrs, hattrs, hnone⟩
    exact ⟨attrs, Option.join_eq_some_iff.1 hattrs, Option.isNone_iff_eq_none.1 hnone⟩
  · rintro ⟨attrs, hattrs, hnone⟩
    exact ⟨(List.getElem?_eq_some_iff.1 hattrs).1, attrs, Option.join_eq_some_iff.2 hattrs,
      Option.isNone_iff_eq_none.2 hnone⟩

/-- The rows of one attribute, with the policy and the bins the index has
for it. -/
structure BitmapIndex.Partitions (idx : BitmapIndex) (rows : List (Option (List EncodedAttr)))
    (i : ℕ) (policy : BinningPolicy) (bins : List Roaring) : Prop where
  stored_policy : idx.binningPolicy[i]? = some policy
  stored_bins : idx.attrBitmaps[i]? = some bins
  disjoint : (bins ++ [nullRows i rows, idx.tombstoneBitmap]).Pairwise Disjoint
  union : ∀ j, (∃ part ∈ bins ++ [nullRows i rows, idx.tombstoneBitmap], j ∈ part) ↔
    j < rows.length
  one_bin : ∀ (j : ℕ) v, (cells i rows)[j]? = some (some v) → ∃! bin, j ∈ bins.getD bin ∅
  own_bin : policy.Addressable → ∀ (j : ℕ) v, (cells i rows)[j]? = some (some v) →
    ∃ bin, policy.binOf bins.length v = some bin ∧ j ∈ bins.getD bin ∅

theorem mem_getD_iff {bins : List Roaring} {j : ℕ} :
    (∃ bin ∈ bins, j ∈ bin) ↔ ∃ k, j ∈ bins.getD k ∅ := by
  constructor
  · rintro ⟨bin, hmem, hj⟩
    obtain ⟨k, hk⟩ := List.mem_iff_getElem?.1 hmem
    exact ⟨k, by rwa [List.getD_eq_getElem?_getD, hk]⟩
  · rintro ⟨k, hj⟩
    rw [List.getD_eq_getElem?_getD] at hj
    cases hk : bins[k]? with
    | none => simp [hk] at hj
    | some bin =>
        rw [hk] at hj
        exact ⟨bin, List.mem_of_getElem? hk, hj⟩

section Attribute

variable {schema : SABISchema} {rows : List (Option (List EncodedAttr))} {idx : BitmapIndex}
  {i bins : ℕ} {policy : BinningPolicy} {bitmaps : List Roaring} {binOf : Bytes → ℕ}

/-- A row has a value, is NULL, or is a tombstone. -/
theorem row_cases {j : ℕ} : j < rows.length ↔ (∃ v, (cells i rows)[j]? = some (some v)) ∨
    (∃ attrs, rows[j]? = some (some attrs) ∧ attrs[i]?.join = none) ∨ rows[j]? = some none := by
  constructor
  · intro hj
    have hrow := List.getElem?_eq_getElem hj
    cases hr : rows[j] with
    | none => exact .inr (.inr (hrow.trans (congrArg some hr)))
    | some attrs =>
        rw [hr] at hrow
        cases hv : attrs[i]?.join with
        | none => exact .inr (.inl ⟨attrs, hrow, hv⟩)
        | some v => exact .inl ⟨v, cells_eq_some.2 ⟨attrs, hrow, Option.join_eq_some_iff.1 hv⟩⟩
  · rintro (⟨v, hv⟩ | ⟨attrs, hattrs, -⟩ | hnone)
    · have hlt := (List.getElem?_eq_some_iff.1 hv).1
      rwa [length_cells] at hlt
    · exact (List.getElem?_eq_some_iff.1 hattrs).1
    · exact (List.getElem?_eq_some_iff.1 hnone).1

theorem AttrIndexed.mem_bins (h : AttrIndexed (cells i rows) bins policy bitmaps binOf) {j : ℕ} :
    (∃ bin ∈ bitmaps, j ∈ bin) ↔ ∃ v, (cells i rows)[j]? = some (some v) := by
  rw [mem_getD_iff]
  constructor
  · rintro ⟨k, hj⟩
    obtain ⟨v, hv, -⟩ := (h.mem k j).1 hj
    exact ⟨v, hv⟩
  · rintro ⟨v, hv⟩
    exact ⟨binOf v, (h.mem _ j).2 ⟨v, hv, rfl⟩⟩

theorem AttrIndexed.bin_unique (h : AttrIndexed (cells i rows) bins policy bitmaps binOf) {j : ℕ}
    {v : Bytes} (hv : (cells i rows)[j]? = some (some v)) {k : ℕ} :
    j ∈ bitmaps.getD k ∅ ↔ k = binOf v := by
  rw [h.mem]
  constructor
  · rintro ⟨w, hw, rfl⟩
    rw [hv, Option.some.injEq, Option.some.injEq] at hw
    rw [hw]
  · rintro rfl
    exact ⟨v, hv, rfl⟩

theorem AttrIndexed.pairwise_disjoint
    (h : AttrIndexed (cells i rows) bins policy bitmaps binOf) : bitmaps.Pairwise Disjoint := by
  refine List.pairwise_iff_getElem.2 fun k l hk hl hkl => Finset.disjoint_left.2 fun j hjk hjl => ?_
  have hget {m : ℕ} (hm : m < bitmaps.length) (hj : j ∈ bitmaps[m]) : j ∈ bitmaps.getD m ∅ := by
    rwa [List.getD_eq_getElem _ _ hm]
  obtain ⟨v, hv, hbin⟩ := (h.mem k j).1 (hget hk hjk)
  rw [← (h.bin_unique hv).1 (hget hl hjl)] at hbin
  omega

/-- The bin of a row is the one a reader finds with the stored policy. -/
theorem BinningPolicy.Bins.binOf_eq {vs : List Bytes} (h : policy.Bins vs bins binOf)
    (hbins : bins < 2 ^ 31) (haddress : policy.Addressable) {v : Bytes} (hv : v ∈ vs) :
    policy.binOf bins v = some (binOf v) := by
  cases h with
  | equality hdict => exact hdict.findEntry_eq hv
  | @range boundaries hbounds =>
      have hlength := hbounds.length
      rw [Addressable, BytesList.arena_ofList] at haddress
      rw [BinningPolicy.binOf, BytesList.upperBound_ofList hbounds.ordered haddress (by omega),
        clampBin_eq, rangeBin]

theorem BitmapIndex.Indexed.partitions (hidx : idx.Indexed schema rows)
    (hi : i < schema.indexTypes.length) (hbins : ∀ n ∈ idx.bitmapNums, n < 2 ^ 31) :
    ∃ policy bins, idx.Partitions rows i policy bins := by
  obtain ⟨bins, policy, bitmaps, binOf, hnum, hpolicy, hbitmaps, -, h⟩ :=
    hidx.attrs i _ (List.getElem?_eq_getElem hi)
  refine ⟨policy, bitmaps, hpolicy, hbitmaps, ?_, fun j => ?_, fun j v hv => ?_,
    fun haddress j v hv => ?_⟩
  · -- a bin's row has a value, a NULL row has none, a tombstone is no value row
    have hnulls (j : ℕ) (bin : Roaring) (hbin : bin ∈ bitmaps) (hj : j ∈ bin) :
        j ∉ nullRows i rows ∧ j ∉ idx.tombstoneBitmap := by
      obtain ⟨v, hv⟩ := h.mem_bins.1 ⟨bin, hbin, hj⟩
      obtain ⟨attrs, hattrs, hattr⟩ := cells_eq_some.1 hv
      rw [mem_nullRows, hidx.tombstones, hattrs]
      simp [hattr]
    have hlast : Disjoint (nullRows i rows) idx.tombstoneBitmap := by
      refine Finset.disjoint_left.2 fun j hj htomb => ?_
      obtain ⟨attrs, hattrs, -⟩ := mem_nullRows.1 hj
      rw [hidx.tombstones, hattrs] at htomb
      cases htomb
    refine List.pairwise_append.2 ⟨h.pairwise_disjoint, by simpa using hlast, ?_⟩
    intro bin hbin part hpart
    refine Finset.disjoint_left.2 fun j hj hpartj => ?_
    obtain ⟨hnull, htomb⟩ := hnulls j bin hbin hj
    rw [List.mem_pair] at hpart
    rcases hpart with rfl | rfl
    · exact hnull hpartj
    · exact htomb hpartj
  · rw [@row_cases rows i j, ← h.mem_bins, ← mem_nullRows, ← hidx.tombstones]
    simp [or_and_right, exists_or]
  · exact ⟨binOf v, (h.bin_unique hv).2 rfl, fun k hk => (h.bin_unique hv).1 hk⟩
  · refine ⟨binOf v, ?_, (h.bin_unique hv).2 rfl⟩
    rw [h.length]
    exact h.policy.binOf_eq (hbins bins (List.mem_of_getElem? hnum)) haddress
      (List.reduceOption_mem_iff.2 (List.mem_of_getElem? hv))

/-- Bitmaps only have rows of the table. -/
theorem BitmapIndex.Indexed.card_le (hidx : idx.Indexed schema rows) {bitmap : Roaring}
    (hmem : bitmap ∈ idx.bitmaps) : bitmap.card ≤ rows.length := by
  rw [← Finset.card_range rows.length]
  refine Finset.card_le_card fun j hj => Finset.mem_range.2 ?_
  rw [BitmapIndex.bitmaps, List.mem_append, List.mem_flatten, List.mem_singleton] at hmem
  rcases hmem with ⟨bins, hbins, hbin⟩ | rfl
  · obtain ⟨i, hi⟩ := List.mem_iff_getElem?.1 hbins
    have hlt := (List.getElem?_eq_some_iff.1 hi).1
    rw [hidx.lengths.2.2] at hlt
    obtain ⟨_, _, bitmaps, _, -, -, hbitmaps, -, h⟩ :=
      hidx.attrs i _ (List.getElem?_eq_getElem hlt)
    rw [hi, Option.some.injEq] at hbitmaps
    subst hbitmaps
    exact (@row_cases rows i j).2 (.inl (h.mem_bins.1 ⟨bitmap, hbin, hj⟩))
  · exact (@row_cases rows 0 j).2 (.inr (.inr ((hidx.tombstones j).1 hj)))

theorem BitmapIndex.Indexed.binCardinalities_eq (hidx : idx.Indexed schema rows)
    (hfit : RowsFit rows) :
    idx.binCardinalities.map UInt32.toNat = idx.bitmaps.map Finset.card := by
  rw [binCardinalities, List.map_map]
  refine List.map_congr_left fun bitmap hmem => ?_
  have hle := hidx.card_le hmem
  have hcount := hfit.count
  show (UInt32.ofNat bitmap.card).toNat = _
  rw [UInt32.toNat_ofNat']
  omega

end Attribute

theorem rowsOf_eq_none_iff (extract : AttrExtractor) (calls : List BuilderCall) (j : ℕ) :
    (rowsOf extract calls)[j]? = some none ↔
      ∃ type, (rowTypes calls)[j]? = some type ∧ type ≠ .value := by
  induction calls generalizing j with
  | nil => simp [rowsOf, rowTypes]
  | cons call calls ih =>
      cases call with
      | addIndexEntry offset size => exact ih j
      | onKeyAdded key type value =>
          cases j with
          | zero => cases type <;> simp [rowsOf, rowTypes, BuilderCall.row?]
          | succ j =>
              have hrow : ∃ r, rowsOf extract (.onKeyAdded key type value :: calls) =
                  r :: rowsOf extract calls := by
                cases type <;> exact ⟨_, rfl⟩
              obtain ⟨r, hr⟩ := hrow
              rw [hr, List.getElem?_cons_succ]
              exact ih j

/-- `Finish` partitions the rows, for every attribute. -/
theorem index_partitions_rows {extract : AttrExtractor} {schema : SABISchema}
    {calls : List BuilderCall} (hextract : Extracts extract schema calls)
    (hfit : RowsFit (rowsOf extract calls)) (rt : Runtime) :
    ∃ b idx, SABIBuilder.run rt.hash extract schema calls = some b ∧ b.buildIndex rt = some idx ∧
      (∀ j, j ∈ idx.tombstoneBitmap ↔ ∃ type, (rowTypes calls)[j]? = some type ∧ type ≠ .value) ∧
      ∀ policyOff, (b.directory rt.frozen idx policyOff).binCardinalities.map UInt32.toNat =
          idx.bitmaps.map Finset.card ∧
        ∀ i < schema.indexTypes.length,
          (∃ policy bins, idx.Partitions (rowsOf extract calls) i policy bins) ∧
          (b.directory rt.frozen idx policyOff).distinctCnts[i]?.map UInt64.toNat =
            some (cells i (rowsOf extract calls)).reduceOption.toFinset.card := by
  obtain ⟨b, hrun, hbuilt⟩ := @SABIBuilder.run_built rt.hash _ _ _ hextract hfit
  obtain ⟨idx, hbuild, hidx⟩ := hbuilt.buildIndex hfit rt
  have hnums : idx.bitmapNums = b.binCounts rt := by
    obtain ⟨attrs, -, h⟩ := Option.bind_eq_some_iff.1 hbuild
    rw [← Option.some.inj h]
  refine ⟨b, idx, hrun, hbuild, fun j => ?_, fun policyOff =>
    ⟨hidx.binCardinalities_eq hfit, fun i hi => ⟨hidx.partitions hi ?_, ?_⟩⟩⟩
  · rw [hidx.tombstones, rowsOf_eq_none_iff]
  · rw [hnums]
    exact b.binCounts_lt rt
  · have hle : (cells i (rowsOf extract calls)).reduceOption.toFinset.card < 2 ^ 64 := by
      have hcard := List.toFinset_card_le (cells i (rowsOf extract calls)).reduceOption
      have hcells := List.reduceOption_length_le (cells i (rowsOf extract calls))
      have hcount := hfit.count
      rw [length_cells] at hcells
      omega
    rw [SABIBuilder.directory, List.getElem?_map, hbuilt.distinctCnts hfit hbuild hi]
    show some (UInt64.ofNat _).toNat = _
    rw [UInt64.toNat_ofNat', Nat.mod_eq_of_lt hle]

/-- A table with a value, a deletion and a NULL. -/
def threeRowCalls : List BuilderCall :=
  [.onKeyAdded [97] .value [7], .onKeyAdded [98] .deletion [], .onKeyAdded [99] .value []]

def emptyIsNull : AttrExtractor := fun _ value => some [if value = [] then none else some value]

theorem index_partitions_rows_threeRows : ∃ b idx policy bins,
    SABIBuilder.run Runtime.oneRow.hash emptyIsNull wholeValueSchema threeRowCalls = some b ∧
    b.buildIndex .oneRow = some idx ∧
    idx.Partitions [some [some [7]], none, some [none]] 0 policy bins := by
  have hextract : Extracts emptyIsNull wholeValueSchema threeRowCalls := fun _ _ _ => ⟨_, rfl, rfl⟩
  have hfit : RowsFit (rowsOf emptyIsNull threeRowCalls) := by
    refine ⟨by decide, fun i => ?_⟩
    cases i with
    | zero => decide
    | succ i => exact Nat.two_pow_pos 32
  obtain ⟨b, idx, hrun, hbuild, -, h⟩ := index_partitions_rows hextract hfit .oneRow
  obtain ⟨policy, bins, hpart⟩ := ((h 0).2 0 (by decide)).1
  exact ⟨b, idx, policy, bins, hrun, hbuild, hpart⟩

/-! ### Boundaries out of reach

Spare bins repeat the greatest value as their boundary. Six copies of a
long value pass `2 ^ 32` bytes although the values of all rows do not. -/

/-- One range attribute, with room for seven bins. -/
def sevenBinsSchema : SABISchema where
  indexTypes := [.range]
  rho := ⟨0x3FC2492492492492⟩

/-- Five light values, a heavy one, and a long one. -/
def rowLabel (k : ℕ) : ℕ := if k < 5 then k else if k < 31 then 254 else 255

def labelValue (long : Bytes) (n : ℕ) : Bytes := if n = 255 then long else [UInt8.ofNat n]

def longValueCalls (long : Bytes) : List BuilderCall :=
  (List.range 32).map fun k =>
    .onKeyAdded [UInt8.ofNat k] .value (labelValue long (rowLabel k))

def labels : List ℕ := (List.range 32).map rowLabel

section LongValue

variable {long : Bytes}

theorem rowsOf_longValueCalls (long : Bytes) :
    rowsOf wholeValueExtractor (longValueCalls long) =
      labels.map fun n => some [some (labelValue long n)] := by
  rw [rowsOf, longValueCalls, List.filterMap_map, labels, List.map_map, ← List.filterMap_eq_map]
  rfl

theorem cells_longValueCalls (long : Bytes) (i : ℕ) :
    cells i (rowsOf wholeValueExtractor (longValueCalls long)) =
      labels.map fun n => if i = 0 then some (labelValue long n) else none := by
  rw [rowsOf_longValueCalls, cells, List.map_map]
  refine List.map_congr_left fun n _ => ?_
  cases i <;> rfl

theorem values_longValueCalls (long : Bytes) :
    (cells 0 (rowsOf wholeValueExtractor (longValueCalls long))).reduceOption =
      labels.map (labelValue long) := by
  rw [cells_longValueCalls, List.reduceOption, List.filterMap_map, ← List.filterMap_eq_map]
  rfl

theorem length_values (long : Bytes) :
    (labels.map (labelValue long)).flatten.length = 31 + long.length := by
  have hsplit : labels = labels.take 31 ++ [255] := by decide
  rw [hsplit, List.map_append, List.flatten_append, List.length_append]
  have hshort : ∀ n ∈ labels.take 31, (labelValue long n).length = 1 := by
    have hne : ∀ n ∈ labels.take 31, n ≠ 255 := by decide
    intro n hn
    rw [labelValue, if_neg (hne n hn)]
    rfl
  have hcount : ((labels.take 31).map (labelValue long)).flatten.length = 31 := by
    rw [List.length_flatten, List.map_map, Function.comp_def, List.map_congr_left hshort]
    decide
  rw [hcount]
  simp [labelValue]

theorem rowsFit_longValueCalls (hlen : long.length = 2 ^ 31 + 1) :
    RowsFit (rowsOf wholeValueExtractor (longValueCalls long)) := by
  refine ⟨?_, fun i => ?_⟩
  · rw [rowsOf_longValueCalls, List.length_map]
    decide
  · by_cases hi : i = 0
    · subst hi
      rw [values_longValueCalls, length_values]
      omega
    · rw [cells_longValueCalls, List.reduceOption, List.filterMap_map]
      simp [hi]

theorem labelValue_le (hlong : [254] < long) :
    (labels.map (labelValue long)).Pairwise (· ≤ ·) := by
  have hlabels : labels.Pairwise fun m n => n < 255 → [UInt8.ofNat m] ≤ [UInt8.ofNat n] := by
    decide
  have htop : ∀ n ∈ labels, n ≤ 255 ∧ (n < 255 → [UInt8.ofNat n] ≤ [254]) := by decide
  have hmono : labels.Pairwise (· ≤ ·) := by decide
  rw [List.pairwise_map]
  refine (hlabels.and hmono).imp_of_mem fun {m n} hm hn ⟨h, hle⟩ => ?_
  have hm' := htop m hm
  have hn' := htop n hn
  by_cases hn255 : n = 255
  · by_cases hm255 : m = 255
    · rw [hm255, hn255]
    · rw [labelValue, labelValue, if_neg hm255, if_pos hn255]
      exact (hm'.2 (by omega)).trans hlong.le
  · rw [labelValue, labelValue, if_neg (by omega), if_neg hn255]
    exact h (by omega)

theorem labelValue_inj (hlong : [254] < long) {m n : ℕ} (hm : m ∈ labels) (hn : n ∈ labels)
    (h : labelValue long m = labelValue long n) : m = n := by
  have hshort : ∀ n ∈ labels, n ≠ 255 → [UInt8.ofNat n] ≤ [254] := by decide
  have hinj : ∀ m ∈ labels, ∀ n ∈ labels, [UInt8.ofNat m] = [UInt8.ofNat n] → m = n := by decide
  by_cases hm255 : m = 255 <;> by_cases hn255 : n = 255
  · rw [hm255, hn255]
  · rw [labelValue, labelValue, if_pos hm255, if_neg hn255] at h
    exact absurd (hshort n hn hn255) (not_le.2 (h ▸ hlong))
  · rw [labelValue, labelValue, if_neg hm255, if_pos hn255] at h
    exact absurd (hshort m hm hm255) (not_le.2 (h ▸ hlong))
  · rw [labelValue, labelValue, if_neg hm255, if_neg hn255] at h
    exact hinj m hm n hn h

/-- The boundaries: the long value is the last six of eight. -/
theorem boundaries_longValue (hlong : [254] < long) {runs : SortedRuns}
    (hruns : runs.Of (labels.map (labelValue long))) :
    runs.distinct = 7 ∧
    (thresholdRuns Fpu.truncating 7 runs.runStart).map
      (runs.value (labels.map (labelValue long))) =
        [[0], [254], long, long, long, long, long, long] := by
  have hordering := hruns.ordering_eq (labelValue_le hlong)
  have hinj : ∀ m ∈ labels, ∀ n ∈ labels, labelValue long m = labelValue long n → m = n :=
    fun m hm n hn => labelValue_inj hlong hm hn
  have hcuts : runs.runStart = [0, 1, 2, 3, 4, 5, 31, 32] := by
    rw [hruns.runStart, hordering, Runs.cuts_map hinj]
    decide
  have hdistinct : runs.distinct = 7 := by
    rw [hruns.distinct, hordering, Runs.starts_map hinj]
    decide
  have hthresholds : thresholdRuns Fpu.truncating 7 [0, 1, 2, 3, 4, 5, 31, 32] =
      [0, 5, 6, 6, 6, 6, 6, 6] := by
    decide +kernel
  have hvalue (r k : ℕ) (hr : r < 7) (hk : [0, 1, 2, 3, 4, 5, 31, 32].getD r 0 = k) (n : ℕ)
      (hn : labels[k]? = some n) :
      runs.value (labels.map (labelValue long)) r = labelValue long n := by
    obtain ⟨-, -, hval⟩ := hruns.start (hdistinct ▸ hr)
    rw [hordering, hcuts, hk, List.getElem?_map, hn] at hval
    exact (Option.some.inj hval).symm
  have h0 := hvalue 0 0 (by decide) rfl 0 (by decide)
  have h5 := hvalue 5 5 (by decide) rfl 254 (by decide)
  have h6 := hvalue 6 31 (by decide) rfl 255 (by decide)
  refine ⟨hdistinct, ?_⟩
  rw [hcuts, hthresholds]
  simp only [List.map_cons, List.map_nil, h0, h5, h6]
  rfl

/-- A string that begins inside the zeros is below the heavy value. -/
theorem slice_lt_of_zero {b : Bytes} {off n : ℕ} (h : b[off]? = some 0) :
    slice b off n < [254] := by
  rw [slice, List.drop_eq_getElem?_toList_append, h]
  cases n with
  | zero =>
      show [] < [254]
      decide
  | succ n =>
      show 0 :: _ < [254]
      exact List.cons_lt_cons_iff.2 (.inl (by decide))

theorem getElem?_zeros {n k : ℕ} (hk : k < n) (rest : Bytes) :
    (List.replicate n (0 : UInt8) ++ rest)[k]? = some 0 := by
  rw [List.getElem?_append_left (by simpa using hk), List.getElem?_replicate, if_pos hk]

/-- End offsets of the fourth boundary and after have wrapped, and a search
reads zeros at every position it looks at. -/
theorem get_longValue_lt {n : ℕ} (hn : n = 2 ^ 31 - 1)
    (hlong : long = 255 :: 255 :: List.replicate n 0) {i : ℕ} (hi : i = 3 ∨ i = 5 ∨ i = 6) :
    (BytesList.ofList [[0], [254], long, long, long, long, long, long]).get (i + 1) < [254] := by
  have hlen : long.length = 2147483649 := by
    rw [hlong, List.length_cons, List.length_cons, List.length_replicate]
    omega
  have hends : (BytesList.ofList [[0], [254], long, long, long, long, long, long]).ends =
      [1, 2, 2147483651, 4, 2147483653, 6, 2147483655, 8] := by
    rw [BytesList.ends_ofList]
    simp [List.range_succ, hlen]
  have harena : (BytesList.ofList [[0], [254], long, long, long, long, long, long]).arena =
      0 :: 254 :: (long ++ (long ++ (long ++ (long ++ (long ++ long))))) := by
    simp
  have hfront (k : ℕ) (hk : k < 3) : (0 :: 254 :: (long ++ (long ++ (long ++ (long ++
      (long ++ long))))))[4 + k]? = some 0 := by
    rw [Nat.add_comm, List.getElem?_cons_succ, List.getElem?_cons_succ, hlong]
    exact getElem?_zeros (by omega) _
  have hsecond : (0 :: 254 :: (long ++ (long ++ (long ++ (long ++ (long ++ long))))))[2147483655]? =
      some 0 := by
    rw [show 2147483655 = long.length + 4 + 1 + 1 by omega, List.getElem?_cons_succ,
      List.getElem?_cons_succ, List.getElem?_append_right (by omega), Nat.add_sub_cancel_left,
      hlong]
    exact getElem?_zeros (show 2 < n by omega) _
  rw [BytesList.get, hends, harena, if_neg (by omega), Nat.add_sub_cancel]
  refine slice_lt_of_zero ?_
  rcases hi with rfl | rfl | rfl
  · exact hfront 0 (by decide)
  · exact hfront 2 (by decide)
  · exact hsecond

/-- Both searches for the heavy value end behind the last boundary. -/
theorem bounds_longValue {n : ℕ} (hn : n = 2 ^ 31 - 1)
    (hlong : long = 255 :: 255 :: List.replicate n 0) :
    (BytesList.ofList [[0], [254], long, long, long, long, long, long]).upperBound [254] = 8 ∧
      (BytesList.ofList [[0], [254], long, long, long, long, long, long]).lowerBound [254] = 8 := by
  have h4 := @get_longValue_lt long n hn hlong 3 (by decide)
  have h6 := @get_longValue_lt long n hn hlong 5 (by decide)
  have h7 := @get_longValue_lt long n hn hlong 6 (by decide)
  rw [BytesList.upperBound, BytesList.lowerBound, BytesList.size_ofList]
  generalize (BytesList.ofList [[0], [254], long, long, long, long, long, long]).get = get
    at h4 h6 h7 ⊢
  constructor
  · simp [BinarySearch.search, BinarySearch.loop, h4.le, h6.le, h7.le]
  · simp [BinarySearch.search, BinarySearch.loop, h4, h6, h7]

theorem setRangeBinningPolicy_longValue (hlong : [254] < long) (hlen : long.length = 2 ^ 31 + 1)
    {buf : RangeAttrBuf} (hbuf : buf.Pushed (labels.map (labelValue long))) (std : StdSort) :
    setRangeBinningPolicy .truncating 7 buf.values (buf.sort std) =
        (BytesList.ofList [[0], [254], long, long, long, long, long, long],
          (labels.map (labelValue long)).map
            (rangeBin 7 [[0], [254], long, long, long, long, long, long])) ∧
      (buf.sort std).distinct = 7 := by
  have hbytes : (labels.map (labelValue long)).flatten.length < 2 ^ 32 := by
    rw [length_values, hlen]
    decide
  have hcount : (labels.map (labelValue long)).length < 2 ^ 32 := by
    rw [List.length_map]
    decide
  have hne : labels.map (labelValue long) ≠ [] := by
    rw [ne_eq, List.map_eq_nil_iff]
    decide
  have hruns := hbuf.sort std hcount hbytes
  obtain ⟨hdistinct, hboundaries⟩ := boundaries_longValue hlong hruns
  have hget : ∀ i < (labels.map (labelValue long)).length,
      buf.values.get i = (labels.map (labelValue long)).getD i [] := by
    intro i hi
    rw [hbuf.values, BytesList.get_ofList hbytes hi, List.getD_eq_getElem _ _ hi]
  obtain ⟨hthresholds, hrows⟩ := setRangeBinningPolicy_eq Fpu.truncating
    (show 1 ≤ 7 by decide) hget hruns hne
  rw [hboundaries] at hrows
  have hpolicy := hthresholds.boundaries
  rw [hboundaries] at hpolicy
  exact ⟨Prod.ext hpolicy hrows, hdistinct⟩

theorem setBinningPolicy_longValue (hlong : [254] < long) (hlen : long.length = 2 ^ 31 + 1)
    {buf : RangeAttrBuf} (hbuf : buf.Pushed (labels.map (labelValue long))) :
    ∃ binning, (AttrBuf.range buf).setBinningPolicy .oneRow 7 = some binning ∧
      binning.policy =
        .range (BytesList.ofList [[0], [254], long, long, long, long, long, long]) ∧
      (∀ k, binning.rowBin k = ((labels.map (labelValue long)).map
        (rangeBin 7 [[0], [254], long, long, long, long, long, long]))[k]?) ∧
      (buf.sort Runtime.oneRow.sort).distinct = 7 := by
  obtain ⟨hpolicy, hdistinct⟩ := setRangeBinningPolicy_longValue hlong hlen hbuf Runtime.oneRow.sort
  refine ⟨_, rfl, congrArg (fun p => BinningPolicy.range p.1) hpolicy, fun k => ?_, hdistinct⟩
  exact congrArg (fun p => p.2[k]?) hpolicy

/-- Two of the eight boundaries are at or below the heavy value. -/
theorem rangeBin_longValue (hlong : [254] < long) :
    rangeBin 7 [[0], [254], long, long, long, long, long, long] [254] = 1 := by
  have hcount : [[0], [254], long, long, long, long, long, long].countP
      (fun b => decide (b ≤ [254])) = 2 := by
    simp [List.countP_cons, not_le.2 hlong]
    decide
  rw [rangeBin, hcount]
  rfl

/-- The index of the long value's table. -/
theorem buildIndex_longValue (hlong : [254] < long) (hlen : long.length = 2 ^ 31 + 1) :
    Extracts wholeValueExtractor sevenBinsSchema (longValueCalls long) ∧
    RowsFit (rowsOf wholeValueExtractor (longValueCalls long)) ∧ ∃ b idx bins,
      SABIBuilder.run Runtime.oneRow.hash wholeValueExtractor sevenBinsSchema
        (longValueCalls long) = some b ∧
      b.buildIndex .oneRow = some idx ∧ idx.bitmapNums = [7] ∧
      idx.binningPolicy =
        [.range (BytesList.ofList [[0], [254], long, long, long, long, long, long])] ∧
      idx.attrBitmaps = [bins] ∧ bins.length = 7 ∧
      ∀ bin j, j ∈ bins.getD bin ∅ ↔
        ∃ v, (cells 0 (rowsOf wholeValueExtractor (longValueCalls long)))[j]? = some (some v) ∧
          rangeBin 7 [[0], [254], long, long, long, long, long, long] v = bin := by
  have hextract : Extracts wholeValueExtractor sevenBinsSchema (longValueCalls long) :=
    fun _ _ _ => ⟨_, rfl, rfl⟩
  have hfit := rowsFit_longValueCalls hlen
  have hvalues := values_longValueCalls long
  generalize longValueCalls long = calls at hextract hfit hvalues
  refine ⟨hextract, hfit, ?_⟩
  obtain ⟨b, hrun, hbuilt⟩ := @SABIBuilder.run_built Runtime.oneRow.hash _ _ _ hextract hfit
  obtain ⟨c, buf, hcolumns, hbuf, hpushed⟩ := hbuilt.range_column rfl
  obtain ⟨binning, hpolicy, hboundaries, hrow, hdistinct⟩ :=
    setBinningPolicy_longValue hlong hlen (hvalues ▸ hpushed)
  rw [← hvalues] at hrow
  have hnums : b.binCounts .oneRow = [7] := by
    rw [SABIBuilder.binCounts, hcolumns, hbuilt.schema_eq, List.map_singleton, hbuf,
      AttrBuf.cardinality, hdistinct, List.length_singleton]
    decide +kernel
  obtain ⟨bitmaps, hindex, hlength, hmem⟩ := hbuilt.indexColumn_eq (by rw [hcolumns]; rfl)
    (by rw [hbuf]; exact hpolicy) (fun v _ => by rw [rangeBin]; omega) hrow
  have hbuild : b.buildIndex .oneRow = some ⟨[7], [binning.policy], [bitmaps], b.tombstoneBitmap,
      [binning.distinct]⟩ := by
    rw [SABIBuilder.buildIndex, hnums, hcolumns]
    simp [hindex]
  exact ⟨b, _, bitmaps, hrun, hbuild, rfl, congrArg (fun p => [p]) hboundaries, rfl, hlength, hmem⟩

/-- The row of the heavy value is in bin 1, the stored policy says bin 6. -/
theorem index_longValue (hlong : [254] < long) (hlen : long.length = 2 ^ 31 + 1)
    (hupper : (BytesList.ofList [[0], [254], long, long, long, long, long, long]).upperBound
      [254] = 8) :
    Extracts wholeValueExtractor sevenBinsSchema (longValueCalls long) ∧
    RowsFit (rowsOf wholeValueExtractor (longValueCalls long)) ∧ ∃ b idx policy bins,
      SABIBuilder.run Runtime.oneRow.hash wholeValueExtractor sevenBinsSchema
        (longValueCalls long) = some b ∧
      b.buildIndex .oneRow = some idx ∧ idx.binningPolicy[0]? = some policy ∧
      idx.attrBitmaps[0]? = some bins ∧
      (cells 0 (rowsOf wholeValueExtractor (longValueCalls long)))[5]? = some (some [254]) ∧
      policy.binOf bins.length [254] = some 6 ∧ 5 ∉ bins.getD 6 ∅ := by
  obtain ⟨hextract, hfit, b, idx, bins, hrun, hbuild, -, hpolicy, hbitmaps, hlength, hmem⟩ :=
    buildIndex_longValue hlong hlen
  have hcell : (cells 0 (rowsOf wholeValueExtractor (longValueCalls long)))[5]? =
      some (some [254]) := by
    rw [cells_longValueCalls, List.getElem?_map]
    rfl
  refine ⟨hextract, hfit, b, idx, _, bins, hrun, hbuild, by rw [hpolicy]; rfl,
    by rw [hbitmaps]; rfl, hcell, ?_, ?_⟩
  · rw [hlength, BinningPolicy.binOf, hupper]
    rfl
  · rw [hmem, hcell]
    rintro ⟨v, hv, hbin⟩
    rw [Option.some.injEq, Option.some.injEq] at hv
    rw [← hv, rangeBin_longValue hlong] at hbin
    omega

end LongValue

/-- The long value has `2 ^ 31 + 1` bytes, so that two of them pass `2 ^ 32`. -/
def overflowCalls : List BuilderCall :=
  longValueCalls (255 :: 255 :: List.replicate (2 ^ 31 - 1) 0)

theorem index_bin_ne_policy_bin : Extracts wholeValueExtractor sevenBinsSchema overflowCalls ∧
    RowsFit (rowsOf wholeValueExtractor overflowCalls) ∧ ∃ b idx policy bins,
      SABIBuilder.run Runtime.oneRow.hash wholeValueExtractor sevenBinsSchema
        overflowCalls = some b ∧
      b.buildIndex .oneRow = some idx ∧ idx.binningPolicy[0]? = some policy ∧
      idx.attrBitmaps[0]? = some bins ∧
      (cells 0 (rowsOf wholeValueExtractor overflowCalls))[5]? = some (some [254]) ∧
      policy.binOf bins.length [254] = some 6 ∧ 5 ∉ bins.getD 6 ∅ := by
  refine index_longValue (List.cons_lt_cons_iff.2 (.inl (by decide))) ?_
    (bounds_longValue rfl rfl).1
  rw [List.length_cons, List.length_cons, List.length_replicate]
  decide

end BitLSM
