import BitLSM.RoundTrip
import BitLSM.Reader.Select

/-!
From conditions to rows.

`Describes` collects what a reader of a finished blob shares with the index
it was made from. Together with `BitmapIndex.Indexed`, which relates the
index to the rows, it gives the two facts a scan rests on: a row that
satisfies a condition is in a selected bin of the condition, and every row
of a selected bin is a value row.
-/

namespace BitLSM

open Wire

/-- What a reader has of the index. -/
structure SABIReader.Describes (r : SABIReader) (types : List IndexType) (idx : BitmapIndex) :
    Prop where
  indexTypes : r.indexTypes = types
  bitmapNums : r.bitmapNums = idx.bitmapNums.map UInt32.ofNat
  binningPolicy : r.binningPolicy = idx.binningPolicy
  binCardinalities : r.binCardinalities = idx.binCardinalities
  totalBins : r.totalBins + 1 = idx.bitmaps.length
  lengths : idx.attrBitmaps.map List.length = idx.bitmapNums
  bins_lt : idx.bitmaps.length < 2 ^ 31
  boundaries : ∀ bs, .range (BytesList.ofList bs) ∈ idx.binningPolicy → bs.flatten.length < 2 ^ 32

theorem getElem?_flatten_take {α : Type} {ls : List (List α)} {l : List α} {i k : ℕ}
    (hl : ls[i]? = some l) (hk : k < l.length) :
    ls.flatten[((ls.map List.length).take i).sum + k]? = l[k]? := by
  induction ls generalizing i with
  | nil => simp at hl
  | cons l' ls ih =>
      cases i with
      | zero =>
          obtain rfl : l' = l := by simpa using hl
          simp [List.getElem?_append_left hk]
      | succ i =>
          rw [List.map_cons, List.take_succ_cons, List.sum_cons, List.flatten_cons,
            List.getElem?_append_right (by omega), Nat.add_assoc, Nat.add_sub_cancel_left]
          exact ih hl

theorem sum_take_add_le {α : Type} {ls : List (List α)} {l : List α} {i : ℕ}
    (hl : ls[i]? = some l) :
    ((ls.map List.length).take i).sum + l.length ≤ ls.flatten.length := by
  have hdrop : (ls.map List.length).drop i = l.length :: (ls.map List.length).drop (i + 1) :=
    List.drop_eq_getElem?_toList_append.trans (by simp [hl])
  rw [List.length_flatten]
  conv_rhs => rw [← List.take_append_drop i (ls.map List.length), List.sum_append, hdrop,
    List.sum_cons]
  omega

section

variable {r : SABIReader} {schema : SABISchema} {idx : BitmapIndex}
  {rows : List (Option (List EncodedAttr))}

/-- The bins of attribute `i` as the reader numbers them. -/
theorem SABIReader.Describes.attrBinOffset_eq (h : r.Describes schema.indexTypes idx) {i : ℕ}
    {bitmaps : List Roaring} (hbitmaps : idx.attrBitmaps[i]? = some bitmaps) :
    ∃ offset, r.attrBinOffset i = some offset ∧
      offset.toNat + bitmaps.length < idx.bitmaps.length ∧
      ∀ k < bitmaps.length, idx.bitmaps[offset.toNat + k]? = bitmaps[k]? := by
  have hi := (List.getElem?_eq_some_iff.1 hbitmaps).1
  have hnums : idx.bitmapNums.length = idx.attrBitmaps.length := by rw [← h.lengths,
      List.length_map]
  have hlen : idx.bitmaps.length = idx.attrBitmaps.flatten.length + 1 := by
    simp [BitmapIndex.bitmaps]
  have hsum := sum_take_add_le hbitmaps
  rw [h.lengths] at hsum
  have hsmall := h.bins_lt
  have hoffset : ((r.bitmapNums.take i).foldl (· + ·) 0).toNat = (idx.bitmapNums.take i).sum := by
    rw [h.bitmapNums, ← List.map_take, foldl_add_toNat]
    show (0 + _) % _ = _
    omega
  refine ⟨_, if_pos (by rw [h.bitmapNums, List.length_map]; omega), by rw [hoffset]; omega,
    fun k hk => ?_⟩
  have hget := getElem?_flatten_take hbitmaps hk
  rw [h.lengths] at hget
  rw [hoffset, BitmapIndex.bitmaps, List.getElem?_append_left (by omega), hget]

/-- What a selection of bins says about the rows. -/
structure Selects (r : SABIReader) (schema : SABISchema) (idx : BitmapIndex)
    (rows : List (Option (List EncodedAttr))) (c : SABICondition) (sel : Option BinSelection) :
    Prop where
  inBins : ∀ s, sel = some s → s.first.toNat ≤ s.last.toNat ∧ s.last.toNat < r.totalBins
  valueRows : ∀ s, sel = some s → ∀ (k : ℕ) bitmap j, s.first.toNat ≤ k → k ≤ s.last.toNat →
    idx.bitmaps[k]? = some bitmap → j ∈ bitmap → ∃ attrs, rows[j]? = some (some attrs)
  covers : ∀ (j : ℕ) attrs, rows[j]? = some (some attrs) →
    c.holds schema.indexTypes attrs = true → ∃ s k bitmap, sel = some s ∧ s.first.toNat ≤ k ∧
      k ≤ s.last.toNat ∧ idx.bitmaps[k]? = some bitmap ∧ j ∈ bitmap

theorem cells_eq_some {i j : ℕ} {v : Bytes} :
    (cells i rows)[j]? = some (some v) ↔
      ∃ attrs, rows[j]? = some (some attrs) ∧ attrs[i]? = some (some v) := by
  rw [cells, List.getElem?_map, Option.map_eq_some_iff]
  constructor
  · rintro ⟨row, hrow, hv⟩
    obtain ⟨attrs, rfl, hv⟩ := Option.bind_eq_some_iff.1 hv
    exact ⟨attrs, hrow, Option.join_eq_some_iff.1 hv⟩
  · rintro ⟨attrs, hrow, hv⟩
    exact ⟨some attrs, hrow, by rw [Option.bind_some, hv]; rfl⟩

/-- The values a condition asks for. -/
def SABICondition.Accepts (c : SABICondition) (v : Bytes) : IndexType → Prop
  | .range => v ∈ c.win
  | .equality => v = c.bytes

theorem SABICondition.holds_iff {types : List IndexType} {attrs : List EncodedAttr}
    {c : SABICondition} {t : IndexType} (ht : types[c.attrIdx.toNat]? = some t) :
    c.holds types attrs = true ↔
      ∃ v, attrs[c.attrIdx.toNat]? = some (some v) ∧ c.Accepts v t := by
  rw [SABICondition.holds, ht]
  rcases attrs[c.attrIdx.toNat]? with _ | _ | v
  · simp
  · simp
  · cases t <;> simp [Accepts]

/-- A range of bins of one attribute, as a selection. -/
theorem selects_of_bins (h : r.Describes schema.indexTypes idx) {c : SABICondition} {bins : ℕ}
    {policy : BinningPolicy} {bitmaps : List Roaring} {binOf : Bytes → ℕ} {offset : UInt32}
    (hattr : AttrIndexed (cells c.attrIdx.toNat rows) bins policy bitmaps binOf)
    (hfits : offset.toNat + bitmaps.length < idx.bitmaps.length)
    (hget : ∀ k < bitmaps.length, idx.bitmaps[offset.toNat + k]? = bitmaps[k]?) {a b : ℕ}
    (hab : a ≤ b) (hb : b < bins)
    (hcovers : ∀ (j : ℕ) attrs, rows[j]? = some (some attrs) →
      c.holds schema.indexTypes attrs = true → ∃ v, attrs[c.attrIdx.toNat]? = some (some v) ∧
        a ≤ binOf v ∧ binOf v ≤ b) :
    Selects r schema idx rows c (some ⟨offset + UInt32.ofNat a, offset + UInt32.ofNat b⟩) := by
  have hlen := hattr.length
  have hsmall := h.bins_lt
  have htotal := h.totalBins
  have hadd (n : ℕ) (hn : n < bins) : (offset + UInt32.ofNat n).toNat = offset.toNat + n := by
    rw [UInt32.toNat_add, UInt32.toNat_ofNat']
    omega
  have hfirst := hadd a (by omega)
  have hlast := hadd b hb
  refine ⟨?_, ?_, fun j attrs hj hholds => ?_⟩
  · rintro s ⟨⟩
    simp only [hfirst, hlast]
    omega
  · rintro s ⟨⟩ k bitmap j hk hk' hbitmap hj
    simp only [hfirst, hlast] at hk hk'
    obtain ⟨n, rfl⟩ := Nat.exists_eq_add_of_le (show offset.toNat ≤ k by omega)
    rw [hget n (by omega)] at hbitmap
    have hmem := (hattr.mem n j).1 (by rw [List.getD_eq_getElem?_getD, hbitmap]; exact hj)
    obtain ⟨v, hv, -⟩ := hmem
    obtain ⟨attrs, hattrs, -⟩ := cells_eq_some.1 hv
    exact ⟨attrs, hattrs⟩
  · obtain ⟨v, hv, ha, hb'⟩ := hcovers j attrs hj hholds
    have hbin : binOf v < bitmaps.length := by omega
    refine ⟨_, offset.toNat + binOf v, bitmaps[binOf v], rfl, by simp only [hfirst]; omega,
      by simp only [hlast]; omega, by rw [hget _ hbin, List.getElem?_eq_getElem hbin], ?_⟩
    have hmem := (hattr.mem (binOf v) j).2 ⟨v, cells_eq_some.2 ⟨attrs, hj, hv⟩, rfl⟩
    rwa [List.getD_eq_getElem?_getD, List.getElem?_eq_getElem hbin] at hmem

/-- No bin is needed where no row satisfies the condition. -/
theorem selects_none {c : SABICondition}
    (hnone : ∀ (j : ℕ) attrs, rows[j]? = some (some attrs) →
      c.holds schema.indexTypes attrs = false) : Selects r schema idx rows c none := by
  refine ⟨by simp, by simp, fun j attrs hj hholds => ?_⟩
  rw [hnone j attrs hj] at hholds
  cases hholds

/-- `SelectBins` covers the rows of the condition. -/
theorem SABIReader.Describes.selectBins_spec (h : r.Describes schema.indexTypes idx)
    (hidx : idx.Indexed schema rows) {c : SABICondition}
    (hc : c.attrIdx.toNat < schema.indexTypes.length) :
    ∃ sel, r.selectBins c = some sel ∧ Selects r schema idx rows c sel := by
  have ht := List.getElem?_eq_getElem hc
  obtain ⟨bins, policy, bitmaps, binOf, hbins, hpolicy, hbitmaps, htype, hattr⟩ :=
    hidx.attrs _ _ ht
  obtain ⟨offset, hoffset, hfits, hget⟩ := h.attrBinOffset_eq hbitmaps
  have hlen := hattr.length
  have hpos := hattr.bins_pos
  have hsmall := h.bins_lt
  have hmem (j : ℕ) (attrs : List EncodedAttr) (v : Bytes) (hj : rows[j]? = some (some attrs))
      (hv : attrs[c.attrIdx.toNat]? = some (some v)) :
      v ∈ (cells c.attrIdx.toNat rows).reduceOption :=
    List.reduceOption_mem_iff.2 (List.mem_of_getElem? (cells_eq_some.2 ⟨attrs, hj, hv⟩))
  rw [SABIReader.selectBins, h.indexTypes, ht, hoffset, h.binningPolicy, hpolicy]
  simp only [Option.bind_eq_bind, Option.bind_some]
  rw [← htype] at ht ⊢
  cases hattr.policy with
  | @equality dict hdict =>
      refine ⟨_, rfl, ?_⟩
      cases hfind : findEntry dict c.bytes with
      | none =>
          refine selects_none fun j attrs hj => ?_
          rw [← Bool.not_eq_true, SABICondition.holds_iff ht]
          rintro ⟨_, hv, rfl⟩
          rw [hdict.findEntry_eq (hmem j attrs _ hj hv)] at hfind
          cases hfind
      | some bin =>
          have hbin : bin < bins := by
            rw [findEntry] at hfind
            split at hfind
            · next e he =>
                split at hfind
                · obtain rfl := Option.some.inj hfind
                  exact hdict.lt_bins e (List.mem_of_getElem? he)
                · cases hfind
            · cases hfind
          refine selects_of_bins h hattr hfits hget le_rfl hbin fun j attrs hj hholds => ?_
          obtain ⟨_, hv, rfl⟩ := (SABICondition.holds_iff ht).1 hholds
          rw [hdict.findEntry_eq (hmem j attrs _ hj hv), Option.some.injEq] at hfind
          exact ⟨_, hv, hfind.ge, hfind.le⟩
  | @range bs hbs =>
      have hnums : r.bitmapNums[c.attrIdx.toNat]? = some (UInt32.ofNat bins) := by
        rw [h.bitmapNums, List.getElem?_map, hbins]
        rfl
      have hbytes := h.boundaries bs (List.mem_of_getElem? hpolicy)
      simp only [BinningPolicy.indexType, hnums, Option.bind_some]
      refine ⟨_, rfl, ?_⟩
      split
      · next hempty =>
          refine selects_none fun j attrs hj => ?_
          rw [← Bool.not_eq_true, SABICondition.holds_iff ht]
          rintro ⟨v, -, hv⟩
          exact ByteInterval.not_mem_of_empty hempty v hv
      · next hempty =>
          rw [selectRange_eq hbs hpos (by omega) hbytes]
          split
          · next hzero =>
              refine selects_none fun j attrs hj => ?_
              rw [← Bool.not_eq_true, SABICondition.holds_iff ht]
              rintro ⟨v, hv, hwin⟩
              exact (rangeBin_mem_selectRange hbs (hmem j attrs v hj hv) hwin).1 hzero
          · have hordered := @countP_le_hiCount bs c.win (by simpa using hempty)
            refine selects_of_bins h hattr hfits hget (by omega) (by omega)
              fun j attrs hj hholds => ?_
            obtain ⟨v, hv, hwin⟩ := (SABICondition.holds_iff ht).1 hholds
            exact ⟨v, hv, (rangeBin_mem_selectRange hbs (hmem j attrs v hj hv) hwin).2⟩

/-- A table with a value in the interval passes the min/max test. -/
theorem RangeBoundaries.overlaps {vs bs : List Bytes} {bins : ℕ} (hbs : RangeBoundaries vs bins bs)
    (hbytes : bs.flatten.length < 2 ^ 32) (hbins : 1 ≤ bins) {w : ByteInterval} {v : Bytes}
    (hv : v ∈ vs) (hw : v ∈ w) :
    ¬(BytesList.ofList bs).size < 2 ∧
      (w.empty || (BytesList.ofList bs).back < w.lo ||
        (w.lo = (BytesList.ofList bs).back && w.loOpen)) = false ∧
      (w.hiUnbounded = true ∨ (w.hi < (BytesList.ofList bs).get 0 ||
        (w.hi = (BytesList.ofList bs).get 0 && w.hiOpen)) = false) := by
  have hlen := hbs.length
  have hmin : (BytesList.ofList bs).get 0 ≤ v := by
    rw [BytesList.get_ofList hbytes (by omega)]
    exact hbs.least _ (by rw [List.head?_eq_getElem?, List.getElem?_eq_getElem (by omega)]) v hv
  have hmax : v ≤ (BytesList.ofList bs).back := by
    rw [BytesList.back, BytesList.size_ofList, BytesList.get_ofList hbytes (by omega)]
    exact hbs.greatest _
      (by rw [List.getLast?_eq_getElem?, List.getElem?_eq_getElem (by omega)]) v hv
  have hempty : w.empty = false := by
    rw [← Bool.not_eq_true]
    exact fun h => ByteInterval.not_mem_of_empty h v hw
  obtain ⟨hlo, hhi⟩ := hw
  refine ⟨by rw [BytesList.size_ofList]; omega, ?_, ?_⟩
  · rw [hempty, Bool.false_or, Bool.or_eq_false_iff, decide_eq_false_iff_not, not_lt,
      Bool.and_eq_false_iff, decide_eq_false_iff_not]
    refine ⟨hlo.le.trans hmax, ?_⟩
    rw [or_iff_not_imp_right, Bool.not_eq_false]
    intro hopen heq
    rw [ByteInterval.aboveLo, if_pos hopen, heq] at hlo
    exact absurd hmax (not_le.2 hlo)
  · rcases hhi with hunbounded | hhi
    · exact Or.inl hunbounded
    · right
      rw [Bool.or_eq_false_iff, decide_eq_false_iff_not, not_lt, Bool.and_eq_false_iff,
        decide_eq_false_iff_not]
      split at hhi
      · next hopen =>
          exact ⟨hmin.trans hhi.le, Or.inl fun heq => absurd hmin (not_le.2 (heq ▸ hhi))⟩
      · next hclosed => exact ⟨hmin.trans hhi, Or.inr (by simpa using hclosed)⟩

/-- A condition that some row satisfies is not impossible. -/
theorem SABIReader.Describes.not_conditionImpossible (h : r.Describes schema.indexTypes idx)
    (hidx : idx.Indexed schema rows) {c : SABICondition} {j : ℕ} {attrs : List EncodedAttr}
    (hj : rows[j]? = some (some attrs)) (hholds : c.holds schema.indexTypes attrs = true) :
    r.conditionImpossible c = false := by
  cases ht : schema.indexTypes[c.attrIdx.toNat]? with
  | none =>
      rw [SABICondition.holds, ht] at hholds
      simp at hholds
  | some t =>
      obtain ⟨bins, policy, bitmaps, binOf, hbins, hpolicy, hbitmaps, htype, hattr⟩ :=
        hidx.attrs _ _ ht
      obtain ⟨v, hv, haccepts⟩ := (SABICondition.holds_iff ht).1 hholds
      have hmem : v ∈ (cells c.attrIdx.toNat rows).reduceOption :=
        List.reduceOption_mem_iff.2 (List.mem_of_getElem? (cells_eq_some.2 ⟨attrs, hj, hv⟩))
      rw [SABIReader.conditionImpossible, h.indexTypes, ht, h.binningPolicy, hpolicy, ← htype]
      rw [← htype] at haccepts
      cases hattr.policy with
      | @equality dict hdict =>
          obtain rfl : v = c.bytes := haccepts
          simp [BinningPolicy.indexType, hdict.findEntry_eq hmem]
      | @range bs hbs =>
          obtain ⟨hsize, hlo, hhi⟩ := hbs.overlaps (h.boundaries bs (List.mem_of_getElem? hpolicy))
            hattr.bins_pos hmem haccepts
          simp only [BinningPolicy.indexType, if_neg hsize, hlo, Bool.false_eq_true, if_false]
          split
          · rfl
          · next hbounded => exact hhi.resolve_left hbounded

theorem SABIReader.Describes.queryCanMatch (h : r.Describes schema.indexTypes idx)
    (hidx : idx.Indexed schema rows) {q : SABIQuery} {j : ℕ} {attrs : List EncodedAttr}
    (hj : rows[j]? = some (some attrs)) (hq : q.meaning schema.indexTypes attrs = true) :
    r.queryCanMatch q = true := by
  rw [SABIQuery.meaning, clausesHold, List.all_eq_true] at hq
  rw [SABIReader.queryCanMatch, List.all_eq_true]
  intro clause hclause
  obtain ⟨c, hc, hholds⟩ := List.any_eq_true.1 (hq clause hclause)
  rw [Bool.or_eq_true, List.any_eq_true]
  exact Or.inr ⟨c, hc, by rw [h.not_conditionImpossible hidx hj hholds]; rfl⟩

end

theorem BinningPolicy.length_boundaries_le (bs : List Bytes) :
    bs.flatten.length ≤ (BinningPolicy.range (BytesList.ofList bs)).serialize.length := by
  rw [BinningPolicy.serialize, BytesList.serialize, List.length_append, BytesList.arena_ofList]
  omega

/-- The reader of a finished blob describes the index in it. -/
theorem SABIBuilder.Written.describes {frozen : FrozenCodec} {b : SABIBuilder}
    {idx : BitmapIndex} {out blob : Bytes} (h : Written frozen b idx out blob)
    (hshape : idx.Shaped b.schema.indexTypes) (hlen : blob.length < 2 ^ 32)
    (mode : SABIReaderMode) (entries : List IndexEntry) :
    (readerOf frozen mode b entries idx).Describes b.schema.indexTypes idx := by
  have hblob := h.length_blob
  rw [Directory.length_serialize, List.length_append] at hblob
  have hoffsets : (b.directory frozen idx out.length).bitmapOffsets.length =
      idx.bitmaps.length + 1 := length_bitmapOffsets
  have hcards : (b.directory frozen idx out.length).binCardinalities.length =
      idx.bitmaps.length := List.length_map _
  have hpos : 0 < idx.bitmaps.length := by simp [BitmapIndex.bitmaps]
  refine ⟨rfl, rfl, rfl, rfl, ?_, hshape.bitmapNums, by omega, fun bs hbs => ?_⟩
  · show (b.bitmapOffsets frozen idx).length - 2 + 1 = _
    rw [length_bitmapOffsets]
    omega
  · have hmem : _ ≤ idx.policies.flatten.length := length_le_flatten (List.mem_map_of_mem hbs)
    have hbytes := BinningPolicy.length_boundaries_le bs
    omega

end BitLSM
