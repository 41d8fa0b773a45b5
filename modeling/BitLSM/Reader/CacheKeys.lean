import BitLSM.Reader.OnDemand

/-!
The block-cache keys of a file.

The bins of an index blob share the block cache with the blocks of their file. A
key is the file's base key with an offset: a quarter of the file offset of the
block, or of the bin. What lies under a key is cast to the type its user
expects, so no bin may have the key of another bin or of a block.

The bins lie behind the index entries of the blob. A blob without entries has
its first bin at its own offset, and so has one with a bin whose offset wraps
to 0.
-/

namespace BitLSM

open Wire

/-- `BlockBasedTable::GetCacheKey`, the offset part: the key of the block that
starts at `offset`. -/
def blockCacheKey (offset : ℕ) : ℕ := offset >>> 2

/-- No two bins have one key, and none has the key of the index block, which has
`len` bytes, or of a block of more than 4 bytes before or after it. -/
structure SABIReader.KeysDistinct (t : TableRep) (r : SABIReader) (len : ℕ) : Prop where
  bins : ∀ i j key, i ≤ r.totalBins → j ≤ r.totalBins → r.binCacheKey t i = some key →
    r.binCacheKey t j = some key → i = j
  index : ∀ i, i ≤ r.totalBins → r.binCacheKey t i ≠ some (blockCacheKey t.udiOff)
  blocks : ∀ i offset size, i ≤ r.totalBins → 4 < size →
    offset + size ≤ t.udiOff ∨ t.udiOff + len ≤ offset →
    r.binCacheKey t i ≠ some (blockCacheKey offset)

/-- The bins of `entries` index entries and a blob of `len` bytes at `udiOff`: in
32 bits none starts at 0, no two start at one place, and all start in the blob. -/
structure BitmapIndex.KeysApart (frozen : FrozenCodec) (idx : BitmapIndex)
    (entries udiOff len : ℕ) : Prop where
  nonzero : ∀ i < idx.bitmaps.length, idx.bitmapStart frozen entries i % 2 ^ 32 ≠ 0
  inside : ∀ i < idx.bitmaps.length,
    (udiOff + idx.bitmapStart frozen entries i % 2 ^ 32) / 4 < (udiOff + len) / 4
  apart : ∀ i < idx.bitmaps.length, ∀ j < idx.bitmaps.length,
    idx.bitmapStart frozen entries i % 2 ^ 32 = idx.bitmapStart frozen entries j % 2 ^ 32 → i = j

/-- Every bitmap before a position takes 32 bytes or more. -/
theorem paddedSize_take_add_le (frozen : FrozenCodec) {bitmaps : List Roaring} {i j : ℕ}
    (hij : i < j) (hj : j ≤ bitmaps.length) :
    paddedSize frozen (bitmaps.take i) + 32 ≤ paddedSize frozen (bitmaps.take j) := by
  induction bitmaps generalizing i j with
  | nil => simp_all
  | cons r rs ih =>
      obtain ⟨j, rfl⟩ : ∃ k, j = k + 1 := ⟨j - 1, by omega⟩
      have hpos := frozen.freeze_pos r
      have hpad : 32 ≤ pad32 (frozen.freeze r).length := by
        rw [pad32]
        omega
      rw [List.take_succ_cons, paddedSize_cons]
      cases i with
      | zero =>
          rw [List.take_zero, paddedSize, List.map_nil, List.sum_nil]
          omega
      | succ i =>
          have := @ih i j (by omega) (by simpa using hj)
          rw [List.take_succ_cons, paddedSize_cons]
          omega

namespace SABIBuilder

variable {frozen : FrozenCodec} {b : SABIBuilder} {idx : BitmapIndex} {out blob : Bytes}
  {t : TableRep} {r : SABIReader} {n : ℕ}

/-- The key of a bin, from where it starts. -/
theorem binCacheKey_eq (hindex : b.indexBlob.length = 12 * n)
    (hoffsets : r.bitmapOffsets = b.bitmapOffsets frozen idx) {i : ℕ}
    (hi : i < idx.bitmaps.length) :
    r.binCacheKey t i =
        some (blockCacheKey (t.udiOff + idx.bitmapStart frozen n i % 2 ^ 32)) ∧
      idx.bitmapStart frozen n i % 2 ^ 32 % 32 = 0 := by
  have hlen := @length_bitmapOffsets frozen b idx
  have hoff := List.getElem?_eq_getElem (show i < (b.bitmapOffsets frozen idx).length by omega)
  have hstart := toNat_bitmapOffsets hoff
  rw [hindex, ← BitmapIndex.bitmapStart] at hstart
  rw [← hstart]
  refine ⟨?_, bitmapOffsets_mod _ (List.mem_of_getElem? hoff)⟩
  rw [SABIReader.binCacheKey, hoffsets, hoff]
  rfl

/-- The keys are told apart exactly if the bins are. -/
theorem keysDistinct_iff (hindex : b.indexBlob.length = 12 * n)
    (hoffsets : r.bitmapOffsets = b.bitmapOffsets frozen idx) (len : ℕ) :
    r.KeysDistinct t len ↔ idx.KeysApart frozen n t.udiOff len := by
  have hpos : 0 < idx.bitmaps.length := by simp [BitmapIndex.bitmaps]
  have htotal : r.totalBins + 1 = idx.bitmaps.length := by
    rw [SABIReader.totalBins, hoffsets, length_bitmapOffsets]
    omega
  have hkey (i : ℕ) (hi : i < idx.bitmaps.length) := @binCacheKey_eq frozen b idx t r n hindex
    hoffsets i hi
  simp only [blockCacheKey, Nat.shiftRight_eq_div_pow] at hkey
  constructor
  · intro h
    refine ⟨fun i hi hzero => ?_, fun i hi => ?_, fun i hi j hj heq => ?_⟩
    · apply h.index i (by omega)
      rw [(hkey i hi).1, hzero, blockCacheKey, Nat.shiftRight_eq_div_pow]
      rfl
    · -- otherwise a block behind the blob has the key
      by_contra hle
      apply h.blocks i (max (t.udiOff + idx.bitmapStart frozen n i % 2 ^ 32) (t.udiOff + len)) 5
        (by omega) (by omega) (Or.inr (le_max_right _ _))
      rw [(hkey i hi).1, blockCacheKey, Nat.shiftRight_eq_div_pow, Option.some.injEq]
      omega
    · exact h.bins i j _ (by omega) (by omega) (hkey i hi).1 (heq ▸ (hkey j hj).1)
  · intro h
    refine ⟨fun i j key hi hj hikey hjkey => ?_, fun i hi hsame => ?_,
      fun i offset size hi hsize hapart hsame => ?_⟩
    · obtain ⟨hi', hidvd⟩ := hkey i (by omega)
      obtain ⟨hj', hjdvd⟩ := hkey j (by omega)
      rw [hi', Option.some.injEq] at hikey
      rw [hj', Option.some.injEq] at hjkey
      exact h.apart i (by omega) j (by omega) (by omega)
    · obtain ⟨hi', hdvd⟩ := hkey i (by omega)
      have hne := h.nonzero i (by omega)
      rw [hi', blockCacheKey, Nat.shiftRight_eq_div_pow, Option.some.injEq] at hsame
      omega
    · obtain ⟨hi', hdvd⟩ := hkey i (by omega)
      have hinside := h.inside i (by omega)
      rw [hi', blockCacheKey, Nat.shiftRight_eq_div_pow, Option.some.injEq] at hsame
      omega

/-- Bins behind index entries are apart if none wraps. -/
theorem Formed.keysApart (h : Formed frozen b idx out blob)
    (hindex : b.indexBlob.length = 12 * n) (hn : 0 < n)
    (hroom : idx.regionEnd frozen n ≤ 2 ^ 32 - 32) (udiOff : ℕ) :
    idx.KeysApart frozen n udiOff blob.length := by
  have hout : out.length = idx.regionEnd frozen n := by
    rw [h.length, toNat_bitmapOffsets getLastD_bitmapOffsets, List.take_length, hindex]
    exact Nat.mod_eq_of_lt (by rw [BitmapIndex.regionEnd] at hroom; omega)
  have hblob := h.length_blob
  rw [List.length_append] at hblob
  have hnext {i j : ℕ} (hij : i < j) (hj : j ≤ idx.bitmaps.length) :
      idx.bitmapStart frozen n i + 32 ≤ idx.bitmapStart frozen n j := by
    have := paddedSize_take_add_le frozen hij hj
    rw [BitmapIndex.bitmapStart, BitmapIndex.bitmapStart]
    omega
  have hlast {i : ℕ} (hi : i < idx.bitmaps.length) :
      0 < idx.bitmapStart frozen n i ∧
        idx.bitmapStart frozen n i + 32 ≤ idx.regionEnd frozen n := by
    have hend := hnext hi le_rfl
    rw [BitmapIndex.bitmapStart, BitmapIndex.bitmapStart, List.take_length,
      ← BitmapIndex.regionEnd] at hend
    refine ⟨?_, hend⟩
    rw [BitmapIndex.bitmapStart, pad32]
    omega
  have hmod {i : ℕ} (hi : i < idx.bitmaps.length) :
      idx.bitmapStart frozen n i % 2 ^ 32 = idx.bitmapStart frozen n i :=
    Nat.mod_eq_of_lt (by have := hlast hi; omega)
  refine ⟨fun i hi => ?_, fun i hi => ?_, fun i hi j hj heq => ?_⟩
  · rw [hmod hi]
    exact (hlast hi).1.ne'
  · have := hlast hi
    rw [hmod hi]
    omega
  · rw [hmod hi, hmod hj] at heq
    rcases lt_trichotomy i j with hij | hij | hij
    · have := hnext hij hj.le
      omega
    · exact hij
    · have := hnext hij hi.le
      omega

end SABIBuilder

section Finished

variable {rt : Runtime} {extract : AttrExtractor} {schema : SABISchema}
  {calls : List BuilderCall} {b : SABIBuilder} {blob : Bytes}

/-- Wherever a finished blob lies in a file, the keys of its bins are told apart
exactly if its bins are; with index entries and no offset that wraps, they are. A
reader has the offsets the builder wrote when the blob is below `2 ^ 32` bytes. -/
theorem binCacheKey_distinct_iff
    (hrun : SABIBuilder.run rt.hash extract schema calls = some b)
    (hfinish : b.finish rt = some blob) :
    ∃ idx, b.buildIndex rt = some idx ∧
      (blob.length < 2 ^ 32 → ∀ mode r, SABIReader.parse rt.frozen mode blob = some r →
        r.bitmapOffsets = b.bitmapOffsets rt.frozen idx) ∧
      (∀ (t : TableRep) (r : SABIReader), r.bitmapOffsets = b.bitmapOffsets rt.frozen idx →
        (r.KeysDistinct t blob.length ↔ idx.KeysApart rt.frozen (tableLayout calls).2.length
          t.udiOff blob.length)) ∧
      (0 < (tableLayout calls).2.length →
        idx.regionEnd rt.frozen (tableLayout calls).2.length ≤ 2 ^ 32 - 32 →
        ∀ udiOff, idx.KeysApart rt.frozen (tableLayout calls).2.length udiOff blob.length) := by
  obtain ⟨idx, hidx, hblob⟩ := SABIBuilder.finish_eq_some hfinish
  obtain ⟨out, hformed⟩ := SABIBuilder.writeBlob_formed hblob
  have hreached := SABIBuilder.run_reached hrun
  refine ⟨idx, hidx, fun hlen mode r hparse => ?_,
    fun t r hoffsets => SABIBuilder.keysDistinct_iff hreached.length_indexBlob hoffsets _,
    hformed.keysApart hreached.length_indexBlob⟩
  exact (hformed.parse_bins (hreached.shaped hidx) hlen hparse).2.1

end Finished

/-- The blob of five rows in a file, behind a data block of 45 bytes. -/
theorem binCacheKey_distinct_iff_fiveRows : ∃ b blob r,
    SABIBuilder.run Runtime.oneRow.hash twoByteExtractor twoAttrSchema fiveRowCalls = some b ∧
    b.finish .oneRow = some blob ∧
    SABIReader.parse Runtime.oneRow.frozen .metadata blob = some r ∧ r.totalBins = 6 ∧
    r.KeysDistinct ⟨List.replicate 45 0 ++ blob, 45⟩ blob.length := by
  obtain ⟨b, idx, blob, hrun, hidx, hfinish, hbitmaps, hend, hlen⟩ := exists_finish_fiveRows
  obtain ⟨out, blob', hfinish', hwritten⟩ := (SABIBuilder.run_reached hrun).finish_written hidx
    (hend.trans_le (by decide))
  obtain rfl := Option.some.inj (hfinish'.symm.trans hfinish)
  have hreached := SABIBuilder.run_reached hrun
  have hparse := hwritten.parse_eq hreached (hreached.shaped hidx) (by omega) (by decide) .metadata
  obtain ⟨idx', hidx', -, hiff, hapart⟩ := binCacheKey_distinct_iff hrun hfinish
  obtain rfl := Option.some.inj (hidx'.symm.trans hidx)
  refine ⟨b, blob', _, hrun, hfinish, hparse, ?_,
    (hiff _ _ rfl).2 (hapart (by decide) (hend.trans_le (by decide)) 45)⟩
  rw [SABIReader.totalBins, show SABIReader.bitmapOffsets _ = b.bitmapOffsets _ idx' from rfl,
    SABIBuilder.length_bitmapOffsets, hbitmaps]
  rfl

/-- A table without data blocks: the first bin has the key of the index block. -/
theorem binCacheKey_eq_index : ∃ b blob r,
    SABIBuilder.run Runtime.oneRow.hash wholeValueExtractor wholeValueSchema [] = some b ∧
    b.finish .oneRow = some blob ∧
    SABIReader.parse Runtime.oneRow.frozen .metadata blob = some r ∧ 0 < r.totalBins ∧
    ∀ t : TableRep, r.binCacheKey t 0 = some (blockCacheKey t.udiOff) := by
  have hparse : ((SABIBuilder.run Runtime.oneRow.hash wholeValueExtractor wholeValueSchema
      []).bind fun b => (b.finish .oneRow).bind fun blob =>
        (SABIReader.parse Runtime.oneRow.frozen .metadata blob).map SABIReader.bitmapOffsets) =
      some [0, 32, 64] := by decide +kernel
  obtain ⟨b, hrun, h⟩ := Option.bind_eq_some_iff.1 hparse
  obtain ⟨blob, hfinish, h⟩ := Option.bind_eq_some_iff.1 h
  obtain ⟨r, hr, hoffsets⟩ := Option.map_eq_some_iff.1 h
  refine ⟨b, blob, r, hrun, hfinish, hr, ?_, fun t => ?_⟩
  · rw [SABIReader.totalBins, hoffsets]
    decide
  · rw [SABIReader.binCacheKey, hoffsets]
    rfl

end BitLSM
