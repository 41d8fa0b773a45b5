import BitLSM.Builder.Finish
import BitLSM.Reader.Parse

/-!
Reading back a finished blob.

`RoundTrip` says that the reader recovers everything the builder put into
a blob, and how the bitmaps lie in it. It holds of a blob below `2 ^ 32`
bytes exactly if the padded end of the last bitmap fits an offset.
-/

namespace BitLSM

open Wire

/-- A resident reader of the blob has what the builder had. -/
structure RoundTrip (frozen : FrozenCodec) (b : SABIBuilder) (entries : List IndexEntry)
    (idx : BitmapIndex) (blob : Bytes) (r : SABIReader) : Prop where
  parsed : SABIReader.parse frozen .resident blob = some r
  indexTypes : r.indexTypes = b.schema.indexTypes
  bitmapNums : r.bitmapNums.map UInt32.toNat = idx.bitmapNums
  psums : r.dataEntriesCntPsum = entries.map fun e => UInt32.ofNat e.psum
  distinctCnts : r.distinctCnts = idx.distinctCnts.map UInt64.ofNat
  binCardinalities : r.binCardinalities = idx.binCardinalities
  bitmapSizes : r.bitmapSizes.map UInt32.toNat =
    idx.bitmaps.map fun bitmap => (frozen.freeze bitmap).length
  bitmapOffsets : r.bitmapOffsets = b.bitmapOffsets frozen idx
  binningPolicy : r.binningPolicy = idx.binningPolicy
  bitmaps : r.bitmaps ++ [r.tombstoneBitmap] = idx.bitmaps
  /-- Every bitmap starts on a 32-byte boundary. -/
  aligned : ∀ off ∈ r.bitmapOffsets, off.toNat % 32 = 0
  /-- The extents are disjoint, in order. -/
  disjoint : ∀ (i j : ℕ) (off size next : UInt32), i < j → r.bitmapOffsets[i]? = some off →
    r.bitmapSizes[i]? = some size → r.bitmapOffsets[j]? = some next →
    off.toNat + size.toNat ≤ next.toNat
  /-- They lie after the index entries and before the policies. -/
  afterEntries : ∀ off ∈ r.bitmapOffsets, 12 * entries.length ≤ off.toNat
  beforePolicies : ∃ (dir : UInt32) (d : Directory),
    decodeFixed32 blob (blob.length - 12) = some dir ∧ Directory.parse blob dir.toNat = some d ∧
    ∀ off ∈ r.bitmapOffsets, ∀ p ∈ d.policyOffsets, off.toNat ≤ p.toNat

/-! ### The parts of a blob -/

namespace SABIBuilder.Formed

variable {frozen : FrozenCodec} {b : SABIBuilder} {idx : BitmapIndex} {out blob : Bytes}

theorem hasAt_out (h : Formed frozen b idx out blob) : HasAt blob 0 out := by
  rw [h.blob_eq]
  simpa using HasAt.intro [] out _

theorem hasAt_policies (h : Formed frozen b idx out blob) :
    HasAt blob out.length idx.policies.flatten := by
  rw [h.blob_eq]
  simpa using HasAt.intro out idx.policies.flatten _

theorem hasAt_directory (h : Formed frozen b idx out blob) :
    HasAt blob (out ++ idx.policies.flatten).length
      (b.directory frozen idx out.length).serialize := by
  rw [h.blob_eq]
  simpa using HasAt.intro (out ++ idx.policies.flatten) _ _

theorem length_blob (h : Formed frozen b idx out blob) :
    blob.length = (out ++ idx.policies.flatten).length +
      (b.directory frozen idx out.length).serialize.length + 12 := by
  rw [h.blob_eq]
  simp only [List.length_append, length_putFixed32]

/-- The footer has the directory's position, in 32 bits. -/
theorem decode_footer (h : Formed frozen b idx out blob) :
    12 ≤ blob.length ∧ decodeFixed32 blob (blob.length - 12) =
      some (UInt32.ofNat (out ++ idx.policies.flatten).length) := by
  have hblob := h.length_blob
  refine ⟨by omega, decodeFixed32_of_hasAt ?_⟩
  have hpos : blob.length - 12 = (out ++ idx.policies.flatten ++
      (b.directory frozen idx out.length).serialize).length := by
    rw [List.length_append]
    omega
  rw [hpos, h.blob_eq]
  simpa using HasAt.intro (out ++ idx.policies.flatten ++
    (b.directory frozen idx out.length).serialize)
    (putFixed32 (UInt32.ofNat (out ++ idx.policies.flatten).length)) _

theorem decode_directoryOff (h : Formed frozen b idx out blob) (hlen : blob.length < 2 ^ 32) :
    12 ≤ blob.length ∧ ∃ dir : UInt32, decodeFixed32 blob (blob.length - 12) = some dir ∧
      dir.toNat = (out ++ idx.policies.flatten).length := by
  have hblob := h.length_blob
  refine ⟨h.decode_footer.1, _, h.decode_footer.2, ?_⟩
  rw [UInt32.toNat_ofNat', Nat.mod_eq_of_lt (by omega)]

end SABIBuilder.Formed

/-! ### Directory -/

theorem foldl_add_toNat (ns : List ℕ) (a : UInt32) :
    ((ns.map UInt32.ofNat).foldl (· + ·) a).toNat = (a.toNat + ns.sum) % 2 ^ 32 := by
  induction ns generalizing a with
  | nil =>
      have hlt := a.toNat_lt
      rw [List.map_nil, List.foldl_nil, List.sum_nil, Nat.add_zero, Nat.mod_eq_of_lt hlt]
  | cons n ns ih =>
      rw [List.map_cons, List.foldl_cons, ih, UInt32.toNat_add, UInt32.toNat_ofNat', List.sum_cons]
      omega

theorem SABIBuilder.Formed.directory_wellFormed {frozen : FrozenCodec} {b : SABIBuilder}
    {idx : BitmapIndex} {out blob : Bytes} (h : Formed frozen b idx out blob)
    (hshape : idx.Shaped b.schema.indexTypes) (hlen : blob.length < 2 ^ 32) :
    (b.directory frozen idx out.length).WellFormed := by
  have hblob := h.length_blob
  rw [Directory.length_serialize] at hblob
  have hnums : idx.bitmapNums.length = b.schema.indexTypes.length := by
    rw [← hshape.bitmapNums, List.length_map, hshape.attrBitmaps]
  have hsum : idx.bitmapNums.sum = idx.attrBitmaps.flatten.length := by
    rw [← hshape.bitmapNums, List.length_flatten]
  have hbitmaps : idx.bitmaps.length = idx.attrBitmaps.flatten.length + 1 := by
    simp [BitmapIndex.bitmaps]
  have hsizes : (b.directory frozen idx out.length).bitmapSizes.length = idx.bitmaps.length :=
    List.length_map _
  have htypes : (b.directory frozen idx out.length).indexTypes = b.schema.indexTypes := rfl
  have hpolicies : idx.policies.length = b.schema.indexTypes.length := by
    rw [BitmapIndex.policies, List.length_map, ← hshape.policyTypes, List.length_map]
  refine ⟨by rw [htypes] at hblob ⊢; omega, ?_, by omega, ?_, ?_, ?_, ?_, ?_⟩
  · show ((idx.bitmapNums.map UInt32.ofNat).foldl (· + ·) 0).toNat + 1 = _
    rw [foldl_add_toNat, hsum, hsizes, hbitmaps]
    show (0 + _) % _ + 1 = _
    rw [Nat.zero_add, Nat.mod_eq_of_lt (by omega)]
  · exact (List.length_map _).trans hnums
  · exact (List.length_map _).trans hshape.distinctCnts
  · exact (List.length_map _).trans hsizes.symm
  · exact (length_policyOffsetsFrom _ _).trans (congrArg (· + 1) hpolicies)
  · rw [hsizes]
    exact length_bitmapOffsets

/-! ### Policies -/

theorem parsePolicies_of_hasAt {policies : List BinningPolicy} {b : Bytes} {start : ℕ}
    (h : HasAt b start (policies.map BinningPolicy.serialize).flatten) (hlen : b.length < 2 ^ 32)
    (hwritable : ∀ p ∈ policies, p.Writable (2 ^ 32)) :
    ((policies.map BinningPolicy.indexType).zip
        (policyOffsetsFrom start (policies.map BinningPolicy.serialize))).mapM
      (fun (t, off) => BinningPolicy.parse b off.toNat t) = some policies := by
  induction policies generalizing start with
  | nil => rfl
  | cons p policies ih =>
      rw [List.forall_mem_cons] at hwritable
      have hle := h.length_le
      have hstart : (UInt32.ofNat start).toNat = start := by
        rw [UInt32.toNat_ofNat', Nat.mod_eq_of_lt (by omega)]
      rw [List.map_cons, List.flatten_cons] at h
      rw [List.map_cons, List.map_cons, policyOffsetsFrom, List.zip_cons_cons, List.mapM_cons]
      simp only [hstart, BinningPolicy.parse_of_hasAt h.left hlen hwritable.1,
        ih h.right hwritable.2]
      rfl

theorem le_policyOffsetsFrom {start : ℕ} {ps : List Bytes}
    (h : start + ps.flatten.length < 2 ^ 32) :
    ∀ off ∈ policyOffsetsFrom start ps, start ≤ off.toNat := by
  induction ps generalizing start with
  | nil =>
      intro off hoff
      rw [policyOffsetsFrom, List.mem_singleton] at hoff
      simp only [List.flatten_nil, List.length_nil, Nat.add_zero] at h
      rw [hoff, UInt32.toNat_ofNat', Nat.mod_eq_of_lt h]
  | cons p ps ih =>
      rw [List.flatten_cons, List.length_append] at h
      rw [policyOffsetsFrom, List.forall_mem_cons]
      refine ⟨by rw [UInt32.toNat_ofNat', Nat.mod_eq_of_lt (by omega)], fun off hoff => ?_⟩
      have := ih (show start + p.length + ps.flatten.length < 2 ^ 32 by omega) off hoff
      omega

/-! ### Index entries -/

theorem hasAt_flatMap_put {b : Bytes} {es : List IndexEntry} {o i : ℕ} {e : IndexEntry}
    (h : HasAt b o (es.flatMap IndexEntry.put)) (he : es[i]? = some e) :
    HasAt b (o + 12 * i) e.put := by
  induction es generalizing o i with
  | nil => simp at he
  | cons x es ih =>
      rw [List.flatMap_cons] at h
      cases i with
      | zero =>
          obtain rfl : x = e := Option.some.inj he
          exact h.left
      | succ i =>
          have hrest := h.right
          rw [IndexEntry.length_put] at hrest
          have := ih hrest he
          rwa [show o + 12 * (i + 1) = o + 12 + 12 * i by omega]

theorem readIndexEntries_of_hasAt {b : Bytes} {es : List IndexEntry}
    (h : HasAt b 0 (es.flatMap IndexEntry.put)) (hlen : 12 * es.length < 2 ^ 32) :
    (List.range es.length).mapM (SABIReader.readIndexEntry b) =
      some (es.map fun e => (UInt32.ofNat e.psum, e.offset.toUInt32, e.size.toUInt32)) := by
  refine mapM_eq_some (by simp) fun i x hx => ?_
  obtain ⟨hi, rfl⟩ := List.getElem?_eq_some_iff.1 hx
  rw [List.length_range] at hi
  have he := List.getElem?_eq_getElem hi
  have hat := hasAt_flatMap_put h he
  rw [Nat.zero_add, IndexEntry.put] at hat
  have hpsum := decodeFixed32_of_hasAt hat.left.left
  have hoffset := decodeFixed32_of_hasAt hat.left.right
  have hsize := decodeFixed32_of_hasAt hat.right
  simp only [List.length_append, length_putFixed32] at hoffset hsize
  have hbase : i * 3 % 2 ^ 32 * 4 = 12 * i := by omega
  refine ⟨_, by rw [List.getElem?_map, he]; rfl, ?_⟩
  rw [List.getElem_range, SABIReader.readIndexEntry, hbase, hpsum]
  simp only [Option.bind_eq_bind, Option.bind_some, hoffset, hsize]
  rfl

/-! ### Bitmaps -/

namespace SABIBuilder.Written

variable {frozen : FrozenCodec} {b : SABIBuilder} {idx : BitmapIndex} {out blob : Bytes}

/-- Every bitmap is between the first offset and the last. -/
theorem offset_bounds (h : Written frozen b idx out blob) {i : ℕ} {bitmap : Roaring} {off : UInt32}
    (hbitmap : idx.bitmaps[i]? = some bitmap)
    (hoff : (b.bitmapOffsets frozen idx)[i]? = some off) :
    (align32 (UInt32.ofNat b.indexBlob.length)).toNat ≤ off.toNat ∧
      off.toNat + (frozen.freeze bitmap).length ≤ out.length := by
  have hi := (List.getElem?_eq_some_iff.1 hbitmap).1
  constructor
  · cases i with
    | zero =>
        rw [head_bitmapOffsets, Option.some.injEq] at hoff
        rw [hoff]
    | succ i =>
        have hfirst := List.getElem?_eq_getElem (show 0 < idx.bitmaps.length by omega)
        have := h.laid.disjoint length_bitmapOffsets (Nat.succ_pos i) hfirst head_bitmapOffsets hoff
        omega
  · rw [h.length]
    exact h.laid.disjoint length_bitmapOffsets hi hbitmap hoff getLastD_bitmapOffsets

theorem head_le_length (h : Written frozen b idx out blob) :
    (align32 (UInt32.ofNat b.indexBlob.length)).toNat ≤ out.length := by
  have hpos : 0 < idx.bitmaps.length := by simp [BitmapIndex.bitmaps]
  have := h.offset_bounds (List.getElem?_eq_getElem hpos) head_bitmapOffsets
  omega

theorem le_offset (h : Written frozen b idx out blob) :
    ∀ off ∈ b.bitmapOffsets frozen idx,
      (align32 (UInt32.ofNat b.indexBlob.length)).toNat ≤ off.toNat ∧ off.toNat ≤ out.length := by
  intro off hoff
  obtain ⟨i, hi⟩ := List.mem_iff_getElem?.1 hoff
  have hlt := (List.getElem?_eq_some_iff.1 hi).1
  rw [length_bitmapOffsets] at hlt
  rcases Nat.lt_succ_iff_lt_or_eq.1 hlt with hlt | rfl
  · have := h.offset_bounds (List.getElem?_eq_getElem hlt) hi
    omega
  · rw [getLastD_bitmapOffsets, Option.some.injEq] at hi
    rw [← hi, ← h.length]
    exact ⟨h.head_le_length, le_rfl⟩

theorem hasAt_bitmap (h : Written frozen b idx out blob) {i : ℕ} {bitmap : Roaring} {off : UInt32}
    (hbitmap : idx.bitmaps[i]? = some bitmap)
    (hoff : (b.bitmapOffsets frozen idx)[i]? = some off) :
    HasAt blob off.toNat (frozen.freeze bitmap) := by
  have := h.hasAt_out.trans (h.laid.at_offset i bitmap off hbitmap hoff)
  rwa [Nat.zero_add] at this

/-- A bitmap's recorded size is its exact size. -/
theorem size_toNat (h : Written frozen b idx out blob) {i : ℕ} {bitmap : Roaring}
    (hbitmap : idx.bitmaps[i]? = some bitmap) :
    (idx.bitmapSizes frozen)[i]? = some (UInt32.ofNat (frozen.freeze bitmap).length) ∧
      (UInt32.ofNat (frozen.freeze bitmap).length).toNat = (frozen.freeze bitmap).length := by
  have hi := (List.getElem?_eq_some_iff.1 hbitmap).1
  have hlen := @length_bitmapOffsets frozen b idx
  have hbounds := h.offset_bounds hbitmap (List.getElem?_eq_getElem (by omega))
  have hback := bitmapOffsets_le _
    (List.mem_of_getElem? (@getLastD_bitmapOffsets frozen b idx))
  rw [← h.length] at hback
  refine ⟨by rw [BitmapIndex.bitmapSizes, List.getElem?_map, hbitmap]; rfl, ?_⟩
  rw [UInt32.toNat_ofNat', Nat.mod_eq_of_lt (by omega)]

theorem exists_bitmap (h : Written frozen b idx out blob) {i : ℕ} {size : UInt32}
    (hsize : (idx.bitmapSizes frozen)[i]? = some size) :
    ∃ bitmap, idx.bitmaps[i]? = some bitmap ∧ size.toNat = (frozen.freeze bitmap).length := by
  have hi := (List.getElem?_eq_some_iff.1 hsize).1
  rw [BitmapIndex.bitmapSizes, List.length_map] at hi
  have hbitmap := List.getElem?_eq_getElem hi
  obtain ⟨hsize', hexact⟩ := h.size_toNat hbitmap
  obtain rfl := Option.some.inj (hsize.symm.trans hsize')
  exact ⟨_, hbitmap, hexact⟩

theorem residentViews_eq (h : Written frozen b idx out blob) :
    SABIReader.residentViews frozen blob (b.directory frozen idx out.length) =
      some idx.bitmaps := by
  have hhead : (b.bitmapOffsets frozen idx).headD 0 =
      align32 (UInt32.ofNat b.indexBlob.length) := by
    rw [List.headD_eq_head?_getD, List.head?_eq_getElem?, head_bitmapOffsets]
    rfl
  have hle := h.head_le_length
  have hblob := h.length_blob
  rw [List.length_append] at hblob
  have hregionLen : ((b.bitmapOffsets frozen idx).getLastD 0 -
      align32 (UInt32.ofNat b.indexBlob.length)).toNat =
      out.length - (align32 (UInt32.ofNat b.indexBlob.length)).toNat := by
    rw [UInt32.toNat_sub_of_le, h.length]
    rw [UInt32.le_iff_toNat_le, ← h.length]
    exact hle
  have hregion : readAt blob (align32 (UInt32.ofNat b.indexBlob.length)).toNat
      (out.length - (align32 (UInt32.ofNat b.indexBlob.length)).toNat) = some _ :=
    if_pos (by omega)
  rw [SABIReader.residentViews]
  simp only [directory, hhead, hregionLen, hregion, Option.bind_eq_bind, Option.bind_some]
  refine mapM_eq_some ?_ fun i x hx => ?_
  · rw [List.length_zip, length_bitmapOffsets, BitmapIndex.bitmapSizes, List.length_map]
    omega
  · obtain ⟨off, size⟩ := x
    have hoff : (b.bitmapOffsets frozen idx)[i]? = some off := (List.getElem?_zip_eq_some.1 hx).1
    have hsize : (idx.bitmapSizes frozen)[i]? = some size := (List.getElem?_zip_eq_some.1 hx).2
    obtain ⟨bitmap, hbitmap, hexact⟩ := h.exists_bitmap hsize
    have hbounds := h.offset_bounds hbitmap hoff
    have hrel : (off - align32 (UInt32.ofNat b.indexBlob.length)).toNat =
        off.toNat - (align32 (UInt32.ofNat b.indexBlob.length)).toNat := by
      rw [UInt32.toNat_sub_of_le]
      rw [UInt32.le_iff_toNat_le]
      exact hbounds.1
    have hat := h.hasAt_bitmap hbitmap hoff
    rw [show off.toNat = (align32 (UInt32.ofNat b.indexBlob.length)).toNat +
      (off.toNat - (align32 (UInt32.ofNat b.indexBlob.length)).toNat) by omega] at hat
    refine ⟨_, hbitmap, ?_⟩
    simp only [hrel, hexact]
    rw [(hat.of_readAt hregion (by omega)).readAt_eq rfl, Option.map_some, frozen.view_freeze]

end SABIBuilder.Written

/-! ### The reader of a finished blob -/

/-- The reader that `parse` makes of the blob of `b` and `idx`. -/
def readerOf (frozen : FrozenCodec) (mode : SABIReaderMode) (b : SABIBuilder)
    (entries : List IndexEntry) (idx : BitmapIndex) : SABIReader where
  mode := mode
  indexTypes := b.schema.indexTypes
  bitmapNums := idx.bitmapNums.map UInt32.ofNat
  distinctCnts := idx.distinctCnts.map UInt64.ofNat
  binCardinalities := idx.binCardinalities
  bitmapSizes := idx.bitmapSizes frozen
  bitmapOffsets := b.bitmapOffsets frozen idx
  binningPolicy := idx.binningPolicy
  dataEntriesCntPsum := entries.map fun e => UInt32.ofNat e.psum
  blockHandles := entries.map fun e => (e.offset.toUInt32, e.size.toUInt32)
  bitmaps := if mode = .resident then idx.attrBitmaps.flatten else []
  tombstoneBitmap := if mode = .resident then idx.tombstoneBitmap else ∅

theorem SABIBuilder.Reached.length_indexBlob {b : SABIBuilder} {schema : SABISchema}
    {calls : List BuilderCall} (h : b.Reached schema calls) :
    b.indexBlob.length = 12 * (tableLayout calls).2.length := by
  rw [h.blob, length_flatMap_put]

theorem SABIBuilder.Written.parse_eq {frozen : FrozenCodec} {b : SABIBuilder} {idx : BitmapIndex}
    {out blob : Bytes} {schema : SABISchema} {calls : List BuilderCall}
    (h : Written frozen b idx out blob) (hreached : b.Reached schema calls)
    (hshape : idx.Shaped b.schema.indexTypes) (hlen : blob.length < 2 ^ 32)
    (hentries : 12 * (tableLayout calls).2.length ≤ 2 ^ 32 - 32) (mode : SABIReaderMode) :
    SABIReader.parse frozen mode blob =
      some (readerOf frozen mode b (tableLayout calls).2 idx) := by
  obtain ⟨h12, dir, hdir, hdirNat⟩ := h.decode_directoryOff hlen
  have hdirectory := Directory.parse_of_hasAt (h.directory_wellFormed hshape hlen)
    h.hasAt_directory
  have hblob := h.length_blob
  rw [Directory.length_serialize, List.length_append] at hblob
  -- policies
  have hbins : idx.attrBitmaps.flatten.length ≤ 2 ^ 32 := by
    have : (b.directory frozen idx out.length).bitmapSizes.length = idx.bitmaps.length :=
      List.length_map _
    have : idx.bitmaps.length = idx.attrBitmaps.flatten.length + 1 := by
      simp [BitmapIndex.bitmaps]
    omega
  have hpolicies := parsePolicies_of_hasAt h.hasAt_policies hlen
    fun p hp => (hshape.policies p hp).mono hbins
  rw [hshape.policyTypes] at hpolicies
  -- bitmaps
  have hviews : SABIReader.views frozen blob (b.directory frozen idx out.length) mode =
      some (if mode = .resident then idx.bitmaps else []) := by
    cases mode with
    | resident => exact h.residentViews_eq
    | metadata => rfl
  -- index entries
  have hindex := hreached.length_indexBlob
  have hindexNat : (UInt32.ofNat b.indexBlob.length).toNat = b.indexBlob.length := by
    rw [UInt32.toNat_ofNat', Nat.mod_eq_of_lt (by omega)]
  have hhead := @le_align32 (UInt32.ofNat b.indexBlob.length) (by omega)
  rw [hindexNat] at hhead
  have hkept : HasAt blob 0 ((tableLayout calls).2.flatMap IndexEntry.put) := by
    rw [← hreached.blob]
    refine (h.hasAt_out).trans (h.keep 0 _ ?_ (by omega))
    rw [resize_of_le (hhead.trans h.head_le_length)]
    exact (HasAt.self _).append _
  have hcnt : b.indexEntriesCnt.toNat = (tableLayout calls).2.length := by
    rw [hreached.entriesCnt, UInt32.toNat_ofNat', Nat.mod_eq_of_lt (by omega)]
  have hentriesRead := readIndexEntries_of_hasAt hkept (by omega)
  rw [← hcnt] at hentriesRead
  rw [SABIReader.parse]
  simp only [h12, if_true, hdir, Option.bind_eq_bind, Option.bind_some, hdirNat, hdirectory, hviews]
  simp only [directory, BitmapIndex.policies] at hpolicies ⊢
  rw [hpolicies, Option.bind_some, hentriesRead]
  cases mode <;> simp [readerOf, BitmapIndex.bitmaps]

/-! ### Round trip -/

section Finished

variable {rt : Runtime} {extract : AttrExtractor} {schema : SABISchema}
  {calls : List BuilderCall} {b : SABIBuilder} {idx : BitmapIndex} {blob : Bytes}

theorem SABIBuilder.finish_eq_some (h : b.finish rt = some blob) :
    ∃ idx, b.buildIndex rt = some idx ∧ b.writeBlob rt idx = some blob :=
  Option.bind_eq_some_iff.1 h

theorem SABIBuilder.Reached.shaped (h : b.Reached schema calls)
    (hidx : b.buildIndex rt = some idx) : idx.Shaped b.schema.indexTypes := by
  have := buildIndex_shaped hidx
  rwa [h.types, ← h.schema_eq] at this

theorem entries_le_of_regionEnd_le {frozen : FrozenCodec} {n : ℕ}
    (h : idx.regionEnd frozen n ≤ 2 ^ 32 - 32) : 12 * n ≤ 2 ^ 32 - 32 := by
  rw [BitmapIndex.regionEnd, pad32] at h
  omega

/-- Within the room of the offsets there is a blob. -/
theorem SABIBuilder.Reached.finish_written (h : b.Reached schema calls)
    (hidx : b.buildIndex rt = some idx)
    (hroom : idx.regionEnd rt.frozen (tableLayout calls).2.length ≤ 2 ^ 32 - 32) :
    ∃ out blob, b.finish rt = some blob ∧ Written rt.frozen b idx out blob := by
  obtain ⟨out, blob, hblob, hwritten⟩ := exists_written
      (room_of_regionEnd_le h.length_indexBlob hroom)
  exact ⟨out, blob, Option.bind_eq_some_iff.2 ⟨idx, hidx, hblob⟩, hwritten⟩

/-- A blob with the bitmaps behind the index entries is read back. -/
theorem SABIBuilder.Written.roundTrip {out : Bytes} (h : Written rt.frozen b idx out blob)
    (hreached : b.Reached schema calls) (hidx : b.buildIndex rt = some idx)
    (hlen : blob.length < 2 ^ 32) (hentries : 12 * (tableLayout calls).2.length ≤ 2 ^ 32 - 32) :
    RoundTrip rt.frozen b (tableLayout calls).2 idx blob
      (readerOf rt.frozen .resident b (tableLayout calls).2 idx) := by
  have hshape := hreached.shaped hidx
  have hindex := hreached.length_indexBlob
  have hhead := @le_align32 (UInt32.ofNat b.indexBlob.length)
    (by rw [UInt32.toNat_ofNat', Nat.mod_eq_of_lt (by omega)]; omega)
  rw [UInt32.toNat_ofNat', Nat.mod_eq_of_lt (by omega), hindex] at hhead
  have hbound := h.length_blob
  rw [Directory.length_serialize, List.length_append] at hbound
  refine ⟨h.parse_eq hreached hshape hlen hentries .resident, rfl, ?_, rfl, rfl, rfl, ?_, rfl, rfl,
    ?_, SABIBuilder.bitmapOffsets_mod, ?_, fun off hoff => ?_, ?_⟩
  · show (idx.bitmapNums.map UInt32.ofNat).map UInt32.toNat = _
    rw [List.map_map]
    conv_rhs => rw [← List.map_id idx.bitmapNums]
    refine List.map_congr_left fun n hn => ?_
    rw [← hshape.bitmapNums] at hn
    obtain ⟨bins, hbins, rfl⟩ := List.mem_map.1 hn
    have hle := length_le_flatten hbins
    have hbitmaps : idx.bitmaps.length = idx.attrBitmaps.flatten.length + 1 := by
      simp [BitmapIndex.bitmaps]
    have hsizes : (b.directory rt.frozen idx out.length).bitmapSizes.length =
        idx.bitmaps.length := List.length_map _
    rw [Function.comp_apply, UInt32.toNat_ofNat', Nat.mod_eq_of_lt (by omega)]
    rfl
  · exact map_eq_map (List.length_map _) fun i size hsize => by
      obtain ⟨bitmap, hbitmap, hexact⟩ := h.exists_bitmap hsize
      exact ⟨bitmap, hbitmap, hexact⟩
  · simp [readerOf, BitmapIndex.bitmaps]
  · intro i j off size next hij hoff hsize hnext
    obtain ⟨bitmap, hbitmap, hexact⟩ := h.exists_bitmap hsize
    rw [hexact]
    exact h.laid.disjoint SABIBuilder.length_bitmapOffsets hij hbitmap hoff hnext
  · exact hhead.trans (hindex ▸ (h.le_offset off hoff).1)
  · obtain ⟨-, dir, hdir, hdirNat⟩ := h.decode_directoryOff hlen
    refine ⟨dir, _, hdir, hdirNat ▸ Directory.parse_of_hasAt (h.directory_wellFormed hshape hlen)
      h.hasAt_directory, fun off hoff p hp => ?_⟩
    refine ((h.le_offset off hoff).2).trans (le_policyOffsetsFrom ?_ p hp)
    omega

/-- Otherwise the first bitmap does not lie behind the index entries, or a bitmap
whose end does not fit 32 bits is not before the next one. -/
theorem regionEnd_le_of_roundTrip {r : SABIReader} (hreached : b.Reached schema calls)
    (h : RoundTrip rt.frozen b (tableLayout calls).2 idx blob r) :
    idx.regionEnd rt.frozen (tableLayout calls).2.length ≤ 2 ^ 32 - 32 := by
  have hindex := hreached.length_indexBlob
  have hfirst := List.mem_of_getElem? (@SABIBuilder.head_bitmapOffsets rt.frozen b idx)
  have hlast := @SABIBuilder.getLastD_bitmapOffsets rt.frozen b idx
  have hle := SABIBuilder.bitmapOffsets_le _ (List.mem_of_getElem? hlast)
  have hfirstLe := SABIBuilder.bitmapOffsets_le _ hfirst
  have hafter := h.afterEntries _ (h.bitmapOffsets ▸ hfirst)
  have hstart : (align32 (UInt32.ofNat b.indexBlob.length)).toNat =
      pad32 (12 * (tableLayout calls).2.length) := by
    have hlt : 12 * (tableLayout calls).2.length < 2 ^ 32 := by omega
    rw [align32_toNat, UInt32.toNat_ofNat', hindex, Nat.mod_eq_of_lt hlt,
      Nat.mod_eq_of_lt (by omega)]
    rfl
  rw [BitmapIndex.regionEnd, ← hstart]
  refine @add_paddedSize_le _ _ 0 _ (2 ^ 32 - 32) (align32_mod _) (Nat.zero_le _) (align32_le _)
    le_rfl fun i bitmap off hbitmap hoff => ?_
  have hi := (List.getElem?_eq_some_iff.1 hbitmap).1
  have hsizes := congrArg (·[i]?) h.bitmapSizes
  simp only [List.getElem?_map, hbitmap, Option.map_some] at hsizes
  obtain ⟨size, hsize, hexact⟩ := Option.map_eq_some_iff.1 hsizes
  have hend := h.disjoint i idx.bitmaps.length off size _ hi (by rw [h.bitmapOffsets]; exact hoff)
    hsize (by rw [h.bitmapOffsets]; exact hlast)
  rw [UInt32.sub_zero]
  omega

/-- `Finish` succeeds if the padded end of the last bitmap leaves room for an
offset, and a blob below `2 ^ 32` bytes is read back exactly under that
condition. -/
theorem finish_roundTrip_iff (hrun : SABIBuilder.run rt.hash extract schema calls = some b)
    (hidx : b.buildIndex rt = some idx) :
    (idx.regionEnd rt.frozen (tableLayout calls).2.length ≤ 2 ^ 32 - 32 →
      ∃ blob, b.finish rt = some blob) ∧
    ∀ blob, b.finish rt = some blob → blob.length < 2 ^ 32 →
      ((∃ r, RoundTrip rt.frozen b (tableLayout calls).2 idx blob r) ↔
        idx.regionEnd rt.frozen (tableLayout calls).2.length ≤ 2 ^ 32 - 32) := by
  have hreached := SABIBuilder.run_reached hrun
  refine ⟨fun hroom => ?_, fun blob hfinish hlen => ⟨?_, fun hroom => ?_⟩⟩
  · obtain ⟨-, blob, hfinish, -⟩ := hreached.finish_written hidx hroom
    exact ⟨blob, hfinish⟩
  · rintro ⟨r, hr⟩
    exact regionEnd_le_of_roundTrip hreached hr
  · obtain ⟨out, blob', hfinish', hwritten⟩ := hreached.finish_written hidx hroom
    obtain rfl := Option.some.inj (hfinish'.symm.trans hfinish)
    exact ⟨_, hwritten.roundTrip hreached hidx hlen (entries_le_of_regionEnd_le hroom)⟩

end Finished

/-- The calls for a table of one row in one block. -/
def oneRowCalls : List BuilderCall := [.onKeyAdded [107] .value [7], .addIndexEntry 0 40]

/-- A schema of one range attribute, the whole value of a row. -/
def wholeValueSchema : SABISchema where
  indexTypes := [.range]
  rho := ⟨0x3FF0000000000000⟩

def wholeValueExtractor : AttrExtractor := fun _ value => some [some value]

/-- Four rows and a deletion in two blocks. -/
def fiveRowCalls : List BuilderCall :=
  [.onKeyAdded [97] .value [7, 1], .onKeyAdded [98] .value [3, 2], .onKeyAdded [99] .deletion [],
    .addIndexEntry 0 40, .onKeyAdded [100] .value [9, 1], .onKeyAdded [101] .value [7, 3],
    .addIndexEntry 45 38]

/-- A range attribute and an equality attribute, with bins for every value. -/
def twoAttrSchema : SABISchema where
  indexTypes := [.range, .equality]
  rho := ⟨0x3FD0000000000000⟩

def twoByteExtractor : AttrExtractor := fun _ value =>
  some [some (value.take 1), some (value.drop 1)]

/-- Three bins each, and the deletion. -/
theorem exists_finish_fiveRows : ∃ b idx blob,
    SABIBuilder.run Runtime.oneRow.hash twoByteExtractor twoAttrSchema fiveRowCalls = some b ∧
    b.buildIndex .oneRow = some idx ∧ b.finish .oneRow = some blob ∧
    idx.bitmaps = [{1}, {0, 4}, {3}, {0, 3}, {1}, {4}, {2}] ∧
    idx.regionEnd Runtime.oneRow.frozen 2 = 256 ∧ blob.length = 448 := by
  have hvalue : ((SABIBuilder.run Runtime.oneRow.hash twoByteExtractor twoAttrSchema
      fiveRowCalls).bind fun b => (b.buildIndex .oneRow).bind fun idx => (b.finish .oneRow).map
        fun blob => (idx.bitmaps, idx.regionEnd Runtime.oneRow.frozen 2, blob.length)) =
      some ([{1}, {0, 4}, {3}, {0, 3}, {1}, {4}, {2}], 256, 448) := by decide +kernel
  obtain ⟨b, hrun, h⟩ := Option.bind_eq_some_iff.1 hvalue
  obtain ⟨idx, hidx, h⟩ := Option.bind_eq_some_iff.1 h
  obtain ⟨blob, hfinish, h⟩ := Option.map_eq_some_iff.1 h
  rw [Prod.mk.injEq, Prod.mk.injEq] at h
  exact ⟨b, idx, blob, hrun, hidx, hfinish, h⟩

theorem finish_roundTrip_iff_fiveRows : ∃ b idx blob r,
    SABIBuilder.run Runtime.oneRow.hash twoByteExtractor twoAttrSchema fiveRowCalls = some b ∧
    b.buildIndex .oneRow = some idx ∧ b.finish .oneRow = some blob ∧ blob.length < 2 ^ 32 ∧
    RoundTrip Runtime.oneRow.frozen b (tableLayout fiveRowCalls).2 idx blob r ∧
    r.bitmaps ++ [r.tombstoneBitmap] = [{1}, {0, 4}, {3}, {0, 3}, {1}, {4}, {2}] := by
  obtain ⟨b, idx, blob, hrun, hidx, hfinish, hbitmaps, hend, hlen⟩ := exists_finish_fiveRows
  have hlt : blob.length < 2 ^ 32 := by omega
  have hroom : idx.regionEnd Runtime.oneRow.frozen (tableLayout fiveRowCalls).2.length ≤
      2 ^ 32 - 32 := hend.trans_le (by decide)
  obtain ⟨r, hr⟩ := ((finish_roundTrip_iff hrun hidx).2 blob hfinish hlt).2 hroom
  exact ⟨b, idx, blob, r, hrun, hidx, hfinish, hlt, hr, hr.bitmaps.trans hbitmaps⟩

/-! ### Too many index entries -/

theorem tableLayout_addIndexEntry (n : ℕ) :
    (tableLayout (List.replicate n (.addIndexEntry 0 0))).2.length = n := by
  induction n with
  | zero => rfl
  | succ n ih =>
      rw [List.replicate_succ', tableLayout, List.foldl_append, ← tableLayout]
      simp only [List.foldl_cons, List.foldl_nil, layoutStep, List.length_append,
        List.length_singleton, ih]

/-- A schema without attributes. -/
def noAttrSchema : SABISchema where
  indexTypes := []
  rho := ⟨0x3FF0000000000000⟩

/-- Index entries of 4294967268 bytes: the padded end does not fit 32 bits
and becomes offset 0, where the bitmap replaces the entries. -/
theorem finish_not_roundTrip : ∃ b blob idx,
    SABIBuilder.run Runtime.oneRow.hash wholeValueExtractor noAttrSchema
      (List.replicate 357913939 (.addIndexEntry 0 0)) = some b ∧
    b.finish .oneRow = some blob ∧ blob.length < 2 ^ 32 ∧ b.buildIndex .oneRow = some idx ∧
    ¬∃ r, RoundTrip Runtime.oneRow.frozen b
      (tableLayout (List.replicate 357913939 (.addIndexEntry 0 0))).2 idx blob r := by
  have hcount := tableLayout_addIndexEntry 357913939
  generalize hcalls : List.replicate 357913939 (BuilderCall.addIndexEntry 0 0) = calls at hcount
  have hcall : ∀ call ∈ calls, call = .addIndexEntry 0 0 := by
    rw [← hcalls]
    exact fun call hmem => (List.mem_replicate.1 hmem).2
  have hrows : rowsOf wholeValueExtractor calls = [] :=
    List.filterMap_eq_nil_iff.2 fun call hmem => by rw [hcall call hmem]; rfl
  have hfit : RowsFit (rowsOf wholeValueExtractor calls) := by
    rw [hrows]
    exact ⟨by simp, by simp [cells]⟩
  obtain ⟨b, hrun, hbuilt⟩ := @SABIBuilder.run_built Runtime.oneRow.hash wholeValueExtractor
    noAttrSchema calls (fun key value hmem => by cases hcall _ hmem) hfit
  have hreached := SABIBuilder.run_reached hrun
  obtain ⟨idx, hidx, hindexed⟩ := hbuilt.buildIndex hfit .oneRow
  have hbitmaps : idx.bitmaps = [∅] := by
    have htombstones : idx.tombstoneBitmap = ∅ := by
      ext j
      rw [hindexed.tombstones, hrows]
      simp
    rw [BitmapIndex.bitmaps, List.eq_nil_of_length_eq_zero hindexed.lengths.2.2, htombstones]
    rfl
  have hindex : b.indexBlob.length = 4294967268 := by
    rw [hreached.blob, length_flatMap_put, hcount]
  have hoffsets : b.bitmapOffsets Runtime.oneRow.frozen idx = [0, 32] := by
    rw [SABIBuilder.bitmapOffsets, BitmapIndex.bitmapSizes, hbitmaps, hindex]
    decide
  -- the buffer keeps 32 bytes of the entries, and they take the one bitmap
  have hroom : b.Room Runtime.oneRow.frozen idx := by
    rw [SABIBuilder.Room, hbitmaps, hindex]
    decide
  obtain ⟨out, blob, hblob, hwritten⟩ := SABIBuilder.exists_written hroom
  refine ⟨b, blob, idx, hrun, Option.bind_eq_some_iff.2 ⟨idx, hidx, hblob⟩, ?_, hidx, ?_⟩
  · have hshape := hreached.shaped hidx
    rw [hreached.schema_eq] at hshape
    have hpolicies : idx.policies = [] :=
      List.map_eq_nil_iff.2 (List.map_eq_nil_iff.1 hshape.policyTypes)
    have hdir : (b.directory Runtime.oneRow.frozen idx 32).serialize.length = 28 := by
      rw [Directory.length_serialize]
      simp only [SABIBuilder.directory, hreached.schema_eq, hpolicies, hoffsets,
        BitmapIndex.binCardinalities, BitmapIndex.bitmapSizes, hbitmaps, List.length_map,
        hindexed.lengths.1, hshape.distinctCnts]
      rfl
    have hout : out.length = 32 := by
      rw [hwritten.length, hoffsets]
      rfl
    rw [hwritten.blob_eq, hpolicies]
    simp [hdir, hout]
  · rintro ⟨r, hr⟩
    have hle := entries_le_of_regionEnd_le (regionEnd_le_of_roundTrip hreached hr)
    omega

end BitLSM
