import BitLSM.Reader.OnDemand

/-!
A blob too long for its offsets.

`Finish` records the position of the directory in 32 bits, however long
the policies before it are. With one value of `2 ^ 32 - 4` bytes in the
dictionary the position wraps to the place of that value in the blob, and
a reader takes the value's own bytes for the directory. The value below
begins with a directory that a resident and an on-demand reader understand
differently.
-/

namespace BitLSM

open Wire

/-- A schema of one equality attribute. -/
def oneEqualitySchema : SABISchema where
  indexTypes := [.equality]
  rho := ⟨0x3FF0000000000000⟩

/-! ### A table of one row -/

theorem EqualityDict.singleton {v : Bytes} {dict : List (Bytes × ℕ)}
    (h : EqualityDict [v] 1 dict) : dict = [(v, 0)] := by
  have hkey (e : Bytes × ℕ) (he : e ∈ dict) : e = (v, 0) := by
    have hv := (h.mem e.1).1 (List.mem_map_of_mem he)
    have hbin := h.lt_bins e he
    exact Prod.ext (List.mem_singleton.1 hv) (by omega)
  cases dict with
  | nil => exact absurd ((h.mem v).2 List.mem_cons_self) (by simp)
  | cons e rest =>
      obtain rfl := hkey e List.mem_cons_self
      cases rest with
      | nil => rfl
      | cons e' rest =>
          obtain rfl := hkey e' (by simp)
          have := h.ordered
          simp at this

theorem SABIBuilder.binCounts_oneEquality {b : SABIBuilder} {c : AttrColumn}
    (hschema : b.schema = oneEqualitySchema) (hcolumns : b.columns = [c]) :
    b.binCounts .oneRow = [1] := by
  have htarget : Runtime.oneRow.fpu.toUInt32 (Runtime.oneRow.fpu.div
      (Runtime.oneRow.fpu.ofNat 1) oneEqualitySchema.rho) = 1 := by decide +kernel
  rw [SABIBuilder.binCounts, hschema, hcolumns]
  simp only [List.length_singleton, htarget]
  rfl

section OneRow

variable {extract : AttrExtractor} {key value v : Bytes}

/-- The index of a table whose one row has the value `v`. -/
theorem buildIndex_oneValue (hextract : extract key value = some [some v])
    (hv : v.length < 2 ^ 32) :
    ∃ b idx, SABIBuilder.run Runtime.oneRow.hash extract oneEqualitySchema
        [.onKeyAdded key .value value] = some b ∧
      b.buildIndex .oneRow = some idx ∧ idx.bitmaps = [{0}, ∅] ∧
      idx.binningPolicy = [.equality [(v, 0)]] := by
  have hrowsOf : rowsOf extract [.onKeyAdded key .value value] = [some [some v]] := by
    rw [rowsOf, List.filterMap_cons, BuilderCall.row?, hextract]
    rfl
  have hextracts : Extracts extract oneEqualitySchema [.onKeyAdded key .value value] := by
    intro key' value' hmem
    cases List.mem_singleton.1 hmem
    exact ⟨_, hextract, rfl⟩
  have hcells : cells 0 (rowsOf extract [.onKeyAdded key .value value]) = [some v] := by
    rw [hrowsOf]
    rfl
  have hfit : RowsFit (rowsOf extract [.onKeyAdded key .value value]) := by
    rw [hrowsOf]
    refine ⟨by simp, fun i => ?_⟩
    cases i with
    | zero => simpa [cells] using hv
    | succ i => simp [cells]
  obtain ⟨b, hrun, hbuilt⟩ := @SABIBuilder.run_built Runtime.oneRow.hash _ _ _ hextracts hfit
  obtain ⟨idx, hidx, hindexed⟩ := hbuilt.buildIndex hfit .oneRow
  obtain ⟨c, hcolumns, -⟩ := List.map_eq_singleton_iff.1 hbuilt.types
  have hnums : idx.bitmapNums = [1] := by
    obtain ⟨attrs, -, heq⟩ := Option.bind_eq_some_iff.1 hidx
    rw [← Option.some.inj heq]
    exact SABIBuilder.binCounts_oneEquality hbuilt.schema_eq hcolumns
  obtain ⟨bins, policy, bitmaps, binOf, hbins, hpolicy, hbitmaps, htype, hattr⟩ :=
    hindexed.attrs 0 .equality rfl
  rw [hcells] at hattr
  obtain rfl : 1 = bins := by simpa [hnums] using hbins
  have hsingle (α : Type) (l : List α) (x : α) (hlen : l.length = 1) (hx : l[0]? = some x) :
      l = [x] := by
    obtain ⟨y, rfl⟩ := List.length_eq_one_iff.1 hlen
    rw [Option.some.inj hx]
  refine ⟨b, idx, hrun, hidx, ?_, ?_⟩
  · obtain ⟨rows, rfl⟩ := List.length_eq_one_iff.1 hattr.length
    have hrows : rows = {0} := by
      ext j
      rw [Finset.mem_singleton, show rows = [rows].getD 0 ∅ from rfl, hattr.mem]
      constructor
      · rintro ⟨v', hj, -⟩
        cases j with
        | zero => rfl
        | succ j => simp at hj
      · rintro rfl
        have := hattr.policy.lt_bins le_rfl (List.mem_singleton.2 rfl : v ∈ [v])
        exact ⟨v, rfl, by omega⟩
    have htombstones : idx.tombstoneBitmap = ∅ := by
      ext j
      rw [hindexed.tombstones, hrowsOf]
      cases j <;> simp
    rw [BitmapIndex.bitmaps, hsingle _ _ _ hindexed.lengths.2.2 hbitmaps, hrows, htombstones]
    rfl
  · rw [hsingle _ _ _ hindexed.lengths.2.1 hpolicy]
    cases hattr.policy with
    | equality hdict => rw [EqualityDict.singleton hdict]
    | range _ => cases htype

/-- Its blob: two bitmaps in 64 bytes, the dictionary, the directory. -/
theorem finish_oneValue (hextract : extract key value = some [some v]) (hv : v.length < 2 ^ 32) :
    ∃ b idx blob out, SABIBuilder.run Runtime.oneRow.hash extract oneEqualitySchema
        [.onKeyAdded key .value value] = some b ∧
      b.finish .oneRow = some blob ∧ SABIBuilder.Written Runtime.oneRow.frozen b idx out blob ∧
      idx.bitmaps = [{0}, ∅] ∧ idx.policies = [(BinningPolicy.equality [(v, 0)]).serialize] ∧
      b.bitmapOffsets Runtime.oneRow.frozen idx = [0, 32, 64] ∧ out.length = 64 ∧
      (b.directory Runtime.oneRow.frozen idx 64).serialize.length = 57 := by
  obtain ⟨b, idx, hrun, hidx, hbitmaps, hpolicies⟩ := buildIndex_oneValue hextract hv
  have hindex : b.indexBlob = [] := (SABIBuilder.run_reached hrun).blob
  have hoffsets : b.bitmapOffsets Runtime.oneRow.frozen idx = [0, 32, 64] := by
    rw [SABIBuilder.bitmapOffsets, BitmapIndex.bitmapSizes, hbitmaps, hindex]
    decide
  have hroom : b.Room Runtime.oneRow.frozen idx := by
    rw [SABIBuilder.Room, hbitmaps, hindex]
    decide
  obtain ⟨out', blob, hblob, hwritten⟩ := SABIBuilder.exists_written hroom
  refine ⟨b, idx, blob, out', hrun, Option.bind_eq_some_iff.2 ⟨idx, hidx, hblob⟩, hwritten,
      hbitmaps,
    by rw [BitmapIndex.policies, hpolicies]; rfl, hoffsets, ?_, ?_⟩
  · rw [hwritten.length, hoffsets]
    rfl
  · have hreached := SABIBuilder.run_reached hrun
    have hshape := hreached.shaped hidx
    rw [hreached.schema_eq] at hshape
    have hnums : idx.bitmapNums.length = 1 := by
      rw [← hshape.bitmapNums, List.length_map, hshape.attrBitmaps]
      rfl
    rw [Directory.length_serialize, SABIBuilder.directory]
    simp only [List.length_map, hreached.schema_eq, hnums, hshape.distinctCnts, hoffsets,
      length_policyOffsetsFrom, BitmapIndex.policies, hpolicies, BitmapIndex.binCardinalities,
      BitmapIndex.bitmapSizes, hbitmaps]
    rfl

end OneRow

/-! ### The value that is taken for a directory -/

/-- Two bins: the first where the tombstones of the table really are, the second
at offset 0, before it. -/
def wrappedDirectory : Directory where
  indexTypes := [.equality]
  binCounts := [1]
  indexEntriesCnt := 0
  distinctCnts := [0]
  binCardinalities := [0, 1]
  bitmapSizes := [4, 11]
  policyOffsets := [130, 0]
  bitmapOffsets := [32, 0, 16]

/-- A directory, and a frozen bitmap so far behind it that it lies at `2 ^ 32` in
the blob. -/
@[irreducible] def wrappedValue : Bytes :=
  wrappedDirectory.serialize ++ List.replicate 4294967166 0 ++
    Runtime.oneRow.frozen.freeze {1} ++ List.replicate 58 0

/-- All that matters of it. -/
structure TakenForDirectory (v : Bytes) : Prop where
  length : v.length = 4294967292
  directory : HasAt v 0 wrappedDirectory.serialize
  dictionary : HasAt v 57 (putFixed32 0)
  bitmap : HasAt v 4294967223 (Runtime.oneRow.frozen.freeze {1})

theorem takenForDirectory : TakenForDirectory wrappedValue := by
  have hdir : wrappedDirectory.serialize.length = 57 := by decide
  have hone : (Runtime.oneRow.frozen.freeze {1}).length = 11 := by decide
  rw [wrappedValue]
  refine ⟨?_, (((HasAt.self _).append _).append _).append _, ?_, ?_⟩
  · rw [List.length_append, List.length_append, List.length_append, hdir, hone,
      List.length_replicate, List.length_replicate]
  · have h := HasAt.intro wrappedDirectory.serialize (putFixed32 0)
      (List.replicate 4294967162 0 ++ Runtime.oneRow.frozen.freeze {1} ++ List.replicate 58 0)
    rwa [hdir, ← List.append_assoc, ← List.append_assoc, List.append_assoc _ (putFixed32 0),
      show putFixed32 0 = List.replicate 4 0 from rfl, List.replicate_append_replicate] at h
  · have h := HasAt.intro (wrappedDirectory.serialize ++ List.replicate 4294967166 0)
      (Runtime.oneRow.frozen.freeze {1}) (List.replicate 58 0)
    rwa [List.length_append, hdir, List.length_replicate] at h

/-- What a reader makes of it. -/
def wrappedReader (mode : SABIReaderMode) : SABIReader where
  mode := mode
  indexTypes := [.equality]
  bitmapNums := [1]
  distinctCnts := [0]
  binCardinalities := [0, 1]
  bitmapSizes := [4, 11]
  bitmapOffsets := [32, 0, 16]
  binningPolicy := [.equality []]
  dataEntriesCntPsum := []
  blockHandles := []
  bitmaps := if mode = .resident then [∅] else []
  tombstoneBitmap := if mode = .resident then {1} else ∅

section Wrapped

variable {b : SABIBuilder} {idx : BitmapIndex} {out blob : Bytes}

/-- The one value in the blob, with its length in front of it, and the position
of the directory behind it. -/
theorem hasAt_blob_oneValue {v : Bytes} {n : ℕ} (hlength : v.length = n)
    (hvarint : (varint 5 n).length = 5) (hn : n < 2 ^ 32)
    (h : SABIBuilder.Written Runtime.oneRow.frozen b idx out blob)
    (hpolicies : idx.policies = [(BinningPolicy.equality [(v, 0)]).serialize])
    (hout : out.length = 64) :
    HasAt blob 68 (varint 5 n ++ v) ∧ (out ++ idx.policies.flatten).length = 77 + n := by
  have hserialize : idx.policies.flatten = putFixed32 1 ++ (varint 5 n ++ v ++ putFixed32 0) := by
    rw [hpolicies, List.flatten_singleton, BinningPolicy.serialize, List.flatMap_singleton,
        putEntry,
      putLengthPrefixedSlice, hlength, Nat.mod_eq_of_lt hn]
    rfl
  have hat := h.hasAt_policies
  rw [hserialize, hout] at hat
  have hvalue := hat.right.left
  rw [length_putFixed32] at hvalue
  refine ⟨hvalue, ?_⟩
  rw [hserialize]
  simp only [List.length_append, length_putFixed32, hvarint, hlength, hout]
  omega

theorem TakenForDirectory.parse_eq {v : Bytes} (hv : TakenForDirectory v)
    (h : SABIBuilder.Written Runtime.oneRow.frozen b idx out blob)
    (hpolicies : idx.policies = [(BinningPolicy.equality [(v, 0)]).serialize])
    (hbitmaps : idx.bitmaps = [{0}, ∅])
    (hoffsets : b.bitmapOffsets Runtime.oneRow.frozen idx = [0, 32, 64]) (hout : out.length = 64)
    (mode : SABIReaderMode) :
    SABIReader.parse Runtime.oneRow.frozen mode blob = some (wrappedReader mode) := by
  have hvarint : (varint 5 4294967292).length = 5 := by decide
  obtain ⟨hentry, hbody⟩ :=
    hasAt_blob_oneValue hv.length hvarint (by decide) h hpolicies hout
  have hvalue : HasAt blob 73 v := by
    have := hentry.right
    rwa [hvarint] at this
  obtain ⟨h12, hfooter⟩ := h.decode_footer
  have hlen := h.length_blob
  rw [hbody] at hfooter hlen
  have hdir : Directory.parse blob 73 = some wrappedDirectory :=
    Directory.parse_of_hasAt (by constructor <;> decide) (hvalue.trans hv.directory)
  have hcount : decodeFixed32 blob 130 = some 0 :=
    decodeFixed32_of_hasAt (hvalue.trans hv.dictionary)
  have hviews : SABIReader.views Runtime.oneRow.frozen blob wrappedDirectory mode =
      some (if mode = .resident then [∅, {1}] else []) := by
    cases mode with
    | metadata => rfl
    | resident =>
        -- the region wraps, from 32 to `2 ^ 32 + 16`
        have hregion : readAt blob 32 4294967280 = some (slice blob 32 4294967280) :=
          if_pos (by omega)
        have hempty : HasAt blob 32 (Runtime.oneRow.frozen.freeze ∅) := by
          have hbitmap : idx.bitmaps[1]? = some ∅ := by rw [hbitmaps]; rfl
          have hoff : (b.bitmapOffsets Runtime.oneRow.frozen idx)[1]? = some 32 := by
            rw [hoffsets]; rfl
          exact h.hasAt_bitmap hbitmap hoff
        have hone : HasAt blob (32 + 4294967264) (Runtime.oneRow.frozen.freeze {1}) :=
          hvalue.trans hv.bitmap
        have hview₀ : (readAt (slice blob 32 4294967280) 0 4).map Runtime.oneRow.frozen.view =
            some ∅ := by
          rw [(HasAt.of_readAt (o := 0) hempty hregion (by decide)).readAt_eq (by decide),
            Option.map_some, Runtime.oneRow.frozen.view_freeze]
        have hview₁ : (readAt (slice blob 32 4294967280) 4294967264 11).map
            Runtime.oneRow.frozen.view = some {1} := by
          rw [(hone.of_readAt hregion (by decide)).readAt_eq (by decide),
            Option.map_some, Runtime.oneRow.frozen.view_freeze]
        refine Option.bind_eq_some_iff.2 ⟨_, hregion, ?_⟩
        refine mapM_eq_some rfl fun i x hx => ?_
        rcases i with _ | _ | i
        · obtain rfl := Option.some.inj hx
          exact ⟨∅, rfl, hview₀⟩
        · obtain rfl := Option.some.inj hx
          exact ⟨{1}, rfl, hview₁⟩
        · cases hx
  have hpolicy : BinningPolicy.parse blob 130 .equality = some (.equality []) := by
    rw [BinningPolicy.parse, hcount]
    rfl
  rw [SABIReader.parse]
  simp only [h12, if_true, hfooter, Option.bind_eq_bind, Option.bind_some,
    show (UInt32.ofNat 4294967369).toNat = 73 from rfl, hdir, hviews]
  refine Option.bind_eq_some_iff.2 ⟨[.equality []], mapM_eq_some rfl fun i x hx => ?_, ?_⟩
  · rcases i with _ | i
    · obtain rfl := Option.some.inj hx
      exact ⟨_, rfl, hpolicy⟩
    · cases hx
  · cases mode <;> rfl

end Wrapped

/-! ### Two readings -/

/-- The resident reader shows `{1}` as the tombstones and the on-demand reader
`{0}`. -/
theorem onDemand_ne_resident : ∃ b blob res r out w,
    SABIBuilder.run Runtime.oneRow.hash wholeValueExtractor oneEqualitySchema
      [.onKeyAdded [] .value wrappedValue] = some b ∧
    b.finish .oneRow = some blob ∧
    SABIReader.parse Runtime.oneRow.frozen .resident blob = some res ∧
    SABIReader.parse Runtime.oneRow.frozen .metadata blob = some r ∧
    r.bin Runtime.oneRow.frozen .calm ⟨blob, 0⟩ 1 false (SABIReader.startBins true) =
      some (out, w) ∧
    out.view = some {0} ∧ res.residentBin 1 = some {1} := by
  have hv := takenForDirectory
  generalize wrappedValue = v at hv
  obtain ⟨b, idx, blob, out, hrun, hfinish, hwritten, hbitmaps, hpolicies, hoffsets, hout, -⟩ :=
    @finish_oneValue wholeValueExtractor [] v v rfl (by rw [hv.length]; decide)
  have hparse := hv.parse_eq hwritten hpolicies hbitmaps hoffsets hout
  have hzero : readAt blob 0 11 = some (Runtime.oneRow.frozen.freeze {0}) := by
    have hbitmap : idx.bitmaps[0]? = some {0} := by rw [hbitmaps]; rfl
    have hoff : (b.bitmapOffsets Runtime.oneRow.frozen idx)[0]? = some 0 := by rw [hoffsets]; rfl
    exact (hwritten.hasAt_bitmap hbitmap hoff).readAt_eq (by decide)
  have hbin : ∃ w, (wrappedReader .metadata).bin Runtime.oneRow.frozen .calm ⟨blob, 0⟩ 1 false
      (SABIReader.startBins true) = some (⟨some {0}, some (.cached {0})⟩, w) := by
    have hview : (wrappedReader .metadata).viewInRun Runtime.oneRow.frozen
        (Runtime.oneRow.frozen.freeze {0}) 1 1 = some {0} := by decide
    have hfetch (w : BinWorld) : SABIReader.fetchRun .calm ⟨blob, 0⟩ (0 + 0) 11 false w =
        some (some (Runtime.oneRow.frozen.freeze {0}), { w with moment := w.moment + 1 }) := by
      rw [SABIReader.fetchRun]
      exact congrArg (fun bytes => some (bytes, _)) hzero
    -- the probe misses, and one read of 11 bytes at offset 0 follows
    have hprobe : (wrappedReader .metadata).probeBin Runtime.oneRow.frozen .calm ⟨blob, 0⟩ 1
        (SABIReader.startBins true) = some (none, _) := rfl
    have hload : ∃ w, (wrappedReader .metadata).loadRun Runtime.oneRow.frozen .calm ⟨blob, 0⟩ 1 1
        false ((wrappedReader .metadata).tick Runtime.oneRow.frozen .calm ⟨blob, 0⟩
          (SABIReader.startBins true)) = some (some [.cached {0}], w) := by
      rw [SABIReader.loadRun, show (wrappedReader .metadata).runExtent 1 1 = some (0, 11) from rfl]
      simp only [Option.bind_eq_bind, Option.bind_some]
      rw [if_pos (show BinEnv.calm.allocates _ = true from rfl), hfetch]
      simp only [Option.bind_some]
      rw [show List.range' 1 (1 + 1 - 1) = [1] from rfl, SABIReader.fillRun, hview]
      exact ⟨_, rfl⟩
    obtain ⟨w, hload⟩ := hload
    rw [SABIReader.bin, if_neg (by decide), hprobe]
    simp only [Option.bind_eq_bind, Option.bind_some, hload]
    exact ⟨w, rfl⟩
  obtain ⟨w, hbin⟩ := hbin
  exact ⟨b, blob, _, _, _, w, hrun, hfinish, hparse .resident, hparse .metadata, hbin, rfl, rfl⟩

end BitLSM
