import BitLSM.CompiledQuery
import BitLSM.QueryBitmap
import BitLSM.RowRoundTrip

/-!
The index of one table, from the builder's calls to the reader's answers.

Between `OnKeyAdded` and `AddIndexEntry` calls and a query stand the bins,
the blob and the reader. Here the steps are put together: what a reader of
the finished blob knows about data blocks, and the rows its bitmap has for
a query.
-/

namespace BitLSM

open Wire

/-! ### Block handles -/

/-- The handles given to `AddIndexEntry`, in order. -/
def handlesOf (calls : List BuilderCall) : List (UInt64 × UInt64) :=
  calls.filterMap fun
    | .onKeyAdded _ _ _ => none
    | .addIndexEntry offset size => some (offset, size)

/-- The handles of a reader, set from 32-bit fields. -/
def SABIReader.handles (r : SABIReader) : List (UInt64 × UInt64) :=
  r.blockHandles.map fun h => (h.1.toUInt64, h.2.toUInt64)

theorem layoutStep_handles (st : ℕ × List IndexEntry) (calls : List BuilderCall) :
    (calls.foldl layoutStep st).2.map (fun e => (e.offset, e.size)) =
      st.2.map (fun e => (e.offset, e.size)) ++ handlesOf calls := by
  induction calls generalizing st with
  | nil => simp [handlesOf]
  | cons call calls ih =>
      rw [List.foldl_cons, ih]
      cases call <;> simp [layoutStep, handlesOf]

theorem tableLayout_handles (calls : List BuilderCall) :
    (tableLayout calls).2.map (fun e => (e.offset, e.size)) = handlesOf calls :=
  layoutStep_handles (0, []) calls

/-- A 64-bit number survives a 32-bit field exactly if it fits. -/
theorem toUInt64_toUInt32_eq_iff (x : UInt64) : x.toUInt32.toUInt64 = x ↔ x.toNat < 2 ^ 32 := by
  rw [← UInt64.toNat_inj, UInt32.toNat_toUInt64, UInt64.toNat_toUInt32]
  exact Nat.mod_eq_iff_lt (by decide)

section Finished

variable {rt : Runtime} {extract : AttrExtractor} {schema : SABISchema}
  {calls : List BuilderCall} {b : SABIBuilder} {idx : BitmapIndex} {blob : Bytes}

theorem length_handlesOf (calls : List BuilderCall) :
    (handlesOf calls).length = (tableLayout calls).2.length := by
  rw [← tableLayout_handles, List.length_map]

/-- The reader of a finished blob in full. -/
theorem SABIBuilder.finish_parse_eq (hrun : run rt.hash extract schema calls = some b)
    (hidx : b.buildIndex rt = some idx)
    (hroom : idx.regionEnd rt.frozen (handlesOf calls).length ≤ 2 ^ 32 - 32)
    (hfinish : b.finish rt = some blob) (hlen : blob.length < 2 ^ 32) (mode : SABIReaderMode) :
    SABIReader.parse rt.frozen mode blob =
      some (readerOf rt.frozen mode b (tableLayout calls).2 idx) := by
  rw [length_handlesOf] at hroom
  have hreached := run_reached hrun
  obtain ⟨out, blob', hfinish', hwritten⟩ := hreached.finish_written hidx hroom
  obtain rfl := Option.some.inj (hfinish'.symm.trans hfinish)
  exact hwritten.parse_eq hreached (hreached.shaped hidx) hlen
      (entries_le_of_regionEnd_le hroom) mode

theorem SABIReader.handles_readerOf {frozen : FrozenCodec} {mode : SABIReaderMode} :
    (readerOf frozen mode b (tableLayout calls).2 idx).handles =
      (handlesOf calls).map fun h => (h.1.toUInt32.toUInt64, h.2.toUInt32.toUInt64) := by
  rw [← tableLayout_handles, SABIReader.handles, readerOf, List.map_map, List.map_map]
  rfl

/-- Handles survive 32-bit fields exactly if all of them fit. -/
theorem map_toUInt32_handles_eq_iff {handles : List (UInt64 × UInt64)} :
    (handles.map fun h => (h.1.toUInt32.toUInt64, h.2.toUInt32.toUInt64)) = handles ↔
      ∀ h ∈ handles, h.1.toNat < 2 ^ 32 ∧ h.2.toNat < 2 ^ 32 := by
  constructor
  · intro h handle hmem
    have hself := List.map_eq_map_iff.1 (h.trans (List.map_id _).symm) handle hmem
    rw [id_eq, Prod.mk.injEq] at hself
    exact ⟨(toUInt64_toUInt32_eq_iff _).1 hself.1, (toUInt64_toUInt32_eq_iff _).1 hself.2⟩
  · intro h
    conv_rhs => rw [← List.map_id handles]
    refine List.map_congr_left fun handle hmem => Prod.ext ?_ ?_
    · exact (toUInt64_toUInt32_eq_iff _).2 (h handle hmem).1
    · exact (toUInt64_toUInt32_eq_iff _).2 (h handle hmem).2

/-- While no bitmap offset wraps and the blob is below `2 ^ 32` bytes, handles come
back from it exactly if all of them fit 32 bits. -/
theorem blockHandles_eq_iff (hrun : SABIBuilder.run rt.hash extract schema calls = some b)
    (hidx : b.buildIndex rt = some idx)
    (hroom : idx.regionEnd rt.frozen (handlesOf calls).length ≤ 2 ^ 32 - 32) :
    ∃ blob, b.finish rt = some blob ∧ (blob.length < 2 ^ 32 → ∀ mode, ∃ r,
      SABIReader.parse rt.frozen mode blob = some r ∧
      (r.handles = handlesOf calls ↔
        ∀ h ∈ handlesOf calls, h.1.toNat < 2 ^ 32 ∧ h.2.toNat < 2 ^ 32)) := by
  have hroom' := hroom
  rw [length_handlesOf] at hroom'
  obtain ⟨-, blob, hfinish, -⟩ := (SABIBuilder.run_reached hrun).finish_written hidx hroom'
  refine ⟨blob, hfinish, fun hlen mode =>
    ⟨_, SABIBuilder.finish_parse_eq hrun hidx hroom hfinish hlen mode, ?_⟩⟩
  rw [SABIReader.handles_readerOf]
  exact map_toUInt32_handles_eq_iff

end Finished

theorem blockHandles_eq_iff_fiveRows : ∃ b blob r,
    SABIBuilder.run Runtime.oneRow.hash twoByteExtractor twoAttrSchema fiveRowCalls = some b ∧
    b.finish .oneRow = some blob ∧ SABIReader.parse Runtime.oneRow.frozen .resident blob = some r ∧
    r.handles = [(0, 40), (45, 38)] := by
  obtain ⟨b, idx, blob, hrun, hidx, hfinish, -, hend, hlen⟩ := exists_finish_fiveRows
  obtain ⟨blob', hfinish', hread⟩ := blockHandles_eq_iff hrun hidx (hend.trans_le (by decide))
  obtain rfl := Option.some.inj (hfinish'.symm.trans hfinish)
  obtain ⟨r, hparse, hiff⟩ := hread (by omega) .resident
  have hfits : ∀ h ∈ [((0, 40) : UInt64 × UInt64), (45, 38)],
      h.1.toNat < 2 ^ 32 ∧ h.2.toNat < 2 ^ 32 :=
    List.forall_mem_cons.2 ⟨by decide, List.forall_mem_singleton.2 (by decide)⟩
  exact ⟨b, blob', r, hrun, hfinish, hparse, hiff.2 hfits⟩

theorem parse_highOffset :
    ((SABIBuilder.run Runtime.oneRow.hash wholeValueExtractor noAttrSchema
      [.addIndexEntry 4294967296 4096]).bind fun b =>
        (b.finish .oneRow).bind fun blob =>
          (SABIReader.parse Runtime.oneRow.frozen .resident blob).map fun r =>
            (blob.length, r.handles)) = some (104, [(0, 4096)]) := by
  decide +kernel

/-- A block that starts at `2 ^ 32` is read back as one that starts at 0. -/
theorem blockHandles_ne : ∃ b blob r,
    SABIBuilder.run Runtime.oneRow.hash wholeValueExtractor noAttrSchema
      [.addIndexEntry 4294967296 4096] = some b ∧
    b.finish .oneRow = some blob ∧ blob.length < 2 ^ 32 ∧
    SABIReader.parse Runtime.oneRow.frozen .resident blob = some r ∧ r.handles = [(0, 4096)] ∧
    r.handles ≠ handlesOf [.addIndexEntry 4294967296 4096] := by
  obtain ⟨b, hrun, h⟩ := Option.bind_eq_some_iff.1 parse_highOffset
  obtain ⟨blob, hfinish, h⟩ := Option.bind_eq_some_iff.1 h
  obtain ⟨r, hparse, h⟩ := Option.map_eq_some_iff.1 h
  obtain ⟨hlen, hhandles⟩ := Prod.mk.inj h
  refine ⟨b, blob, r, hrun, hfinish, by omega, hparse, hhandles, ?_⟩
  rw [hhandles]
  decide

/-! ### Rows of a query -/

/-- The rows of a table: the stored value, or nothing for a deletion. -/
def rowValues (calls : List BuilderCall) : List (Option Bytes) :=
  calls.filterMap fun
    | .onKeyAdded _ .value value => some (some value)
    | .onKeyAdded _ _ _ => some none
    | .addIndexEntry _ _ => none

/-- The rows of the data blocks that were announced. -/
def coveredRows (calls : List BuilderCall) : ℕ :=
  ((tableLayout calls).2.map IndexEntry.psum).getLastD 0

theorem rowsOf_eq_map (extract : AttrExtractor) {f : Bytes → List EncodedAttr}
    {calls : List BuilderCall}
    (h : ∀ key value, .onKeyAdded key .value value ∈ calls → extract key value = some (f value)) :
    rowsOf extract calls = (rowValues calls).map (Option.map f) := by
  induction calls with
  | nil => rfl
  | cons call calls ih =>
      have ih := ih fun key value hmem => h key value (List.mem_cons_of_mem _ hmem)
      rw [rowsOf, rowValues] at ih ⊢
      cases call with
      | addIndexEntry offset size => exact ih
      | onKeyAdded key type value =>
          cases type with
          | value =>
              have hvalue := h key value List.mem_cons_self
              simpa [BuilderCall.row?, hvalue] using ih
          | deletion => simpa [BuilderCall.row?] using ih
          | singleDeletion => simpa [BuilderCall.row?] using ih

/-- Blocks cover no more rows than there are. -/
theorem tableLayout_rows (extract : AttrExtractor) (calls : List BuilderCall) :
    (tableLayout calls).1 = (rowsOf extract calls).length ∧
      ∀ e ∈ (tableLayout calls).2, e.psum ≤ (tableLayout calls).1 := by
  induction calls using List.reverseRecOn with
  | nil => simp [tableLayout, rowsOf]
  | append_singleton calls call ih =>
      obtain ⟨hrows, hle⟩ := ih
      have hlayout : tableLayout (calls ++ [call]) = layoutStep (tableLayout calls) call := by
        rw [tableLayout, List.foldl_append]
        rfl
      rw [hlayout, rowsOf, List.filterMap_append, List.length_append, ← rowsOf, ← hrows]
      cases call with
      | addIndexEntry offset size =>
          refine ⟨rfl, fun e he => ?_⟩
          rcases List.mem_append.1 he with hold | hnew
          · exact hle e hold
          · rw [List.mem_singleton.1 hnew]
            exact le_rfl
      | onKeyAdded key type value =>
          refine ⟨by cases type <;> rfl, fun e he => ?_⟩
          exact (hle e he).trans (Nat.le_succ _)

theorem coveredRows_le (extract : AttrExtractor) (calls : List BuilderCall) :
    coveredRows calls ≤ (rowsOf extract calls).length := by
  obtain ⟨hrows, hle⟩ := tableLayout_rows extract calls
  rw [coveredRows, List.getLastD_eq_getLast?, List.getLast?_map]
  cases hlast : (tableLayout calls).2.getLast? with
  | none => simp
  | some e =>
      rw [← hrows]
      exact hle e (List.mem_of_getLast? hlast)

section Query

variable {rt : Runtime} {o : BitLSMOptions} {rho : Binary64} {calls : List BuilderCall}
  {b : SABIBuilder} {blob : Bytes} {q : BitLSMQuery}

/-- The last prefix sum of a reader is the number of covered rows. -/
theorem readerOf_psum {frozen : FrozenCodec} {mode : SABIReaderMode} {idx : BitmapIndex}
    (hcount : coveredRows calls < 2 ^ 32) :
    ((readerOf frozen mode b (tableLayout calls).2 idx).dataEntriesCntPsum.getLastD 0).toNat =
      coveredRows calls := by
  show (((tableLayout calls).2.map fun e => UInt32.ofNat e.psum).getLastD 0).toNat = _
  rw [coveredRows, List.getLastD_eq_getLast?, List.getLast?_map] at hcount
  rw [coveredRows, List.getLastD_eq_getLast?, List.getLast?_map, List.getLastD_eq_getLast?,
    List.getLast?_map]
  cases hlast : (tableLayout calls).2.getLast? with
  | none => rfl
  | some e =>
      rw [hlast] at hcount
      show (UInt32.ofNat e.psum).toNat = e.psum
      rw [UInt32.toNat_ofNat']
      exact Nat.mod_eq_of_lt hcount

end Query

/-- What a reader of a finished blob is to the rows of its table. -/
structure SABIReader.Reads (frozen : FrozenCodec) (schema : SABISchema)
    (rows : List (Option (List EncodedAttr))) (covered : ℕ) (idx : BitmapIndex) (blob : Bytes)
    (r : SABIReader) : Prop where
  fit : RowsFit rows
  indexed : idx.Indexed schema rows
  describes : r.Describes schema.indexTypes idx
  psum : (r.dataEntriesCntPsum.getLastD 0).toNat = covered
  covered_le : covered ≤ rows.length
  bins : ∀ t : TableRep, HasAt t.file t.udiOff blob → BinsAt frozen t r idx.bitmaps
  resident : r.mode = .resident → ∀ i < idx.bitmaps.length, r.residentBin i = idx.bitmaps[i]?

section Reads

variable {rt : Runtime} {extract : AttrExtractor} {schema : SABISchema}
  {calls : List BuilderCall} {b : SABIBuilder} {idx : BitmapIndex} {blob : Bytes}

theorem SABIBuilder.finish_reads (hextract : Extracts extract schema calls)
    (hfit : RowsFit (rowsOf extract calls)) (hrun : run rt.hash extract schema calls = some b)
    (hidx : b.buildIndex rt = some idx)
    (hroom : idx.regionEnd rt.frozen (handlesOf calls).length ≤ 2 ^ 32 - 32)
    (hfinish : b.finish rt = some blob) (hlen : blob.length < 2 ^ 32) (mode : SABIReaderMode) :
    ∃ r, SABIReader.parse rt.frozen mode blob = some r ∧ r.mode = mode ∧
      r.Reads rt.frozen schema (rowsOf extract calls) (coveredRows calls) idx blob := by
  have hparse := finish_parse_eq hrun hidx hroom hfinish hlen
  rw [length_handlesOf] at hroom
  obtain ⟨b', hrun', hbuilt⟩ := @run_built rt.hash _ _ _ hextract hfit
  obtain rfl : b' = b := Option.some.inj (hrun'.symm.trans hrun)
  obtain ⟨idx', hidx', hindexed⟩ := hbuilt.buildIndex hfit rt
  obtain rfl : idx' = idx := Option.some.inj (hidx'.symm.trans hidx)
  have hreached := run_reached hrun
  obtain ⟨out, blob', hfinish', hwritten⟩ := hreached.finish_written hidx hroom
  obtain rfl := Option.some.inj (hfinish'.symm.trans hfinish)
  have hshape := hreached.shaped hidx
  have hcovered := coveredRows_le extract calls
  have hcount := hfit.count
  refine ⟨_, hparse mode, rfl, hfit, hindexed, ?_, readerOf_psum (by omega), hcovered,
    fun t hfile => hwritten.binsAt rfl rfl hfile, fun hmode i hi => ?_⟩
  · rw [← hreached.schema_eq]
    exact hwritten.describes hshape hlen mode _
  · obtain rfl : mode = .resident := hmode
    exact SABIReader.residentBin_eq (hwritten.resident_bitmaps hshape hlen (hparse .resident))
      (hwritten.describes hshape hlen .resident _).totalBins hi

variable {frozen : FrozenCodec} {rows : List (Option (List EncodedAttr))} {covered : ℕ}
  {r : SABIReader}

/-- A world that calls on the reader lead to. -/
theorem SABIReader.Reads.sound (h : r.Reads frozen schema rows covered idx blob) {t : TableRep}
    (hfile : HasAt t.file t.udiOff blob) (env : BinEnv) {blockCache : Bool}
    {before : List SABIReader.BinCall} {w : BinWorld}
    (hbefore : ∀ call ∈ before, call.InRange r.totalBins)
    (hserve : r.serveAll frozen env t (SABIReader.startBins blockCache) before = some w)
    (hmode : r.mode = .metadata) : w.Sound t r idx.bitmaps := by
  have hstart : (SABIReader.startBins blockCache).Sound t r idx.bitmaps :=
    SABIReader.startBins_sound t r idx.bitmaps blockCache
  obtain ⟨w', hserve', hw⟩ := (h.bins t hfile).serveAll_spec hmode hstart env hbefore
  exact Option.some.inj (hserve'.symm.trans hserve) ▸ hw

/-- Calls on a reader that keeps no bins itself lead to such a world. -/
theorem SABIReader.Reads.exists_served (h : r.Reads frozen schema rows covered idx blob)
    {t : TableRep} (hfile : HasAt t.file t.udiOff blob) (env : BinEnv) (blockCache : Bool)
    {before : List SABIReader.BinCall} (hbefore : ∀ call ∈ before, call.InRange r.totalBins) :
    ∃ w, r.serveAll frozen env t (SABIReader.startBins blockCache)
        (if r.mode = .resident then [] else before) = some w ∧
      (r.mode = .metadata → w.Sound t r idx.bitmaps) := by
  have hstart := SABIReader.startBins_sound t r idx.bitmaps blockCache
  cases hmode : r.mode with
  | resident => exact ⟨_, rfl, fun hmeta => by cases hmeta⟩
  | metadata =>
      obtain ⟨w, hserve, hw⟩ := (h.bins t hfile).serveAll_spec hmode hstart env hbefore
      exact ⟨w, hserve, fun _ => hw⟩

/-- The bitmap of a query is that of the index, unless a load fails. -/
theorem SABIReader.Reads.buildQueryBitmap (h : r.Reads frozen schema rows covered idx blob)
    {sq : SABIQuery} (hsq : sq.AttrsBelow schema.indexTypes.length) {t : TableRep}
    (hfile : HasAt t.file t.udiOff blob) (env : BinEnv) (prefetch : Bool) {w : BinWorld}
    (hw : r.mode = .metadata → w.Sound t r idx.bitmaps) :
    ∃ bitmap loads, (BinSource.ofReader frozen env t prefetch r).buildQueryBitmap r ⟨w, false⟩ sq =
        some (bitmap, loads) ∧
      (r.mode = .resident → loads.failed = false) ∧
      (loads.failed = false → bitmap = queryRows r idx.bitmaps sq) := by
  have hserves := BinSource.ofReader_serves (fun _ => h.bins t hfile) h.resident env prefetch
  have htotal := h.describes.totalBins
  obtain ⟨⟨bitmap, loads⟩, hbuild, hdelivers⟩ := hserves.buildQueryBitmap (s := ⟨w, false⟩) hw
    (h.describes.selected h.indexed hsq) (by omega) h.describes.cardinality (by
      have hcard := h.indexed.card_tombstones_le
      have hcount := h.fit.count
      rw [h.describes.getD_totalBins]
      omega)
  exact ⟨bitmap, loads, hbuild, fun hmode => hdelivers.reliable hmode rfl, hdelivers.exact⟩

end Reads

section Query

variable {rt : Runtime} {o : BitLSMOptions} {rho : Binary64} {calls : List BuilderCall}
  {b : SABIBuilder} {idx : BitmapIndex} {blob : Bytes} {q : BitLSMQuery}

/-- The extractor of an accepted schema delivers every row. -/
theorem extracts_valueLayout (hschema : validateAttrSpecs o = .ok) :
    Extracts (valueLayoutExtractor (ValueLayout.ofOptions o)) (SABISchema.fromOptions o rho)
      calls := fun _ value _ => by
  obtain ⟨attrs, hextract, hlength, -⟩ := extractAll_spec hschema value
  exact ⟨attrs, hextract, by rw [hlength, SABISchema.fromOptions, List.length_map]⟩

/-- What the bitmap of a query on an index is to the rows of its table. -/
structure SABIReader.Answers (r : SABIReader) (idx : BitmapIndex) (o : BitLSMOptions)
    (q : BitLSMQuery) (sq : SABIQuery) (calls : List BuilderCall) : Prop where
  /-- A row the query accepts passes the filters in front of the bitmap. -/
  canMatch : ∀ (j : ℕ) value, (rowValues calls)[j]? = some (some value) →
    q.checkCondition value (ValueLayout.ofOptions o) = some true →
    sq.unsat = false ∧ r.queryCanMatch sq = true
  complete : ∀ (j : ℕ) value, (rowValues calls)[j]? = some (some value) →
    q.checkCondition value (ValueLayout.ofOptions o) = some true →
    (q.clauseGroups = [] → j < coveredRows calls) → j ∈ queryRows r idx.bitmaps sq
  valueRows : ∀ j ∈ queryRows r idx.bitmaps sq, ∃ value, (rowValues calls)[j]? = some (some value)

/-- Under the 32-bit limits of the blob its readers answer every query. -/
theorem SABIBuilder.finish_answers (hschema : validateAttrSpecs o = .ok)
    (hfit : RowsFit (rowsOf (valueLayoutExtractor (ValueLayout.ofOptions o)) calls))
    (hrun : SABIBuilder.run rt.hash (valueLayoutExtractor (ValueLayout.ofOptions o))
      (SABISchema.fromOptions o rho) calls = some b)
    (hidx : b.buildIndex rt = some idx)
    (hroom : idx.regionEnd rt.frozen (handlesOf calls).length ≤ 2 ^ 32 - 32)
    (hfinish : b.finish rt = some blob) (hlen : blob.length < 2 ^ 32) (hq : q.validate o = .ok) :
    ∃ sq, encodeQuery q o = some sq ∧
      sq.AttrsBelow (SABISchema.fromOptions o rho).indexTypes.length ∧ ∀ mode, ∃ r,
        SABIReader.parse rt.frozen mode blob = some r ∧ r.mode = mode ∧
        r.Reads rt.frozen (SABISchema.fromOptions o rho)
          (rowsOf (valueLayoutExtractor (ValueLayout.ofOptions o)) calls) (coveredRows calls) idx
          blob ∧ r.Answers idx o q sq calls := by
  set extract := valueLayoutExtractor (ValueLayout.ofOptions o) with hextractDef
  set f : Bytes → List EncodedAttr := fun value =>
    (extractAll (ValueLayout.ofOptions o) value).getD [] with hf
  have hattrs (value : Bytes) : extractAll (ValueLayout.ofOptions o) value = some (f value) ∧
      (f value).length = o.attrSpecs.length := by
    obtain ⟨attrs, hextract, hlength, -⟩ := extractAll_spec hschema value
    rw [hf]
    simp only [hextract]
    exact ⟨rfl, hlength⟩
  have hextract : Extracts extract (SABISchema.fromOptions o rho) calls :=
    extracts_valueLayout hschema
  have hrows := @rowsOf_eq_map extract f calls fun _ value _ => (hattrs value).1
  obtain ⟨sq, hsq, hmeaning, hunsat⟩ := encodeQuery_spec hq
  obtain ⟨hbelow, hempty⟩ := encodeQuery_attrs hq hsq
  have hbelow : sq.AttrsBelow (SABISchema.fromOptions o rho).indexTypes.length := by
    rwa [SABISchema.fromOptions, List.length_map]
  -- a row that `CheckCondition` accepts, as the index sees it
  have hmatch (j : ℕ) (value : Bytes) (hj : (rowValues calls)[j]? = some (some value))
      (hcheck : q.checkCondition value (ValueLayout.ofOptions o) = some true) :
      (rowsOf extract calls)[j]? = some (some (f value)) ∧
        sq.meaning o.indexTypes (f value) = true := by
    rw [BitLSMQuery.checkCondition_eq value hschema hq, Option.some.injEq] at hcheck
    refine ⟨by rw [hrows, List.getElem?_map, hj]; rfl, ?_⟩
    rw [hmeaning]
    exact clauses_holdEncoded_of_hold hschema hq (hattrs value).1 hcheck
  refine ⟨sq, hsq, hbelow, fun mode => ?_⟩
  obtain ⟨r, hparse, hmode, hreads⟩ :=
    SABIBuilder.finish_reads hextract hfit hrun hidx hroom hfinish hlen mode
  refine ⟨r, hparse, hmode, hreads, fun j value hj hcheck => ?_,
    fun j value hj hcheck hcovered => ?_, fun j hj => ?_⟩
  · obtain ⟨hrow, htrue⟩ := hmatch j value hj hcheck
    refine ⟨?_, hreads.describes.queryCanMatch hreads.indexed hrow htrue⟩
    rw [← Bool.not_eq_true]
    intro hu
    rw [hunsat hu] at htrue
    cases htrue
  · obtain ⟨hrow, htrue⟩ := hmatch j value hj hcheck
    refine hreads.describes.mem_queryRows hreads.indexed hbelow hrow htrue fun hnil => ?_
    rw [hreads.psum]
    exact hcovered (hempty hnil)
  · obtain ⟨attrs, hrow⟩ := hreads.describes.queryRows_valueRow hreads.indexed hbelow
      (hreads.psum ▸ hreads.covered_le) hj
    rw [hrows, List.getElem?_map] at hrow
    obtain ⟨value?, hvalue, hsome⟩ := Option.map_eq_some_iff.1 hrow
    obtain ⟨value, rfl, -⟩ := Option.map_eq_some_iff.1 hsome
    exact ⟨value, hvalue⟩

/-- The index of a table loses no row of a query. `Finish` succeeds if no bitmap
offset wraps, and if its blob is below `2 ^ 32` bytes, a row that `CheckCondition`
accepts passes every filter, and the bitmap has value rows only. -/
theorem queryBitmap_has_matching_rows (hschema : validateAttrSpecs o = .ok)
    (hfit : RowsFit (rowsOf (valueLayoutExtractor (ValueLayout.ofOptions o)) calls))
    (hq : q.validate o = .ok) :
    ∃ b idx sq, SABIBuilder.run rt.hash (valueLayoutExtractor (ValueLayout.ofOptions o))
        (SABISchema.fromOptions o rho) calls = some b ∧ b.buildIndex rt = some idx ∧
      encodeQuery q o = some sq ∧
      (idx.regionEnd rt.frozen (handlesOf calls).length ≤ 2 ^ 32 - 32 → ∃ blob,
        b.finish rt = some blob ∧ (blob.length < 2 ^ 32 → ∀ mode, ∃ r,
          SABIReader.parse rt.frozen mode blob = some r ∧
          (∀ (j : ℕ) value, (rowValues calls)[j]? = some (some value) →
            q.checkCondition value (ValueLayout.ofOptions o) = some true →
            sq.unsat = false ∧ r.queryCanMatch sq = true) ∧
          ∀ (t : TableRep), HasAt t.file t.udiOff blob → ∀ env blockCache prefetch before w,
            (∀ call ∈ before, SABIReader.BinCall.InRange r.totalBins call) →
            r.serveAll rt.frozen env t (SABIReader.startBins blockCache) before = some w →
            ∃ bitmap loads, (BinSource.ofReader rt.frozen env t prefetch r).buildQueryBitmap r
                ⟨w, false⟩ sq = some (bitmap, loads) ∧
              (mode = .resident → loads.failed = false) ∧
              (loads.failed = false →
                (∀ (j : ℕ) value, (rowValues calls)[j]? = some (some value) →
                  q.checkCondition value (ValueLayout.ofOptions o) = some true →
                  (q.clauseGroups = [] → j < coveredRows calls) → j ∈ bitmap) ∧
                ∀ j ∈ bitmap, ∃ value, (rowValues calls)[j]? = some (some value)))) := by
  obtain ⟨b, hrun, hbuilt⟩ :=
    @SABIBuilder.run_built rt.hash _ _ _ (extracts_valueLayout hschema) hfit
  obtain ⟨idx, hidx, -⟩ := hbuilt.buildIndex hfit rt
  obtain ⟨sq, hsq, -⟩ := encodeQuery_spec hq
  refine ⟨b, idx, sq, hrun, hidx, hsq, fun hroom => ?_⟩
  have hroom' := hroom
  rw [length_handlesOf] at hroom'
  obtain ⟨-, blob, hfinish, -⟩ := (SABIBuilder.run_reached hrun).finish_written hidx hroom'
  refine ⟨blob, hfinish, fun hlen mode => ?_⟩
  obtain ⟨sq', hsq', hbelow, hreaders⟩ :=
    SABIBuilder.finish_answers hschema hfit hrun hidx hroom hfinish hlen hq
  obtain rfl := Option.some.inj (hsq'.symm.trans hsq)
  obtain ⟨r, hparse, rfl, hreads, hanswers⟩ := hreaders mode
  refine ⟨r, hparse, hanswers.canMatch,
    fun t hfile env blockCache prefetch before w hbefore hserve => ?_⟩
  obtain ⟨bitmap, loads, hbuild, hreliable, hexact⟩ := hreads.buildQueryBitmap hbelow hfile env
    prefetch (hreads.sound hfile env hbefore hserve)
  refine ⟨bitmap, loads, hbuild, hreliable, fun hok => ?_⟩
  obtain rfl := hexact hok
  exact ⟨hanswers.complete, hanswers.valueRows⟩

end Query

def oneByteInt : BitLSMOptions := ⟨1, [⟨.range, .int, 1, false⟩]⟩

def twoInts : BitLSMOptions := ⟨2, [⟨.range, .int, 1, true⟩, ⟨.equality, .int, 1, false⟩]⟩

/-- Rows with a byte of NULL bits, the second one NULL, and a deletion. -/
def nullableCalls : List BuilderCall :=
  [.onKeyAdded [97] .value [0, 7, 1], .onKeyAdded [98] .value [1, 0, 2],
    .onKeyAdded [99] .deletion [], .addIndexEntry 0 40, .onKeyAdded [100] .value [0, 9, 1],
    .onKeyAdded [101] .value [0, 7, 3], .addIndexEntry 45 38]

/-- The rows whose first attribute is 7, in two bins and three. -/
theorem queryBitmap_has_matching_rows_fiveRows : ∃ b blob sq r bitmap loads,
    SABIBuilder.run Runtime.oneRow.hash (valueLayoutExtractor (.ofOptions twoInts))
      (SABISchema.fromOptions twoInts ⟨0x3FD0000000000000⟩) nullableCalls = some b ∧
    b.finish .oneRow = some blob ∧
    encodeQuery ⟨[[⟨0, .equal, .int 7⟩]]⟩ twoInts = some sq ∧
    SABIReader.parse Runtime.oneRow.frozen .resident blob = some r ∧
    (BinSource.ofReader Runtime.oneRow.frozen .calm ⟨blob, 0⟩ false r).buildQueryBitmap r
      ⟨SABIReader.startBins true, false⟩ sq = some (bitmap, loads) ∧
    0 ∈ bitmap ∧ 4 ∈ bitmap ∧ 2 ∉ bitmap := by
  have hvalues : ((SABIBuilder.run Runtime.oneRow.hash
      (valueLayoutExtractor (.ofOptions twoInts))
      (SABISchema.fromOptions twoInts ⟨0x3FD0000000000000⟩) nullableCalls).bind
        fun b => (b.buildIndex .oneRow).bind fun idx => (b.finish .oneRow).map fun blob =>
          (idx.bitmapNums, idx.regionEnd Runtime.oneRow.frozen 2, blob.length)) =
      some ([2, 3], 224, 441) := by decide +kernel
  obtain ⟨b, hrun, h⟩ := Option.bind_eq_some_iff.1 hvalues
  obtain ⟨idx, hidx, h⟩ := Option.bind_eq_some_iff.1 h
  obtain ⟨blob, hfinish, h⟩ := Option.map_eq_some_iff.1 h
  simp only [Prod.mk.injEq] at h
  obtain ⟨-, hend, hlen⟩ := h
  have hfit : RowsFit (rowsOf (valueLayoutExtractor (.ofOptions twoInts)) nullableCalls) := by
    refine ⟨by decide, fun i => ?_⟩
    rcases i with _ | _ | i
    · decide
    · decide
    · exact Nat.two_pow_pos 32
  obtain ⟨b', idx', sq, hrun', hidx', hsq, hanswers⟩ := @queryBitmap_has_matching_rows .oneRow
    twoInts ⟨0x3FD0000000000000⟩ nullableCalls ⟨[[⟨0, .equal, .int 7⟩]]⟩ rfl hfit rfl
  obtain rfl := Option.some.inj (hrun'.symm.trans hrun)
  obtain rfl := Option.some.inj (hidx'.symm.trans hidx)
  obtain ⟨blob', hfinish', hreaders⟩ := hanswers (hend.trans_le (by decide))
  obtain rfl := Option.some.inj (hfinish'.symm.trans hfinish)
  obtain ⟨r, hparse, -, hbitmap⟩ := hreaders (by omega) .resident
  obtain ⟨bitmap, loads, hbuild, hreliable, hrows⟩ := hbitmap ⟨blob', 0⟩ (HasAt.self _) .calm true
    false [] (SABIReader.startBins true) (fun _ hmem => nomatch hmem) rfl
  obtain ⟨hmatch, hvalue⟩ := hrows (hreliable rfl)
  refine ⟨b', blob', sq, r, bitmap, loads, hrun, hfinish, hsq, hparse, hbuild,
    hmatch 0 [0, 7, 1] rfl (by decide) (fun h => by cases h),
    hmatch 4 [0, 7, 3] rfl (by decide) (fun h => by cases h), fun hmem => ?_⟩
  obtain ⟨value, hdeleted⟩ := hvalue 2 hmem
  cases hdeleted

/-! ### Beyond the limits -/

/-- A row of one string. -/
theorem exists_row_oneVarBinary {v : Bytes} (hv : v.length < 2 ^ 32 - 4) :
    ∃ row, encodeValue (.ofOptions oneVarBinary) [.bytes v] [] [] = some row ∧
      ∀ key, valueLayoutExtractor (.ofOptions oneVarBinary) key row = some [some v] := by
  have hpart : variablePart [(⟨.equality, .varBinary, 0, false⟩, .bytes v)] = v := by
    rw [variablePart_singleton]
    rfl
  have hsmall : layoutBytes oneVarBinary.attrSpecs +
      (variablePart [(⟨.equality, .varBinary, 0, false⟩, .bytes v)]).length < 2 ^ 32 := by
    rw [hpart, show layoutBytes oneVarBinary.attrSpecs = 4 from rfl]
    omega
  obtain ⟨row, hrow, hdecode, -⟩ := roundTrips_of_addressable (o := oneVarBinary) rfl rfl
    (fun c hc => by
      rw [List.mem_singleton.1 hc]
      exact Or.inr ⟨rfl, fun h => by cases h⟩)
    hsmall (fun pre c post hcells hnull => by
      have hmem : c ∈ [(⟨.equality, .varBinary, 0, false⟩, AttrView.bytes v)] := by
        rw [hcells]
        simp
      rw [List.mem_singleton.1 hmem] at hnull
      cases hnull) []
  refine ⟨row, hrow [], fun key => ?_⟩
  have hattr := hdecode 0 (.bytes v) rfl
  have hextract : extractAll (.ofOptions oneVarBinary) row = ((decodeAttr
      (.ofOptions oneVarBinary) row 0).bind encodeAttrView).bind fun x => some [x] := rfl
  rw [valueLayoutExtractor, hextract, hattr]
  rfl

/-- The first byte of the directory is the last one of the value's length, and the
value's first bytes complete the attribute count. -/
theorem parse_longValue {v : Bytes} {b : SABIBuilder} {idx : BitmapIndex} {out blob : Bytes}
    (hlength : v.length = 4294967291) (hv : HasAt v 0 [255, 255, 255])
    (h : SABIBuilder.Written Runtime.oneRow.frozen b idx out blob)
    (hpolicies : idx.policies = [(BinningPolicy.equality [(v, 0)]).serialize])
    (hout : out.length = 64)
    (hdirectory : (b.directory Runtime.oneRow.frozen idx 64).serialize.length = 57)
    (mode : SABIReaderMode) :
    SABIReader.parse Runtime.oneRow.frozen mode blob = none := by
  obtain ⟨hentry, hbody⟩ :=
    hasAt_blob_oneValue hlength (by decide) (by decide) h hpolicies hout
  obtain ⟨h12, hfooter⟩ := h.decode_footer
  have hlen := h.length_blob
  rw [hout, hdirectory, hbody] at hlen
  rw [hbody] at hfooter
  have hnum : decodeFixed32 blob 72 = some 0xFFFFFF0F := by
    have hlast : HasAt blob 72 [0x0F] :=
      (show HasAt blob 68 ([0xFB, 0xFF, 0xFF, 0xFF] ++ [0x0F]) from hentry.left).right
    have hfirst : HasAt blob 73 [255, 255, 255] := hentry.right.trans hv
    exact decodeFixed32_of_hasAt (hlast.join hfirst)
  have hdir : Directory.parse blob 72 = none := by
    rw [← Option.not_isSome_iff_eq_none, Option.isSome_iff_exists]
    rintro ⟨d, hd⟩
    have hle : 4 * 4294967055 ≤ blob.length := Directory.attrNum_le hnum hd
    omega
  have h72 : (UInt32.ofNat (77 + 4294967291)).toNat = 72 := rfl
  simp only [SABIReader.parse, h12, if_true, hfooter, Option.bind_eq_bind, Option.bind_some, h72,
    hdir, Option.bind_none]

/-- A row that every query without clauses matches, and one that has no reader. -/
theorem queryBitmap_misses_rows :
    -- no data block is announced, and a query without clauses takes the rows of all blocks
    (∃ b blob r loads,
      encodeValue (.ofOptions oneVarBinary) [.bytes [9]] [] [] = some [1, 0, 0, 0, 9] ∧
      SABIBuilder.run Runtime.oneRow.hash (valueLayoutExtractor (.ofOptions oneVarBinary))
        (SABISchema.fromOptions oneVarBinary ⟨0x3FF0000000000000⟩)
        [.onKeyAdded [107] .value [1, 0, 0, 0, 9]] = some b ∧
      b.finish .oneRow = some blob ∧
      SABIReader.parse Runtime.oneRow.frozen .resident blob = some r ∧
      (BitLSMQuery.mk []).checkCondition [1, 0, 0, 0, 9] (.ofOptions oneVarBinary) = some true ∧
      encodeQuery (BitLSMQuery.mk []) oneVarBinary = some ⟨[], false⟩ ∧
      (BinSource.ofReader Runtime.oneRow.frozen .calm ⟨blob, 0⟩ false r).buildQueryBitmap r
        ⟨SABIReader.startBins true, false⟩ ⟨[], false⟩ = some (∅, loads)) ∧
    -- a value of almost `2 ^ 32` bytes, and the reader finds no directory
    ∃ v row b blob, encodeValue (.ofOptions oneVarBinary) [.bytes v] [] [] = some row ∧
      SABIBuilder.run Runtime.oneRow.hash (valueLayoutExtractor (.ofOptions oneVarBinary))
        (SABISchema.fromOptions oneVarBinary ⟨0x3FF0000000000000⟩)
        [.onKeyAdded [107] .value row] = some b ∧
      b.finish .oneRow = some blob ∧
      ∀ mode, SABIReader.parse Runtime.oneRow.frozen mode blob = none := by
  constructor
  · have hvalues : ((SABIBuilder.run Runtime.oneRow.hash
        (valueLayoutExtractor (.ofOptions oneVarBinary))
        (SABISchema.fromOptions oneVarBinary ⟨0x3FF0000000000000⟩)
        [.onKeyAdded [107] .value [1, 0, 0, 0, 9]]).bind fun b => (b.finish .oneRow).bind
          fun blob => (SABIReader.parse Runtime.oneRow.frozen .resident blob).bind fun r =>
            ((BinSource.ofReader Runtime.oneRow.frozen .calm ⟨blob, 0⟩ false r).buildQueryBitmap r
              ⟨SABIReader.startBins true, false⟩ ⟨[], false⟩).map Prod.fst) = some ∅ := by
      decide +kernel
    obtain ⟨b, hrun, h⟩ := Option.bind_eq_some_iff.1 hvalues
    obtain ⟨blob, hfinish, h⟩ := Option.bind_eq_some_iff.1 h
    obtain ⟨r, hparse, h⟩ := Option.bind_eq_some_iff.1 h
    obtain ⟨⟨bitmap, loads⟩, hbuild, rfl⟩ := Option.map_eq_some_iff.1 h
    exact ⟨b, blob, r, loads, rfl, hrun, hfinish, hparse, rfl, rfl, hbuild⟩
  · obtain ⟨v, hv⟩ : ∃ v : Bytes, v = [255, 255, 255] ++ List.replicate 4294967288 0 := ⟨_, rfl⟩
    have hlength : v.length = 4294967291 := by
      rw [hv, List.length_append, List.length_replicate]
      rfl
    have hat : HasAt v 0 [255, 255, 255] := by
      rw [hv]
      exact (HasAt.self _).append _
    obtain ⟨row, hrow, hextract⟩ := exists_row_oneVarBinary (v := v) (by omega)
    obtain ⟨b, idx, blob, out, hrun, hfinish, hwritten, -, hpolicies, -, hout, hdirectory⟩ :=
      finish_oneValue (hextract [107]) (by omega)
    exact ⟨v, row, b, blob, hrow, hrun, hfinish,
      parse_longValue hlength hat hwritten hpolicies hout hdirectory⟩

end BitLSM
