import BitLSM.TableIndex

/-!
Opening an index.

`NewReader` is what RocksDB calls to open the index of a table. The reader
itself checks nothing, so the factory does before it makes one: the footer, the
version, and the front of the directory that says which index type each
attribute has. A factory bound to a schema refuses an index with other types,
since queries encoded for its own types would be answered from the wrong bins.

The checks stay inside the blob whatever its bytes are. What follows the index
types in the directory they leave to the block checksum.
-/

namespace BitLSM

open Wire

def IndexType.name : IndexType → String
  | .range => "kRange"
  | .equality => "kEquality"

def indexTypesToString (types : List IndexType) : String :=
  "[" ++ String.intercalate "," (types.map IndexType.name) ++ "]"

structure SABIFactory where
  /-- Empty for a factory without a schema, which trusts the directory. -/
  indexTypes : List IndexType
  ondemandIndex : Bool
  deriving DecidableEq, Repr

namespace SABIFactory

def mode (f : SABIFactory) : SABIReaderMode := if f.ondemandIndex then .metadata else .resident

/-! ### The checks -/

def kFooterSize : ℕ := 12

def noFooter : Status := .corruption "SABI index has no version footer; rebuild the DB"

def unsupportedVersion (version : UInt32) : Status :=
  .corruption ("unsupported BitLSM format version " ++ toString version.toNat ++
    " (this build reads v" ++ toString kBitLSMFormatVersion.toNat ++ "); rebuild the DB")

def unknownIndexType (typeByte : UInt8) (i : ℕ) : Status :=
  .corruption ("SABI directory has unknown index type " ++ toString typeByte.toNat ++
    " for attr " ++ toString i)

def schemaMismatch (types configured : List IndexType) : Status :=
  .corruption ("SABI schema mismatch: SST index_types " ++ indexTypesToString types ++
    " vs configured " ++ indexTypesToString configured ++ "; rebuild the DB or fix the schema")

/-- The position of the directory, from a footer of this version. -/
def checkFooter (b : Bytes) : Option (Except Status UInt32) :=
  if b.length < kFooterSize then some (.error noFooter)
  else do
    let magic ← decodeFixed32 b (b.length - 4)
    if magic ≠ kSABIFooterMagic then some (.error noFooter)
    else do
      let version ← decodeFixed32 b (b.length - 8)
      if version ≠ kBitLSMFormatVersion then some (.error (unsupportedVersion version))
      else do
        let directoryOff ← decodeFixed32 b (b.length - 12)
        some (.ok directoryOff)

/-- The index types of `n` attributes from attribute `i` on; `off` is where those
of all attributes start. -/
def readIndexTypes (b : Bytes) (off i : ℕ) : ℕ → Option (Except Status (List IndexType))
  | 0 => some (.ok [])
  | n + 1 => do
      let typeByte ← b[off + i]?
      match IndexType.ofByte? typeByte with
      | none => some (.error (unknownIndexType typeByte i))
      | some t => do
          let rest ← readIndexTypes b off (i + 1) n
          some (rest.map (t :: ·))

/-- The front of the directory. -/
def checkDirectory (b : Bytes) (directoryOff : UInt32) :
    Option (Except Status (List IndexType)) :=
  let bodyEnd := b.length - kFooterSize
  if bodyEnd < directoryOff.toNat + 4 then
    some (.error (.corruption "SABI directory offset out of bounds"))
  else do
    let attrNum ← decodeFixed32 b directoryOff.toNat
    if bodyEnd < directoryOff.toNat + 4 + attrNum.toNat then
      some (.error (.corruption "SABI directory is truncated"))
    else readIndexTypes b (directoryOff.toNat + 4) 0 attrNum.toNat

def checkSchema (f : SABIFactory) (types : List IndexType) : Status :=
  if f.indexTypes ≠ [] ∧ f.indexTypes ≠ types then schemaMismatch types f.indexTypes else .ok

/-- What `NewReader` checks before it makes the reader. -/
def check (f : SABIFactory) (b : Bytes) : Option Status := do
  match ← checkFooter b with
  | .error status => some status
  | .ok directoryOff =>
      match ← checkDirectory b directoryOff with
      | .error status => some status
      | .ok types => some (f.checkSchema types)

/-- The status, and the reader if it is OK. -/
def newReader (frozen : FrozenCodec) (f : SABIFactory) (b : Bytes) :
    Option (Status × Option SABIReader) := do
  let status ← f.check b
  if status = .ok then (SABIReader.parse frozen f.mode b).map fun r => (.ok, some r)
  else some (status, none)

/-! ### What is accepted -/

/-- A footer of this version that points at a directory with these types. -/
structure Gated (b : Bytes) (directoryOff attrNum : UInt32) (types : List IndexType) : Prop where
  footer : kFooterSize ≤ b.length
  magic : decodeFixed32 b (b.length - 4) = some kSABIFooterMagic
  version : decodeFixed32 b (b.length - 8) = some kBitLSMFormatVersion
  directory : decodeFixed32 b (b.length - 12) = some directoryOff
  attrs : decodeFixed32 b directoryOff.toNat = some attrNum
  inside : directoryOff.toNat + 4 + attrNum.toNat ≤ b.length - kFooterSize
  types : (readAt b (directoryOff.toNat + 4) attrNum.toNat).bind (List.mapM IndexType.ofByte?) =
    some types

theorem exists_decodeFixed32 {b : Bytes} {off : ℕ} (h : off + 4 ≤ b.length) :
    ∃ n, decodeFixed32 b off = some n := by
  have hread : readAt b off 4 = some _ := if_pos h
  exact ⟨_, by rw [decodeFixed32, hread]; rfl⟩

/-- The footer is reported, or it is one of this version. -/
theorem checkFooter_cases (b : Bytes) :
    (∃ msg, checkFooter b = some (.error (.corruption msg))) ∨
      ∃ directoryOff, checkFooter b = some (.ok directoryOff) ∧ kFooterSize ≤ b.length ∧
        decodeFixed32 b (b.length - 4) = some kSABIFooterMagic ∧
        decodeFixed32 b (b.length - 8) = some kBitLSMFormatVersion ∧
        decodeFixed32 b (b.length - 12) = some directoryOff := by
  rw [checkFooter]
  by_cases hshort : b.length < kFooterSize
  · exact .inl ⟨_, if_pos hshort⟩
  · have hlen : 12 ≤ b.length := not_lt.1 hshort
    obtain ⟨magic, hmagic⟩ := @exists_decodeFixed32 b (b.length - 4) (by omega)
    obtain ⟨version, hversion⟩ := @exists_decodeFixed32 b (b.length - 8) (by omega)
    obtain ⟨dir, hdir⟩ := @exists_decodeFixed32 b (b.length - 12) (by omega)
    rw [if_neg hshort]
    simp only [hmagic, hversion, hdir, Option.bind_eq_bind, Option.bind_some]
    by_cases hm : magic = kSABIFooterMagic
    · rw [if_neg (not_not.2 hm)]
      by_cases hv : version = kBitLSMFormatVersion
      · rw [if_neg (not_not.2 hv)]
        exact .inr ⟨dir, rfl, hlen, by rw [hm], by rw [hv], rfl⟩
      · exact .inl ⟨_, if_pos hv⟩
    · exact .inl ⟨_, if_pos hm⟩

/-- An unknown byte is reported, or all of them are index types. -/
theorem readIndexTypes_cases {b bs : Bytes} {off i : ℕ} (h : HasAt b (off + i) bs) :
    (∃ msg, readIndexTypes b off i bs.length = some (.error (.corruption msg)) ∧
        bs.mapM IndexType.ofByte? = none) ∨
      ∃ types, readIndexTypes b off i bs.length = some (.ok types) ∧
        bs.mapM IndexType.ofByte? = some types := by
  induction bs generalizing i with
  | nil => exact .inr ⟨[], rfl, rfl⟩
  | cons typeByte bs ih =>
      simp only [List.length_cons, readIndexTypes, h.getElem?, Option.bind_eq_bind,
        Option.bind_some, List.mapM_cons]
      cases htype : IndexType.ofByte? typeByte with
      | none => exact .inl ⟨_, rfl, rfl⟩
      | some t =>
          have htail : HasAt b (off + (i + 1)) bs := h.tail
          rcases ih htail with ⟨msg, herror, hnone⟩ | ⟨types, hok, htypes⟩
          · exact .inl ⟨msg, by simp only [herror]; rfl, by simp only [hnone]; rfl⟩
          · exact .inr ⟨t :: types, by simp only [hok]; rfl, by simp only [htypes]; rfl⟩

/-- The same for a part of the blob that was read out. -/
theorem readIndexTypes_of_readAt {b bs : Bytes} {off n : ℕ} (h : readAt b off n = some bs) :
    (∃ msg, readIndexTypes b off 0 n = some (.error (.corruption msg)) ∧
        bs.mapM IndexType.ofByte? = none) ∨
      ∃ types, readIndexTypes b off 0 n = some (.ok types) ∧
        bs.mapM IndexType.ofByte? = some types := by
  obtain ⟨hle, rfl⟩ := readAt_eq_some h
  have hlength := length_slice hle
  have hat : HasAt b (off + 0) (slice b off n) :=
    hasAt_iff_slice.2 ⟨by omega, by rw [hlength, Nat.add_zero]⟩
  have hcases := readIndexTypes_cases hat
  rwa [hlength] at hcases

theorem checkDirectory_cases {b : Bytes} (hlen : kFooterSize ≤ b.length) (directoryOff : UInt32) :
    (∃ msg, checkDirectory b directoryOff = some (.error (.corruption msg))) ∨
      ∃ attrNum types, checkDirectory b directoryOff = some (.ok types) ∧
        decodeFixed32 b directoryOff.toNat = some attrNum ∧
        directoryOff.toNat + 4 + attrNum.toNat ≤ b.length - kFooterSize ∧
        (readAt b (directoryOff.toNat + 4) attrNum.toNat).bind (List.mapM IndexType.ofByte?) =
          some types := by
  rw [checkDirectory]
  by_cases hout : b.length - kFooterSize < directoryOff.toNat + 4
  · exact .inl ⟨_, if_pos hout⟩
  · obtain ⟨attrNum, hattrs⟩ := @exists_decodeFixed32 b directoryOff.toNat (by omega)
    simp only [if_neg hout, hattrs, Option.bind_eq_bind, Option.bind_some]
    by_cases hshort : b.length - kFooterSize < directoryOff.toNat + 4 + attrNum.toNat
    · exact .inl ⟨_, if_pos hshort⟩
    · have hread : readAt b (directoryOff.toNat + 4) attrNum.toNat = some _ :=
        if_pos (by omega)
      rw [if_neg hshort]
      rcases readIndexTypes_of_readAt hread with ⟨msg, herror, -⟩ | ⟨types, hok, htypes⟩
      · exact .inl ⟨msg, herror⟩
      · exact .inr ⟨attrNum, types, hok, rfl, not_lt.1 hshort, by rw [hread]; exact htypes⟩

/-- The blob is reported, or only its types are left to compare. -/
theorem check_cases (f : SABIFactory) (b : Bytes) :
    (∃ msg, f.check b = some (.corruption msg)) ∨
      ∃ directoryOff attrNum types, Gated b directoryOff attrNum types ∧
        f.check b = some (f.checkSchema types) := by
  rw [check]
  rcases checkFooter_cases b with ⟨msg, herror⟩ | ⟨directoryOff, hok, hlen, hmagic, hversion, hdir⟩
  · exact .inl ⟨msg, by rw [herror]; rfl⟩
  · rw [hok, Option.bind_eq_bind, Option.bind_some]
    rcases checkDirectory_cases hlen directoryOff with
      ⟨msg, herror⟩ | ⟨attrNum, types, hok, hattrs, hinside, htypes⟩
    · exact .inl ⟨msg, by simp only [herror]; rfl⟩
    · exact .inr ⟨directoryOff, attrNum, types,
        ⟨hlen, hmagic, hversion, hdir, hattrs, hinside, htypes⟩, by simp only [hok]; rfl⟩

theorem Gated.check_eq {b : Bytes} {dir n : UInt32} {types : List IndexType}
    (h : Gated b dir n types) (f : SABIFactory) : f.check b = some (f.checkSchema types) := by
  have hfooter : checkFooter b = some (.ok dir) := by
    simp only [checkFooter, if_neg (not_lt.2 h.footer), h.magic, h.version, h.directory,
      Option.bind_eq_bind, Option.bind_some, ne_eq, not_true_eq_false, if_false]
  have hdirectory : checkDirectory b dir = some (.ok types) := by
    obtain ⟨bs, hread, htypes⟩ := Option.bind_eq_some_iff.1 h.types
    have hinside := h.inside
    have hnum : ¬b.length - kFooterSize < dir.toNat + 4 := by omega
    simp only [checkDirectory, if_neg hnum, h.attrs, Option.bind_eq_bind, Option.bind_some,
      if_neg (not_lt.2 hinside)]
    rcases readIndexTypes_of_readAt hread with ⟨msg, -, hnone⟩ | ⟨types', hok, htypes'⟩
    · cases hnone.symm.trans htypes
    · rw [hok, ← Option.some.inj (htypes'.symm.trans htypes)]
  simp only [check, hfooter, hdirectory, Option.bind_eq_bind, Option.bind_some]

/-- Where a directory has its index types. -/
theorem indexTypes_of_parse {b : Bytes} {dir : ℕ} {n : UInt32} {d : Directory}
    (hn : decodeFixed32 b dir = some n) (h : Directory.parse b dir = some d) :
    (readAt b (dir + 4) n.toNat).bind (List.mapM IndexType.ofByte?) = some d.indexTypes := by
  rw [Directory.parse, hn, Option.bind_eq_bind, Option.bind_some] at h
  obtain ⟨bytes, hbytes, h⟩ := Option.bind_eq_some_iff.1 h
  obtain ⟨types, htypes, h⟩ := Option.bind_eq_some_iff.1 h
  obtain ⟨binCounts, -, h⟩ := Option.bind_eq_some_iff.1 h
  obtain ⟨entriesCnt, -, h⟩ := Option.bind_eq_some_iff.1 h
  obtain ⟨distinctCnts, -, h⟩ := Option.bind_eq_some_iff.1 h
  obtain ⟨cardinalities, -, h⟩ := Option.bind_eq_some_iff.1 h
  obtain ⟨sizes, -, h⟩ := Option.bind_eq_some_iff.1 h
  obtain ⟨policyOffsets, -, h⟩ := Option.bind_eq_some_iff.1 h
  obtain ⟨bitmapOffsets, -, h⟩ := Option.bind_eq_some_iff.1 h
  rw [hbytes, Option.bind_some, htypes, ← Option.some.inj h]

/-- The reader takes its types from where they were checked. -/
theorem Gated.indexTypes_eq {b : Bytes} {dir n : UInt32} {types : List IndexType}
    (h : Gated b dir n types) {frozen : FrozenCodec} {mode : SABIReaderMode} {r : SABIReader}
    (hparse : SABIReader.parse frozen mode b = some r) : r.indexTypes = types := by
  have hlen : 12 ≤ b.length := h.footer
  rw [SABIReader.parse, if_pos hlen, h.directory, Option.bind_eq_bind, Option.bind_some] at hparse
  obtain ⟨d, hd, hparse⟩ := Option.bind_eq_some_iff.1 hparse
  obtain ⟨policies, -, hparse⟩ := Option.bind_eq_some_iff.1 hparse
  obtain ⟨bitmaps, -, hparse⟩ := Option.bind_eq_some_iff.1 hparse
  obtain ⟨entries, -, hparse⟩ := Option.bind_eq_some_iff.1 hparse
  have hread := indexTypes_of_parse h.attrs hd
  rw [← Option.some.inj hparse]
  exact Option.some.inj (hread.symm.trans h.types)

theorem checkSchema_cases (f : SABIFactory) (types : List IndexType) :
    (f.indexTypes = [] ∨ f.indexTypes = types) ∧ f.checkSchema types = .ok ∨
      (f.indexTypes ≠ [] ∧ f.indexTypes ≠ types) ∧
        f.checkSchema types = schemaMismatch types f.indexTypes := by
  rw [checkSchema]
  by_cases hother : f.indexTypes ≠ [] ∧ f.indexTypes ≠ types
  · exact .inr ⟨hother, if_pos hother⟩
  · refine .inl ⟨?_, if_neg hother⟩
    by_contra hsame
    exact hother (not_or.1 hsame)

/-- What a factory may open: a gated blob with the types of its schema, if it has
one. -/
def Admits (f : SABIFactory) (b : Bytes) (types : List IndexType) : Prop :=
  (∃ directoryOff attrNum, Gated b directoryOff attrNum types) ∧
    (f.indexTypes = [] ∨ f.indexTypes = types)

theorem Admits.check_eq {f : SABIFactory} {b : Bytes} {types : List IndexType}
    (h : f.Admits b types) : f.check b = some .ok := by
  obtain ⟨⟨directoryOff, attrNum, hgated⟩, hsame⟩ := h
  rw [hgated.check_eq f]
  rcases f.checkSchema_cases types with ⟨-, hok⟩ | ⟨hother, -⟩
  · rw [hok]
  · exact absurd hsame (not_or.2 hother)

theorem check_admits (f : SABIFactory) (b : Bytes) :
    (∃ msg, f.check b = some (.corruption msg)) ∨ ∃ types, f.Admits b types := by
  rcases f.check_cases b with herror | ⟨directoryOff, attrNum, types, hgated, hcheck⟩
  · exact .inl herror
  · rcases f.checkSchema_cases types with ⟨hsame, -⟩ | ⟨-, hmismatch⟩
    · exact .inr ⟨types, ⟨directoryOff, attrNum, hgated⟩, hsame⟩
    · exact .inl ⟨_, by rw [hcheck, hmismatch]; rfl⟩

/-- Whatever the bytes are, `NewReader` stays inside them until it makes the
reader. It makes it exactly behind a footer of this version whose directory has
the types of the schema, and the reader then has those types. -/
theorem newReader_gate (frozen : FrozenCodec) (f : SABIFactory) (b : Bytes) :
    ((¬∃ types, f.Admits b types) ∧
        ∃ msg, f.newReader frozen b = some (.corruption msg, none)) ∨
      ∃ types, f.Admits b types ∧
        f.newReader frozen b = (SABIReader.parse frozen f.mode b).map (fun r => (.ok, some r)) ∧
        ∀ r, SABIReader.parse frozen f.mode b = some r → r.indexTypes = types := by
  rw [newReader]
  rcases f.check_admits b with ⟨msg, herror⟩ | ⟨types, hadmits⟩
  · refine .inl ⟨fun ⟨types, hadmits⟩ => ?_, msg, by rw [herror]; rfl⟩
    cases hadmits.check_eq.symm.trans herror
  · rw [hadmits.check_eq, Option.bind_eq_bind, Option.bind_some, if_pos rfl]
    obtain ⟨directoryOff, attrNum, hgated⟩ := hadmits.1
    exact .inr ⟨types, hadmits, rfl, fun r hparse => hgated.indexTypes_eq hparse⟩

/-! ### Finished blobs -/

section Finished

variable {rt : Runtime} {extract : AttrExtractor} {schema : SABISchema}
  {calls : List BuilderCall} {b : SABIBuilder} {idx : BitmapIndex} {blob : Bytes}

/-- The last two integers of a blob. -/
theorem decode_last_two {pre : Bytes} {x y : UInt32}
    (h : blob = pre ++ putFixed32 x ++ putFixed32 y) :
    decodeFixed32 blob (blob.length - 8) = some x ∧
      decodeFixed32 blob (blob.length - 4) = some y := by
  have hlength : blob.length = pre.length + 8 := by
    rw [h, List.length_append, List.length_append, length_putFixed32, length_putFixed32]
  have hat : HasAt blob pre.length (putFixed32 x ++ putFixed32 y) := by
    rw [h]
    simpa using HasAt.intro pre (putFixed32 x ++ putFixed32 y) []
  have hright := hat.right
  rw [length_putFixed32] at hright
  rw [show blob.length - 8 = pre.length by omega, show blob.length - 4 = pre.length + 4 by omega]
  exact ⟨decodeFixed32_of_hasAt hat.left, decodeFixed32_of_hasAt hright⟩

/-- The gate of a blob that was just written. -/
theorem exists_gated {frozen : FrozenCodec} {idx : BitmapIndex} {out : Bytes}
    (h : SABIBuilder.Formed frozen b idx out blob) (hlen : blob.length < 2 ^ 32) :
    ∃ directoryOff attrNum, Gated blob directoryOff attrNum b.schema.indexTypes := by
  obtain ⟨h12, directoryOff, hdir, hdirNat⟩ := h.decode_directoryOff hlen
  obtain ⟨hversion, hmagic⟩ := decode_last_two h.blob_eq
  have hblob := h.length_blob
  have hfooter : kFooterSize = 12 := rfl
  -- the front of the directory
  have hdirectory := h.hasAt_directory
  rw [← hdirNat, Directory.serialize] at hdirectory
  have hattrs := hdirectory.left.left.left.left.left.left.left
  have htypesAt := hattrs.right
  rw [length_putFixed32] at htypesAt
  rw [Directory.length_serialize] at hblob
  generalize htypes : (b.directory frozen idx out.length).indexTypes = types
    at hattrs htypesAt hblob
  obtain rfl : b.schema.indexTypes = types := htypes
  have hnat : (UInt32.ofNat b.schema.indexTypes.length).toNat = b.schema.indexTypes.length := by
    rw [UInt32.toNat_ofNat', Nat.mod_eq_of_lt (by omega)]
  refine ⟨directoryOff, UInt32.ofNat b.schema.indexTypes.length, h12, hmagic, hversion, hdir,
    decodeFixed32_of_hasAt hattrs.left, by omega, ?_⟩
  rw [hnat, htypesAt.readAt_eq (List.length_map _)]
  exact mapM_ofByte?_toByte _

/-- While no bitmap offset wraps, `Finish` succeeds; a blob below `2 ^ 32` bytes is
opened by a factory of its own schema or of none, and refused by any other. -/
theorem newReader_finish (hrun : SABIBuilder.run rt.hash extract schema calls = some b)
    (hidx : b.buildIndex rt = some idx)
    (hroom : idx.regionEnd rt.frozen (handlesOf calls).length ≤ 2 ^ 32 - 32) :
    ∃ blob, b.finish rt = some blob ∧ (blob.length < 2 ^ 32 → ∀ f : SABIFactory,
      (f.indexTypes = [] ∨ f.indexTypes = schema.indexTypes → ∃ r,
        SABIReader.parse rt.frozen f.mode blob = some r ∧
        f.newReader rt.frozen blob = some (.ok, some r)) ∧
      (f.indexTypes ≠ [] → f.indexTypes ≠ schema.indexTypes →
        f.newReader rt.frozen blob =
          some (schemaMismatch schema.indexTypes f.indexTypes, none))) := by
  have hreached := SABIBuilder.run_reached hrun
  obtain ⟨out, blob, hfinish, hwritten⟩ := hreached.finish_written hidx
    (by rwa [length_handlesOf] at hroom)
  refine ⟨blob, hfinish, fun hlen f => ?_⟩
  obtain ⟨directoryOff, attrNum, hgated⟩ := exists_gated hwritten.toFormed hlen
  rw [hreached.schema_eq] at hgated
  have hparse := SABIBuilder.finish_parse_eq hrun hidx hroom hfinish hlen
  rw [newReader, hgated.check_eq f, Option.bind_eq_bind, Option.bind_some]
  rcases f.checkSchema_cases schema.indexTypes with ⟨hsame, hok⟩ | ⟨⟨hne, hother⟩, hmismatch⟩
  · rw [if_pos hok, hparse]
    exact ⟨fun _ => ⟨_, rfl, rfl⟩, fun hne hother => absurd hsame (not_or.2 ⟨hne, hother⟩)⟩
  · rw [hmismatch]
    exact ⟨fun hsame => absurd hsame (not_or.2 ⟨hne, hother⟩), fun _ _ => rfl⟩

end Finished

/-- The table of five rows, opened on demand without a schema, and under one that
lacks an attribute. -/
theorem newReader_finish_fiveRows : ∃ b blob r,
    SABIBuilder.run Runtime.oneRow.hash twoByteExtractor twoAttrSchema fiveRowCalls = some b ∧
    b.finish .oneRow = some blob ∧
    newReader Runtime.oneRow.frozen ⟨[], true⟩ blob = some (.ok, some r) ∧
    newReader Runtime.oneRow.frozen ⟨[.range], false⟩ blob =
      some (.corruption ("SABI schema mismatch: SST index_types [kRange,kEquality]" ++
        " vs configured [kRange]; rebuild the DB or fix the schema"), none) := by
  obtain ⟨b, idx, blob, hrun, hidx, hfinish, -, hend, hlen⟩ := exists_finish_fiveRows
  obtain ⟨blob', hfinish', hopen⟩ := newReader_finish hrun hidx (hend.trans_le (by decide))
  obtain rfl := Option.some.inj (hfinish'.symm.trans hfinish)
  have hlt : blob'.length < 2 ^ 32 := by omega
  obtain ⟨r, -, hr⟩ := (hopen hlt ⟨[], true⟩).1 (.inl rfl)
  exact ⟨b, blob', r, hrun, hfinish, hr, (hopen hlt ⟨[.range], false⟩).2 (by decide) (by decide)⟩

end SABIFactory

end BitLSM
