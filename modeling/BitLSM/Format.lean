import BitLSM.Builder.Columns

/-!
The wire form of the index blob.

A blob is the index entries, the frozen bitmaps each on a 32-byte boundary,
the binning policies, the directory and a footer that points back to the
directory. Written and read forms of the policies and of the directory
stand side by side here; each reading lemma says what is read where the
written form lies in a blob.
-/

namespace BitLSM

open Wire

def kBitLSMFormatVersion : UInt32 := 8

def kSABIFooterMagic : UInt32 := 0x5AB1B175

/-! ### Policies -/

def putEntry (e : Bytes × ℕ) : Bytes :=
  putLengthPrefixedSlice e.1 ++ putFixed32 (UInt32.ofNat e.2)

def BinningPolicy.serialize : BinningPolicy → Bytes
  | .equality entries => putFixed32 (UInt32.ofNat entries.length) ++ entries.flatMap putEntry
  | .range boundaries => boundaries.serialize

def parseEntries (b : Bytes) : ℕ → ℕ → Option (List (Bytes × ℕ))
  | 0, _ => some []
  | n + 1, ptr => do
      let (keyLen, keyStart) ← getVarint32Ptr b ptr
      let key ← readAt b keyStart keyLen.toNat
      let ptr := keyStart + keyLen.toNat
      let bin ← decodeFixed32 b ptr
      let rest ← parseEntries b n (ptr + 4)
      return (key, bin.toNat) :: rest

def BinningPolicy.parse (b : Bytes) (ptr : ℕ) : IndexType → Option BinningPolicy
  | .equality => do
      let count ← decodeFixed32 b ptr
      let entries ← parseEntries b count.toNat (ptr + 4)
      return .equality entries
  | .range => do
      let (boundaries, _) ← BytesList.parse b ptr
      return .range boundaries

theorem parseEntries_of_hasAt {b : Bytes} {entries : List (Bytes × ℕ)} {ptr : ℕ}
    (h : HasAt b ptr (entries.flatMap putEntry)) (hlen : b.length < 2 ^ 32)
    (hbins : ∀ e ∈ entries, e.2 < 2 ^ 32) :
    parseEntries b entries.length ptr = some entries := by
  induction entries generalizing ptr with
  | nil => rfl
  | cons e entries ih =>
      obtain ⟨key, bin⟩ := e
      rw [List.flatMap_cons, putEntry, putLengthPrefixedSlice] at h
      simp only at h
      rw [List.forall_mem_cons] at hbins
      have hkey : key.length < 2 ^ 32 := by
        have hle := h.left.left.right.length_le
        omega
      have hmod : key.length % 2 ^ 32 = key.length := Nat.mod_eq_of_lt hkey
      rw [hmod] at h
      have hnat : (UInt32.ofNat key.length).toNat = key.length := by
        rw [UInt32.toNat_ofNat', hmod]
      have hbin : (UInt32.ofNat bin).toNat = bin := by
        rw [UInt32.toNat_ofNat', Nat.mod_eq_of_lt hbins.1]
      -- the length, the key, the bin and the entries after it
      have hread := h.left.left.right.readAt_eq rfl
      have hdecode := decodeFixed32_of_hasAt h.left.right
      have hrest := h.right
      simp only [List.length_append, length_putFixed32, ← Nat.add_assoc] at hdecode hrest
      rw [List.length_cons, parseEntries, getVarint32Ptr_of_hasAt hkey h.left.left.left]
      simp only [Option.bind_eq_bind, Option.bind_some, hnat, hread, hdecode, ih hrest hbins.2,
        Option.pure_def, hbin]

/-- An entry has its bin's four bytes at least. -/
theorem four_mul_length_le (entries : List (Bytes × ℕ)) :
    4 * entries.length ≤ (entries.flatMap putEntry).length := by
  induction entries with
  | nil => simp
  | cons e entries ih =>
      rw [List.flatMap_cons, List.length_append, List.length_cons, putEntry, List.length_append,
        length_putFixed32]
      omega

theorem BinningPolicy.parse_of_hasAt {b : Bytes} {policy : BinningPolicy} {ptr : ℕ}
    (h : HasAt b ptr policy.serialize) (hlen : b.length < 2 ^ 32)
    (hpolicy : policy.Writable (2 ^ 32)) :
    BinningPolicy.parse b ptr policy.indexType = some policy := by
  cases policy with
  | equality entries =>
      rw [serialize] at h
      have hcount : (UInt32.ofNat entries.length).toNat = entries.length := by
        have hle := h.right.length_le
        have hcount := four_mul_length_le entries
        rw [UInt32.toNat_ofNat', Nat.mod_eq_of_lt (by omega)]
      have hrest := h.right
      rw [length_putFixed32] at hrest
      rw [indexType, parse, decodeFixed32_of_hasAt h.left]
      simp only [Option.bind_eq_bind, Option.bind_some, hcount,
        parseEntries_of_hasAt hrest hlen hpolicy]
      rfl
  | range l =>
      obtain ⟨vs, rfl⟩ := hpolicy
      rw [indexType, parse, BytesList.parse_of_hasAt h hlen]
      rfl

/-! ### Directory -/

def IndexType.ofByte? (b : UInt8) : Option IndexType :=
  if b = 0 then some .equality else if b = 1 then some .range else none

theorem IndexType.ofByte?_toByte (t : IndexType) : ofByte? t.toByte = some t := by
  cases t <;> rfl

theorem mapM_ofByte?_toByte (types : List IndexType) :
    (types.map IndexType.toByte).mapM IndexType.ofByte? = some types := by
  induction types with
  | nil => rfl
  | cons t types ih =>
      rw [List.map_cons, List.mapM_cons, IndexType.ofByte?_toByte, ih]
      rfl

/-- Everything a reader must know before touching the body. -/
structure Directory where
  indexTypes : List IndexType
  binCounts : List UInt32
  indexEntriesCnt : UInt32
  distinctCnts : List UInt64
  /-- Per bin, the tombstones last; likewise sizes and offsets, and the offsets
  also have the end. -/
  binCardinalities : List UInt32
  bitmapSizes : List UInt32
  policyOffsets : List UInt32
  bitmapOffsets : List UInt32
  deriving DecidableEq, Repr

namespace Directory

def serialize (d : Directory) : Bytes :=
  putFixed32 (UInt32.ofNat d.indexTypes.length) ++ d.indexTypes.map IndexType.toByte ++
    d.binCounts.flatMap putFixed32 ++ putFixed32 d.indexEntriesCnt ++
    d.distinctCnts.flatMap putFixed64 ++ d.binCardinalities.flatMap putFixed32 ++
    d.bitmapSizes.flatMap putFixed32 ++ d.policyOffsets.flatMap putFixed32 ++
    d.bitmapOffsets.flatMap putFixed32

theorem length_serialize (d : Directory) :
    d.serialize.length = 8 + d.indexTypes.length + 4 * d.binCounts.length +
      8 * d.distinctCnts.length + 4 * d.binCardinalities.length + 4 * d.bitmapSizes.length +
      4 * d.policyOffsets.length + 4 * d.bitmapOffsets.length := by
  simp only [serialize, List.length_append, List.length_map, length_putFixed32,
    length_flatMap_putFixed32, length_flatMap_putFixed64]
  omega

/-- Read forward from `attr_num`, so that every following array's size is
known. -/
def parse (b : Bytes) (dir : ℕ) : Option Directory := do
  let attrNum ← decodeFixed32 b dir
  let dir := dir + 4
  let types ← readAt b dir attrNum.toNat
  let indexTypes ← types.mapM IndexType.ofByte?
  let dir := dir + attrNum.toNat
  let binCounts ← decodeFixed32s b dir attrNum.toNat
  let dir := dir + 4 * attrNum.toNat
  let totalBins := binCounts.foldl (· + ·) 0
  let indexEntriesCnt ← decodeFixed32 b dir
  let dir := dir + 4
  let distinctCnts ← decodeFixed64s b dir attrNum.toNat
  let dir := dir + 8 * attrNum.toNat
  let bitmapsCnt := totalBins + 1
  let binCardinalities ← decodeFixed32s b dir bitmapsCnt.toNat
  let dir := dir + 4 * bitmapsCnt.toNat
  let bitmapSizes ← decodeFixed32s b dir bitmapsCnt.toNat
  let dir := dir + 4 * bitmapsCnt.toNat
  let policyOffsets ← decodeFixed32sTo b dir attrNum
  let dir := dir + 4 * (attrNum + 1).toNat
  let bitmapOffsets ← decodeFixed32sTo b dir bitmapsCnt
  return { indexTypes, binCounts, indexEntriesCnt, distinctCnts, binCardinalities, bitmapSizes,
           policyOffsets, bitmapOffsets }

/-- A directory is as long as its attribute count says. -/
theorem attrNum_le {b : Bytes} {dir : ℕ} {d : Directory} {attrNum : UInt32}
    (hnum : decodeFixed32 b dir = some attrNum) (h : parse b dir = some d) :
    4 * attrNum.toNat ≤ b.length := by
  rw [parse, hnum] at h
  obtain ⟨n, hn, h⟩ := Option.bind_eq_some_iff.1 h
  obtain rfl := Option.some.inj hn
  obtain ⟨types, -, h⟩ := Option.bind_eq_some_iff.1 h
  obtain ⟨indexTypes, -, h⟩ := Option.bind_eq_some_iff.1 h
  obtain ⟨binCounts, hcounts, -⟩ := Option.bind_eq_some_iff.1 h
  rcases Nat.eq_zero_or_pos attrNum.toNat with hzero | hpos
  · omega
  · have := decodeFixed32s_le hcounts hpos
    omega

/-- The array lengths a reader infers are those that were written. -/
structure WellFormed (d : Directory) : Prop where
  attrs : d.indexTypes.length < 2 ^ 32 - 1
  bins : (d.binCounts.foldl (· + ·) 0).toNat + 1 = d.bitmapSizes.length
  bins_lt : d.bitmapSizes.length < 2 ^ 32 - 1
  binCounts : d.binCounts.length = d.indexTypes.length
  distinctCnts : d.distinctCnts.length = d.indexTypes.length
  binCardinalities : d.binCardinalities.length = d.bitmapSizes.length
  policyOffsets : d.policyOffsets.length = d.indexTypes.length + 1
  bitmapOffsets : d.bitmapOffsets.length = d.bitmapSizes.length + 1

theorem parse_of_hasAt {d : Directory} {b : Bytes} {dir : ℕ} (hd : d.WellFormed)
    (h : HasAt b dir d.serialize) : parse b dir = some d := by
  have hattrs := hd.attrs
  have hbins := hd.bins
  have hlt := hd.bins_lt
  have hnum : (UInt32.ofNat d.indexTypes.length).toNat = d.indexTypes.length := by
    rw [UInt32.toNat_ofNat', Nat.mod_eq_of_lt (by omega)]
  have hnum' : (UInt32.ofNat d.indexTypes.length + 1).toNat = d.policyOffsets.length := by
    rw [UInt32.toNat_add, hnum, hd.policyOffsets]
    show (_ + 1) % _ = _
    omega
  have hcnt : (d.binCounts.foldl (· + ·) 0 + 1).toNat = d.bitmapSizes.length := by
    rw [UInt32.toNat_add]
    show (_ + 1) % _ = _
    omega
  have hcnt' : (d.binCounts.foldl (· + ·) 0 + 1 + 1).toNat = d.bitmapOffsets.length := by
    rw [UInt32.toNat_add, hcnt, hd.bitmapOffsets]
    show (_ + 1) % _ = _
    omega
  rw [serialize] at h
  -- the nine parts, each where the ones before it end
  have hnums := decodeFixed32_of_hasAt h.left.left.left.left.left.left.left.left
  have htypes := h.left.left.left.left.left.left.left.right.readAt_eq (List.length_map _)
  have hcounts := decodeFixed32s_of_hasAt h.left.left.left.left.left.left.right
  have hentries := decodeFixed32_of_hasAt h.left.left.left.left.left.right
  have hdistinct := decodeFixed64s_of_hasAt h.left.left.left.left.right
  have hcards := decodeFixed32s_of_hasAt h.left.left.left.right
  have hsizes := decodeFixed32s_of_hasAt h.left.left.right
  have hpolicies := decodeFixed32s_of_hasAt h.left.right
  have hoffsets := decodeFixed32s_of_hasAt h.right
  simp only [List.length_append, List.length_map, length_putFixed32, length_flatMap_putFixed32,
    length_flatMap_putFixed64, hd.binCounts, hd.distinctCnts, hd.binCardinalities, ← Nat.add_assoc]
    at htypes hcounts hentries hdistinct hcards hsizes hpolicies hoffsets
  have hne : UInt32.ofNat d.indexTypes.length + 1 ≠ 0 := by
    rw [ne_eq, ← UInt32.toNat_inj, hnum', hd.policyOffsets]
    exact Nat.succ_ne_zero _
  have hne' : d.binCounts.foldl (· + ·) 0 + 1 + 1 ≠ 0 := by
    rw [ne_eq, ← UInt32.toNat_inj, hcnt', hd.bitmapOffsets]
    exact Nat.succ_ne_zero _
  rw [parse, hnums]
  simp only [Option.bind_eq_bind, Option.bind_some, hnum, htypes, mapM_ofByte?_toByte, hcounts,
    hentries, hdistinct, hcnt, hcards, hsizes, decodeFixed32sTo, if_neg hne, hnum', hpolicies,
    if_neg hne', hcnt', hoffsets, Option.pure_def]

end Directory

end BitLSM
