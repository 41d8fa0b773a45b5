import Mathlib.Data.Nat.Bitwise
import BitLSM.Builder.Build
import BitLSM.Format

/-!
Writing the index blob.

All offsets of the blob are `uint32_t`. A bitmap is written at its offset
into a string that was resized to the last offset. A write outside the
string's memory is undefined and `none` here; one behind its end leaves no
trace. As long as the padded end of the last bitmap fits 32 bits, no offset
wraps: every bitmap lies where its offset says, each below the next one's.
-/

namespace BitLSM

open Wire

def align32 (off : UInt32) : UInt32 := (off + 31) &&& ~~~31

/-- `std::string::resize`: cut off, or filled with zeros. -/
def resize (b : Bytes) (n : ℕ) : Bytes := b.take n ++ List.replicate (n - b.length) 0

/-- Each bitmap's padded start, and the end of the last one. -/
def bitmapOffsetsFrom (start : UInt32) : List UInt32 → List UInt32
  | [] => [start]
  | size :: sizes => start :: bitmapOffsetsFrom (align32 (start + size)) sizes

/-- A copy into a string that has `cap` bytes of memory. The bytes behind its end
are not part of it, and the next append replaces them. -/
def writeInto (cap : ℕ) (out : Bytes) (off : ℕ) (bs : Bytes) : Option Bytes :=
  if off + bs.length ≤ cap then
    some ((out.take off ++ bs ++ out.drop (off + bs.length)).take out.length)
  else none

def writeBitmaps (frozen : FrozenCodec) (cap : ℕ) (out : Bytes)
    (bitmaps : List (Roaring × UInt32)) : Option Bytes :=
  bitmaps.foldlM (fun out (r, off) => writeInto cap out off.toNat (frozen.freeze r)) out

/-- Each policy's start, and the end of the last one. -/
def policyOffsetsFrom (start : ℕ) : List Bytes → List UInt32
  | [] => [UInt32.ofNat start]
  | p :: ps => UInt32.ofNat start :: policyOffsetsFrom (start + p.length) ps

namespace BitmapIndex

def bitmapSizes (frozen : FrozenCodec) (idx : BitmapIndex) : List UInt32 :=
  idx.bitmaps.map fun r => UInt32.ofNat (frozen.freeze r).length

def binCardinalities (idx : BitmapIndex) : List UInt32 :=
  idx.bitmaps.map fun r => UInt32.ofNat r.card

def policies (idx : BitmapIndex) : List Bytes := idx.binningPolicy.map BinningPolicy.serialize

end BitmapIndex

namespace SABIBuilder

def bitmapOffsets (frozen : FrozenCodec) (b : SABIBuilder) (idx : BitmapIndex) : List UInt32 :=
  bitmapOffsetsFrom (align32 (UInt32.ofNat b.indexBlob.length)) (idx.bitmapSizes frozen)

/-- The directory of a blob whose policies start at `policyOff`. -/
def directory (frozen : FrozenCodec) (b : SABIBuilder) (idx : BitmapIndex) (policyOff : ℕ) :
    Directory where
  indexTypes := b.schema.indexTypes
  binCounts := idx.bitmapNums.map UInt32.ofNat
  indexEntriesCnt := b.indexEntriesCnt
  distinctCnts := idx.distinctCnts.map UInt64.ofNat
  binCardinalities := idx.binCardinalities
  bitmapSizes := idx.bitmapSizes frozen
  policyOffsets := policyOffsetsFrom policyOff idx.policies
  bitmapOffsets := b.bitmapOffsets frozen idx

/-- The second half of `Finish`: make the index blob. -/
def writeBlob (rt : Runtime) (b : SABIBuilder) (idx : BitmapIndex) : Option Bytes := do
  let offsets := b.bitmapOffsets rt.frozen idx
  let back := (offsets.getLastD 0).toNat
  let out ← writeBitmaps rt.frozen (rt.string.capacity b.indexBlob.length back)
    (resize b.indexBlob back) (idx.bitmaps.zip offsets)
  let body := out ++ idx.policies.flatten
  return body ++ (b.directory rt.frozen idx out.length).serialize ++
    putFixed32 (UInt32.ofNat body.length) ++ putFixed32 kBitLSMFormatVersion ++
    putFixed32 kSABIFooterMagic

def finish (rt : Runtime) (b : SABIBuilder) : Option Bytes := do
  let idx ← b.buildIndex rt
  b.writeBlob rt idx

end SABIBuilder

/-! ### Positions without a limit -/

/-- Rounded up to a 32-byte boundary. -/
def pad32 (n : ℕ) : ℕ := (n + 31) / 32 * 32

def paddedSize (frozen : FrozenCodec) (bitmaps : List Roaring) : ℕ :=
  (bitmaps.map fun r => pad32 (frozen.freeze r).length).sum

/-- Where bitmap `i` starts behind `entries` index entries. -/
def BitmapIndex.bitmapStart (frozen : FrozenCodec) (idx : BitmapIndex) (entries i : ℕ) : ℕ :=
  pad32 (12 * entries) + paddedSize frozen (idx.bitmaps.take i)

/-- The padded end of the last bitmap. -/
def BitmapIndex.regionEnd (frozen : FrozenCodec) (idx : BitmapIndex) (entries : ℕ) : ℕ :=
  pad32 (12 * entries) + paddedSize frozen idx.bitmaps

/-! ### Alignment -/

theorem and_not_31 (x : UInt32) : (x &&& ~~~31).toNat = x.toNat / 32 * 32 := by
  have hmask : (~~~31 : UInt32).toNat = (2 ^ 27 - 1) <<< 5 := by decide
  have hlt := x.toNat_lt
  rw [UInt32.toNat_and, hmask]
  apply Nat.eq_of_testBit_eq
  intro i
  have hshift : x.toNat / 32 * 32 = (x.toNat >>> 5) <<< 5 := by
    rw [Nat.shiftRight_eq_div_pow, Nat.shiftLeft_eq]
  rw [hshift, Nat.testBit_and, Nat.testBit_shiftLeft, Nat.testBit_shiftLeft,
    Nat.testBit_two_pow_sub_one, Nat.testBit_shiftRight]
  by_cases h5 : 5 ≤ i
  · by_cases h32 : i < 32
    · simp [h5, show i - 5 < 27 by omega, show 5 + (i - 5) = i by omega]
    · have hhigh : x.toNat.testBit i = false :=
        Nat.testBit_lt_two_pow (lt_of_lt_of_le hlt (Nat.pow_le_pow_right (by decide) (by omega)))
      simp [hhigh, show 5 + (i - 5) = i by omega]
  · simp [h5]

theorem align32_toNat (off : UInt32) :
    (align32 off).toNat = (off.toNat + 31) % 2 ^ 32 / 32 * 32 := by
  rw [align32, and_not_31, UInt32.toNat_add]
  rfl

theorem align32_mod (off : UInt32) : (align32 off).toNat % 32 = 0 := by
  rw [align32_toNat]
  omega

theorem align32_le (off : UInt32) : (align32 off).toNat ≤ 2 ^ 32 - 32 := by
  rw [align32_toNat]
  omega

/-- Padding does not wrap below the last boundary. -/
theorem le_align32 {off : UInt32} (h : off.toNat ≤ 2 ^ 32 - 32) :
    off.toNat ≤ (align32 off).toNat := by
  rw [align32_toNat]
  omega

/-! ### Offsets -/

theorem length_bitmapOffsetsFrom (start : UInt32) (sizes : List UInt32) :
    (bitmapOffsetsFrom start sizes).length = sizes.length + 1 := by
  induction sizes generalizing start with
  | nil => rfl
  | cons size sizes ih => rw [bitmapOffsetsFrom, List.length_cons, ih, List.length_cons]

theorem bitmapOffsetsFrom_mod {start : UInt32} (hstart : start.toNat % 32 = 0)
    (sizes : List UInt32) : ∀ off ∈ bitmapOffsetsFrom start sizes, off.toNat % 32 = 0 := by
  induction sizes generalizing start with
  | nil => simpa [bitmapOffsetsFrom] using hstart
  | cons size sizes ih =>
      rw [bitmapOffsetsFrom, List.forall_mem_cons]
      exact ⟨hstart, ih (align32_mod _)⟩

theorem toNat_align32_add {start : UInt32} (hstart : start.toNat % 32 = 0) (n : ℕ) :
    (align32 (start + UInt32.ofNat n)).toNat = (start.toNat + pad32 n) % 2 ^ 32 := by
  rw [align32_toNat, UInt32.toNat_add, UInt32.toNat_ofNat', pad32]
  omega

/-- An offset is the bitmap's position, in 32 bits. -/
theorem bitmapOffsetsFrom_toNat {frozen : FrozenCodec} {start off : UInt32}
    (hstart : start.toNat % 32 = 0) {bitmaps : List Roaring} {i : ℕ}
    (hoff : (bitmapOffsetsFrom start
      (bitmaps.map fun r => UInt32.ofNat (frozen.freeze r).length))[i]? = some off) :
    off.toNat = (start.toNat + paddedSize frozen (bitmaps.take i)) % 2 ^ 32 := by
  induction bitmaps generalizing start i with
  | nil =>
      obtain rfl : i = 0 := by
        have := (List.getElem?_eq_some_iff.1 hoff).1
        rw [length_bitmapOffsetsFrom] at this
        simpa using this
      obtain rfl : start = off := Option.some.inj hoff
      have hlt := start.toNat_lt
      simp [paddedSize, Nat.mod_eq_of_lt hlt]
  | cons r rs ih =>
      rw [List.map_cons, bitmapOffsetsFrom] at hoff
      cases i with
      | zero =>
          obtain rfl : start = off := Option.some.inj hoff
          have hlt := start.toNat_lt
          simp [paddedSize, Nat.mod_eq_of_lt hlt]
      | succ i =>
          rw [ih (align32_mod _) hoff, toNat_align32_add hstart, List.take_succ_cons, paddedSize,
            paddedSize, List.map_cons, List.sum_cons]
          omega

theorem length_policyOffsetsFrom (start : ℕ) (ps : List Bytes) :
    (policyOffsetsFrom start ps).length = ps.length + 1 := by
  induction ps generalizing start with
  | nil => rfl
  | cons p ps ih => rw [policyOffsetsFrom, List.length_cons, ih, List.length_cons]

/-! ### Bitmaps in place -/

/-- Every bitmap lies at its offset, and ends before the next one's. -/
structure Laid (frozen : FrozenCodec) (bitmaps : List Roaring) (offsets : List UInt32)
    (out : Bytes) : Prop where
  at_offset : ∀ (i : ℕ) r off, bitmaps[i]? = some r → offsets[i]? = some off →
    HasAt out off.toNat (frozen.freeze r)
  before_next : ∀ (i : ℕ) r off next, bitmaps[i]? = some r → offsets[i]? = some off →
    offsets[i + 1]? = some next → off.toNat + (frozen.freeze r).length ≤ next.toNat

theorem Laid.cons {frozen : FrozenCodec} {r : Roaring} {rs : List Roaring} {off next : UInt32}
    {offs : List UInt32} {out : Bytes} (h : Laid frozen rs (next :: offs) out)
    (hat : HasAt out off.toNat (frozen.freeze r))
    (hle : off.toNat + (frozen.freeze r).length ≤ next.toNat) :
    Laid frozen (r :: rs) (off :: next :: offs) out := by
  refine ⟨fun i s o hs ho => ?_, fun i s o n hs ho hn => ?_⟩
  · cases i with
    | zero =>
        obtain rfl : r = s := Option.some.inj hs
        obtain rfl : off = o := Option.some.inj ho
        exact hat
    | succ i => exact h.at_offset i s o hs ho
  · cases i with
    | zero =>
        obtain rfl : r = s := Option.some.inj hs
        obtain rfl : off = o := Option.some.inj ho
        obtain rfl : next = n := Option.some.inj hn
        exact hle
    | succ i => exact h.before_next i s o n hs ho hn

theorem bitmapOffsetsFrom_eq_cons (start : UInt32) (sizes : List UInt32) :
    ∃ offs, bitmapOffsetsFrom start sizes = start :: offs := by
  cases sizes <;> exact ⟨_, rfl⟩

theorem writeInto_eq_writeAt {cap off : ℕ} {out bs : Bytes} (h : off + bs.length ≤ out.length)
    (hcap : out.length ≤ cap) : writeInto cap out off bs = writeAt out off bs := by
  rw [writeInto, writeAt, if_pos (h.trans hcap), if_pos h, List.take_of_length_le]
  simp only [List.length_append, List.length_take, List.length_drop]
  omega

theorem length_writeInto {cap off : ℕ} {out out' bs : Bytes}
    (h : writeInto cap out off bs = some out') : out'.length = out.length := by
  unfold writeInto at h
  split at h
  · obtain rfl := Option.some.inj h
    simp only [List.length_append, List.length_take, List.length_drop]
    omega
  · cases h

theorem length_writeBitmaps {frozen : FrozenCodec} {cap : ℕ} {out out' : Bytes}
    {bitmaps : List (Roaring × UInt32)} (h : writeBitmaps frozen cap out bitmaps = some out') :
    out'.length = out.length := by
  induction bitmaps generalizing out with
  | nil => rw [Option.some.inj h]
  | cons x xs ih =>
      rw [writeBitmaps, List.foldlM_cons, Option.bind_eq_bind, Option.bind_eq_some_iff] at h
      obtain ⟨out₁, hwrite, h⟩ := h
      exact (ih h).trans (length_writeInto hwrite)

theorem paddedSize_cons (frozen : FrozenCodec) (r : Roaring) (rs : List Roaring) :
    paddedSize frozen (r :: rs) = pad32 (frozen.freeze r).length + paddedSize frozen rs := rfl

/-- Bitmaps whose padded sizes fit into the string are laid out one behind the
other, and what lies before them stays. -/
theorem writeBitmaps_laid {frozen : FrozenCodec} {bitmaps : List Roaring} {start : UInt32}
    {cap : ℕ} {out : Bytes} (hstart : start.toNat % 32 = 0)
    (hroom : start.toNat + paddedSize frozen bitmaps ≤ out.length)
    (hlen : out.length ≤ 2 ^ 32 - 32) (hcap : out.length ≤ cap) :
    ∃ out', writeBitmaps frozen cap out (bitmaps.zip (bitmapOffsetsFrom start
        (bitmaps.map fun r => UInt32.ofNat (frozen.freeze r).length))) = some out' ∧
      (∀ o xs, HasAt out o xs → o + xs.length ≤ start.toNat → HasAt out' o xs) ∧
      Laid frozen bitmaps (bitmapOffsetsFrom start
        (bitmaps.map fun r => UInt32.ofNat (frozen.freeze r).length)) out' := by
  induction bitmaps generalizing start out with
  | nil => exact ⟨out, rfl, fun _ _ hx _ => hx, by simp, by simp⟩
  | cons r rs ih =>
      rw [paddedSize_cons] at hroom
      have hpad : (frozen.freeze r).length ≤ pad32 (frozen.freeze r).length := by
        rw [pad32]
        omega
      have hfits : start.toNat + (frozen.freeze r).length ≤ out.length := by omega
      obtain ⟨out₁, hwrite⟩ := exists_writeAt out (frozen.freeze r) hfits
      have hlen₁ := length_writeAt hwrite
      -- the next offset is past this bitmap
      have hnext := toNat_align32_add hstart (frozen.freeze r).length
      rw [Nat.mod_eq_of_lt (by omega)] at hnext
      have hroom₁ : (align32 (start + UInt32.ofNat (frozen.freeze r).length)).toNat +
          paddedSize frozen rs ≤ out₁.length := by
        rw [hnext]
        omega
      obtain ⟨out', hrest, hkeep, hlaid⟩ := ih (align32_mod _) hroom₁ (by omega) (by omega)
      obtain ⟨offs, hoffs⟩ := bitmapOffsetsFrom_eq_cons
        (align32 (start + UInt32.ofNat (frozen.freeze r).length))
        (rs.map fun r => UInt32.ofNat (frozen.freeze r).length)
      refine ⟨out', ?_, fun o xs hx hle => ?_, ?_⟩
      · rw [← writeInto_eq_writeAt hfits hcap] at hwrite
        rw [List.map_cons, bitmapOffsetsFrom, List.zip_cons_cons, writeBitmaps, List.foldlM_cons]
        exact Option.bind_eq_some_iff.2 ⟨out₁, hwrite, hrest⟩
      · exact hkeep o xs (hx.writeAt hwrite (Or.inl hle)) (by omega)
      · rw [List.map_cons, bitmapOffsetsFrom]
        rw [hoffs] at hlaid ⊢
        exact hlaid.cons (hkeep _ _ (hasAt_writeAt hwrite) (by omega)) (by omega)

/-- Ends that do not pass a limit, seen from a position before the bitmaps, bound
the whole region. -/
theorem add_paddedSize_le {frozen : FrozenCodec} {bitmaps : List Roaring} {base start : UInt32}
    {n : ℕ} (hstart : start.toNat % 32 = 0) (hbase : base.toNat ≤ start.toNat)
    (hle : start.toNat ≤ 2 ^ 32 - 32) (hn : base.toNat + n ≤ 2 ^ 32 - 32)
    (hends : ∀ (i : ℕ) r off, bitmaps[i]? = some r → (bitmapOffsetsFrom start
      (bitmaps.map fun r => UInt32.ofNat (frozen.freeze r).length))[i]? = some off →
      (off - base).toNat + (frozen.freeze r).length ≤ n) :
    start.toNat + paddedSize frozen bitmaps ≤ 2 ^ 32 - 32 := by
  induction bitmaps generalizing start with
  | nil => exact hle
  | cons r rs ih =>
      have hhead := hends 0 r start rfl rfl
      rw [UInt32.toNat_sub_of_le _ _ (UInt32.le_iff_toNat_le.2 hbase)] at hhead
      have hpad : pad32 (frozen.freeze r).length < (frozen.freeze r).length + 32 := by
        rw [pad32]
        omega
      have hdvd : pad32 (frozen.freeze r).length % 32 = 0 := by
        rw [pad32]
        omega
      have hnext := toNat_align32_add hstart (frozen.freeze r).length
      rw [Nat.mod_eq_of_lt (by omega)] at hnext
      have hrest := @ih (align32 (start + UInt32.ofNat (frozen.freeze r).length)) (align32_mod _)
        (by omega) (by omega) fun i s off hs hoff => hends (i + 1) s off hs hoff
      rw [paddedSize_cons]
      omega

/-- The extents of a laid out region are in order. -/
theorem Laid.disjoint {frozen : FrozenCodec} {bitmaps : List Roaring} {offsets : List UInt32}
    {out : Bytes} (h : Laid frozen bitmaps offsets out)
    (hlen : offsets.length = bitmaps.length + 1) {i j : ℕ} {r : Roaring} {off next : UInt32}
    (hij : i < j) (hr : bitmaps[i]? = some r) (hoff : offsets[i]? = some off)
    (hnext : offsets[j]? = some next) :
    off.toNat + (frozen.freeze r).length ≤ next.toNat := by
  induction j generalizing next with
  | zero => omega
  | succ j ih =>
      have hj : j < bitmaps.length := by
        have := (List.getElem?_eq_some_iff.1 hnext).1
        omega
      have hrj := List.getElem?_eq_getElem hj
      have hoffj := List.getElem?_eq_getElem (show j < offsets.length by omega)
      have hstep := h.before_next j _ _ _ hrj hoffj hnext
      rcases Nat.eq_or_lt_of_le (Nat.le_of_lt_succ hij) with rfl | hlt
      · rw [hr, Option.some.injEq] at hrj
        rw [hoff, Option.some.injEq] at hoffj
        rw [hrj, hoffj]
        exact hstep
      · exact le_trans (ih hlt hoffj) (by omega)

/-! ### The finished blob -/

theorem length_resize (b : Bytes) (n : ℕ) : (resize b n).length = n := by
  simp [resize]
  omega

theorem resize_of_le {b : Bytes} {n : ℕ} (h : b.length ≤ n) :
    resize b n = b ++ List.replicate (n - b.length) 0 := by
  rw [resize, List.take_of_length_le h]

theorem bitmapOffsetsFrom_le {start : UInt32} (hstart : start.toNat ≤ 2 ^ 32 - 32)
    (sizes : List UInt32) :
    ∀ off ∈ bitmapOffsetsFrom start sizes, off.toNat ≤ 2 ^ 32 - 32 := by
  induction sizes generalizing start with
  | nil => simpa [bitmapOffsetsFrom] using hstart
  | cons size sizes ih =>
      rw [bitmapOffsetsFrom, List.forall_mem_cons]
      exact ⟨hstart, ih (align32_le _)⟩

namespace SABIBuilder

variable {frozen : FrozenCodec} {b : SABIBuilder} {idx : BitmapIndex} {blob : Bytes}

theorem length_bitmapOffsets :
    (b.bitmapOffsets frozen idx).length = idx.bitmaps.length + 1 := by
  rw [bitmapOffsets, length_bitmapOffsetsFrom, BitmapIndex.bitmapSizes, List.length_map]

theorem bitmapOffsets_mod :
    ∀ off ∈ b.bitmapOffsets frozen idx, off.toNat % 32 = 0 :=
  bitmapOffsetsFrom_mod (align32_mod _) _

theorem bitmapOffsets_le :
    ∀ off ∈ b.bitmapOffsets frozen idx, off.toNat ≤ 2 ^ 32 - 32 :=
  bitmapOffsetsFrom_le (align32_le _) _

theorem getLastD_bitmapOffsets :
    (b.bitmapOffsets frozen idx)[idx.bitmaps.length]? =
      some ((b.bitmapOffsets frozen idx).getLastD 0) := by
  have hlen := @length_bitmapOffsets frozen b idx
  rw [List.getLastD_eq_getLast?, List.getLast?_eq_getElem?, hlen, Nat.add_sub_cancel,
    List.getElem?_eq_getElem (by omega)]
  rfl

theorem head_bitmapOffsets :
    (b.bitmapOffsets frozen idx)[0]? = some (align32 (UInt32.ofNat b.indexBlob.length)) := by
  obtain ⟨offs, hoffs⟩ := bitmapOffsetsFrom_eq_cons
    (align32 (UInt32.ofNat b.indexBlob.length)) (idx.bitmapSizes frozen)
  rw [bitmapOffsets, hoffs]
  rfl

/-- The parts of a finished blob. -/
structure Formed (frozen : FrozenCodec) (b : SABIBuilder) (idx : BitmapIndex) (out blob : Bytes) :
    Prop where
  length : out.length = ((b.bitmapOffsets frozen idx).getLastD 0).toNat
  blob_eq : blob = out ++ idx.policies.flatten ++
    (b.directory frozen idx out.length).serialize ++
    putFixed32 (UInt32.ofNat (out ++ idx.policies.flatten).length) ++
    putFixed32 kBitLSMFormatVersion ++ putFixed32 kSABIFooterMagic

/-- The first part has the bitmaps in place, behind the index entries. -/
structure Written (frozen : FrozenCodec) (b : SABIBuilder) (idx : BitmapIndex) (out blob : Bytes) :
    Prop extends Formed frozen b idx out blob where
  keep : ∀ o xs, HasAt (resize b.indexBlob out.length) o xs →
    o + xs.length ≤ (align32 (UInt32.ofNat b.indexBlob.length)).toNat → HasAt out o xs
  laid : Laid frozen idx.bitmaps (b.bitmapOffsets frozen idx) out

variable {rt : Runtime}

theorem writeBlob_formed (h : b.writeBlob rt idx = some blob) :
    ∃ out, Formed rt.frozen b idx out blob := by
  obtain ⟨out, hout, h⟩ := Option.bind_eq_some_iff.1 h
  exact ⟨out, (length_writeBitmaps hout).trans (length_resize _ _), (Option.some.inj h).symm⟩

/-- From the first offset on, no offset wraps. -/
def Room (frozen : FrozenCodec) (b : SABIBuilder) (idx : BitmapIndex) : Prop :=
  (align32 (UInt32.ofNat b.indexBlob.length)).toNat + paddedSize frozen idx.bitmaps ≤ 2 ^ 32 - 32

theorem room_of_regionEnd_le {n : ℕ} (hindex : b.indexBlob.length = 12 * n)
    (h : idx.regionEnd frozen n ≤ 2 ^ 32 - 32) : b.Room frozen idx := by
  rw [BitmapIndex.regionEnd, pad32] at h
  have hlt : 12 * n < 2 ^ 32 := by omega
  rwa [Room, align32_toNat, UInt32.toNat_ofNat', hindex, Nat.mod_eq_of_lt hlt,
    Nat.mod_eq_of_lt (by omega)]

theorem toNat_bitmapOffsets {i : ℕ} {off : UInt32}
    (hoff : (b.bitmapOffsets frozen idx)[i]? = some off) :
    off.toNat = (pad32 b.indexBlob.length + paddedSize frozen (idx.bitmaps.take i)) % 2 ^ 32 := by
  rw [bitmapOffsets, BitmapIndex.bitmapSizes] at hoff
  rw [bitmapOffsetsFrom_toNat (align32_mod _) hoff, align32_toNat, UInt32.toNat_ofNat', pad32]
  omega

theorem exists_written (hroom : b.Room rt.frozen idx) :
    ∃ out blob, b.writeBlob rt idx = some blob ∧ Written rt.frozen b idx out blob := by
  set back := (b.bitmapOffsets rt.frozen idx).getLastD 0
  have hlast : back.toNat = (align32 (UInt32.ofNat b.indexBlob.length)).toNat +
      paddedSize rt.frozen idx.bitmaps := by
    have hoff : (b.bitmapOffsets rt.frozen idx)[idx.bitmaps.length]? = some back :=
      getLastD_bitmapOffsets
    rw [Room] at hroom
    rw [bitmapOffsets, BitmapIndex.bitmapSizes] at hoff
    rw [bitmapOffsetsFrom_toNat (align32_mod _) hoff, List.take_length, Nat.mod_eq_of_lt (by omega)]
  rw [Room, ← hlast] at hroom
  obtain ⟨out, hout, hkeep, hlaid⟩ := @writeBitmaps_laid rt.frozen idx.bitmaps
    (align32 (UInt32.ofNat b.indexBlob.length)) (rt.string.capacity b.indexBlob.length back.toNat)
    (resize b.indexBlob back.toNat) (align32_mod _) (by rw [length_resize, hlast])
    (by rw [length_resize]; exact hroom) (by rw [length_resize]; exact rt.string.le_capacity _ _)
  have hlen := (length_writeBitmaps hout).trans (length_resize _ _)
  refine ⟨out, _, Option.bind_eq_some_iff.2 ⟨out, hout, rfl⟩, ⟨hlen, rfl⟩, ?_, hlaid⟩
  rw [hlen]
  exact hkeep

theorem writeBlob_written (hroom : b.Room rt.frozen idx) (h : b.writeBlob rt idx = some blob) :
    ∃ out, Written rt.frozen b idx out blob := by
  obtain ⟨out, blob', h', hwritten⟩ := exists_written hroom
  exact ⟨out, Option.some.inj (h.symm.trans h') ▸ hwritten⟩

end SABIBuilder

end BitLSM
