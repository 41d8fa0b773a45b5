import BitLSM.Format

/-!
Parsing an index blob.

The reader checks no bounds. Here a read outside the blob is `none`, so a
parse that succeeds touched bytes of the blob only. In resident mode the
bitmaps are viewed at once; in metadata mode they stay in the file and are
loaded bin by bin.
-/

namespace BitLSM

open Wire

inductive SABIReaderMode where
  | resident
  | metadata
  deriving DecidableEq, Repr

structure SABIReader where
  mode : SABIReaderMode
  indexTypes : List IndexType
  bitmapNums : List UInt32
  distinctCnts : List UInt64
  /-- Per bin, the tombstones last; likewise sizes and offsets, and the offsets
  also have the end. -/
  binCardinalities : List UInt32
  bitmapSizes : List UInt32
  bitmapOffsets : List UInt32
  binningPolicy : List BinningPolicy
  dataEntriesCntPsum : List UInt32
  /-- Offset and size of each data block. -/
  blockHandles : List (UInt32 × UInt32)
  /-- Filled in resident mode. -/
  bitmaps : List Roaring
  tombstoneBitmap : Roaring

namespace SABIReader

/-- One 12-byte index entry; `i * 3` is computed in 32 bits. -/
def readIndexEntry (b : Bytes) (i : ℕ) : Option (UInt32 × UInt32 × UInt32) := do
  let base := i * 3 % 2 ^ 32 * 4
  let psum ← decodeFixed32 b base
  let offset ← decodeFixed32 b (base + 4)
  let size ← decodeFixed32 b (base + 8)
  return (psum, offset, size)

/-- The view of each bitmap in one copy of the bitmap region. -/
def residentViews (frozen : FrozenCodec) (b : Bytes) (d : Directory) : Option (List Roaring) := do
  let regionOff := d.bitmapOffsets.headD 0
  let regionLen := d.bitmapOffsets.getLastD 0 - regionOff
  let region ← readAt b regionOff.toNat regionLen.toNat
  (d.bitmapOffsets.zip d.bitmapSizes).mapM fun (off, size) =>
    (readAt region (off - regionOff).toNat size.toNat).map frozen.view

/-- The bitmaps of a resident reader; a metadata reader has none. -/
def views (frozen : FrozenCodec) (b : Bytes) (d : Directory) : SABIReaderMode →
    Option (List Roaring)
  | .resident => residentViews frozen b d
  | .metadata => some []

def parse (frozen : FrozenCodec) (mode : SABIReaderMode) (b : Bytes) : Option SABIReader := do
  let directoryOff ← if 12 ≤ b.length then decodeFixed32 b (b.length - 12) else none
  let d ← Directory.parse b directoryOff.toNat
  let binningPolicy ← (d.indexTypes.zip d.policyOffsets).mapM fun (t, off) =>
    BinningPolicy.parse b off.toNat t
  let bitmaps ← views frozen b d mode
  let entries ← (List.range d.indexEntriesCnt.toNat).mapM (readIndexEntry b)
  return {
    mode
    indexTypes := d.indexTypes
    bitmapNums := d.binCounts
    distinctCnts := d.distinctCnts
    binCardinalities := d.binCardinalities
    bitmapSizes := d.bitmapSizes
    bitmapOffsets := d.bitmapOffsets
    binningPolicy
    dataEntriesCntPsum := entries.map fun e => e.1
    blockHandles := entries.map fun e => e.2
    bitmaps := bitmaps.dropLast
    tombstoneBitmap := bitmaps.getLastD ∅ }

def totalBins (r : SABIReader) : ℕ := r.bitmapOffsets.length - 2

/-- The bitmap of a resident reader's bin; the tombstones are bin `totalBins`. -/
def residentBin (r : SABIReader) (flatIdx : ℕ) : Option Roaring :=
  if flatIdx = r.totalBins then some r.tombstoneBitmap else r.bitmaps[flatIdx]?

end SABIReader

end BitLSM
