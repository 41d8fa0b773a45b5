import Mathlib.Logic.Function.Basic
import BitLSM.Reader.Parse

/-!
Loading bins on demand.

A metadata reader gets a bin from the block cache, or reads a run of
missing bins from the file in one piece, or copies the run out of a span
prefetch. What the cache keeps and what a read returns is up to the
surroundings, which `BinEnv` lists moment by moment: between any two cache
operations entries may be dropped, and other readers of the same file may
insert bins of the runs they loaded. The bytes of the file never change.

A pinned bin is kept alive by its pin, so a pin is modelled by the bitmap it
shows. Reading outside of an arena is undefined and `none`.
-/

namespace BitLSM

open Wire

/-- The file of a table, and where the index blob starts in it. -/
structure TableRep where
  file : Bytes
  udiOff : ℕ

/-- What becomes of an asynchronous read when it is submitted. -/
inductive SubmitResult where
  | dropped
  | inFlight
  | ready
  deriving DecidableEq, Repr

/-- What the surroundings of the readers do at each moment. -/
structure BinEnv where
  /-- The keys the cache drops. -/
  evicts : ℕ → ℕ → Bool
  /-- Bins `i` of runs `[a, b]` that other readers of the file insert, as `(a, b, i)`. -/
  loads : ℕ → List (ℕ × ℕ × ℕ)
  /-- Whether an insert is admitted. -/
  admits : ℕ → Bool
  allocates : ℕ → Bool
  /-- Whether a file read returns all its bytes. -/
  reads : ℕ → Bool
  submits : ℕ → SubmitResult
  /-- Whether a submitted read has arrived in full when it is polled. -/
  polls : ℕ → Bool

/-- A bin held by a cache handle, or by the pin itself. -/
inductive SABIPinnedBin where
  | cached (view : Roaring)
  | owned (view : Roaring)

def SABIPinnedBin.view : SABIPinnedBin → Roaring
  | cached view => view
  | owned view => view

inductive SlotState where
  | submitted
  | populated (data : Bytes)
  | dead

structure PrefetchSlot where
  offset : ℕ
  len : ℕ
  remaining : ℕ
  state : SlotState

/-- Copy `[offset, offset + len)` out of a slot that has arrived. The slot is
freed once as many bytes as it has were copied. -/
def PrefetchSlot.copy (slot : PrefetchSlot) (data : Bytes) (offset len : ℕ) :
    Option (Bytes × PrefetchSlot) := do
  let bytes ← readAt data (offset - slot.offset) len
  let remaining := slot.remaining - min len slot.remaining
  return (bytes, { slot with remaining, state := if remaining = 0 then .dead else .populated data })

/-- The state the calls of a reader work on. -/
structure BinWorld where
  /-- The cached bins by key; `none` when the table has no block cache. -/
  cache : Option (ℕ → Option Roaring)
  /-- The slots of the scan's span prefetch. -/
  slots : List PrefetchSlot := []
  moment : ℕ := 0
  /-- The bins this reader has inserted so far. -/
  inserted : List ℕ := []

namespace SABIReader

/-- `[padded start of a, exact end of b)`, as an offset in the blob and a length. -/
def runExtent (r : SABIReader) (a b : ℕ) : Option (ℕ × ℕ) := do
  let offA ← r.bitmapOffsets[a]?
  let offB ← r.bitmapOffsets[b]?
  let sizeB ← r.bitmapSizes[b]?
  return (offA.toNat, ((offB - offA) + sizeB).toNat)

/-- Bin `i` in the arena of a run that starts at bin `a`. -/
def viewInRun (frozen : FrozenCodec) (r : SABIReader) (arena : Bytes) (a i : ℕ) :
    Option Roaring := do
  let offA ← r.bitmapOffsets[a]?
  let off ← r.bitmapOffsets[i]?
  let size ← r.bitmapSizes[i]?
  let bytes ← readAt arena (off - offA).toNat size.toNat
  return frozen.view bytes

/-- The offset part of a bin's cache key; the base key is the file's. -/
def binCacheKey (t : TableRep) (r : SABIReader) (flatIdx : ℕ) : Option ℕ := do
  let off ← r.bitmapOffsets[flatIdx]?
  return (t.udiOff + off.toNat) >>> 2

section

variable (frozen : FrozenCodec) (env : BinEnv) (t : TableRep) (r : SABIReader)

/-- What another reader of the file inserts for bin `i` of its run `[a, b]`. -/
def loadedElsewhere (a b i : ℕ) : Option (ℕ × Roaring) :=
  if a ≤ i ∧ i ≤ b ∧ b ≤ r.totalBins then do
    let (off, len) ← r.runExtent a b
    let arena ← readAt t.file (t.udiOff + off) len
    let view ← r.viewInRun frozen arena a i
    let key ← r.binCacheKey t i
    return (key, view)
  else none

def insertElsewhere (cache : ℕ → Option Roaring) : List (ℕ × ℕ × ℕ) → ℕ → Option Roaring
  | [] => cache
  | (a, b, i) :: loads =>
      match r.loadedElsewhere frozen t a b i with
      | some (key, view) => insertElsewhere (Function.update cache key (some view)) loads
      | none => insertElsewhere cache loads

/-- The surroundings act on the cache. -/
def tick (w : BinWorld) : BinWorld :=
  { w with
    cache := w.cache.map fun cache => r.insertElsewhere frozen t
      (fun key => if env.evicts w.moment key then none else cache key) (env.loads w.moment)
    moment := w.moment + 1 }

def probeBin (flatIdx : ℕ) (w : BinWorld) : Option (Option SABIPinnedBin × BinWorld) :=
  let w := r.tick frozen env t w
  match w.cache with
  | none => some (none, w)
  | some cache => do
      let key ← r.binCacheKey t flatIdx
      return ((cache key).map .cached, w)

/-- Serve `[offset, offset + len)` from the first slot around it. -/
def tryConsume (moment offset len : ℕ) :
    List PrefetchSlot → Option (Option Bytes × List PrefetchSlot)
  | [] => some (none, [])
  | slot :: slots =>
      if offset < slot.offset ∨ slot.offset + slot.len < offset + len then do
        let (bytes, slots) ← tryConsume moment offset len slots
        return (bytes, slot :: slots)
      else
        match slot.state with
        | .dead => some (none, slot :: slots)
        | .populated data => do
            let (bytes, slot) ← slot.copy data offset len
            return (some bytes, slot :: slots)
        | .submitted =>
            match if env.polls moment then readAt t.file slot.offset slot.len else none with
            | none => some (none, { slot with state := .dead } :: slots)
            | some data => do
                let (bytes, slot) ← slot.copy data offset len
                return (some bytes, slot :: slots)

/-- A call without a span prefetch finds no slot. -/
def consumeRun (off len : ℕ) (w : BinWorld) : Bool → Option (Option Bytes × List PrefetchSlot)
  | true => tryConsume env t w.moment off len w.slots
  | false => some (none, w.slots)

/-- The bytes of a run, from the prefetch or else from the file. -/
def fetchRun (off len : ℕ) (prefetch : Bool) (w : BinWorld) :
    Option (Option Bytes × BinWorld) := do
  let (bytes, slots) ← consumeRun env t off len w prefetch
  let bytes := bytes <|> if env.reads w.moment then readAt t.file off len else none
  return (bytes, { w with slots, moment := w.moment + 1 })

/-- Hand a decoded bin to the cache, or to its pin. -/
def insertBin (flatIdx : ℕ) (view : Roaring) (w : BinWorld) :
    Option (SABIPinnedBin × BinWorld) :=
  match w.cache with
  | none => some (.owned view, w)
  | some _ => do
      let key ← r.binCacheKey t flatIdx
      let w := r.tick frozen env t w
      if env.admits w.moment then
        return (.cached view,
          { w with
            cache := w.cache.map fun cache => Function.update cache key (some view)
            inserted := w.inserted ++ [flatIdx] })
      else return (.owned view, w)

/-- The pins of bins `i, i + 1, ..` of a run that starts at bin `a`. -/
def fillRun (arena : Bytes) (a : ℕ) : List ℕ → BinWorld → Option (List SABIPinnedBin × BinWorld)
  | [], w => some ([], w)
  | i :: is, w => do
      let view ← r.viewInRun frozen arena a i
      let (pin, w) ← r.insertBin frozen env t i view w
      let (pins, w) ← fillRun arena a is w
      return (pin :: pins, w)

/-- One read for bins `a` to `b`. -/
def loadRun (a b : ℕ) (prefetch : Bool) (w : BinWorld) :
    Option (Option (List SABIPinnedBin) × BinWorld) := do
  let (off, len) ← r.runExtent a b
  if env.allocates w.moment then
    let (bytes, w) ← fetchRun env t (t.udiOff + off) len prefetch w
    match bytes with
    | none => return (none, w)
    | some arena =>
        let (pins, w) ← r.fillRun frozen env t arena a (List.range' a (b + 1 - a)) w
        return (some pins, w)
  else return (none, { w with moment := w.moment + 1 })

/-- The answer of `Bin`: a null or a view, and the pin if it was set. -/
structure BinOut where
  view : Option Roaring
  pin : Option SABIPinnedBin

def bin (flatIdx : ℕ) (prefetch : Bool) (w : BinWorld) : Option (BinOut × BinWorld) :=
  if r.mode = .resident then do
    let view ← r.residentBin flatIdx
    return (⟨some view, none⟩, w)
  else do
    let (hit, w) ← r.probeBin frozen env t flatIdx w
    match hit with
    | some pin => return (⟨some pin.view, some pin⟩, w)
    | none =>
        -- a span of one
        let (pins, w) ← r.loadRun frozen env t flatIdx flatIdx prefetch w
        let pin := pins.bind List.head?
        return (⟨pin.map SABIPinnedBin.view, pin⟩, w)

/-- Probe bins `i, i + 1, ..`. -/
def probeAll : List ℕ → BinWorld → Option (List (Option SABIPinnedBin) × BinWorld)
  | [], w => some ([], w)
  | i :: is, w => do
      let (slot, w) ← r.probeBin frozen env t i w
      let (slots, w) ← probeAll is w
      return (slot :: slots, w)

/-- Load the empty slots in maximal contiguous runs; the first slot is bin
`flat`. Every round passes at least one slot, so as many rounds as slots are
enough. -/
def loadMisses (prefetch : Bool) : ℕ → ℕ → List (Option SABIPinnedBin) → BinWorld →
    Option (Option (List SABIPinnedBin) × BinWorld)
  | _, _, [], w => some (some [], w)
  | 0, _, _ :: _, _ => none
  | rounds + 1, flat, some pin :: slots, w => do
      let (pins, w) ← loadMisses prefetch rounds (flat + 1) slots w
      return (pins.map (pin :: ·), w)
  | rounds + 1, flat, none :: slots, w => do
      let more := (slots.takeWhile Option.isNone).length
      let (run, w) ← r.loadRun frozen env t flat (flat + more) prefetch w
      match run with
      | none => return (none, w)
      | some run =>
          let (pins, w) ← loadMisses prefetch rounds (flat + more + 1) (slots.drop more) w
          return (pins.map (run ++ ·), w)

/-- The answer of `BinRange`, with the output vectors. -/
structure BinRangeOut where
  ok : Bool
  outViews : List Roaring
  outPins : List SABIPinnedBin

def binRange (firstFlat lastFlat : ℕ) (outViews : List Roaring) (outPins : List SABIPinnedBin)
    (prefetch : Bool) (w : BinWorld) : Option (BinRangeOut × BinWorld) :=
  let flats := List.range' firstFlat (lastFlat + 1 - firstFlat)
  if r.mode = .resident then do
    let views ← flats.mapM r.residentBin
    return (⟨true, outViews ++ views, outPins⟩, w)
  else do
    let (slots, w) ← r.probeAll frozen env t flats w
    let (pins, w) ← r.loadMisses frozen env t prefetch slots.length firstFlat slots w
    match pins with
    | none => return (⟨false, outViews, outPins⟩, w)
    | some pins => return (⟨true, outViews ++ pins.map SABIPinnedBin.view, outPins ++ pins⟩, w)

/-- `SABISpanPrefetch::Submit`: a slot for the run of bins `a` to `b`. -/
def submit (a b : ℕ) (w : BinWorld) : Option BinWorld := do
  let (off, len) ← r.runExtent a b
  let slot (state : SlotState) : PrefetchSlot := ⟨t.udiOff + off, len, len, state⟩
  let w' := { w with moment := w.moment + 1 }
  match env.submits w.moment with
  | .dropped => return w'
  | .inFlight => return { w' with slots := w.slots ++ [slot .submitted] }
  | .ready =>
      match readAt t.file (t.udiOff + off) len with
      | none => return w'
      | some data => return { w' with slots := w.slots ++ [slot (.populated data)] }

end

/-! ### Calls -/

/-- The state before the first call, with a block cache or without. -/
def startBins (blockCache : Bool) : BinWorld where
  cache := if blockCache then some fun _ => none else none

inductive BinCall where
  | bin (flatIdx : ℕ) (prefetch : Bool)
  | binRange (firstFlat lastFlat : ℕ) (outViews : List Roaring) (outPins : List SABIPinnedBin)
      (prefetch : Bool)
  /-- A scan makes a new span prefetch. -/
  | newPrefetch
  | submit (a b : ℕ)

/-- What the asserts of the calls ask for. -/
def BinCall.InRange (bins : ℕ) : BinCall → Prop
  | bin flatIdx _ => flatIdx ≤ bins
  | binRange firstFlat lastFlat .. => firstFlat ≤ lastFlat ∧ lastFlat ≤ bins
  | newPrefetch => True
  | submit a b => a ≤ b ∧ b ≤ bins

/-- The state after a call. -/
def serve (frozen : FrozenCodec) (env : BinEnv) (t : TableRep) (r : SABIReader) (w : BinWorld) :
    BinCall → Option BinWorld
  | .bin flatIdx prefetch => (r.bin frozen env t flatIdx prefetch w).map Prod.snd
  | .binRange firstFlat lastFlat outViews outPins prefetch =>
      (r.binRange frozen env t firstFlat lastFlat outViews outPins prefetch w).map Prod.snd
  | .newPrefetch => some { w with slots := [] }
  | .submit a b => r.submit env t a b w

def serveAll (frozen : FrozenCodec) (env : BinEnv) (t : TableRep) (r : SABIReader) (w : BinWorld)
    (calls : List BinCall) : Option BinWorld :=
  calls.foldlM (r.serve frozen env t) w

end SABIReader

end BitLSM
