import BitLSM.RoundTrip
import BitLSM.Reader.Bins

/-!
The on-demand reader shows what the resident reader shows.

`BinsAt` says how the bins of a blob lie in the file: in order, each on a
32-byte boundary. Then every bin of a run has its own bytes at its relative
offset in the run's arena, whichever way the bytes came, and two bins never
share a cache key. The invariant `Sound` of the state follows: a cached
bin is the bin of its key, and a populated prefetch slot has the bytes of
the file. Every call keeps it.
-/

namespace BitLSM

open Wire

/-- The bins of `r`, the tombstones last, lie in the file at its offsets. -/
structure BinsAt (frozen : FrozenCodec) (t : TableRep) (r : SABIReader) (bitmaps : List Roaring) :
    Prop where
  pos : 0 < bitmaps.length
  length : r.bitmapOffsets.length = bitmaps.length + 1
  size : ∀ (i : ℕ) bitmap, bitmaps[i]? = some bitmap →
    ∃ size, r.bitmapSizes[i]? = some size ∧ size.toNat = (frozen.freeze bitmap).length
  at_offset : ∀ (i : ℕ) bitmap off, bitmaps[i]? = some bitmap → r.bitmapOffsets[i]? = some off →
    HasAt t.file (t.udiOff + off.toNat) (frozen.freeze bitmap)
  ordered : ∀ (i j : ℕ) bitmap off next, i < j → bitmaps[i]? = some bitmap →
    r.bitmapOffsets[i]? = some off → r.bitmapOffsets[j]? = some next →
    off.toNat + (frozen.freeze bitmap).length ≤ next.toNat
  aligned : ∀ off ∈ r.bitmapOffsets, off.toNat % 32 = 0

namespace BinsAt

variable {frozen : FrozenCodec} {t : TableRep} {r : SABIReader} {bitmaps : List Roaring}

theorem totalBins_eq (h : BinsAt frozen t r bitmaps) : r.totalBins + 1 = bitmaps.length := by
  have := h.pos
  rw [SABIReader.totalBins, h.length]
  omega

theorem exists_offset (h : BinsAt frozen t r bitmaps) {i : ℕ} (hi : i < bitmaps.length) :
    ∃ off, r.bitmapOffsets[i]? = some off :=
  ⟨_, List.getElem?_eq_getElem (by rw [h.length]; omega)⟩

theorem offset_le (h : BinsAt frozen t r bitmaps) {i j : ℕ} {offI offJ : UInt32} (hij : i ≤ j)
    (hj : j < bitmaps.length) (hi : r.bitmapOffsets[i]? = some offI)
    (hoffJ : r.bitmapOffsets[j]? = some offJ) : offI.toNat ≤ offJ.toNat := by
  rcases hij.lt_or_eq with hlt | rfl
  · have := h.ordered i j _ _ _ hlt (List.getElem?_eq_getElem (by omega)) hi hoffJ
    omega
  · rw [hi, Option.some.injEq] at hoffJ
    exact le_of_eq (by rw [hoffJ])

/-- The exact end of a bin is at or before the exact end of a later one. -/
theorem end_le (h : BinsAt frozen t r bitmaps) {i j : ℕ} {bitmap bitmap' : Roaring}
    {offI offJ : UInt32} (hij : i ≤ j) (hbitmap : bitmaps[i]? = some bitmap)
    (hbitmap' : bitmaps[j]? = some bitmap') (hi : r.bitmapOffsets[i]? = some offI)
    (hj : r.bitmapOffsets[j]? = some offJ) :
    offI.toNat + (frozen.freeze bitmap).length ≤ offJ.toNat + (frozen.freeze bitmap').length := by
  rcases hij.lt_or_eq with hlt | rfl
  · have := h.ordered i j _ _ _ hlt hbitmap hi hj
    omega
  · rw [hbitmap, Option.some.injEq] at hbitmap'
    rw [hi, Option.some.injEq] at hj
    rw [hbitmap', hj]

/-- Every bin ends below `2 ^ 32`, at the next one's offset. -/
theorem end_lt (h : BinsAt frozen t r bitmaps) {i : ℕ} {bitmap : Roaring} {off : UInt32}
    (hbitmap : bitmaps[i]? = some bitmap) (hoff : r.bitmapOffsets[i]? = some off) :
    off.toNat + (frozen.freeze bitmap).length < 2 ^ 32 := by
  have hi := (List.getElem?_eq_some_iff.1 hbitmap).1
  have hnext := List.getElem?_eq_getElem (show i + 1 < r.bitmapOffsets.length by
    rw [h.length]
    omega)
  have hle := h.ordered i (i + 1) _ _ _ (Nat.lt_succ_self i) hbitmap hoff hnext
  exact lt_of_le_of_lt hle (UInt32.toNat_lt _)

theorem sub_toNat (h : BinsAt frozen t r bitmaps) {a i : ℕ} {offA off : UInt32} (hai : a ≤ i)
    (hi : i < bitmaps.length) (hoffA : r.bitmapOffsets[a]? = some offA)
    (hoff : r.bitmapOffsets[i]? = some off) : (off - offA).toNat = off.toNat - offA.toNat := by
  rw [UInt32.toNat_sub_of_le]
  exact UInt32.le_iff_toNat_le.2 (h.offset_le hai hi hoffA hoff)

/-- The extent of a run reaches from the start of its first bin to the end of
its last. -/
theorem runExtent_eq (h : BinsAt frozen t r bitmaps) {a b : ℕ} (hab : a ≤ b)
    (hb : b < bitmaps.length) :
    ∃ offA offB, r.bitmapOffsets[a]? = some offA ∧ r.bitmapOffsets[b]? = some offB ∧
      r.runExtent a b = some (offA.toNat,
        offB.toNat - offA.toNat + (frozen.freeze (bitmaps.getD b ∅)).length) := by
  obtain ⟨offA, hoffA⟩ := h.exists_offset (lt_of_le_of_lt hab hb)
  obtain ⟨offB, hoffB⟩ := h.exists_offset hb
  have hbitmap : bitmaps[b]? = some (bitmaps.getD b ∅) := by
    rw [List.getD_eq_getElem?_getD, List.getElem?_eq_getElem hb]
    rfl
  obtain ⟨size, hsize, hexact⟩ := h.size b _ hbitmap
  have hend := h.end_lt hbitmap hoffB
  refine ⟨offA, offB, hoffA, hoffB, ?_⟩
  rw [SABIReader.runExtent, hoffA, hoffB, hsize]
  simp only [Option.bind_eq_bind, Option.bind_some, Option.pure_def, Option.some.injEq,
    Prod.mk.injEq, true_and]
  rw [UInt32.toNat_add, h.sub_toNat hab hb hoffA hoffB, hexact, Nat.mod_eq_of_lt (by omega)]

/-- A bin's view in the arena of any run around it. -/
theorem viewInRun_eq (h : BinsAt frozen t r bitmaps) {a b i off len : ℕ} {arena : Bytes}
    (hai : a ≤ i) (hib : i ≤ b) (hb : b < bitmaps.length)
    (hextent : r.runExtent a b = some (off, len))
    (harena : readAt t.file (t.udiOff + off) len = some arena) :
    r.viewInRun frozen arena a i = bitmaps[i]? := by
  obtain ⟨offA, offB, hoffA, hoffB, heq⟩ := h.runExtent_eq (hai.trans hib) hb
  rw [hextent, Option.some.injEq, Prod.mk.injEq] at heq
  obtain ⟨rfl, rfl⟩ := heq
  have hi : i < bitmaps.length := lt_of_le_of_lt hib hb
  obtain ⟨offI, hoffI⟩ := h.exists_offset hi
  have hbitmap := List.getElem?_eq_getElem hi
  have hlast : bitmaps[b]? = some (bitmaps.getD b ∅) := by
    rw [List.getD_eq_getElem?_getD, List.getElem?_eq_getElem hb]
    rfl
  obtain ⟨size, hsize, hexact⟩ := h.size i _ hbitmap
  have hle := h.offset_le hai hi hoffA hoffI
  have hend := h.end_le hib hbitmap hlast hoffI hoffB
  have hat := h.at_offset i _ _ hbitmap hoffI
  rw [show t.udiOff + offI.toNat = t.udiOff + offA.toNat + (offI.toNat - offA.toNat) by omega]
    at hat
  have hread := (hat.of_readAt harena (by omega)).readAt_eq rfl
  rw [SABIReader.viewInRun, hoffA, hoffI, hsize]
  simp only [Option.bind_eq_bind, Option.bind_some, Option.pure_def, h.sub_toNat hai hi hoffA hoffI,
    hexact, hread, frozen.view_freeze, hbitmap]

/-- Keys of distinct bins differ. -/
theorem binCacheKey_inj (h : BinsAt frozen t r bitmaps) {i j key : ℕ} (hi : i < bitmaps.length)
    (hj : j < bitmaps.length) (hkey : r.binCacheKey t i = some key)
    (hkey' : r.binCacheKey t j = some key) : i = j := by
  have hlt (i j : ℕ) (hi : i < bitmaps.length) (hj : j < bitmaps.length) (hij : i < j)
      (hkey : r.binCacheKey t i = some key) : r.binCacheKey t j ≠ some key := by
    obtain ⟨off, hoff⟩ := h.exists_offset hi
    obtain ⟨off', hoff'⟩ := h.exists_offset hj
    have hord := h.ordered i j _ _ _ hij (List.getElem?_eq_getElem hi) hoff hoff'
    have hpos := frozen.freeze_pos bitmaps[i]
    have halign := h.aligned off (List.mem_of_getElem? hoff)
    have halign' := h.aligned off' (List.mem_of_getElem? hoff')
    rw [SABIReader.binCacheKey, hoff, Option.bind_eq_bind, Option.bind_some, Option.pure_def,
      Option.some.injEq, Nat.shiftRight_eq_div_pow] at hkey
    rw [SABIReader.binCacheKey, hoff', Option.bind_eq_bind, Option.bind_some, Option.pure_def,
        ne_eq,
      Option.some.injEq, Nat.shiftRight_eq_div_pow]
    omega
  rcases Nat.lt_trichotomy i j with hij | hij | hij
  · exact absurd hkey' (hlt i j hi hj hij hkey)
  · exact hij
  · exact absurd hkey (hlt j i hj hi hij hkey')

theorem exists_key (h : BinsAt frozen t r bitmaps) {i : ℕ} (hi : i < bitmaps.length) :
    ∃ key, r.binCacheKey t i = some key := by
  obtain ⟨off, hoff⟩ := h.exists_offset hi
  exact ⟨_, by rw [SABIReader.binCacheKey, hoff]; rfl⟩

end BinsAt

/-! ### The invariant -/

/-- A populated slot has the bytes of the file. -/
def PrefetchSlot.Sound (t : TableRep) (slot : PrefetchSlot) : Prop :=
  ∀ data, slot.state = .populated data → readAt t.file slot.offset slot.len = some data

structure BinWorld.Sound (t : TableRep) (r : SABIReader) (bitmaps : List Roaring) (w : BinWorld) :
    Prop where
  cache : ∀ cache, w.cache = some cache → ∀ (i key : ℕ) view, i < bitmaps.length →
    r.binCacheKey t i = some key → cache key = some view → bitmaps[i]? = some view
  slots : ∀ slot ∈ w.slots, slot.Sound t

namespace BinsAt

variable {frozen : FrozenCodec} {env : BinEnv} {t : TableRep} {r : SABIReader}
  {bitmaps : List Roaring} {w : BinWorld}

/-- A cache with a further bin under its own key. -/
theorem update_sound (h : BinsAt frozen t r bitmaps) {cache : ℕ → Option Roaring}
    (hcache : ∀ (i key : ℕ) view, i < bitmaps.length → r.binCacheKey t i = some key →
      cache key = some view → bitmaps[i]? = some view)
    {j key : ℕ} {bitmap : Roaring} (hbitmap : bitmaps[j]? = some bitmap)
    (hkey : r.binCacheKey t j = some key) :
    ∀ (i key' : ℕ) view, i < bitmaps.length → r.binCacheKey t i = some key' →
      Function.update cache key (some bitmap) key' = some view → bitmaps[i]? = some view := by
  intro i key' view hi hkey' hview
  have hj := (List.getElem?_eq_some_iff.1 hbitmap).1
  by_cases heq : key' = key
  · obtain rfl : i = j := h.binCacheKey_inj hi hj hkey' (heq ▸ hkey)
    rw [heq, Function.update_self] at hview
    rw [hbitmap, hview]
  · rw [Function.update_of_ne heq] at hview
    exact hcache i key' view hi hkey' hview

theorem loadedElsewhere_eq_some (h : BinsAt frozen t r bitmaps) {a b i key : ℕ} {view : Roaring}
    (hload : r.loadedElsewhere frozen t a b i = some (key, view)) :
    bitmaps[i]? = some view ∧ r.binCacheKey t i = some key := by
  rw [SABIReader.loadedElsewhere] at hload
  split at hload
  · next hrange =>
      obtain ⟨⟨off, len⟩, hextent, hload⟩ := Option.bind_eq_some_iff.1 hload
      obtain ⟨arena, harena, hload⟩ := Option.bind_eq_some_iff.1 hload
      obtain ⟨view', hview, hload⟩ := Option.bind_eq_some_iff.1 hload
      obtain ⟨key', hkey, hload⟩ := Option.bind_eq_some_iff.1 hload
      obtain ⟨rfl, rfl⟩ := Prod.mk.inj (Option.some.inj hload)
      have hbins := h.totalBins_eq
      rw [h.viewInRun_eq hrange.1 hrange.2.1 (by omega) hextent harena] at hview
      exact ⟨hview, hkey⟩
  · cases hload

theorem insertElsewhere_sound (h : BinsAt frozen t r bitmaps) {cache : ℕ → Option Roaring}
    (hcache : ∀ (i key : ℕ) view, i < bitmaps.length → r.binCacheKey t i = some key →
      cache key = some view → bitmaps[i]? = some view) (loads : List (ℕ × ℕ × ℕ)) :
    ∀ (i key : ℕ) view, i < bitmaps.length → r.binCacheKey t i = some key →
      r.insertElsewhere frozen t cache loads key = some view → bitmaps[i]? = some view := by
  induction loads generalizing cache with
  | nil => exact hcache
  | cons load loads ih =>
      obtain ⟨a, b, j⟩ := load
      cases hload : r.loadedElsewhere frozen t a b j with
      | none =>
          simp only [SABIReader.insertElsewhere, hload]
          exact ih hcache
      | some loaded =>
          obtain ⟨hbitmap, hkey⟩ := h.loadedElsewhere_eq_some hload
          simp only [SABIReader.insertElsewhere, hload]
          exact ih (h.update_sound hcache hbitmap hkey)

theorem tick_sound (h : BinsAt frozen t r bitmaps) (hw : w.Sound t r bitmaps) (env : BinEnv) :
    (r.tick frozen env t w).Sound t r bitmaps := by
  refine ⟨fun cache hcache => ?_, hw.slots⟩
  obtain ⟨old, hold, rfl⟩ := Option.map_eq_some_iff.1 hcache
  refine h.insertElsewhere_sound (fun i key view hi hkey hview => ?_) _
  split at hview
  · cases hview
  · exact hw.cache old hold i key view hi hkey hview

/-! ### One bin -/

theorem probeBin_spec (h : BinsAt frozen t r bitmaps) (hw : w.Sound t r bitmaps) (env : BinEnv)
    {i : ℕ} (hi : i < bitmaps.length) :
    ∃ hit w', r.probeBin frozen env t i w = some (hit, w') ∧ w'.Sound t r bitmaps ∧
      w'.inserted = w.inserted ∧ ∀ pin, hit = some pin → bitmaps[i]? = some pin.view := by
  have htick := h.tick_sound hw env
  obtain ⟨key, hkey⟩ := h.exists_key hi
  rw [SABIReader.probeBin]
  cases hcache : (r.tick frozen env t w).cache with
  | none =>
      refine ⟨none, _, rfl, htick, rfl, ?_⟩
      rintro pin ⟨⟩
  | some cache =>
      refine ⟨_, _, by simp only [hkey]; rfl, htick, rfl, ?_⟩
      intro pin hpin
      obtain ⟨view, hview, rfl⟩ := Option.map_eq_some_iff.1 hpin
      exact htick.cache cache hcache i key view hi hkey hview

theorem insertBin_spec (h : BinsAt frozen t r bitmaps) (hw : w.Sound t r bitmaps) (env : BinEnv)
    {i : ℕ} {bitmap : Roaring} (hbitmap : bitmaps[i]? = some bitmap) :
    ∃ pin w', r.insertBin frozen env t i bitmap w = some (pin, w') ∧ w'.Sound t r bitmaps ∧
      pin.view = bitmap ∧ ∃ ins, w'.inserted = w.inserted ++ ins ∧ ∀ j ∈ ins, j = i := by
  obtain ⟨key, hkey⟩ := h.exists_key (List.getElem?_eq_some_iff.1 hbitmap).1
  have htick := h.tick_sound hw env
  rw [SABIReader.insertBin]
  cases hcache : w.cache with
  | none => exact ⟨_, _, rfl, hw, rfl, [], by simp, by simp⟩
  | some cache =>
      simp only [hkey, Option.bind_eq_bind, Option.bind_some]
      split
      · refine ⟨_, _, rfl, ⟨fun cache' hcache' => ?_, htick.slots⟩, rfl, [i], rfl, by simp⟩
        obtain ⟨old, hold, rfl⟩ := Option.map_eq_some_iff.1 hcache'
        exact h.update_sound (htick.cache old hold) hbitmap hkey
      · exact ⟨_, _, rfl, htick, rfl, [], by simp [SABIReader.tick], by simp⟩

end BinsAt

/-! ### The bytes of a run -/

theorem readAt_readAt {b region : Bytes} {off len o l : ℕ} (h : readAt b off len = some region)
    (hle : o + l ≤ len) :
    ∃ bytes, readAt region o l = some bytes ∧ readAt b (off + o) l = some bytes := by
  obtain ⟨hlen, rfl⟩ := readAt_eq_some h
  refine ⟨_, if_pos (by rw [length_slice hlen]; exact hle), ?_⟩
  rw [slice_slice hle]
  exact if_pos (by omega)

theorem PrefetchSlot.copy_spec {t : TableRep} {slot : PrefetchSlot} {data : Bytes}
    (hdata : readAt t.file slot.offset slot.len = some data) {offset len : ℕ}
    (hlo : slot.offset ≤ offset) (hhi : offset + len ≤ slot.offset + slot.len) :
    ∃ bytes slot', slot.copy data offset len = some (bytes, slot') ∧ slot'.Sound t ∧
      readAt t.file offset len = some bytes := by
  obtain ⟨bytes, hbytes, hfile⟩ := @readAt_readAt _ _ _ _ (offset - slot.offset) len hdata
      (by omega)
  rw [show slot.offset + (offset - slot.offset) = offset by omega] at hfile
  refine ⟨bytes, _, by rw [PrefetchSlot.copy, hbytes]; rfl, fun data' hdata' => ?_, hfile⟩
  simp only at hdata'
  split at hdata'
  · cases hdata'
  · obtain rfl := SlotState.populated.inj hdata'
    exact hdata

/-- A slot that serves a range has copied the bytes of the file. -/
theorem tryConsume_spec {t : TableRep} {slots : List PrefetchSlot}
    (hslots : ∀ slot ∈ slots, slot.Sound t) (env : BinEnv) (moment offset len : ℕ) :
    ∃ bytes slots', SABIReader.tryConsume env t moment offset len slots = some (bytes, slots') ∧
      (∀ slot ∈ slots', slot.Sound t) ∧
      ∀ xs, bytes = some xs → readAt t.file offset len = some xs := by
  induction slots with
  | nil => exact ⟨none, [], rfl, by simp, by simp⟩
  | cons slot slots ih =>
      rw [List.forall_mem_cons] at hslots
      rw [SABIReader.tryConsume]
      split
      · obtain ⟨bytes, slots', heq, hsound, hbytes⟩ := ih hslots.2
        exact ⟨bytes, slot :: slots', by rw [heq]; rfl,
          List.forall_mem_cons.2 ⟨hslots.1, hsound⟩, hbytes⟩
      · next hin =>
          rw [not_or, not_lt, not_lt] at hin
          have hdead : ({ slot with state := .dead } : PrefetchSlot).Sound t := by rintro data ⟨⟩
          cases hstate : slot.state with
          | dead => exact ⟨_, _, rfl, List.forall_mem_cons.2 hslots, by simp⟩
          | populated data =>
              obtain ⟨bytes, slot', hcopy, hsound, hfile⟩ :=
                slot.copy_spec (hslots.1 data hstate) hin.1 hin.2
              refine ⟨some bytes, slot' :: slots, by simp only [hcopy]; rfl,
                List.forall_mem_cons.2 ⟨hsound, hslots.2⟩, ?_⟩
              rintro xs ⟨⟩
              exact hfile
          | submitted =>
              simp only
              split
              · exact ⟨_, _, rfl, List.forall_mem_cons.2 ⟨hdead, hslots.2⟩, by simp⟩
              · next data hpoll =>
                  split at hpoll
                  · obtain ⟨bytes, slot', hcopy, hsound, hfile⟩ :=
                      slot.copy_spec hpoll hin.1 hin.2
                    refine ⟨some bytes, slot' :: slots, by simp only [hcopy]; rfl,
                      List.forall_mem_cons.2 ⟨hsound, hslots.2⟩, ?_⟩
                    rintro xs ⟨⟩
                    exact hfile
                  · cases hpoll

namespace BinsAt

variable {frozen : FrozenCodec} {env : BinEnv} {t : TableRep} {r : SABIReader}
  {bitmaps : List Roaring} {w : BinWorld}

theorem fetchRun_spec (hw : w.Sound t r bitmaps) (env : BinEnv) (off len : ℕ) (prefetch : Bool) :
    ∃ bytes w', SABIReader.fetchRun env t off len prefetch w = some (bytes, w') ∧
      w'.Sound t r bitmaps ∧ w'.inserted = w.inserted ∧
      ∀ xs, bytes = some xs → readAt t.file off len = some xs := by
  obtain ⟨bytes, slots, hslots, hsound, hbytes⟩ : ∃ bytes slots,
      SABIReader.consumeRun env t off len w prefetch = some (bytes, slots) ∧
      (∀ slot ∈ slots, slot.Sound t) ∧ ∀ xs, bytes = some xs → readAt t.file off len = some xs := by
    cases prefetch with
    | false => exact ⟨none, w.slots, rfl, hw.slots, by simp⟩
    | true => exact tryConsume_spec hw.slots env w.moment off len
  refine ⟨_, { w with slots, moment := w.moment + 1 }, by rw [SABIReader.fetchRun, hslots]; rfl,
    ⟨hw.cache, hsound⟩, rfl, fun xs hxs => ?_⟩
  cases bytes with
  | some bytes => exact hbytes xs hxs
  | none =>
      split at hxs
      · exact hxs
      · cases hxs

/-- The bins of a run go into their own slots. -/
theorem fillRun_spec (h : BinsAt frozen t r bitmaps) (hw : w.Sound t r bitmaps) (env : BinEnv)
    {arena : Bytes} {a : ℕ} {is : List ℕ} (his : ∀ i ∈ is, i < bitmaps.length ∧
      r.viewInRun frozen arena a i = bitmaps[i]?) :
    ∃ pins w', r.fillRun frozen env t arena a is w = some (pins, w') ∧ w'.Sound t r bitmaps ∧
      pins.map (fun pin => some pin.view) = is.map (bitmaps[·]?) ∧
      ∃ ins, w'.inserted = w.inserted ++ ins ∧ ∀ j ∈ ins, j ∈ is := by
  induction is generalizing w with
  | nil => exact ⟨[], w, rfl, hw, rfl, [], by simp, by simp⟩
  | cons i is ih =>
      rw [List.forall_mem_cons] at his
      obtain ⟨bitmap, hbitmap⟩ : ∃ bitmap, bitmaps[i]? = some bitmap :=
        ⟨_, List.getElem?_eq_getElem his.1.1⟩
      obtain ⟨pin, w₁, hinsert, hw₁, hview, ins, hins, hmem⟩ := h.insertBin_spec hw env hbitmap
      obtain ⟨pins, w₂, hfill, hw₂, hviews, ins', hins', hmem'⟩ := ih hw₁ his.2
      refine ⟨pin :: pins, w₂, ?_, hw₂, ?_, ins ++ ins', ?_, ?_⟩
      · rw [SABIReader.fillRun, his.1.2, hbitmap]
        simp only [Option.bind_eq_bind, Option.bind_some, hinsert, hfill]
        rfl
      · rw [List.map_cons, List.map_cons, hviews, hview, hbitmap]
      · rw [hins', hins, List.append_assoc]
      · intro j hj
        rcases List.mem_append.1 hj with hj | hj
        · exact hmem j hj ▸ List.mem_cons_self
        · exact List.mem_cons_of_mem _ (hmem' j hj)

/-- What `LoadRun` does: it loads every bin of the run, or none and leaves the
cache to itself. -/
theorem loadRun_spec (h : BinsAt frozen t r bitmaps) (hw : w.Sound t r bitmaps) (env : BinEnv)
    {a b : ℕ} (hab : a ≤ b) (hb : b < bitmaps.length) (prefetch : Bool) :
    ∃ out w', r.loadRun frozen env t a b prefetch w = some (out, w') ∧ w'.Sound t r bitmaps ∧
      (out = none → w'.inserted = w.inserted) ∧
      ∀ pins, out = some pins →
        pins.map (fun pin => some pin.view) = (List.range' a (b + 1 - a)).map (bitmaps[·]?) ∧
        ∃ ins, w'.inserted = w.inserted ++ ins ∧ ∀ j ∈ ins, a ≤ j ∧ j ≤ b := by
  obtain ⟨offA, offB, -, -, hextent⟩ := h.runExtent_eq hab hb
  rw [SABIReader.loadRun, hextent]
  simp only [Option.bind_eq_bind, Option.bind_some]
  split
  · obtain ⟨bytes, w₁, hfetch, hw₁, hins₁, hbytes⟩ := fetchRun_spec hw env (t.udiOff + offA.toNat)
      (offB.toNat - offA.toNat + (frozen.freeze (bitmaps.getD b ∅)).length) prefetch
    simp only [hfetch, Option.bind_some]
    cases bytes with
    | none => exact ⟨none, w₁, rfl, hw₁, fun _ => hins₁, by simp⟩
    | some arena =>
        have hmem (i : ℕ) (hi : i ∈ List.range' a (b + 1 - a)) : a ≤ i ∧ i ≤ b := by
          rw [List.mem_range'_1] at hi
          omega
        obtain ⟨pins, w₂, hfill, hw₂, hviews, ins, hins, hinsMem⟩ :=
          @fillRun_spec _ _ _ _ _ h hw₁ env arena a (List.range' a (b + 1 - a)) fun i hi =>
            ⟨lt_of_le_of_lt (hmem i hi).2 hb,
              h.viewInRun_eq (hmem i hi).1 (hmem i hi).2 hb hextent (hbytes arena rfl)⟩
        refine ⟨some pins, w₂, by simp only [hfill]; rfl, hw₂, by simp, ?_⟩
        rintro _ ⟨⟩
        exact ⟨hviews, ins, by rw [hins, hins₁], fun j hj => hmem j (hinsMem j hj)⟩
  · exact ⟨none, _, rfl, ⟨hw.cache, hw.slots⟩, fun _ => rfl, by simp⟩

theorem probeAll_spec (h : BinsAt frozen t r bitmaps) (hw : w.Sound t r bitmaps) (env : BinEnv)
    {is : List ℕ} (his : ∀ i ∈ is, i < bitmaps.length) :
    ∃ slots w', r.probeAll frozen env t is w = some (slots, w') ∧ w'.Sound t r bitmaps ∧
      w'.inserted = w.inserted ∧ slots.length = is.length ∧
      ∀ (k i : ℕ) pin, is[k]? = some i → slots[k]? = some (some pin) →
        bitmaps[i]? = some pin.view := by
  induction is generalizing w with
  | nil => exact ⟨[], w, rfl, hw, rfl, rfl, by simp⟩
  | cons i is ih =>
      rw [List.forall_mem_cons] at his
      obtain ⟨hit, w₁, hprobe, hw₁, hins₁, hhit⟩ := h.probeBin_spec hw env his.1
      obtain ⟨slots, w₂, hslots, hw₂, hins₂, hlen, hviews⟩ := ih hw₁ his.2
      refine ⟨hit :: slots, w₂, ?_, hw₂, hins₂.trans hins₁, by rw [List.length_cons, hlen]; rfl, ?_⟩
      · rw [SABIReader.probeAll, hprobe]
        simp only [Option.bind_eq_bind, Option.bind_some, hslots]
        rfl
      · intro k j pin hj hpin
        cases k with
        | zero =>
            obtain rfl : i = j := Option.some.inj hj
            exact hhit pin (Option.some.inj hpin)
        | succ k => exact hviews k j pin hj hpin

end BinsAt

/-! ### Ranges -/

/-- Between `w` and `w'` the load of a run inside `[first, last]` failed, and the
bins inserted before that all lie in front of the run. -/
def FailedRun (frozen : FrozenCodec) (env : BinEnv) (t : TableRep) (r : SABIReader)
    (prefetch : Bool) (first last : ℕ) (w w' : BinWorld) : Prop :=
  ∃ a b w₁ ins, first ≤ a ∧ a ≤ b ∧ b ≤ last ∧
    r.loadRun frozen env t a b prefetch w₁ = some (none, w') ∧
    w'.inserted = w.inserted ++ ins ∧ ∀ i ∈ ins, i < a

namespace BinsAt

variable {frozen : FrozenCodec} {env : BinEnv} {t : TableRep} {r : SABIReader}
  {bitmaps : List Roaring} {w : BinWorld}

/-- All slots are filled in order, or a run has failed. -/
theorem loadMisses_spec (h : BinsAt frozen t r bitmaps) (env : BinEnv) (prefetch : Bool) :
    ∀ (rounds flat : ℕ) (slots : List (Option SABIPinnedBin)) (w : BinWorld),
      w.Sound t r bitmaps → slots.length ≤ rounds → flat + slots.length ≤ bitmaps.length →
      (∀ (k : ℕ) pin, slots[k]? = some (some pin) → bitmaps[flat + k]? = some pin.view) →
      ∃ out w', r.loadMisses frozen env t prefetch rounds flat slots w = some (out, w') ∧
        w'.Sound t r bitmaps ∧
        (out = none →
          FailedRun frozen env t r prefetch flat (flat + slots.length - 1) w w') ∧
        ∀ pins, out = some pins → pins.map (fun pin => some pin.view) =
          (List.range' flat slots.length).map (bitmaps[·]?) := by
  intro rounds
  induction rounds with
  | zero =>
      intro flat slots w hw hrounds hlen hslots
      obtain rfl : slots = [] := List.eq_nil_of_length_eq_zero (by omega)
      exact ⟨some [], w, rfl, hw, by simp, by simp⟩
  | succ rounds ih =>
      intro flat slots w hw hrounds hlen hslots
      cases slots with
      | nil => exact ⟨some [], w, rfl, hw, by simp, by simp⟩
      | cons slot slots =>
          rw [List.length_cons] at hrounds hlen
          cases slot with
          | some pin =>
              obtain ⟨out, w', heq, hw', hfail, hpins⟩ := ih (flat + 1) slots w hw (by omega)
                (by omega) fun k pin' hk => by
                  rw [Nat.add_assoc, Nat.add_comm 1 k]
                  exact hslots (k + 1) pin' hk
              refine ⟨out.map (pin :: ·), w', by rw [SABIReader.loadMisses, heq]; rfl, hw', ?_, ?_⟩
              · intro hout
                obtain ⟨a, b, w₁, ins, hfirst, hab, hlast, hload, hins, hmem⟩ :=
                  hfail (Option.map_eq_none_iff.1 hout)
                exact ⟨a, b, w₁, ins, by omega, hab, by rw [List.length_cons]; omega, hload,
                    hins, hmem⟩
              · intro pins hout
                obtain ⟨pins', rfl, rfl⟩ := Option.map_eq_some_iff.1 hout
                have hview := hslots 0 pin rfl
                rw [List.map_cons, hpins pins' rfl, List.length_cons, List.range'_succ,
                    List.map_cons]
                rw [Nat.add_zero] at hview
                rw [hview]
          | none =>
              have hmore := (List.takeWhile_sublist Option.isNone (l := slots)).length_le
              obtain ⟨run, w₁, hload, hw₁, hnone, hrun⟩ := h.loadRun_spec hw env
                (Nat.le_add_right flat (slots.takeWhile Option.isNone).length) (by omega) prefetch
              generalize hk : (slots.takeWhile Option.isNone).length = more at *
              cases run with
              | none =>
                  refine ⟨none, w₁, ?_, hw₁, fun _ => ⟨flat, flat + more, w, [], le_rfl, by omega,
                    by rw [List.length_cons]; omega, hload, by rw [hnone rfl, List.append_nil],
                    by simp⟩, by simp⟩
                  rw [SABIReader.loadMisses, hk, hload]
                  rfl
              | some run =>
                  obtain ⟨hviews, ins, hins, hinsMem⟩ := hrun run rfl
                  have hdrop : (slots.drop more).length = slots.length - more := List.length_drop
                  obtain ⟨out, w', heq, hw', hfail, hpins⟩ := ih (flat + more + 1) (slots.drop more)
                    w₁ hw₁ (by omega) (by omega) fun k pin' hk => by
                      rw [List.getElem?_drop] at hk
                      rw [show flat + more + 1 + k = flat + (more + k + 1) by omega]
                      exact hslots (more + k + 1) pin' hk
                  refine ⟨out.map (run ++ ·), w', ?_, hw', ?_, ?_⟩
                  · rw [SABIReader.loadMisses, hk, hload]
                    simp only [Option.bind_eq_bind, Option.bind_some, heq]
                    rfl
                  · intro hout
                    obtain ⟨a, b, w₂, ins', hfirst, hab, hlast, hload', hins', hmem⟩ :=
                      hfail (Option.map_eq_none_iff.1 hout)
                    refine ⟨a, b, w₂, ins ++ ins', by omega, hab,
                      by rw [List.length_cons]; omega, hload',
                      by rw [hins', hins, List.append_assoc], fun i hi => ?_⟩
                    rcases List.mem_append.1 hi with hi | hi
                    · have := hinsMem i hi
                      omega
                    · exact hmem i hi
                  · intro pins hout
                    obtain ⟨pins', rfl, rfl⟩ := Option.map_eq_some_iff.1 hout
                    rw [List.map_append, hviews, hpins pins' rfl, ← List.map_append, hdrop,
                      List.length_cons]
                    congr 1
                    rw [show flat + more + 1 - flat = more + 1 by omega,
                      show flat + more + 1 = flat + 1 * (more + 1) by omega, List.range'_append]
                    congr 1
                    omega

theorem bin_spec (h : BinsAt frozen t r bitmaps) (hmode : r.mode = .metadata)
    (hw : w.Sound t r bitmaps) (env : BinEnv) {i : ℕ} (hi : i < bitmaps.length) (prefetch : Bool) :
    ∃ out w', r.bin frozen env t i prefetch w = some (out, w') ∧ w'.Sound t r bitmaps ∧
      (∀ view, out.view = some view → bitmaps[i]? = some view) ∧
      (out.view = none → out.pin = none ∧ FailedRun frozen env t r prefetch i i w w') := by
  obtain ⟨hit, w₁, hprobe, hw₁, hins₁, hhit⟩ := h.probeBin_spec hw env hi
  rw [SABIReader.bin, if_neg (by rw [hmode]; decide), hprobe]
  simp only [Option.bind_eq_bind, Option.bind_some]
  cases hit with
  | some pin =>
      refine ⟨_, w₁, rfl, hw₁, ?_, by simp⟩
      rintro _ ⟨⟩
      exact hhit pin rfl
  | none =>
      obtain ⟨run, w₂, hload, hw₂, hnone, hrun⟩ := h.loadRun_spec hw₁ env le_rfl hi prefetch
      simp only [hload, Option.bind_some]
      cases run with
      | none =>
          refine ⟨_, w₂, rfl, hw₂, by simp, fun _ => ⟨rfl, i, i, w₁, [], le_rfl, le_rfl, le_rfl,
            hload, ?_, by simp⟩⟩
          rw [hnone rfl, hins₁, List.append_nil]
      | some pins =>
          obtain ⟨hviews, -⟩ := hrun pins rfl
          rw [Nat.add_sub_cancel_left, List.range'_one, List.map_singleton] at hviews
          obtain ⟨pin, rfl, hview⟩ := List.map_eq_singleton_iff.1 hviews
          refine ⟨_, w₂, rfl, hw₂, ?_, by simp⟩
          rintro _ ⟨⟩
          exact hview.symm

theorem binRange_spec (h : BinsAt frozen t r bitmaps) (hmode : r.mode = .metadata)
    (hw : w.Sound t r bitmaps) (env : BinEnv) {first last : ℕ} (hle : first ≤ last)
    (hlast : last < bitmaps.length) (outViews : List Roaring) (outPins : List SABIPinnedBin)
    (prefetch : Bool) :
    ∃ out w', r.binRange frozen env t first last outViews outPins prefetch w = some (out, w') ∧
      w'.Sound t r bitmaps ∧
      (out.ok = true → ∃ pins, out.outViews = outViews ++ pins.map SABIPinnedBin.view ∧
        out.outPins = outPins ++ pins ∧ pins.map (fun pin => some pin.view) =
          (List.range' first (last + 1 - first)).map (bitmaps[·]?)) ∧
      (out.ok = false → out.outViews = outViews ∧ out.outPins = outPins ∧
        FailedRun frozen env t r prefetch first last w w') := by
  obtain ⟨slots, w₁, hprobe, hw₁, hins₁, hlen, hslots⟩ :=
    @probeAll_spec _ _ _ _ _ h hw env (List.range' first (last + 1 - first)) fun i hi => by
      rw [List.mem_range'_1] at hi
      omega
  rw [List.length_range'] at hlen
  obtain ⟨out, w₂, hload, hw₂, hfail, hpins⟩ := h.loadMisses_spec env prefetch slots.length first
    slots w₁ hw₁ le_rfl (by omega) fun k pin hk => by
      have hlt := (List.getElem?_eq_some_iff.1 hk).1
      refine hslots k (first + k) pin ?_ hk
      rw [List.getElem?_range' (by omega), Nat.one_mul]
  rw [SABIReader.binRange]
  simp only [if_neg (show ¬r.mode = .resident by rw [hmode]; decide), hprobe, Option.bind_eq_bind,
    Option.bind_some, hload]
  cases out with
  | none =>
      refine ⟨_, w₂, rfl, hw₂, by simp, fun _ => ⟨rfl, rfl, ?_⟩⟩
      obtain ⟨a, b, w', ins, hfirst, hab, hb, hrun, hins, hmem⟩ := hfail rfl
      exact ⟨a, b, w', ins, hfirst, hab, by omega, hrun, hins₁ ▸ hins, hmem⟩
  | some pins =>
      exact ⟨_, w₂, rfl, hw₂, fun _ => ⟨pins, rfl, rfl, hlen ▸ hpins pins rfl⟩, by simp⟩

theorem submit_spec (h : BinsAt frozen t r bitmaps) (hw : w.Sound t r bitmaps) (env : BinEnv)
    {a b : ℕ} (hab : a ≤ b) (hb : b < bitmaps.length) :
    ∃ w', r.submit env t a b w = some w' ∧ w'.Sound t r bitmaps := by
  obtain ⟨offA, offB, -, -, hextent⟩ := h.runExtent_eq hab hb
  rw [SABIReader.submit, hextent]
  simp only [Option.bind_eq_bind, Option.bind_some]
  have hpush (slot : PrefetchSlot) (hslot : slot.Sound t) :
      ∀ s ∈ w.slots ++ [slot], s.Sound t := by
    intro s hs
    rcases List.mem_append.1 hs with hs | hs
    · exact hw.slots s hs
    · exact List.mem_singleton.1 hs ▸ hslot
  split
  · exact ⟨_, rfl, hw.cache, hw.slots⟩
  · exact ⟨_, rfl, hw.cache, hpush _ (by rintro data ⟨⟩)⟩
  · split
    · exact ⟨_, rfl, hw.cache, hw.slots⟩
    · next data hdata =>
        refine ⟨_, rfl, hw.cache, hpush _ ?_⟩
        rintro data' ⟨⟩
        exact hdata

/-- Any sequence of calls keeps the invariant. -/
theorem serveAll_spec (h : BinsAt frozen t r bitmaps) (hmode : r.mode = .metadata)
    (hw : w.Sound t r bitmaps) (env : BinEnv) {calls : List SABIReader.BinCall}
    (hcalls : ∀ call ∈ calls, call.InRange r.totalBins) :
    ∃ w', r.serveAll frozen env t w calls = some w' ∧ w'.Sound t r bitmaps := by
  have hbins := h.totalBins_eq
  induction calls generalizing w with
  | nil => exact ⟨w, rfl, hw⟩
  | cons call calls ih =>
      rw [List.forall_mem_cons] at hcalls
      obtain ⟨w₁, hserve, hw₁⟩ : ∃ w₁, r.serve frozen env t w call = some w₁ ∧
          w₁.Sound t r bitmaps := by
        have hrange := hcalls.1
        cases call with
        | bin flatIdx prefetch =>
            obtain ⟨out, w₁, hbin, hw₁, -⟩ :=
              h.bin_spec hmode hw env (Nat.lt_of_le_of_lt hrange (by omega)) prefetch
            exact ⟨w₁, by rw [SABIReader.serve, hbin]; rfl, hw₁⟩
        | binRange firstFlat lastFlat outViews outPins prefetch =>
            obtain ⟨out, w₁, hbin, hw₁, -⟩ := h.binRange_spec hmode hw env hrange.1
              (Nat.lt_of_le_of_lt hrange.2 (by omega)) outViews outPins prefetch
            exact ⟨w₁, by rw [SABIReader.serve, hbin]; rfl, hw₁⟩
        | newPrefetch => exact ⟨_, rfl, hw.cache, by simp⟩
        | submit a b =>
            exact h.submit_spec hw env hrange.1 (Nat.lt_of_le_of_lt hrange.2 (by omega))
      obtain ⟨w₂, hall, hw₂⟩ := ih hw₁ hcalls.2
      exact ⟨w₂, by rw [SABIReader.serveAll, List.foldlM_cons, hserve]; exact hall, hw₂⟩

end BinsAt

/-! ### The bins of a finished blob -/

namespace SABIBuilder

variable {frozen : FrozenCodec} {b : SABIBuilder} {idx : BitmapIndex} {out blob : Bytes}
  {mode : SABIReaderMode} {r : SABIReader}

/-- What a reader in either mode knows of the bins. -/
theorem Formed.parse_bins (h : Formed frozen b idx out blob)
    (hshape : idx.Shaped b.schema.indexTypes) (hlen : blob.length < 2 ^ 32)
    (hparse : SABIReader.parse frozen mode blob = some r) :
    r.mode = mode ∧ r.bitmapOffsets = b.bitmapOffsets frozen idx ∧
      r.bitmapSizes = idx.bitmapSizes frozen ∧
      (mode = .resident → ∃ views, SABIReader.residentViews frozen blob
        (b.directory frozen idx out.length) = some views ∧ r.bitmaps = views.dropLast ∧
          r.tombstoneBitmap = views.getLastD ∅) := by
  obtain ⟨h12, dir, hdir, hdirNat⟩ := h.decode_directoryOff hlen
  have hdirectory := Directory.parse_of_hasAt (h.directory_wellFormed hshape hlen)
    h.hasAt_directory
  rw [SABIReader.parse] at hparse
  simp only [h12, if_true, hdir, Option.bind_eq_bind, Option.bind_some, hdirNat, hdirectory]
    at hparse
  obtain ⟨policies, -, hparse⟩ := Option.bind_eq_some_iff.1 hparse
  obtain ⟨views, hviews, hparse⟩ := Option.bind_eq_some_iff.1 hparse
  obtain ⟨entries, -, hparse⟩ := Option.bind_eq_some_iff.1 hparse
  obtain rfl := Option.some.inj hparse
  refine ⟨rfl, rfl, rfl, ?_⟩
  rintro rfl
  exact ⟨views, hviews, rfl, rfl⟩

/-- Views inside one copy of the region leave no room for an offset that wraps. -/
theorem room_of_residentViews (hlen : blob.length < 2 ^ 32)
    (hids : ∀ r ∈ idx.bitmaps, ∀ j ∈ r, j < 2 ^ 32) {policyOff : ℕ} {views : List Roaring}
    (hviews : SABIReader.residentViews frozen blob (b.directory frozen idx policyOff) =
      some views) : b.Room frozen idx := by
  have hhead : (b.bitmapOffsets frozen idx).headD 0 =
      align32 (UInt32.ofNat b.indexBlob.length) := by
    rw [List.headD_eq_head?_getD, List.head?_eq_getElem?, head_bitmapOffsets]
    rfl
  have hlast := bitmapOffsets_le _ (List.mem_of_getElem? (@getLastD_bitmapOffsets frozen b idx))
  rw [SABIReader.residentViews] at hviews
  simp only [directory, hhead] at hviews
  obtain ⟨region, hregion, hviews⟩ := Option.bind_eq_some_iff.1 hviews
  obtain ⟨hregionLe, rfl⟩ := readAt_eq_some hregion
  set first := align32 (UInt32.ofNat b.indexBlob.length)
  set last := (b.bitmapOffsets frozen idx).getLastD 0
  have hfirst := first.toNat_lt
  -- a region that wraps would pass the end of the blob
  have hregionEnd : first.toNat + (last - first).toNat = last.toNat := by
    rw [UInt32.toNat_sub] at hregionLe ⊢
    omega
  refine add_paddedSize_le (align32_mod _) le_rfl (align32_le _) (hregionEnd.trans_le hlast)
    fun i bitmap off hbitmap hoff => ?_
  have hsize : (idx.bitmapSizes frozen)[i]? = some (UInt32.ofNat
      (frozen.freeze bitmap).length) := by
    rw [BitmapIndex.bitmapSizes, List.getElem?_map, hbitmap]
    rfl
  obtain ⟨y, hy, -⟩ := (mapM_getElem? hviews).2 i (off, _)
    (List.getElem?_zip_eq_some.2 ⟨hoff, hsize⟩)
  obtain ⟨bytes, hread, -⟩ := Option.map_eq_some_iff.1 hy
  have hbound : (off - first).toNat + (UInt32.ofNat (frozen.freeze bitmap).length).toNat ≤ _ :=
    (readAt_eq_some hread).1
  rwa [UInt32.toNat_ofNat', Nat.mod_eq_of_lt (frozen.freeze_lt bitmap
    (hids bitmap (List.mem_of_getElem? hbitmap))), length_slice hregionLe] at hbound

theorem Written.resident_bitmaps (h : Written frozen b idx out blob)
    (hshape : idx.Shaped b.schema.indexTypes) (hlen : blob.length < 2 ^ 32)
    (hparse : SABIReader.parse frozen .resident blob = some r) :
    r.bitmaps ++ [r.tombstoneBitmap] = idx.bitmaps := by
  obtain ⟨-, -, -, hresident⟩ := h.parse_bins hshape hlen hparse
  obtain ⟨views, hviews, hbitmaps, htombstones⟩ := hresident rfl
  obtain rfl := Option.some.inj (h.residentViews_eq.symm.trans hviews)
  rw [hbitmaps, htombstones]
  simp [BitmapIndex.bitmaps]

end SABIBuilder

namespace SABIBuilder.Written

variable {frozen : FrozenCodec} {b : SABIBuilder} {idx : BitmapIndex} {out blob : Bytes}
  {r : SABIReader}

theorem binsAt (h : Written frozen b idx out blob) {t : TableRep}
    (hoffsets : r.bitmapOffsets = b.bitmapOffsets frozen idx)
    (hsizes : r.bitmapSizes = idx.bitmapSizes frozen) (hfile : HasAt t.file t.udiOff blob) :
    BinsAt frozen t r idx.bitmaps where
  pos := by simp [BitmapIndex.bitmaps]
  length := by rw [hoffsets, length_bitmapOffsets]
  size i bitmap hbitmap := hsizes ▸ ⟨_, h.size_toNat hbitmap⟩
  at_offset i bitmap off hbitmap hoff := hfile.trans (h.hasAt_bitmap hbitmap (hoffsets ▸ hoff))
  ordered i j bitmap off next hij hbitmap hoff hnext :=
    h.laid.disjoint length_bitmapOffsets hij hbitmap (hoffsets ▸ hoff) (hoffsets ▸ hnext)
  aligned := hoffsets ▸ bitmapOffsets_mod

end SABIBuilder.Written

theorem SABIReader.startBins_sound (t : TableRep) (r : SABIReader) (bitmaps : List Roaring)
    (blockCache : Bool) : (SABIReader.startBins blockCache).Sound t r bitmaps := by
  refine ⟨fun cache hcache => ?_, by simp [SABIReader.startBins]⟩
  cases blockCache with
  | false => cases hcache
  | true =>
      obtain rfl := Option.some.inj hcache
      simp

theorem SABIReader.residentBin_eq {r : SABIReader} {bitmaps : List Roaring}
    (hbitmaps : r.bitmaps ++ [r.tombstoneBitmap] = bitmaps)
    (htotal : r.totalBins + 1 = bitmaps.length)
    {i : ℕ} (hi : i < bitmaps.length) : r.residentBin i = bitmaps[i]? := by
  have hlen : r.bitmaps.length = r.totalBins := by
    rw [← hbitmaps, List.length_append, List.length_singleton] at htotal
    omega
  rw [SABIReader.residentBin, ← hbitmaps]
  split
  · next heq => rw [heq, ← hlen, List.getElem?_concat_length]
  · rw [List.getElem?_append_left (by omega)]

/-- What a call on the metadata reader `r` from `w` has to do with the same call
on the resident reader `res`. -/
def SABIReader.BinCall.Refines (frozen : FrozenCodec) (env : BinEnv) (t : TableRep)
    (r res : SABIReader) (w : BinWorld) : SABIReader.BinCall → Prop
  | bin flatIdx prefetch => ∃ out w', r.bin frozen env t flatIdx prefetch w = some (out, w') ∧
      (∀ view, out.view = some view →
        ∃ out', res.bin frozen env t flatIdx prefetch w = some (out', w) ∧
          out'.view = some view) ∧
      (out.view = none →
        out.pin = none ∧ FailedRun frozen env t r prefetch flatIdx flatIdx w w')
  | binRange firstFlat lastFlat outViews outPins prefetch => ∃ out w',
      r.binRange frozen env t firstFlat lastFlat outViews outPins prefetch w = some (out, w') ∧
      (out.ok = true →
        (∃ out', res.binRange frozen env t firstFlat lastFlat outViews outPins prefetch w =
          some (out', w) ∧ out.outViews = out'.outViews) ∧
        ∃ pins, out.outPins = outPins ++ pins ∧
          out.outViews = outViews ++ pins.map SABIPinnedBin.view) ∧
      (out.ok = false → out.outViews = outViews ∧ out.outPins = outPins ∧
        FailedRun frozen env t r prefetch firstFlat lastFlat w w')
  | newPrefetch => True
  | submit _ _ => True

theorem BinsAt.refines {frozen : FrozenCodec} {t : TableRep} {r res : SABIReader}
    {bitmaps : List Roaring} {w : BinWorld} (h : BinsAt frozen t r bitmaps)
    (hmode : r.mode = .metadata) (hres : res.mode = .resident)
    (hviews : ∀ i < bitmaps.length, res.residentBin i = bitmaps[i]?) (hw : w.Sound t r bitmaps)
    (env : BinEnv) {call : SABIReader.BinCall} (hcall : call.InRange r.totalBins) :
    call.Refines frozen env t r res w := by
  have hbins := h.totalBins_eq
  cases call with
  | bin flatIdx prefetch =>
      have hi : flatIdx < bitmaps.length := Nat.lt_of_le_of_lt hcall (by omega)
      obtain ⟨out, w', hbin, -, hview, hfail⟩ := h.bin_spec hmode hw env hi prefetch
      refine ⟨out, w', hbin, fun view hsome => ⟨⟨some view, none⟩, ?_, rfl⟩, hfail⟩
      rw [SABIReader.bin, if_pos hres, hviews flatIdx hi, hview view hsome]
      rfl
  | binRange firstFlat lastFlat outViews outPins prefetch =>
      have hlast : lastFlat < bitmaps.length := Nat.lt_of_le_of_lt hcall.2 (by omega)
      obtain ⟨out, w', hrange, -, hok, hfail⟩ :=
        h.binRange_spec hmode hw env hcall.1 hlast outViews outPins prefetch
      refine ⟨out, w', hrange, fun htrue => ?_, hfail⟩
      obtain ⟨pins, hout, houtPins, hpins⟩ := hok htrue
      refine ⟨⟨⟨true, outViews ++ pins.map SABIPinnedBin.view, outPins⟩, ?_, hout⟩,
        pins, houtPins, hout⟩
      have hmapM : (List.range' firstFlat (lastFlat + 1 - firstFlat)).mapM res.residentBin =
          some (pins.map SABIPinnedBin.view) := by
        refine mapM_eq_some (by simpa using (congrArg List.length hpins).symm) fun k i hk => ?_
        have hi := List.mem_range'_1.1 (List.mem_of_getElem? hk)
        have hview := congrArg (·[k]?) hpins
        simp only [List.getElem?_map, hk, Option.map_some] at hview
        obtain ⟨pin, hpin, hview⟩ := Option.map_eq_some_iff.1 hview
        exact ⟨pin.view, by rw [List.getElem?_map, hpin]; rfl,
          by rw [hviews i (by omega), hview]⟩
      rw [SABIReader.binRange]
      simp only [if_pos hres, hmapM]
      rfl
  | newPrefetch => trivial
  | submit a b => trivial

/-- Over any sequence of calls and any behaviour of the cache, the prefetch and
the file reads, the on-demand reader of a blob below `2 ^ 32` bytes shows
the bitmaps of the resident reader, or fails and appends nothing. -/
theorem onDemand_refines_resident {rt : Runtime} {extract : AttrExtractor} {schema : SABISchema}
    {builderCalls : List BuilderCall} {b : SABIBuilder} {blob : Bytes} {res r : SABIReader}
    (hrun : SABIBuilder.run rt.hash extract schema builderCalls = some b)
    (hfinish : b.finish rt = some blob) (hlen : blob.length < 2 ^ 32)
    (hres : SABIReader.parse rt.frozen .resident blob = some res)
    (hmeta : SABIReader.parse rt.frozen .metadata blob = some r)
    {t : TableRep} (hfile : HasAt t.file t.udiOff blob) (env : BinEnv) (blockCache : Bool)
    {calls : List SABIReader.BinCall} (hcalls : ∀ call ∈ calls, call.InRange r.totalBins) :
    ∃ w, r.serveAll rt.frozen env t (SABIReader.startBins blockCache) calls = some w ∧
      ∀ call : SABIReader.BinCall, call.InRange r.totalBins →
        call.Refines rt.frozen env t r res w := by
  obtain ⟨idx, hidx, hblob⟩ := SABIBuilder.finish_eq_some hfinish
  obtain ⟨out, hformed⟩ := SABIBuilder.writeBlob_formed hblob
  have hreached := SABIBuilder.run_reached hrun
  have hshape := hreached.shaped hidx
  obtain ⟨hmode, hoffsets, hsizes, -⟩ := hformed.parse_bins hshape hlen hmeta
  obtain ⟨hresMode, hresOffsets, -, hresident⟩ := hformed.parse_bins hshape hlen hres
  -- the resident reader could not be built of a blob whose offsets wrap
  obtain ⟨views, hviews, -⟩ := hresident rfl
  obtain ⟨out, hwritten⟩ := SABIBuilder.writeBlob_written
    (SABIBuilder.room_of_residentViews hlen (hreached.ids_lt hidx) hviews) hblob
  have hbins := hwritten.binsAt hoffsets hsizes hfile
  have hstart := SABIReader.startBins_sound t r idx.bitmaps blockCache
  obtain ⟨w, hserve, hw⟩ := hbins.serveAll_spec hmode hstart env hcalls
  refine ⟨w, hserve, fun call hcall =>
    hbins.refines hmode hresMode (fun i hi => ?_) hw env hcall⟩
  have htotal : res.totalBins + 1 = idx.bitmaps.length := by
    rw [← hbins.totalBins_eq, SABIReader.totalBins, SABIReader.totalBins, hresOffsets, hoffsets]
  exact SABIReader.residentBin_eq (hwritten.resident_bitmaps hshape hlen hres) htotal hi

/-- Surroundings in which nothing goes wrong and nothing is dropped. -/
def BinEnv.calm : BinEnv where
  evicts _ _ := false
  loads _ := []
  admits _ := true
  allocates _ := true
  reads _ := true
  submits _ := .dropped
  polls _ := true

theorem onDemand_refines_resident_fiveRows : ∃ b blob res r w,
    SABIBuilder.run Runtime.oneRow.hash twoByteExtractor twoAttrSchema fiveRowCalls = some b ∧
    b.finish .oneRow = some blob ∧ blob.length < 2 ^ 32 ∧
    SABIReader.parse Runtime.oneRow.frozen .resident blob = some res ∧
    SABIReader.parse Runtime.oneRow.frozen .metadata blob = some r ∧
    r.serveAll Runtime.oneRow.frozen .calm ⟨blob, 0⟩ (SABIReader.startBins true)
      [.bin 1 false, .bin 6 false, .binRange 0 5 [] [] false] = some w ∧
    SABIReader.BinCall.Refines Runtime.oneRow.frozen .calm ⟨blob, 0⟩ r res w
      (.binRange 1 6 [] [] false) := by
  obtain ⟨b, idx, blob, hrun, hidx, hfinish, hbitmaps, hend, hlen⟩ := exists_finish_fiveRows
  have hlt : blob.length < 2 ^ 32 := by omega
  obtain ⟨out, blob', hfinish', hwritten⟩ := (SABIBuilder.run_reached hrun).finish_written hidx
    (hend.trans_le (by decide))
  obtain rfl := Option.some.inj (hfinish'.symm.trans hfinish)
  have hreached := SABIBuilder.run_reached hrun
  have hparse := hwritten.parse_eq hreached (hreached.shaped hidx) hlt (by decide)
  have hfile : HasAt (TableRep.mk blob' 0).file (TableRep.mk blob' 0).udiOff blob' := HasAt.self _
  have htotal : (readerOf Runtime.oneRow.frozen .metadata b (tableLayout fiveRowCalls).2
      idx).totalBins = 6 := by
    show (b.bitmapOffsets Runtime.oneRow.frozen idx).length - 2 = 6
    rw [SABIBuilder.length_bitmapOffsets, hbitmaps]
    rfl
  obtain ⟨w, hserve, hrefines⟩ := @onDemand_refines_resident .oneRow _ _ _ _ _ _ _ hrun hfinish hlt
    (hparse .resident) (hparse .metadata) _ hfile .calm true
    [.bin 1 false, .bin 6 false, .binRange 0 5 [] [] false]
    (by rw [htotal]; simp [SABIReader.BinCall.InRange])
  exact ⟨b, blob', _, _, w, hrun, hfinish, hlt, hparse .resident, hparse .metadata, hserve,
    hrefines _ (by rw [htotal]; simp [SABIReader.BinCall.InRange])⟩

end BitLSM
