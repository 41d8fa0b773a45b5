import BitLSM.Lib.Intervals
import BitLSM.Reader.OnDemand
import BitLSM.Reader.Select

/-!
The plan of a span prefetch.

`PlanAndSubmit` unites the selections of a query and takes the bins that the
cache does not have as maximal runs. Bins are `uint32_t`, and no run is open
while `run_start` is the largest of them. On the bins of a table the plan is
the one of `Intervals`, and the byte extents of its runs are disjoint.
-/

namespace BitLSM

open Wire

/-! ### The plan -/

/-- Add a selection behind the intervals, or to the last one if the two overlap
or touch. -/
def addInterval (intervals : List BinSelection) (sel : BinSelection) : List BinSelection :=
  match intervals.getLast? with
  | none => [sel]
  | some back =>
      if sel.first ≤ back.last + 1 then
        intervals.dropLast ++
          [{ back with last := if back.last < sel.last then sel.last else back.last }]
      else intervals ++ [sel]

def unionSelections (std : StdSort) (selections : List BinSelection) : List BinSelection :=
  (std.run (fun x y => decide (x.first < y.first)) selections).foldl addInterval []

/-- No run is open. -/
def kNoRun : UInt32 := 0xFFFFFFFF

structure RunScan where
  runs : List BinSelection
  runStart : UInt32 := kNoRun

/-- One bin of an interval, cached or missing. -/
def scanBin (cached : UInt32 → Bool) (st : RunScan) (i : UInt32) : RunScan :=
  if cached i then
    if st.runStart ≠ kNoRun then ⟨st.runs ++ [⟨st.runStart, i - 1⟩], kNoRun⟩ else st
  else if st.runStart = kNoRun then { st with runStart := i } else st

/-- The interval is over: a run that is still open ends with it. -/
def RunScan.close (st : RunScan) (last : UInt32) : List BinSelection :=
  if st.runStart ≠ kNoRun then st.runs ++ [⟨st.runStart, last⟩] else st.runs

/-- Bins `first .. last`. The loop runs while `i <= last`, which never fails for
the largest `uint32_t`. -/
def binsOf (iv : BinSelection) : Option (List UInt32) :=
  if iv.last + 1 = 0 then none
  else some ((List.range' iv.first.toNat (iv.last.toNat + 1 - iv.first.toNat)).map UInt32.ofNat)

def cutInterval (cached : UInt32 → Bool) (runs : List BinSelection) (iv : BinSelection) :
    Option (List BinSelection) := do
  let bins ← binsOf iv
  return (bins.foldl (scanBin cached) { runs }).close iv.last

/-- The runs of missing bins. Every bin is looked up once, and `cached` is what
the lookups say. -/
def planRuns (std : StdSort) (cached : UInt32 → Bool) (selections : List BinSelection) :
    Option (List BinSelection) :=
  (unionSelections std selections).foldlM (cutInterval cached) []

/-! ### Its runs -/

/-- The bins as numbers. -/
def BinSelection.nat (s : BinSelection) : ℕ × ℕ := (s.first.toNat, s.last.toNat)

theorem toNat_add_one {x : UInt32} (h : x.toNat + 1 < 2 ^ 32) : (x + 1).toNat = x.toNat + 1 := by
  rw [UInt32.toNat_add]
  exact Nat.mod_eq_of_lt h

theorem addInterval_concat (intervals : List BinSelection) (back sel : BinSelection) :
    addInterval (intervals ++ [back]) sel =
      if sel.first ≤ back.last + 1 then
        intervals ++ [{ back with last := if back.last < sel.last then sel.last else back.last }]
      else intervals ++ [back] ++ [sel] := by
  rw [addInterval, List.getLast?_concat, List.dropLast_concat]

theorem toNat_ite_lt (x y : UInt32) : (if x < y then y else x).toNat = max x.toNat y.toNat := by
  simp only [UInt32.lt_iff_toNat_lt]
  split <;> omega

theorem map_addInterval {intervals : List BinSelection} (sel : BinSelection)
    (h : ∀ iv ∈ intervals, iv.last.toNat + 1 < 2 ^ 32) :
    (addInterval intervals sel).map BinSelection.nat =
      Intervals.absorb (intervals.map BinSelection.nat) sel.nat := by
  rcases List.eq_nil_or_concat intervals with rfl | ⟨front, back, rfl⟩
  · rfl
  · rw [List.concat_eq_append] at h ⊢
    have hback := toNat_add_one (h back (by simp))
    have hiff : sel.first ≤ back.last + 1 ↔ sel.nat.1 ≤ back.nat.2 + 1 := by
      rw [UInt32.le_iff_toNat_le, hback]
      rfl
    rw [addInterval_concat, List.map_append, List.map_singleton, Intervals.absorb_concat]
    by_cases htouch : sel.first ≤ back.last + 1
    · rw [if_pos htouch, if_pos (hiff.1 htouch), List.map_append, List.map_singleton,
        BinSelection.nat, toNat_ite_lt]
      rfl
    · rw [if_neg htouch, if_neg (mt hiff.2 htouch), List.map_append, List.map_append]
      rfl

theorem last_addInterval {intervals : List BinSelection} {sel : BinSelection} {bound : ℕ}
    (h : ∀ iv ∈ intervals, iv.last.toNat < bound) (hsel : sel.last.toNat < bound) :
    ∀ iv ∈ addInterval intervals sel, iv.last.toNat < bound := by
  rcases List.eq_nil_or_concat intervals with rfl | ⟨front, back, rfl⟩
  · simpa [addInterval] using hsel
  · rw [List.concat_eq_append] at h ⊢
    have hback := h back (by simp)
    intro iv hiv
    rw [addInterval_concat] at hiv
    split at hiv
    · rcases List.mem_append.1 hiv with hmem | hmem
      · exact h iv (List.mem_append_left _ hmem)
      · rw [List.mem_singleton.1 hmem, toNat_ite_lt]
        omega
    · rcases List.mem_append.1 hiv with hmem | hmem
      · exact h iv hmem
      · exact List.mem_singleton.1 hmem ▸ hsel

theorem map_foldl_addInterval {sels : List BinSelection}
    (h : ∀ s ∈ sels, s.last.toNat < 2 ^ 32 - 1) :
    (sels.foldl addInterval []).map BinSelection.nat =
        (sels.map BinSelection.nat).foldl Intervals.absorb [] ∧
      ∀ iv ∈ sels.foldl addInterval [], iv.last.toNat < 2 ^ 32 - 1 := by
  induction sels using List.reverseRecOn with
  | nil => exact ⟨rfl, by simp⟩
  | append_singleton sels s ih =>
      obtain ⟨hmap, hlast⟩ := ih fun x hx => h x (List.mem_append_left _ hx)
      rw [List.foldl_append, List.foldl_cons, List.foldl_nil, List.map_append, List.foldl_append]
      refine ⟨?_, last_addInterval hlast (h s (by simp))⟩
      rw [map_addInterval s fun iv hiv => by have := hlast iv hiv; omega, hmap]
      rfl

/-- The sentinel, as an option. -/
def openRun (runStart : UInt32) : Option ℕ :=
  if runStart = kNoRun then none else some runStart.toNat

theorem toNat_ofNat_lt {i : ℕ} (h : i < 2 ^ 32 - 1) :
    (UInt32.ofNat i).toNat = i ∧ UInt32.ofNat i ≠ kNoRun := by
  have htoNat : (UInt32.ofNat i).toNat = i := by
    rw [UInt32.toNat_ofNat']
    omega
  refine ⟨htoNat, fun heq => ?_⟩
  rw [heq] at htoNat
  have : kNoRun.toNat = 2 ^ 32 - 1 := rfl
  omega

/-- The loop over the bins of an interval. -/
theorem map_close_foldl (cached : UInt32 → Bool) {last : UInt32} {i n : ℕ} {st : RunScan}
    (hlast : last.toNat + 1 = i + n) (hsmall : last.toNat < 2 ^ 32 - 1)
    (hstart : ∀ s, openRun st.runStart = some s → s < i) :
    ((((List.range' i n).map UInt32.ofNat).foldl (scanBin cached) st).close last).map
        BinSelection.nat =
      st.runs.map BinSelection.nat ++
        Intervals.cut (fun j => !cached (UInt32.ofNat j)) (openRun st.runStart) i n := by
  induction n generalizing i st with
  | zero =>
      simp only [List.range'_zero, List.map_nil, List.foldl_nil]
      by_cases hrun : st.runStart = kNoRun
      · simp [RunScan.close, hrun, openRun, Intervals.cut]
      · have hend : last.toNat = i - 1 := by omega
        simp [RunScan.close, hrun, openRun, Intervals.cut, BinSelection.nat, hend]
  | succ n ih =>
      obtain ⟨htoNat, hne⟩ := @toNat_ofNat_lt i (by omega)
      have hopen : openRun (UInt32.ofNat i) = some i := by rw [openRun, if_neg hne, htoNat]
      rw [List.range'_succ, List.map_cons, List.foldl_cons]
      cases hcached : cached (UInt32.ofNat i) with
      | true =>
          by_cases hrun : st.runStart = kNoRun
          · have hscan : scanBin cached st (UInt32.ofNat i) = st := by simp [scanBin, hcached, hrun]
            have hnone : openRun st.runStart = none := if_pos hrun
            rw [hscan, ih (by omega) (by rw [hnone]; simp), hnone, Intervals.cut]
            simp [hcached]
          · have hs := hstart st.runStart.toNat (if_neg hrun)
            have hscan : scanBin cached st (UInt32.ofNat i) =
                ⟨st.runs ++ [⟨st.runStart, UInt32.ofNat i - 1⟩], kNoRun⟩ := by
              simp [scanBin, hcached, hrun]
            have hpred : (UInt32.ofNat i - 1).toNat = i - 1 := by
              rw [UInt32.toNat_sub_of_le]
              · rw [htoNat]
                rfl
              · rw [UInt32.le_iff_toNat_le, htoNat]
                exact Nat.one_le_iff_ne_zero.2 (by omega)
            have hsome : openRun st.runStart = some st.runStart.toNat := if_neg hrun
            rw [hscan, ih (by omega) (by simp [openRun]), hsome, Intervals.cut]
            simp [hcached, openRun, BinSelection.nat, hpred]
      | false =>
          by_cases hrun : st.runStart = kNoRun
          · have hscan : scanBin cached st (UInt32.ofNat i) =
              { st with runStart := UInt32.ofNat i } := by
              simp [scanBin, hcached, hrun]
            have hnone : openRun st.runStart = none := if_pos hrun
            rw [hscan, ih (by omega) (by simp [hopen]), hnone, hopen, Intervals.cut]
            simp [hcached]
          · have hscan : scanBin cached st (UInt32.ofNat i) = st := by simp [scanBin, hcached, hrun]
            have hs := hstart st.runStart.toNat (if_neg hrun)
            have hsome : openRun st.runStart = some st.runStart.toNat := if_neg hrun
            rw [hscan, ih (by omega) (by rw [hsome]; simp; omega), hsome, Intervals.cut]
            simp [hcached]

theorem cutInterval_eq (cached : UInt32 → Bool) (runs : List BinSelection) {iv : BinSelection}
    (hproper : iv.first ≤ iv.last) (hsmall : iv.last.toNat < 2 ^ 32 - 1) :
    ∃ runs', cutInterval cached runs iv = some runs' ∧
      runs'.map BinSelection.nat = runs.map BinSelection.nat ++
        Intervals.cut (fun j => !cached (UInt32.ofNat j)) none iv.nat.1
          (iv.nat.2 + 1 - iv.nat.1) := by
  have hle := UInt32.le_iff_toNat_le.1 hproper
  have hends : iv.last + 1 ≠ 0 := by
    rw [ne_eq, ← UInt32.toNat_inj, toNat_add_one (by omega)]
    exact Nat.succ_ne_zero _
  refine ⟨_, by rw [cutInterval, binsOf, if_neg hends]; rfl, ?_⟩
  refine map_close_foldl cached ?_ hsmall ?_
  · omega
  · simp [openRun]

theorem foldlM_cutInterval (cached : UInt32 → Bool) {ivs runs : List BinSelection}
    (h : ∀ iv ∈ ivs, iv.first ≤ iv.last ∧ iv.last.toNat < 2 ^ 32 - 1) :
    ∃ runs', ivs.foldlM (cutInterval cached) runs = some runs' ∧
      runs'.map BinSelection.nat = runs.map BinSelection.nat ++
        Intervals.cutAll (fun j => !cached (UInt32.ofNat j)) (ivs.map BinSelection.nat) := by
  induction ivs generalizing runs with
  | nil => exact ⟨runs, rfl, by simp [Intervals.cutAll]⟩
  | cons iv ivs ih =>
      rw [List.forall_mem_cons] at h
      obtain ⟨runs₁, hcut, hmap₁⟩ := cutInterval_eq cached runs h.1.1 h.1.2
      obtain ⟨runs₂, hfold, hmap₂⟩ := @ih runs₁ h.2
      refine ⟨runs₂, by rw [List.foldlM_cons, hcut]; exact hfold, ?_⟩
      rw [hmap₂, hmap₁, List.append_assoc]
      rfl

/-- Bin `i` is in one of the selections. -/
def Selected (selections : List BinSelection) (i : UInt32) : Prop :=
  ∃ s ∈ selections, s.first ≤ i ∧ i ≤ s.last

theorem covers_map_nat {selections : List BinSelection} {i : UInt32} :
    Intervals.Covers (selections.map BinSelection.nat) i.toNat ↔ Selected selections i := by
  simp only [Intervals.Covers, Selected, List.mem_map, UInt32.le_iff_toNat_le]
  constructor
  · rintro ⟨_, ⟨s, hs, rfl⟩, hi⟩
    exact ⟨s, hs, hi⟩
  · rintro ⟨s, hs, hi⟩
    exact ⟨_, ⟨s, hs, rfl⟩, hi⟩

/-- The runs of a plan. -/
structure IsPlan (cached : UInt32 → Bool) (selections runs : List BinSelection) : Prop where
  proper : ∀ run ∈ runs, run.first ≤ run.last
  separated : runs.Pairwise fun a b => a.last.toNat + 1 < b.first.toNat
  exact : ∀ i, Selected runs i ↔ Selected selections i ∧ cached i = false

theorem planRuns_spec (std : StdSort) (cached : UInt32 → Bool) {selections : List BinSelection}
    (h : ∀ s ∈ selections, s.first ≤ s.last ∧ s.last.toNat < 2 ^ 32 - 1) :
    ∃ runs, planRuns std cached selections = some runs ∧ IsPlan cached selections runs := by
  have hlt (x y : BinSelection) : decide (x.first < y.first) = true ↔
      x.first.toNat < y.first.toNat := by
    rw [decide_eq_true_eq, UInt32.lt_iff_toNat_lt]
  generalize hsorted : std.run (fun x y => decide (x.first < y.first)) selections = sorted
  have hperm : sorted.Perm selections := hsorted ▸ std.perm _ _
  have hmem (s : BinSelection) (hs : s ∈ sorted) := h s (hperm.mem_iff.1 hs)
  have hascending : (sorted.map BinSelection.nat).Pairwise fun a b => a.1 ≤ b.1 := by
    have := std.pairwise_key hlt selections
    rw [hsorted, List.pairwise_map] at this
    exact List.pairwise_map.2 this
  have hproper : ∀ s ∈ sorted.map BinSelection.nat, s.1 ≤ s.2 := by
    rw [List.forall_mem_map]
    exact fun s hs => UInt32.le_iff_toNat_le.1 (hmem s hs).1
  obtain ⟨hmap, hlast⟩ := map_foldl_addInterval fun s hs => (hmem s hs).2
  have hjoined := Intervals.joined_foldl hproper hascending
  rw [← hmap] at hjoined
  obtain ⟨runs, hruns, hcut⟩ := @foldlM_cutInterval cached (sorted.foldl addInterval []) []
    fun iv hiv => ⟨UInt32.le_iff_toNat_le.2
      (hjoined.apart.proper _ (List.mem_map_of_mem hiv)), hlast iv hiv⟩
  rw [List.map_nil, List.nil_append] at hcut
  obtain ⟨hapart, hcovers⟩ :=
    @Intervals.cutAll_spec (fun j => !cached (UInt32.ofNat j)) _ hjoined.apart
  rw [← hcut] at hapart hcovers
  refine ⟨runs, by rw [planRuns, unionSelections, hsorted, hruns], fun run hrun => ?_, ?_,
    fun i => ?_⟩
  · exact UInt32.le_iff_toNat_le.2 (hapart.proper _ (List.mem_map_of_mem hrun))
  · exact List.pairwise_map.1 hapart.separated
  · rw [← covers_map_nat, hcovers, hjoined.covers, covers_map_nat, UInt32.ofNat_toNat,
      Bool.not_eq_true']
    refine and_congr_left fun _ => ?_
    simp only [Selected, hperm.mem_iff]

/-- The selections are as `SelectBins` gives them, or the tombstone. -/
def InBins (bins : ℕ) (selections : List BinSelection) : Prop :=
  ∀ s ∈ selections, s.first ≤ s.last ∧ s.last.toNat ≤ bins

theorem IsPlan.inBins {cached : UInt32 → Bool} {selections runs : List BinSelection} {bins : ℕ}
    (h : IsPlan cached selections runs) (hsel : InBins bins selections) : InBins bins runs := by
  intro run hrun
  have hproper := h.proper run hrun
  obtain ⟨⟨s, hs, -, hle⟩, -⟩ := (h.exact run.last).1 ⟨run, hrun, hproper, UInt32.le_refl _⟩
  exact ⟨hproper, (UInt32.le_iff_toNat_le.1 hle).trans (hsel s hs).2⟩

/-! ### Their bytes -/

/-- The bytes of a run in the blob: from the padded start of its first bin to the
exact end of its last. -/
def SABIReader.RunBytes (r : SABIReader) (run : BinSelection) (start stop : ℕ) : Prop :=
  ∃ offA offB sizeB, r.bitmapOffsets[run.first.toNat]? = some offA ∧
    r.bitmapOffsets[run.last.toNat]? = some offB ∧ r.bitmapSizes[run.last.toNat]? = some sizeB ∧
    start = offA.toNat ∧ stop = offB.toNat + sizeB.toNat

namespace BinsAt

variable {frozen : FrozenCodec} {t : TableRep} {r : SABIReader} {bitmaps : List Roaring}

/-- No bin is empty, so there are fewer bins than offsets. -/
theorem le_offset (h : BinsAt frozen t r bitmaps) {i : ℕ} {off : UInt32}
    (hoff : r.bitmapOffsets[i]? = some off) : i ≤ off.toNat := by
  induction i generalizing off with
  | zero => exact Nat.zero_le _
  | succ i ih =>
      have hi := (List.getElem?_eq_some_iff.1 hoff).1
      rw [h.length] at hi
      obtain ⟨prev, hprev⟩ := h.exists_offset (show i < bitmaps.length by omega)
      have hbitmap := List.getElem?_eq_getElem (show i < bitmaps.length by omega)
      have hord := h.ordered i (i + 1) _ _ _ (Nat.lt_succ_self i) hbitmap hprev hoff
      have hpos := frozen.freeze_pos bitmaps[i]
      have := ih hprev
      omega

theorem totalBins_lt (h : BinsAt frozen t r bitmaps) : r.totalBins < 2 ^ 32 - 1 := by
  have hbins := h.totalBins_eq
  obtain ⟨off, hoff⟩ : ∃ off, r.bitmapOffsets[bitmaps.length]? = some off :=
    ⟨_, List.getElem?_eq_getElem (by rw [h.length]; exact Nat.lt_succ_self _)⟩
  have hle := h.le_offset hoff
  have := off.toNat_lt
  omega

theorem runBytes (h : BinsAt frozen t r bitmaps) {run : BinSelection}
    (hproper : run.first ≤ run.last) (hlast : run.last.toNat ≤ r.totalBins) :
    ∃ start stop, r.RunBytes run start stop ∧ start < stop ∧
      r.runExtent run.first.toNat run.last.toNat = some (start, stop - start) ∧
      t.udiOff + stop ≤ t.file.length := by
  have hbins := h.totalBins_eq
  have hb : run.last.toNat < bitmaps.length := by omega
  obtain ⟨offA, offB, hoffA, hoffB, hextent⟩ :=
    h.runExtent_eq (UInt32.le_iff_toNat_le.1 hproper) hb
  have hbitmap : bitmaps[run.last.toNat]? = some (bitmaps.getD run.last.toNat ∅) := by
    rw [List.getD_eq_getElem?_getD, List.getElem?_eq_getElem hb]
    rfl
  obtain ⟨size, hsize, hexact⟩ := h.size _ _ hbitmap
  have hle := h.offset_le (UInt32.le_iff_toNat_le.1 hproper) hb hoffA hoffB
  have hpos := frozen.freeze_pos (bitmaps.getD run.last.toNat ∅)
  have hfile := (h.at_offset _ _ _ hbitmap hoffB).length_le
  refine ⟨_, _, ⟨offA, offB, size, hoffA, hoffB, hsize, rfl, rfl⟩, by omega, ?_, by omega⟩
  rw [hextent, hexact, show offB.toNat + (frozen.freeze (bitmaps.getD run.last.toNat ∅)).length -
    offA.toNat = offB.toNat - offA.toNat +
      (frozen.freeze (bitmaps.getD run.last.toNat ∅)).length by omega]

theorem runBytes_disjoint (h : BinsAt frozen t r bitmaps) {a b : BinSelection}
    (hab : a.last.toNat < b.first.toNat) (hb : b.first.toNat ≤ r.totalBins)
    {start stop start' stop' : ℕ} (ha : r.RunBytes a start stop)
    (hb' : r.RunBytes b start' stop') : stop ≤ start' := by
  have hbins := h.totalBins_eq
  obtain ⟨-, offA, sizeA, -, hoffA, hsizeA, -, rfl⟩ := ha
  obtain ⟨offB, -, -, hoffB, -, -, rfl, -⟩ := hb'
  have hbitmap := List.getElem?_eq_getElem (show a.last.toNat < bitmaps.length by omega)
  obtain ⟨size, hsize, hexact⟩ := h.size _ _ hbitmap
  obtain rfl := Option.some.inj (hsizeA.symm.trans hsize)
  rw [hexact]
  exact h.ordered _ _ _ _ _ hab hbitmap hoffA hoffB

end BinsAt

end BitLSM
