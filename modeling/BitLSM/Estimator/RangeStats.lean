import Mathlib.Algebra.BigOperators.Ring.List
import Mathlib.Algebra.Order.BigOperators.Group.List
import Mathlib.Algebra.Order.Floor.Semiring
import Mathlib.Data.Rat.Floor
import BitLSM.Lib.Grid
import BitLSM.Estimator.ByteAxis
import BitLSM.SabiQuery

/-!
Statistics of a range attribute over the live files.

`Rebuild` fits an axis to the boundaries of all histograms, spreads the count of
each bin over the cells of a uniform grid on that axis and keeps the prefix sums
of the cells. A query's interval is placed on the axis as a half-open window,
and its mass is read off the prefix sums.

A double is the rational it stands for, and each operation rounds its exact
result; `Rounding.exact` is arithmetic that does not round.
-/

namespace BitLSM

open Wire

/-! ### Doubles -/

/-- How an operation rounds its exact result: never across another result, and
zero and one are exact. -/
structure Rounding where
  round : ℚ → ℚ
  mono : Monotone round
  zero : round 0 = 0
  one : round 1 = 1

namespace Rounding

variable (r : Rounding)

def ofNat (n : ℕ) : ℚ := r.round n

def add (a b : ℚ) : ℚ := r.round (a + b)

def sub (a b : ℚ) : ℚ := r.round (a - b)

def mul (a b : ℚ) : ℚ := r.round (a * b)

def div (a b : ℚ) : ℚ := r.round (a / b)

/-- No rounding. -/
def exact : Rounding := ⟨id, monotone_id, rfl, rfl⟩

@[simp] theorem exact_ofNat (n : ℕ) : exact.ofNat n = n := rfl

@[simp] theorem exact_add (a b : ℚ) : exact.add a b = a + b := rfl

@[simp] theorem exact_sub (a b : ℚ) : exact.sub a b = a - b := rfl

@[simp] theorem exact_mul (a b : ℚ) : exact.mul a b = a * b := rfl

@[simp] theorem exact_div (a b : ℚ) : exact.div a b = a / b := rfl

end Rounding

/-! ### The statistics -/

/-- What one file contributes to the candidate model. -/
structure SSTBins where
  /-- The attribute's span in this file, in coordinates. -/
  lo : UInt64
  hi : UInt64
  /-- Binned rows over the number of bins. -/
  binmass : ℚ
  total : ℚ

/-- An interval placed on the axis as `[lo, hi)`. -/
structure AxisWindow where
  lo : UInt64
  hi : UInt64
  /-- Whether it spans at most one value step. -/
  point : Bool := false
  /-- Whether the lower end lies inside the bounds. -/
  inSpan : Bool := false
  deriving DecidableEq, Repr

structure GlobalRangeStats where
  axis : ByteAxis
  /-- Exact global bounds. -/
  minBytes : Bytes
  maxBytes : Bytes
  /-- `cellPsum[i]` is the mass of the cells up to `i`. -/
  cellPsum : List ℚ := []
  total : ℚ := 0
  /-- A lower bound of the distinct values, 0 when unknown. -/
  ndv : UInt64 := 0
  sstBins : List SSTBins := []

namespace GlobalRangeStats

variable (r : Rounding)

/-- The lower end: ends outside the bounds are settled by their bytes. -/
def placeLo (st : GlobalRangeStats) (w : ByteInterval) : UInt64 :=
  if w.lo < st.minBytes then 0
  else if st.maxBytes < w.lo then st.axis.endRel
  else satAdd (st.axis.rel w.lo) (if w.loOpen then st.axis.unit else 0)

def placeHi (st : GlobalRangeStats) (w : ByteInterval) : UInt64 :=
  if w.hiUnbounded ∨ st.maxBytes < w.hi then st.axis.endRel
  else if w.hi < st.minBytes then 0
  else satAdd (st.axis.rel w.hi) (if w.hiOpen then 0 else st.axis.unit)

def place (st : GlobalRangeStats) (w : ByteInterval) : AxisWindow where
  lo := st.placeLo w
  hi := st.placeHi w
  point := st.placeLo w < st.placeHi w ∧ st.placeHi w - st.placeLo w ≤ st.axis.unit
  inSpan := ¬w.lo < st.minBytes ∧ st.placeLo w ≤ st.axis.span

/-- Mass of the cells before a cell. -/
def below (st : GlobalRangeStats) (cell : ℕ) : ℚ :=
  if cell = 0 then 0 else st.cellPsum.getD (cell - 1) 0

/-- Mass below a coordinate. The cell is computed in 32 bits, which the size of
the grid has too. -/
def cumBelow (st : GlobalRangeStats) (rel : UInt64) : ℚ :=
  if rel = 0 ∨ st.total = 0 then 0
  else if st.axis.span = 0 ∨ st.axis.span < rel then st.total
  else
    let p := r.mul (r.div (r.ofNat rel.toNat) (r.ofNat st.axis.span.toNat))
      (r.ofNat st.cellPsum.length)
    let cell := Grid.cellOf st.cellPsum.length p
    let cellMass := r.sub (st.cellPsum.getD cell 0) (st.below cell)
    r.add (st.below cell) (r.mul cellMass (r.sub p (r.ofNat cell)))

def rangeMass (st : GlobalRangeStats) (w : AxisWindow) : ℚ :=
  if w.hi ≤ w.lo ∨ st.total = 0 then 0
  else
    let upper := if st.axis.span < w.hi then st.total else st.cumBelow r w.hi
    max 0 (r.sub upper (st.cumBelow r w.lo))

def pointAwareRangeMass (st : GlobalRangeStats) (w : AxisWindow) : ℚ :=
  let mass := st.rangeMass r w
  let mass :=
    if w.point ∧ 0 < st.ndv ∧ w.inSpan then max mass (r.div st.total (r.ofNat st.ndv.toNat))
    else mass
  min mass st.total

/-! #### Candidates -/

/-- The part of a file's span the window covers. `none` when it covers nothing
or the file has no binned rows. -/
def overlapLength (st : GlobalRangeStats) (w : AxisWindow) (s : SSTBins) : Option ℚ :=
  let sEnd := satAdd s.hi st.axis.unit
  if w.hi ≤ s.lo ∨ sEnd ≤ w.lo ∨ s.total ≤ 0 then none
  else
    let cLo := if w.lo < s.lo then s.lo else w.lo
    let cHi := if w.hi < sEnd then w.hi else sEnd
    some (r.ofNat (cHi - cLo).toNat)

/-- The file's mass under the window, as if it were uniform on the span. -/
def overlapMass (st : GlobalRangeStats) (s : SSTBins) (len : ℚ) : ℚ :=
  let spanLen := r.add (r.ofNat (s.hi - s.lo).toNat) (r.ofNat st.axis.unit.toNat)
  r.mul s.total (r.div len spanLen)

/-- First pass. -/
def overlapTotal (st : GlobalRangeStats) (w : AxisWindow) : ℚ :=
  st.sstBins.foldl (fun acc s =>
    match st.overlapLength r w s with
    | none => acc
    | some len => r.add acc (st.overlapMass r s len)) 0

/-- The matching share of a file rounded out to its bins. -/
def candidateOf (st : GlobalRangeStats) (w : AxisWindow) (matchMass total : ℚ) (s : SSTBins)
    (len : ℚ) : ℚ :=
  let matchS :=
    if 0 < total then r.div (r.mul matchMass (st.overlapMass r s len)) total else 0
  let c :=
    if w.point then max s.binmass matchS
    else
      let left : ℚ := if s.lo < w.lo then 1 / 2 else 0
      let right : ℚ := if w.hi < satAdd s.hi st.axis.unit then 1 / 2 else 0
      max s.binmass (r.add matchS (r.mul (r.add left right) s.binmass))
  min c s.total

def candidateMass (st : GlobalRangeStats) (w : AxisWindow) (matchMass : ℚ) : ℚ :=
  if w.hi ≤ w.lo ∨ st.sstBins = [] then matchMass
  else
    let total := st.overlapTotal r w
    let cand := st.sstBins.foldl (fun acc s =>
      match st.overlapLength r w s with
      | none => acc
      | some len => r.add acc (st.candidateOf r w matchMass total s len)) 0
    max cand matchMass

end GlobalRangeStats

/-! ### Projection -/

section Projection

variable (r : Rounding)

/-- `cells[i] += x`. -/
def addCell (cells : List ℚ) (i : ℕ) (x : ℚ) : List ℚ := cells.modify i (r.add · x)

/-- One cell of a bin with coordinates `s < e`. -/
def spreadCell (cellW count s e : ℚ) (cells : List ℚ) (c : ℕ) : List ℚ :=
  let cl := r.mul (r.ofNat c) cellW
  let cr := r.add cl cellW
  let overlap := r.sub (min e cr) (max s cl)
  if 0 < overlap then addCell r cells c (r.mul count (r.div overlap (r.sub e s))) else cells

/-- One bin with its coordinates. -/
def projectMass (cellW count s e : ℚ) (cells : List ℚ) : List ℚ :=
  let c0 := Grid.cellOf cells.length (r.div s cellW)
  if e ≤ s then addCell r cells c0 count
  else
    let c1 := Grid.cellOf cells.length (r.div e cellW)
    (List.range' c0 (c1 + 1 - c0)).foldl (spreadCell r cellW count s e) cells

def projectBin (axis : ByteAxis) (cellW : ℚ) (cells : List ℚ) (bin : Bytes × Bytes × UInt64) :
    List ℚ :=
  let count := r.ofNat bin.2.2.toNat
  if count = 0 then cells
  else
    projectMass r cellW count (r.ofNat (axis.rel bin.1).toNat) (r.ofNat (axis.rel bin.2.1).toNat)
      cells

/-- Each bin: its two boundaries and its count. -/
def RangeAttrHistogram.bins (h : RangeAttrHistogram) : List (Bytes × Bytes × UInt64) :=
  h.boundaries.zip (h.boundaries.tail.zip h.counts)

def projectHistogram (axis : ByteAxis) (cells : List ℚ) (h : RangeAttrHistogram) : List ℚ :=
  if axis.span = 0 then h.counts.foldl (fun cells c => addCell r cells 0 (r.ofNat c.toNat)) cells
  else
    let cellW := r.div (r.ofNat axis.span.toNat) (r.ofNat cells.length)
    h.bins.foldl (projectBin r axis cellW) cells

/-- The running sums of the cells. -/
def accumulate (acc : ℚ) : List ℚ → List ℚ
  | [] => []
  | x :: cells => r.add acc x :: accumulate (r.add acc x) cells

def sstBinsOf (axis : ByteAxis) (h : RangeAttrHistogram) : SSTBins :=
  let total := h.counts.foldl (fun acc c => r.add acc (r.ofNat c.toNat)) 0
  { lo := axis.rel h.first
    hi := axis.rel h.last
    total
    binmass := if h.counts = [] then 0 else r.div total (r.ofNat h.counts.length) }

/-- The statistics on a fitted axis. -/
def rangeStats (gridCells : UInt32) (hists : List RangeAttrHistogram) (lo hi : Bytes)
    (axis : ByteAxis) : GlobalRangeStats :=
  let cells := hists.foldl (projectHistogram r axis) (List.replicate gridCells.toNat 0)
  { axis
    minBytes := lo
    maxBytes := hi
    cellPsum := accumulate r 0 cells
    total := cells.foldl r.add 0
    ndv := hists.foldl (fun ndv h => if ndv < h.distinct then h.distinct else ndv) 0
    sstBins := hists.map (sstBinsOf r axis) }

/-- The statistics `Rebuild` assembles for one range attribute. -/
def rebuildRange (gridCells : UInt32) (hists : List RangeAttrHistogram) :
    Option GlobalRangeStats := do
  let (lo, hi, axis) ← rebuildAxis hists
  return rangeStats r gridCells hists lo hi axis

theorem rebuildRange_eq {gridCells : UInt32} {hists : List RangeAttrHistogram} {lo hi : Bytes}
    {axis : ByteAxis} (h : rebuildAxis hists = some (lo, hi, axis)) :
    rebuildRange r gridCells hists = some (rangeStats r gridCells hists lo hi axis) := by
  simp only [rebuildRange, h, Option.bind_eq_bind, Option.bind_some, Option.pure_def]

/-- A property of the statistics, checked on the axis. -/
theorem exists_rebuildRange {gridCells : UInt32} {hists : List RangeAttrHistogram}
    {p : GlobalRangeStats → Prop} [DecidablePred p]
    (h : (rebuildAxis hists).any fun out =>
      p (rangeStats r gridCells hists out.1 out.2.1 out.2.2)) :
    ∃ st, rebuildRange r gridCells hists = some st ∧ p st := by
  obtain ⟨⟨lo, hi, axis⟩, haxis, hp⟩ := (Option.any_eq_true _ _).1 h
  exact ⟨_, rebuildRange_eq r haxis, of_decide_eq_true hp⟩

end Projection

/-! ### Nothing is lost or doubled

From here on nothing is rounded. -/

theorem spreadCell_mass {n : ℕ} {w count s e : ℚ} (hcount : 0 ≤ count) (hse : s < e) {c : ℕ}
    (hc : c < n) {m : ℚ} {cells : List ℚ} (h : Grid.Mass n m cells) :
    Grid.Mass n (m + count / (e - s) * max 0 (Grid.overlap s e (c * w) (c * w + w)))
      (spreadCell .exact w count s e cells c) := by
  have hcell : spreadCell .exact w count s e cells c =
      if 0 < Grid.overlap s e (c * w) (c * w + w) then
        Grid.addAt cells c (count * (Grid.overlap s e (c * w) (c * w + w) / (e - s)))
      else cells := rfl
  rw [hcell]
  by_cases hpos : 0 < Grid.overlap s e (c * w) (c * w + w)
  · rw [if_pos hpos, max_eq_right hpos.le, div_mul_eq_mul_div, ← mul_div_assoc]
    exact h.addAt hc (div_nonneg (mul_nonneg hcount hpos.le) (sub_nonneg.2 hse.le))
  · rw [if_neg hpos, max_eq_left (not_lt.1 hpos), mul_zero, add_zero]
    exact h

/-- A bin puts its whole count on the cells, wherever it begins and ends. -/
theorem projectMass_mass {n : ℕ} (hn : 0 < n) {w count s e : ℚ} (hw : 0 < w) (hcount : 0 ≤ count)
    (hs : 0 ≤ s) (he : e ≤ n * w) {m : ℚ} {cells : List ℚ} (h : Grid.Mass n m cells) :
    Grid.Mass n (m + count) (projectMass .exact w count s e cells) := by
  simp only [projectMass, h.length, Rounding.exact_div]
  by_cases hse : e ≤ s
  · rw [if_pos hse]
    exact h.addAt (Grid.cellOf_lt hn _) hcount
  · rw [if_neg hse]
    rw [not_le] at hse
    obtain ⟨c0, hc0⟩ : ∃ c, c = Grid.cellOf n (s / w) := ⟨_, rfl⟩
    obtain ⟨c1, hc1⟩ : ∃ c, c = Grid.cellOf n (e / w) := ⟨_, rfl⟩
    have hfirst : (c0 : ℚ) * w ≤ s := by
      rw [hc0]
      exact (le_div_iff₀ hw).1 (Grid.cellOf_le (div_nonneg hs hw.le))
    have hle : c0 ≤ c1 := by
      rw [hc0, hc1]
      exact Grid.cellOf_mono (div_le_div_of_nonneg_right hse.le hw.le)
    have hlt : c1 < n := hc1 ▸ Grid.cellOf_lt hn (e / w)
    have hlast : e ≤ ((c0 + (c1 + 1 - c0) : ℕ) : ℚ) * w := by
      rw [Nat.add_sub_cancel' (by omega), ← div_le_iff₀ hw, hc1]
      exact Grid.le_cellOf_add_one hn ((div_le_iff₀ hw).2 he)
    have hadded : Grid.Mass n (m + ((List.range' c0 (c1 + 1 - c0)).map fun c : ℕ =>
          count / (e - s) * max 0 (Grid.overlap s e (c * w) (c * w + w))).sum)
        ((List.range' c0 (c1 + 1 - c0)).foldl (spreadCell .exact w count s e) cells) := by
      refine h.foldl fun c hc m cells hm => spreadCell_mass hcount hse ?_ hm
      have := List.mem_range'_1.1 hc
      omega
    rw [List.sum_map_mul_left, Grid.sum_overlap hse.le hw.le hfirst hlast,
      div_mul_cancel₀ _ (sub_pos.2 hse).ne'] at hadded
    rw [← hc0, ← hc1]
    exact hadded

theorem projectBin_mass {n : ℕ} (hn : 0 < n) {axis : ByteAxis} (hspan : axis.span ≠ 0)
    {bin : Bytes × Bytes × UInt64} (hlast : axis.rel bin.2.1 ≤ axis.span) {m : ℚ}
    {cells : List ℚ} (h : Grid.Mass n m cells) :
    Grid.Mass n (m + (bin.2.2.toNat : ℚ))
      (projectBin .exact axis ((axis.span.toNat : ℚ) / n) cells bin) := by
  have hspan' : (0 : ℚ) < axis.span.toNat := by
    have : 0 < axis.span.toNat := Nat.pos_of_ne_zero fun hzero => hspan (UInt64.toNat_inj.1 hzero)
    exact_mod_cast this
  have hn' : (0 : ℚ) < n := by exact_mod_cast hn
  by_cases hcount : Rounding.exact.ofNat bin.2.2.toNat = 0
  · rw [projectBin, if_pos hcount, ← Rounding.exact_ofNat bin.2.2.toNat, hcount, add_zero]
    exact h
  · rw [projectBin, if_neg hcount]
    apply projectMass_mass hn (div_pos hspan' hn') (Nat.cast_nonneg _) (Nat.cast_nonneg _) _ h
    rw [Rounding.exact_ofNat, mul_div_cancel₀ _ hn'.ne']
    exact_mod_cast UInt64.le_iff_toNat_le.1 hlast

theorem RangeAttrHistogram.map_bins (h : RangeAttrHistogram) :
    h.bins.map (fun bin => bin.2.2) = h.counts := by
  have hlen := h.length_boundaries
  have hsnd : (h.boundaries.tail.zip h.counts).map Prod.snd = h.counts :=
    List.map_snd_zip (by simp [hlen])
  have hbins : h.bins.map Prod.snd = h.boundaries.tail.zip h.counts :=
    List.map_snd_zip (by simp [hlen])
  rw [← hsnd, ← hbins, List.map_map]
  rfl

theorem RangeAttrHistogram.mem_of_bins {h : RangeAttrHistogram} {bin : Bytes × Bytes × UInt64}
    (hbin : bin ∈ h.bins) : bin.2.1 ∈ h.boundaries :=
  List.mem_of_mem_tail (List.of_mem_zip (List.of_mem_zip hbin).2).1

/-- A histogram puts all its counts on the cells. -/
theorem projectHistogram_mass {n : ℕ} (hn : 0 < n) {axis : ByteAxis} {g : RangeAttrHistogram}
    (hrel : ∀ b ∈ g.boundaries, axis.rel b ≤ axis.span) {m : ℚ} {cells : List ℚ}
    (h : Grid.Mass n m cells) :
    Grid.Mass n (m + (g.counts.map fun c => (c.toNat : ℚ)).sum)
      (projectHistogram .exact axis cells g) := by
  unfold projectHistogram
  by_cases hspan : axis.span = 0
  · rw [if_pos hspan]
    exact h.foldl fun c _ m cells hm => hm.addAt hn (Nat.cast_nonneg _)
  · rw [if_neg hspan, ← g.map_bins, List.map_map]
    simp only [h.length, Rounding.exact_div, Rounding.exact_ofNat]
    exact h.foldl fun bin hbin m cells hm =>
      projectBin_mass hn hspan (hrel _ (RangeAttrHistogram.mem_of_bins hbin)) hm

theorem accumulate_exact (acc : ℚ) (cells : List ℚ) :
    accumulate .exact acc cells = Grid.runningSums acc cells := by
  induction cells generalizing acc with
  | nil => rfl
  | cons x cells ih => rw [accumulate, Grid.runningSums, ih, Rounding.exact_add]

/-- All counts of all files. -/
def totalCount (hists : List RangeAttrHistogram) : ℚ :=
  (hists.map fun h => (h.counts.map fun c => (c.toNat : ℚ)).sum).sum

/-- Statistics whose prefix sums are those of cells that hold the total. -/
structure OverCells (cells : List ℚ) (st : GlobalRangeStats) : Prop where
  mass : Grid.Mass st.cellPsum.length st.total cells
  pos : 0 < st.cellPsum.length
  psum : st.cellPsum = Grid.runningSums 0 cells

/-- What `Rebuild` assembles. -/
structure RangeStatsOf (hists : List RangeAttrHistogram) (st : GlobalRangeStats) : Prop where
  axisOf : AxisOf hists st.minBytes st.maxBytes st.axis
  cells : ∃ cells, OverCells cells st
  total : st.total = totalCount hists

theorem rebuildRange_spec {hists : List RangeAttrHistogram} (hne : hists ≠ []) {gridCells : UInt32}
    (hgrid : 1 ≤ gridCells.toNat) :
    ∃ st, rebuildRange .exact gridCells hists = some st ∧ RangeStatsOf hists st := by
  obtain ⟨lo, hi, axis, hrebuild, haxis⟩ := rebuildAxis_spec hne
  have hmass : Grid.Mass gridCells.toNat (totalCount hists)
      (hists.foldl (projectHistogram .exact axis) (List.replicate gridCells.toNat 0)) := by
    have h := Grid.mass_replicate (K := ℚ) gridCells.toNat
    rw [← zero_add (totalCount hists)]
    exact h.foldl fun g hg m cells hm => projectHistogram_mass hgrid
      (fun b hb => (haxis.toNat_rel (mem_allBoundaries.2 ⟨g, hg, hb⟩)).2) hm
  have hfoldl (cells : List ℚ) : cells.foldl Rounding.exact.add 0 = cells.sum :=
    List.sum_eq_foldl.symm
  refine ⟨rangeStats .exact gridCells hists lo hi axis, rebuildRange_eq .exact hrebuild, haxis,
    ⟨_, ?_, ?_, accumulate_exact 0 _⟩, ?_⟩
  · simp only [rangeStats, accumulate_exact, Grid.length_runningSums, hmass.length, hfoldl,
      hmass.sum]
    exact hmass
  · simp only [rangeStats, accumulate_exact, Grid.length_runningSums, hmass.length]
    exact hgrid
  · simp only [rangeStats, hfoldl, hmass.sum]

/-! ### Reading mass back -/

namespace OverCells

variable {cells : List ℚ} {st : GlobalRangeStats}

theorem monotone (h : OverCells cells st) : Monotone fun i => (cells.take i).sum :=
  Grid.monotone_sum_take h.mass.nonneg

theorem sum_take_length (h : OverCells cells st) :
    (cells.take st.cellPsum.length).sum = st.total := by
  rw [← h.mass.length, List.take_length, h.mass.sum]

theorem getElem?_cellPsum (h : OverCells cells st) {i : ℕ} (hi : i < st.cellPsum.length) :
    st.cellPsum[i]? = some (cells.take (i + 1)).sum := by
  rw [h.psum, Grid.getElem?_runningSums 0 cells (by rwa [h.mass.length]), zero_add]

theorem below_eq (h : OverCells cells st) {i : ℕ} (hi : i ≤ st.cellPsum.length) :
    st.below i = (cells.take i).sum := by
  cases i with
  | zero => rfl
  | succ i =>
      rw [GlobalRangeStats.below, if_neg (Nat.succ_ne_zero i), Nat.add_sub_cancel,
        List.getD_eq_getElem?_getD, h.getElem?_cellPsum hi, Option.getD_some]

theorem total_nonneg (h : OverCells cells st) : 0 ≤ st.total := by
  rw [← h.mass.sum]
  exact List.sum_nonneg h.mass.nonneg

/-- The position of a coordinate on the cells. -/
theorem position_mem {rel : UInt64} (hle : rel ≤ st.axis.span)
    (hspan : st.axis.span ≠ 0) :
    0 ≤ (rel.toNat : ℚ) / st.axis.span.toNat * st.cellPsum.length ∧
      (rel.toNat : ℚ) / st.axis.span.toNat * st.cellPsum.length ≤ st.cellPsum.length := by
  have hpos : (0 : ℚ) < st.axis.span.toNat := by
    have : 0 < st.axis.span.toNat :=
      Nat.pos_of_ne_zero fun hzero => hspan (UInt64.toNat_inj.1 hzero)
    exact_mod_cast this
  have hle' : (rel.toNat : ℚ) ≤ st.axis.span.toNat := by
    exact_mod_cast UInt64.le_iff_toNat_le.1 hle
  constructor
  · positivity
  · exact mul_le_of_le_one_left (Nat.cast_nonneg _) ((div_le_one hpos).2 hle')

/-- On the span the mass below a coordinate interpolates the prefix sums. -/
theorem cumBelow_eq (h : OverCells cells st) {rel : UInt64} (hle : rel ≤ st.axis.span)
    (hspan : st.axis.span ≠ 0) :
    st.cumBelow .exact rel = Grid.interpolate (fun i => (cells.take i).sum) st.cellPsum.length
      ((rel.toNat : ℚ) / st.axis.span.toNat * st.cellPsum.length) := by
  obtain ⟨hp, hn⟩ := position_mem hle hspan
  have hcell := Grid.cellOf_lt h.pos
    ((rel.toNat : ℚ) / st.axis.span.toNat * st.cellPsum.length)
  unfold GlobalRangeStats.cumBelow
  by_cases hzero : rel = 0 ∨ st.total = 0
  · rw [if_pos hzero]
    rcases hzero with rfl | htotal
    · rw [UInt64.toNat_zero, Nat.cast_zero, zero_div, zero_mul, Grid.interpolate_zero]
      rfl
    · -- without mass all prefix sums are zero
      apply le_antisymm
      · exact le_trans (h.monotone (Nat.zero_le _)) (Grid.le_interpolate h.monotone hp)
      · calc Grid.interpolate (fun i => (cells.take i).sum) st.cellPsum.length
              ((rel.toNat : ℚ) / st.axis.span.toNat * st.cellPsum.length)
            ≤ (cells.take (_ + 1)).sum := Grid.interpolate_le h.monotone h.pos hn
          _ ≤ (cells.take st.cellPsum.length).sum := h.monotone hcell
          _ = 0 := h.sum_take_length.trans htotal
  · rw [if_neg hzero, if_neg (not_or.2 ⟨hspan, UInt64.not_lt.2 hle⟩)]
    simp only [Rounding.exact_mul, Rounding.exact_div, Rounding.exact_ofNat, Rounding.exact_sub,
      Rounding.exact_add]
    rw [h.below_eq hcell.le, List.getD_eq_getElem?_getD, h.getElem?_cellPsum hcell,
      Option.getD_some]
    rfl

theorem cumBelow_zero (st : GlobalRangeStats) : st.cumBelow .exact 0 = 0 := by
  rw [GlobalRangeStats.cumBelow, if_pos (Or.inl rfl)]

theorem cumBelow_of_lt {rel : UInt64} (hlt : st.axis.span < rel) :
    st.cumBelow .exact rel = st.total := by
  have hne : rel ≠ 0 := by
    rintro rfl
    exact absurd hlt (UInt64.not_lt.2 UInt64.zero_le)
  by_cases htotal : st.total = 0
  · rw [GlobalRangeStats.cumBelow, if_pos (Or.inr htotal), htotal]
  · rw [GlobalRangeStats.cumBelow, if_neg (not_or.2 ⟨hne, htotal⟩), if_pos (Or.inr hlt)]

theorem cumBelow_span (h : OverCells cells st) (hspan : st.axis.span ≠ 0) :
    st.cumBelow .exact st.axis.span = st.total := by
  have hne : (st.axis.span.toNat : ℚ) ≠ 0 := by
    intro hzero
    exact hspan (UInt64.toNat_inj.1 (by exact_mod_cast hzero))
  rw [h.cumBelow_eq (UInt64.le_refl _) hspan, div_self hne, one_mul, Grid.interpolate_last h.pos]
  exact h.sum_take_length

theorem cumBelow_mem (h : OverCells cells st) (rel : UInt64) :
    0 ≤ st.cumBelow .exact rel ∧ st.cumBelow .exact rel ≤ st.total := by
  by_cases hlt : st.axis.span < rel
  · rw [cumBelow_of_lt hlt]
    exact ⟨h.total_nonneg, le_rfl⟩
  · have hle := UInt64.not_lt.1 hlt
    by_cases hspan : st.axis.span = 0
    · obtain rfl : rel = 0 := by
        rw [hspan] at hle
        exact UInt64.le_zero_iff.1 hle
      rw [cumBelow_zero]
      exact ⟨le_rfl, h.total_nonneg⟩
    · obtain ⟨hp, hn⟩ := position_mem hle hspan
      have hcell := Grid.cellOf_lt h.pos
        ((rel.toNat : ℚ) / st.axis.span.toNat * st.cellPsum.length)
      rw [h.cumBelow_eq hle hspan]
      refine ⟨(h.monotone (Nat.zero_le _)).trans (Grid.le_interpolate h.monotone hp), ?_⟩
      rw [← h.sum_take_length]
      exact (Grid.interpolate_le h.monotone h.pos hn).trans (h.monotone hcell)

theorem cumBelow_mono (h : OverCells cells st) {a b : UInt64} (hab : a ≤ b) :
    st.cumBelow .exact a ≤ st.cumBelow .exact b := by
  by_cases hlt : st.axis.span < b
  · rw [cumBelow_of_lt hlt]
    exact (h.cumBelow_mem a).2
  · have hle := UInt64.not_lt.1 hlt
    by_cases hspan : st.axis.span = 0
    · obtain rfl : b = 0 := by
        rw [hspan] at hle
        exact UInt64.le_zero_iff.1 hle
      obtain rfl : a = 0 := UInt64.le_zero_iff.1 hab
      exact le_rfl
    · rw [h.cumBelow_eq (UInt64.le_trans hab hle) hspan, h.cumBelow_eq hle hspan]
      obtain ⟨hp, -⟩ := position_mem (UInt64.le_trans hab hle) hspan
      obtain ⟨-, hn⟩ := position_mem hle hspan
      have hab' : (a.toNat : ℚ) ≤ b.toNat := by exact_mod_cast UInt64.le_iff_toNat_le.1 hab
      exact Grid.interpolate_mono h.monotone h.pos hp (by gcongr) hn

/-- The mass of a window is the difference of the masses below its ends. -/
theorem rangeMass_eq (h : OverCells cells st) {w : AxisWindow} (hw : w.lo ≤ w.hi) :
    st.rangeMass .exact w = st.cumBelow .exact w.hi - st.cumBelow .exact w.lo := by
  have hmono := h.cumBelow_mono hw
  unfold GlobalRangeStats.rangeMass
  by_cases hempty : w.hi ≤ w.lo ∨ st.total = 0
  · rw [if_pos hempty]
    rcases hempty with hle | htotal
    · rw [UInt64.le_antisymm hw hle, sub_self]
    · have hlo := h.cumBelow_mem w.lo
      have hhi := h.cumBelow_mem w.hi
      linarith
  · rw [if_neg hempty]
    have hupper : (if st.axis.span < w.hi then st.total else st.cumBelow .exact w.hi) =
        st.cumBelow .exact w.hi := by
      split
      · rename_i hlt
        exact (cumBelow_of_lt hlt).symm
      · rfl
    simp only [hupper, Rounding.exact_sub]
    exact max_eq_right (sub_nonneg.2 hmono)

theorem rangeMass_eq_max (h : OverCells cells st) (w : AxisWindow) :
    st.rangeMass .exact w = max 0 (st.cumBelow .exact w.hi - st.cumBelow .exact w.lo) := by
  by_cases hw : w.lo ≤ w.hi
  · rw [h.rangeMass_eq hw, max_eq_right (sub_nonneg.2 (h.cumBelow_mono hw))]
  · have hempty := UInt64.le_of_lt (UInt64.not_le.1 hw)
    rw [GlobalRangeStats.rangeMass, if_pos (Or.inl hempty),
      max_eq_left (sub_nonpos.2 (h.cumBelow_mono hempty))]

theorem pairwise_cellPsum (h : OverCells cells st) : st.cellPsum.Pairwise (· ≤ ·) := by
  rw [List.pairwise_iff_getElem]
  intro i j hi hj hij
  have hvi := h.getElem?_cellPsum hi
  have hvj := h.getElem?_cellPsum hj
  rw [List.getElem?_eq_getElem hi, Option.some.injEq] at hvi
  rw [List.getElem?_eq_getElem hj, Option.some.injEq] at hvj
  rw [hvi, hvj]
  exact h.monotone (by omega)

theorem getLast?_cellPsum (h : OverCells cells st) : st.cellPsum.getLast? = some st.total := by
  have hpos := h.pos
  rw [List.getLast?_eq_getElem?, h.getElem?_cellPsum (by omega), Nat.sub_add_cancel hpos,
    h.sum_take_length]

end OverCells

namespace RangeStatsOf

variable {hists : List RangeAttrHistogram} {st : GlobalRangeStats}

theorem placeLo_eq_zero (h : RangeStatsOf hists st) {w : ByteInterval}
    (hmin : w.aboveLo st.minBytes) : st.placeLo w = 0 := by
  unfold GlobalRangeStats.placeLo
  by_cases hlt : w.lo < st.minBytes
  · rw [if_pos hlt]
  · have heq : w.lo = st.minBytes := le_antisymm (ByteInterval.aboveLo.le hmin) (not_lt.1 hlt)
    have hclosed : w.loOpen = false := by
      by_contra hopen
      simp only [ByteInterval.aboveLo, Bool.eq_true_of_not_eq_false hopen, if_true] at hmin
      exact hlt hmin
    rw [if_neg hlt, heq, if_neg (not_lt.2 h.axisOf.lo_le_hi), h.axisOf.rel_lo, hclosed]
    rfl

theorem placeHi_eq_endRel (h : RangeStatsOf hists st) {w : ByteInterval}
    (hmax : w.belowHi st.maxBytes) : st.placeHi w = st.axis.endRel := by
  unfold GlobalRangeStats.placeHi
  by_cases hout : w.hiUnbounded = true ∨ st.maxBytes < w.hi
  · rw [if_pos hout]
  · obtain ⟨hbounded, hle⟩ := not_or.1 hout
    have hin := hmax.resolve_left hbounded
    have hclosed : w.hiOpen = false := by
      by_contra hopen
      rw [Bool.eq_true_of_not_eq_false hopen, if_pos rfl] at hin
      exact hle hin
    rw [hclosed, if_neg Bool.false_ne_true] at hin
    have heq : w.hi = st.maxBytes := le_antisymm (not_lt.1 hle) hin
    rw [if_neg hout, heq, if_neg (not_lt.2 h.axisOf.lo_le_hi), h.axisOf.rel_hi, hclosed]
    rfl

/-- All mass lies below the end, even where the end is saturated. -/
theorem cumBelow_endRel (h : RangeStatsOf hists st) :
    st.cumBelow .exact st.axis.endRel = st.total := by
  obtain ⟨cells, hcells⟩ := h.cells
  by_cases hlt : st.axis.span < st.axis.endRel
  · exact OverCells.cumBelow_of_lt hlt
  · have heq : st.axis.endRel = st.axis.span :=
      UInt64.le_antisymm (UInt64.not_lt.1 hlt) st.axis.span_le_endRel
    have hspan : st.axis.span ≠ 0 := by
      intro hzero
      have hend := st.axis.toNat_endRel
      have hunit := h.axisOf.unit_pos
      rw [heq, hzero, UInt64.toNat_zero] at hend
      omega
    rw [heq, hcells.cumBelow_span hspan]

theorem rangeMass_place (h : RangeStatsOf hists st) {w : ByteInterval} (hmin : st.minBytes ∈ w)
    (hmax : st.maxBytes ∈ w) : st.rangeMass .exact (st.place w) = st.total := by
  obtain ⟨cells, hcells⟩ := h.cells
  have hlo : (st.place w).lo = 0 := h.placeLo_eq_zero (ByteInterval.mem_def.1 hmin).1
  have hhi : (st.place w).hi = st.axis.endRel :=
    h.placeHi_eq_endRel (ByteInterval.mem_def.1 hmax).2
  rw [hcells.rangeMass_eq (by rw [hlo]; exact UInt64.zero_le), hlo, hhi, h.cumBelow_endRel,
    OverCells.cumBelow_zero, sub_zero]

end RangeStatsOf

/-- Mass is conserved: the cells hold all counts of all files, windows that
follow each other have the mass of the window they make up, and an interval
around the bounds has all of it. -/
theorem rebuildRange_conserves_mass {hists : List RangeAttrHistogram} (hne : hists ≠ [])
    {gridCells : UInt32} (hgrid : 1 ≤ gridCells.toNat) :
    ∃ st, rebuildRange .exact gridCells hists = some st ∧
      st.cellPsum.Pairwise (· ≤ ·) ∧ st.cellPsum.getLast? = some st.total ∧
      st.total = (hists.map fun h => (h.counts.map fun c => (c.toNat : ℚ)).sum).sum ∧
      (∀ lo mid hi : UInt64, lo ≤ mid → mid ≤ hi →
        0 ≤ st.rangeMass .exact { lo, hi } ∧ st.rangeMass .exact { lo, hi } ≤ st.total ∧
        st.rangeMass .exact { lo, hi := mid } + st.rangeMass .exact { lo := mid, hi } =
          st.rangeMass .exact { lo, hi }) ∧
      ∀ w : ByteInterval, st.minBytes ∈ w → st.maxBytes ∈ w →
        st.rangeMass .exact (st.place w) = st.total := by
  obtain ⟨st, hst, h⟩ := rebuildRange_spec hne hgrid
  obtain ⟨cells, hcells⟩ := h.cells
  refine ⟨st, hst, hcells.pairwise_cellPsum, hcells.getLast?_cellPsum, h.total, ?_,
    fun w => h.rangeMass_place⟩
  intro lo mid hi hlm hmh
  have hlo := hcells.cumBelow_mem lo
  have hhi := hcells.cumBelow_mem hi
  have hmono := hcells.cumBelow_mono (UInt64.le_trans hlm hmh)
  rw [hcells.rangeMass_eq (UInt64.le_trans hlm hmh), hcells.rangeMass_eq hlm,
    hcells.rangeMass_eq hmh]
  refine ⟨sub_nonneg.2 hmono, ?_, ?_⟩
  · linarith
  · ring

/-- The letters on a grid of five cells: their seven rows are all found again,
also those of the window that ends at `"b"`, in the middle of the third cell. -/
theorem rebuildRange_conserves_mass_letters :
    ∃ st, rebuildRange .exact 5 [lettersHistogram] = some st ∧ st.total = 7 ∧
      st.rangeMass .exact { lo := 0, hi := 4052555153018976267 } +
          st.rangeMass .exact { lo := 4052555153018976267, hi := 8105110306037952534 } =
        st.rangeMass .exact { lo := 0, hi := 8105110306037952534 } ∧
      st.rangeMass .exact (st.place {}) = 7 := by
  obtain ⟨st, hst, -, -, htotal, hwindows, hall⟩ :=
    rebuildRange_conserves_mass (List.cons_ne_nil lettersHistogram [])
      (show 1 ≤ (5 : UInt32).toNat by decide)
  have hseven : st.total = 7 := by
    rw [htotal]
    norm_num [lettersHistogram, show (3 : UInt64).toNat = 3 from rfl,
      show (4 : UInt64).toNat = 4 from rfl]
  have hwindow := hwindows 0 4052555153018976267 8105110306037952534 (by decide) (by decide)
  refine ⟨st, hst, hseven, hwindow.2.2, ?_⟩
  rw [hall {} ⟨ByteInterval.nil_le _, Or.inl rfl⟩ ⟨ByteInterval.nil_le _, Or.inl rfl⟩, hseven]

end BitLSM
