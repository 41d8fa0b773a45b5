import Mathlib.Algebra.Order.Field.Rat
import Mathlib.Tactic.Linarith
import BitLSM.Builder.RangePolicy

/-!
The mass of the bins of a range attribute.

The sweep is looked at with exact quotients in place of doubles. While a bin
is filled its target stays the same. A run that joins a started bin brings
its mass nearer to the target, so a bin of several values stays below twice
the target.
-/

namespace BitLSM

open Wire

/-! ### Rows of a range of runs -/

theorem countP_eq_of_positions {l : List Bytes} {p : Bytes → Bool} {a e : ℕ} (hae : a ≤ e)
    (he : e ≤ l.length) (h : ∀ k x, l[k]? = some x → (p x = true ↔ a ≤ k ∧ k < e)) :
    l.countP p = e - a := by
  have hfront : (l.take a).countP p = 0 := List.countP_eq_zero.2 fun x hx hpx => by
    obtain ⟨k, hk⟩ := List.mem_iff_getElem?.1 hx
    have hlt := (List.getElem?_eq_some_iff.1 hk).1
    rw [List.length_take] at hlt
    rw [List.getElem?_take_of_lt (by omega)] at hk
    have := (h k x hk).1 hpx
    omega
  have hback : (l.drop e).countP p = 0 := List.countP_eq_zero.2 fun x hx hpx => by
    obtain ⟨k, hk⟩ := List.mem_iff_getElem?.1 hx
    rw [List.getElem?_drop] at hk
    have := (h _ x hk).1 hpx
    omega
  have hmiddle : ((l.drop a).take (e - a)).countP p = e - a := by
    have hlen : ((l.drop a).take (e - a)).length = e - a := by
      rw [List.length_take, List.length_drop]
      omega
    conv_rhs => rw [← hlen]
    refine List.countP_eq_length.2 fun x hx => ?_
    obtain ⟨k, hk⟩ := List.mem_iff_getElem?.1 hx
    have hlt := (List.getElem?_eq_some_iff.1 hk).1
    rw [hlen] at hlt
    rw [List.getElem?_take_of_lt hlt, List.getElem?_drop] at hk
    exact (h _ x hk).2 (by omega)
  have hsplit : l = l.take a ++ ((l.drop a).take (e - a) ++ l.drop e) := by
    have hdrop : l.drop e = (l.drop a).drop (e - a) := by rw [List.drop_drop,
        Nat.add_sub_cancel' hae]
    rw [hdrop, List.take_append_drop, List.take_append_drop]
  rw [hsplit, List.countP_append, List.countP_append, hfront, hmiddle, hback]
  omega

namespace SortedRuns

variable {vs : List Bytes} {runs : SortedRuns}

theorem Of.cut_lt (h : runs.Of vs) {r q : ℕ} (hrq : r < q) (hq : q ≤ runs.distinct) :
    runs.runStart.getD r 0 < runs.runStart.getD q 0 := by
  have hpos : 0 < (runs.ordering vs).length := by
    by_contra h0
    have := h.distinct
    rw [Runs.starts_eq_nil (Nat.eq_zero_of_not_pos h0), List.length_nil] at this
    omega
  have hlen := Runs.length_cuts hpos
  rw [← h.distinct, ← h.runStart] at hlen
  rw [List.getD_eq_getElem _ _ (by omega), List.getD_eq_getElem _ _ (by omega)]
  refine List.pairwise_iff_getElem.1 ?_ r q _ _ hrq
  rw [h.runStart]
  exact Runs.pairwise_cuts _

theorem Of.cut_le (h : runs.Of vs) {r q : ℕ} (hrq : r ≤ q) (hq : q ≤ runs.distinct) :
    runs.runStart.getD r 0 ≤ runs.runStart.getD q 0 := by
  rcases hrq.lt_or_eq with hlt | rfl
  · exact (h.cut_lt hlt hq).le
  · exact le_rfl

theorem Of.cut_ends (h : runs.Of vs) (hne : vs ≠ []) :
    runs.runStart.getD 0 0 = 0 ∧ runs.runStart.getD runs.distinct 0 = vs.length := by
  have hpos : 0 < (runs.ordering vs).length := by
    rw [length_ordering h]
    exact List.length_pos_iff.2 hne
  rw [List.getD_eq_getElem?_getD, List.getD_eq_getElem?_getD, h.runStart, h.distinct,
    Runs.getElem_cuts_zero hpos, Runs.getElem_cuts_last hpos, length_ordering h]
  exact ⟨rfl, rfl⟩

/-- The rows with a value of the runs from `a` to `e`. -/
theorem Of.countP_eq (h : runs.Of vs) (hne : vs ≠ []) {p : Bytes → Bool} {a e : ℕ} (hae : a ≤ e)
    (he : e ≤ runs.distinct)
    (hp : ∀ q < runs.distinct, p (runs.value vs q) = true ↔ a ≤ q ∧ q < e) :
    vs.countP p = runs.runStart.getD e 0 - runs.runStart.getD a 0 := by
  rw [← h.perm_ordering.countP_eq]
  refine countP_eq_of_positions (h.cut_le hae he) ?_ fun k x hx => ?_
  · rw [length_ordering h, ← (h.cut_ends hne).2]
    exact h.cut_le he le_rfl
  · obtain ⟨q, hq, hrun⟩ := Runs.exists_inRun (List.getElem?_eq_some_iff.1 hx).1
    rw [← h.distinct] at hq
    obtain ⟨hstart, -, hval⟩ := h.start hq
    rw [← Runs.getElem_cuts_of_lt (List.getElem?_eq_some_iff.1 hstart).1] at hstart
    have hxval : x = runs.value vs q := by
      have heq := hrun.getElem_eq hstart
      rw [hx, hval] at heq
      exact Option.some.inj heq
    have hin := (h.inRun_iff hq).1 hrun
    rw [hxval, hp q hq]
    constructor
    · rintro ⟨haq, hqe⟩
      exact ⟨(h.cut_le haq hq.le).trans hin.1,
        lt_of_lt_of_le hin.2 (h.cut_le hqe he)⟩
    · rintro ⟨hak, hke⟩
      constructor
      · by_contra hlt
        have := h.cut_le (show q + 1 ≤ a by omega) (hae.trans he)
        omega
      · by_contra hle
        have := h.cut_le (show e ≤ q by omega) hq.le
        omega

theorem Of.value_lt_iff (h : runs.Of vs) {q r : ℕ} (hq : q < runs.distinct)
    (hr : r < runs.distinct) : runs.value vs q < runs.value vs r ↔ q < r := by
  rw [← not_le, h.value_le_iff hr hq, not_le]

/-- The rows of a value are its run. -/
theorem Of.count_value (h : runs.Of vs) (hne : vs ≠ []) {r : ℕ} (hr : r < runs.distinct) :
    vs.count (runs.value vs r) = runs.runStart.getD (r + 1) 0 - runs.runStart.getD r 0 := by
  refine h.countP_eq hne (Nat.le_succ r) hr fun p hp => ?_
  rw [beq_iff_eq, Nat.lt_succ_iff]
  constructor
  · intro heq
    exact ⟨(h.value_le_iff hr hp).1 heq.ge, (h.value_le_iff hp hr).1 heq.le⟩
  · rintro ⟨hrp, hpr⟩
    rw [le_antisymm hrp hpr]

end SortedRuns

/-! ### The bin being filled -/

namespace Sweep

/-- The sweep before run `r`. -/
def before (rule : CloseRule) (bins : ℕ) (values : BytesList) (runs : SortedRuns) (r : ℕ) :
    Sweep :=
  (List.range r).foldl (stepBy rule values runs) (.begin bins values runs)

/-- The target of the bin being built. -/
def target (s : Sweep) : ℚ := s.remainingMass / s.remainingBins

/-- The test of the sweep with exact quotients. -/
def closesExact : CloseRule := fun mass bins cur run =>
  let target : ℚ := mass / bins
  let ownBin := decide (target ≤ run)
  let nearerBefore := decide (|(cur : ℚ) - target| ≤ |((cur + run : ℕ) : ℚ) - target|)
  ownBin || nearerBefore

variable {rule : CloseRule} {bins : ℕ} {values : BytesList} {runs : SortedRuns} {s : Sweep}
  {r c n : ℕ}

theorem before_succ (r : ℕ) :
    before rule bins values runs (r + 1) = (before rule bins values runs r).stepBy rule values
        runs r := by
  rw [before, List.range_succ, List.foldl_append]
  rfl

/-- The bin being built is closed ahead of run `r`. -/
def Closes (rule : CloseRule) (runs : SortedRuns) (s : Sweep) (r : ℕ) : Prop :=
  0 < s.cur ∧ 1 < s.remainingBins ∧ rule s.remainingMass s.remainingBins s.cur
    (runs.runStart.getD (r + 1) 0 - runs.runStart.getD r 0) = true

theorem stepBy_closes (h : s.Closes rule runs r) :
    (s.stepBy rule values runs r).boundaryRun = s.boundaryRun ++ [r] ∧
      (s.stepBy rule values runs r).remainingMass = s.remainingMass - s.cur ∧
      (s.stepBy rule values runs r).remainingBins = s.remainingBins - 1 ∧
      (s.stepBy rule values runs r).cur =
        runs.runStart.getD (r + 1) 0 - runs.runStart.getD r 0 := by
  rw [Closes] at h
  simp only [stepBy, if_pos h, push, Nat.zero_add, and_self]

theorem stepBy_keeps (h : ¬s.Closes rule runs r) :
    (s.stepBy rule values runs r).boundaryRun = s.boundaryRun ∧
      (s.stepBy rule values runs r).remainingMass = s.remainingMass ∧
      (s.stepBy rule values runs r).remainingBins = s.remainingBins ∧
      (s.stepBy rule values runs r).cur =
        s.cur + (runs.runStart.getD (r + 1) 0 - runs.runStart.getD r 0) := by
  rw [Closes] at h
  simp only [stepBy, if_neg h, and_self]

/-- Before run `r`, the bin that was opened at run `c` is filled: what
remains is the mass from `c` on, and the bin has the runs from `c` to `r`. -/
structure Fills (runs : SortedRuns) (n bins : ℕ) (s : Sweep) (r c : ℕ) : Prop where
  opened : s.boundaryRun.getLast? = some c
  le : c ≤ r
  started : 0 < r → c < r
  mass : s.remainingMass + runs.runStart.getD c 0 = n
  cur : s.cur + runs.runStart.getD c 0 = runs.runStart.getD r 0
  length : s.boundaryRun.length + s.remainingBins = bins + 1
  bins_pos : 1 ≤ s.remainingBins

section Filling

variable {vs : List Bytes}

theorem Fills.close (h : s.Fills runs vs.length bins r c) (hruns : runs.Of vs)
    (hr : r < runs.distinct) (hclose : s.Closes rule runs r) :
    (s.stepBy rule values runs r).Fills runs vs.length bins (r + 1) r := by
  obtain ⟨hcuts, hmass, hbins, hcur⟩ := @stepBy_closes rule values runs s r hclose
  have hlt := hruns.cut_lt (Nat.lt_add_one r) hr
  have hle := hruns.cut_le (h.le.trans hr.le) le_rfl
  obtain ⟨-, hmany, -⟩ := hclose
  refine ⟨by rw [hcuts, List.getLast?_concat], Nat.le_succ r, fun _ => Nat.lt_succ_self r, ?_, ?_,
    ?_, ?_⟩
  · have := h.mass
    have := h.cur
    have hend := (hruns.start hr).2.1
    omega
  · omega
  · have := h.length
    rw [hcuts, List.length_append, List.length_singleton]
    omega
  · omega

theorem Fills.keep (h : s.Fills runs vs.length bins r c) (hruns : runs.Of vs)
    (hr : r < runs.distinct) (hkeep : ¬s.Closes rule runs r) :
    (s.stepBy rule values runs r).Fills runs vs.length bins (r + 1) c := by
  obtain ⟨hcuts, hmass, hbins, hcur⟩ := @stepBy_keeps rule values runs s r hkeep
  have hlt := hruns.cut_lt (Nat.lt_add_one r) hr
  refine ⟨by rw [hcuts, h.opened], h.le.trans (Nat.le_succ r), fun _ => Nat.lt_succ_of_le h.le,
    by rw [hmass, h.mass], ?_, by rw [hcuts, hbins, h.length], by rw [hbins]; exact h.bins_pos⟩
  have := h.cur
  omega

theorem before_fills (rule : CloseRule) (values : BytesList) (hbins : 1 ≤ bins)
    (hruns : runs.Of vs) (hne : vs ≠ []) (hr : r ≤ runs.distinct) :
    ∃ c, (before rule bins values runs r).Fills runs vs.length bins r c := by
  induction r with
  | zero =>
      obtain ⟨hzero, -⟩ := hruns.cut_ends hne
      refine ⟨0, rfl, le_rfl, fun h => absurd h (lt_irrefl 0), ?_, ?_, Nat.add_comm 1 bins, hbins⟩
      · rw [hzero]
        exact hruns.length_sorted
      · rw [hzero]
        rfl
  | succ r ih =>
      obtain ⟨c, hc⟩ := ih (by omega)
      rw [before_succ]
      by_cases hclose : (before rule bins values runs r).Closes rule runs r
      · exact ⟨r, hc.close hruns hr hclose⟩
      · exact ⟨c, hc.keep hruns hr hclose⟩

/-- The boundaries of a bin in progress are those of its opening. -/
theorem before_opened (h : (before rule bins values runs r).boundaryRun.getLast? = some c)
    (hcr : c < r) :
    (before rule bins values runs (c + 1)).boundaryRun =
      (before rule bins values runs r).boundaryRun := by
  induction r with
  | zero => exact absurd hcr (Nat.not_lt_zero c)
  | succ r ih =>
      rcases Nat.lt_succ_iff_lt_or_eq.1 hcr with hlt | rfl
      · rw [before_succ r] at h ⊢
        by_cases hclose : (before rule bins values runs r).Closes rule runs r
        · rw [(stepBy_closes hclose).1, List.getLast?_concat, Option.some.injEq] at h
          omega
        · rw [(stepBy_keeps hclose).1] at h ⊢
          exact ih h hlt
      · rfl

/-- The target stays while a bin is filled. -/
theorem before_target (hbins : 1 ≤ bins) (hruns : runs.Of vs) (hne : vs ≠ [])
    (hr : r ≤ runs.distinct) (h : (before rule bins values runs r).Fills runs vs.length bins r c)
    (hcr : c < r) :
    (before rule bins values runs (c + 1)).remainingMass =
        (before rule bins values runs r).remainingMass ∧
      (before rule bins values runs (c + 1)).remainingBins =
        (before rule bins values runs r).remainingBins := by
  have hopened := before_opened h.opened hcr
  obtain ⟨c', hc'⟩ := before_fills rule values hbins hruns hne (show c + 1 ≤ runs.distinct by omega)
  obtain rfl : c = c' := by
    have := hc'.opened
    rw [hopened, h.opened, Option.some.injEq] at this
    exact this
  have hmass := h.mass
  have hmass' := hc'.mass
  have hlength := h.length
  have hlength' := hc'.length
  rw [hopened] at hlength'
  omega

end Filling

/-- A run that joins a started bin leaves it below twice the target. -/
theorem mass_lt_of_not_closesExact {mass bins cur run : ℕ} (hcur : 0 < cur)
    (h : closesExact mass bins cur run = false) :
    ((cur + run : ℕ) : ℚ) < 2 * (mass / bins) := by
  simp only [closesExact, Bool.or_eq_false_iff, decide_eq_false_iff_not, not_le] at h
  obtain ⟨-, hnearer⟩ := h
  generalize (mass : ℚ) / bins = t at hnearer ⊢
  have hcur : (0 : ℚ) < cur := by exact_mod_cast hcur
  push_cast at hnearer ⊢
  have hrun : (0 : ℚ) ≤ run := Nat.cast_nonneg run
  have hafter := le_abs_self ((cur : ℚ) + run - t)
  rcases le_total t cur with hle | hle
  · rw [abs_of_nonneg (show 0 ≤ (cur : ℚ) - t by linarith)] at hnearer
    linarith
  · rw [abs_of_nonpos (show (cur : ℚ) - t ≤ 0 by linarith)] at hnearer
    linarith

section Bound

variable {vs : List Bytes}

/-- A bin of several runs is below twice its target, as long as it can still be closed. -/
theorem before_cur_lt (hbins : 1 ≤ bins) (hruns : runs.Of vs) (hne : vs ≠ [])
    (hr : r ≤ runs.distinct)
    (h : (before closesExact bins values runs r).Fills runs vs.length bins r c) (hcr : c + 2 ≤ r)
    (hmany : 1 < (before closesExact bins values runs r).remainingBins) :
    ((before closesExact bins values runs r).cur : ℚ) <
      2 * (before closesExact bins values runs r).target := by
  obtain ⟨q, rfl⟩ := Nat.exists_eq_add_of_le' (show 1 ≤ r by omega)
  obtain ⟨c', hc'⟩ := before_fills closesExact values hbins hruns hne
      (show q ≤ runs.distinct by omega)
  have hopened := h.opened
  rw [before_succ] at hopened hmany
  rw [before_succ, target]
  by_cases hclose : (before closesExact bins values runs q).Closes closesExact runs q
  · -- the bin would have been opened at run `q`
    rw [(stepBy_closes hclose).1, List.getLast?_concat, Option.some.injEq] at hopened
    omega
  · obtain ⟨hcuts, hmass, hleft, hcur⟩ := @stepBy_keeps closesExact values runs _ q hclose
    rw [hcuts, hc'.opened, Option.some.injEq] at hopened
    subst hopened
    have hpos : 0 < (before closesExact bins values runs q).cur := by
      have := hruns.cut_lt (show c' < q by omega) (by omega)
      have := hc'.cur
      omega
    rw [hleft] at hmany
    rw [hcur, hmass, hleft]
    refine mass_lt_of_not_closesExact hpos ?_
    by_contra htrue
    exact hclose ⟨hpos, hmany, by simpa using htrue⟩

/-! ### Cuts and final bins -/

theorem before_mono {e R : ℕ} (hrR : r ≤ R)
    (he : e ∈ (before rule bins values runs r).boundaryRun) :
    e ∈ (before rule bins values runs R).boundaryRun := by
  induction R, hrR using Nat.le_induction with
  | base => exact he
  | succ R _ ih =>
      rw [before_succ]
      by_cases hclose : (before rule bins values runs R).Closes rule runs R
      · rw [(stepBy_closes hclose).1]
        exact List.mem_append_left _ ih
      · rwa [(stepBy_keeps hclose).1]

/-- A cut is made when its run is looked at. -/
theorem mem_before_of_lt {e R : ℕ} (hrR : r ≤ R) (her : e < r)
    (he : e ∈ (before rule bins values runs R).boundaryRun) :
    e ∈ (before rule bins values runs r).boundaryRun := by
  induction R, hrR using Nat.le_induction with
  | base => exact he
  | succ R hR ih =>
      rw [before_succ] at he
      by_cases hclose : (before rule bins values runs R).Closes rule runs R
      · rw [(stepBy_closes hclose).1, List.mem_append, List.mem_singleton] at he
        exact ih (he.resolve_right (by omega))
      · rw [(stepBy_keeps hclose).1] at he
        exact ih he

theorem before_cuts (r : ℕ) : (before rule bins values runs r).Cuts r :=
  Cuts.steps ⟨List.pairwise_singleton _ _, by simp [begin], fun _ => rfl⟩ rule values runs r

/-- The bin being built was opened at the last cut. -/
theorem Fills.last_cut {e : ℕ} (h : (before rule bins values runs r).Fills runs n bins r c)
    (he : e ∈ (before rule bins values runs r).boundaryRun) : e ≤ c := by
  obtain ⟨front, hfront⟩ := List.getLast?_eq_some_iff.1 h.opened
  have hascending := (@before_cuts rule bins values runs r).ascending
  rw [hfront] at he hascending
  rcases List.mem_append.1 he with hold | hlast
  · exact ((List.pairwise_append.1 hascending).2.2 e hold c (List.mem_singleton_self c)).le
  · exact (List.mem_singleton.1 hlast).le

theorem thresholdRunsBy_eq_before (rule : CloseRule) (bins : ℕ) (values : BytesList)
    (hruns : runs.Of vs) (hne : vs ≠ []) :
    thresholdRunsBy rule bins runs.runStart =
      (before rule bins values runs runs.distinct).boundaryRun ++
        List.replicate (bins + 1 - (before rule bins values runs runs.distinct).boundaryRun.length)
          (runs.distinct - 1) := by
  have hcuts := (@cutSweep_sameCuts vs runs bins rule values hruns hne runs.distinct).boundaryRun
  rw [thresholdRunsBy, hruns.length_runStart hne, ← hcuts]
  rfl

end Bound

end Sweep

/-- The bin of run `r` behind the sweep. -/
def runBin (rule : CloseRule) (bins : ℕ) (vs : List Bytes) (runs : SortedRuns) (r : ℕ) : ℕ :=
  rangeBin bins ((thresholdRunsBy rule bins runs.runStart).map (runs.value vs)) (runs.value vs r)

section Bins

variable {vs : List Bytes} {runs : SortedRuns} {bins : ℕ} {rule : CloseRule} {values : BytesList}
  {boundaries : BytesList} {q r c : ℕ}

theorem runBin_eq (h : Thresholds vs runs bins boundaries (thresholdRunsBy rule bins runs.runStart))
    (hruns : runs.Of vs) (hr : r < runs.distinct) :
    runBin rule bins vs runs r = min (bins - 1)
      ((thresholdRunsBy rule bins runs.runStart).countP (fun e => decide (e ≤ r)) - 1) := by
  rw [runBin, rangeBin, h.countP_le hruns hr]

theorem runBin_mono
    (h : Thresholds vs runs bins boundaries (thresholdRunsBy rule bins runs.runStart))
    (hruns : runs.Of vs) (hr : r < runs.distinct) (hqr : q ≤ r) :
    runBin rule bins vs runs q ≤ runBin rule bins vs runs r := by
  have hle : ((thresholdRunsBy rule bins runs.runStart).countP fun e => decide (e ≤ q)) ≤
      (thresholdRunsBy rule bins runs.runStart).countP fun e => decide (e ≤ r) :=
    List.countP_mono_left fun e _ he => decide_eq_true ((of_decide_eq_true he).trans hqr)
  rw [runBin_eq h hruns hr, runBin_eq h hruns (lt_of_le_of_lt hqr hr)]
  omega

/-- A cut separates the bins on its two sides. -/
theorem runBin_lt_of_cut (values : BytesList)
    (h : Thresholds vs runs bins boundaries (thresholdRunsBy rule bins runs.runStart))
    (hbins : 1 ≤ bins) (hruns : runs.Of vs) (hne : vs ≠ [])
    (hr : r ∈ (Sweep.before rule bins values runs runs.distinct).boundaryRun) (hqr : q < r) :
    runBin rule bins vs runs q < runBin rule bins vs runs r := by
  have hthresholds := Sweep.thresholdRunsBy_eq_before rule bins values hruns hne
  have hrd : r < runs.distinct := h.below r (by rw [hthresholds]; exact List.mem_append_left _ hr)
  obtain ⟨c, hc⟩ := Sweep.before_fills rule values hbins hruns hne (le_refl runs.distinct)
  have hlength := hc.length
  have hone := hc.bins_pos
  have hzero : 0 ∈ (Sweep.before rule bins values runs runs.distinct).boundaryRun :=
    Sweep.before_mono (Nat.zero_le _) (List.mem_singleton_self 0)
  rw [runBin_eq h hruns hrd, runBin_eq h hruns (hqr.trans hrd), hthresholds,
    List.countP_append, List.countP_append, List.countP_replicate, if_neg (by simp; omega)]
  generalize (Sweep.before rule bins values runs runs.distinct).boundaryRun = cuts
    at hr hlength hzero
  have hpos : 1 ≤ cuts.countP fun e => decide (e ≤ q) :=
    List.one_le_countP_iff.2 ⟨0, hzero, decide_eq_true (Nat.zero_le q)⟩
  have hlt : (cuts.countP fun e => decide (e ≤ q)) < cuts.countP fun e => decide (e ≤ r) :=
    countP_lt_countP (fun e he => decide_eq_true ((of_decide_eq_true he).trans hqr.le)) hr
      (decide_eq_false (not_le.2 hqr)) (decide_eq_true le_rfl)
  have hle : (cuts.countP fun e => decide (e ≤ r)) ≤ cuts.length := List.countP_le_length
  omega

/-- Runs without a cut between them share a bin, up to the last run. -/
theorem runBin_eq_of_no_cut (values : BytesList)
    (h : Thresholds vs runs bins boundaries (thresholdRunsBy rule bins runs.runStart))
    (hruns : runs.Of vs) (hne : vs ≠ []) (hcq : c ≤ q) (hq : q + 1 < runs.distinct)
    (hno : ∀ e ∈ (Sweep.before rule bins values runs runs.distinct).boundaryRun, c < e → q < e) :
    runBin rule bins vs runs c = runBin rule bins vs runs q := by
  rw [runBin_eq h hruns (by omega), runBin_eq h hruns (by omega)]
  congr 2
  refine List.countP_congr fun e he => ?_
  rw [Sweep.thresholdRunsBy_eq_before rule bins values hruns hne, List.mem_append] at he
  rw [decide_eq_true_eq, decide_eq_true_eq]
  rcases he with hcut | hpad
  · have := hno e hcut
    omega
  · have := (List.mem_replicate.1 hpad).2
    omega

/-- The rows of a bin are among the rows of its runs. -/
theorem count_bin_le (hruns : runs.Of vs) (hne : vs ≠ []) {k : ℕ} (hcr : c ≤ r)
    (hr : r < runs.distinct)
    (hbin : ∀ p < runs.distinct, runBin rule bins vs runs p = k → c ≤ p ∧ p ≤ r) :
    (vs.map (rangeBin bins ((thresholdRunsBy rule bins runs.runStart).map
        (runs.value vs)))).count k ≤
      runs.runStart.getD (r + 1) 0 - runs.runStart.getD c 0 := by
  rw [← hruns.countP_eq hne (p := fun v => decide (runs.value vs c ≤ v ∧ v ≤ runs.value vs r))
    (show c ≤ r + 1 by omega) (by omega), List.count, List.countP_map]
  · refine List.countP_mono_left fun v hv hk => ?_
    obtain ⟨p, hp, rfl⟩ := hruns.exists_value hv
    obtain ⟨hcp, hpr⟩ := hbin p hp (by simpa [runBin] using hk)
    exact decide_eq_true ⟨(hruns.value_le_iff (by omega) hp).2 hcp,
      (hruns.value_le_iff hp hr).2 hpr⟩
  · intro p hp
    rw [decide_eq_true_eq, hruns.value_le_iff (by omega) hp, hruns.value_le_iff hp hr,
      Nat.lt_succ_iff]

/-- A bin of two values and more was opened at a cut, and is below twice the
target it had then. -/
theorem bin_mass_lt
    (h : Thresholds vs runs bins boundaries
      (thresholdRunsBy Sweep.closesExact bins runs.runStart))
    (hbins : 1 ≤ bins) (hruns : runs.Of vs) (hne : vs ≠ []) (hqr : q < r) (hr : r < runs.distinct)
    (hsame : runBin Sweep.closesExact bins vs runs q = runBin Sweep.closesExact bins vs runs r) :
    ∃ c ∈ (Sweep.before Sweep.closesExact bins values runs runs.distinct).boundaryRun,
      runBin Sweep.closesExact bins vs runs c = runBin Sweep.closesExact bins vs runs r ∧
      (∀ p < runs.distinct,
        runBin Sweep.closesExact bins vs runs p = runBin Sweep.closesExact bins vs runs r →
        c ≤ p) ∧
      ((vs.map (rangeBin bins ((thresholdRunsBy Sweep.closesExact bins runs.runStart).map
          (runs.value vs)))).count (runBin Sweep.closesExact bins vs runs r) : ℚ) <
        2 * (Sweep.before Sweep.closesExact bins values runs (c + 1)).target := by
  -- the last run of the bin, and the cut the bin was opened at
  obtain ⟨top, htop, hbinTop, hlast⟩ : ∃ top < runs.distinct,
      runBin Sweep.closesExact bins vs runs top = runBin Sweep.closesExact bins vs runs r ∧
      ∀ p < runs.distinct,
        runBin Sweep.closesExact bins vs runs p = runBin Sweep.closesExact bins vs runs r →
        p ≤ top := by
    obtain ⟨htop, hbin⟩ := Nat.findGreatest_spec (P := fun p => p < runs.distinct ∧
      runBin Sweep.closesExact bins vs runs p = runBin Sweep.closesExact bins vs runs r)
      hr.le ⟨hr, rfl⟩
    exact ⟨_, htop, hbin, fun p hp hpbin => Nat.le_findGreatest hp.le ⟨hp, hpbin⟩⟩
  obtain ⟨c, hc⟩ := Sweep.before_fills Sweep.closesExact values hbins hruns hne
    (show top + 1 ≤ runs.distinct from htop)
  have hctop : c ≤ top := Nat.lt_succ_iff.1 (hc.started (Nat.succ_pos top))
  have hcut : c ∈ (Sweep.before Sweep.closesExact bins values runs runs.distinct).boundaryRun :=
    Sweep.before_mono htop (List.mem_of_getLast? hc.opened)
  have hfirst : ∀ p < runs.distinct,
      runBin Sweep.closesExact bins vs runs p = runBin Sweep.closesExact bins vs runs r →
      c ≤ p := by
    intro p hp hbin
    by_contra hlt
    have hbelow := runBin_lt_of_cut values h hbins hruns hne hcut (not_le.1 hlt)
    have hmono := runBin_mono h hruns htop hctop
    omega
  have hcq := hfirst q (hqr.trans hr) hsame
  have hrtop := hlast r hr rfl
  refine ⟨c, hcut, ?_, hfirst, ?_⟩
  · rw [← hsame]
    refine runBin_eq_of_no_cut values h hruns hne hcq (by omega) fun e he hce => ?_
    by_contra hle
    have := hc.last_cut (Sweep.mem_before_of_lt htop (by omega) he)
    omega
  · have hcount := count_bin_le hruns hne hctop htop
      fun p hp hbin => ⟨hfirst p hp hbin, hlast p hp hbin⟩
    obtain ⟨hmass, hleft⟩ := Sweep.before_target hbins hruns hne htop hc (by omega)
    have hcur := hc.cur
    rw [Sweep.target, hmass, hleft, ← Sweep.target]
    refine lt_of_le_of_lt (b := ((Sweep.before Sweep.closesExact bins values runs
      (top + 1)).cur : ℚ)) (by exact_mod_cast (by omega)) ?_
    by_cases hmany : 1 < (Sweep.before Sweep.closesExact bins values runs (top + 1)).remainingBins
    · exact Sweep.before_cur_lt hbins hruns hne htop hc (by omega) hmany
    · -- the last bin has all the mass that remains
      have hone : (Sweep.before Sweep.closesExact bins values runs
          (top + 1)).remainingBins = 1 := by
        have := hc.bins_pos
        omega
      have hlt : (Sweep.before Sweep.closesExact bins values runs (top + 1)).cur <
          2 * (Sweep.before Sweep.closesExact bins values runs (top + 1)).remainingMass := by
        have := hc.mass
        have := hruns.cut_le (show top + 1 ≤ runs.distinct from htop) le_rfl
        have := (hruns.cut_ends hne).2
        have := hruns.cut_lt (show c < top + 1 by omega) htop
        omega
      rw [Sweep.target, hone, Nat.cast_one, div_one]
      exact_mod_cast hlt

/-- What remains is the rows from the last cut on. -/
theorem Sweep.Fills.mass_eq {s : Sweep} (h : s.Fills runs vs.length bins r c) (hruns : runs.Of vs)
    (hne : vs ≠ []) (hr : r ≤ runs.distinct) :
    s.remainingMass = vs.countP fun v => decide (runs.value vs c ≤ v) := by
  have hpos := (hruns.value_ends hne).1
  have hc : c < runs.distinct := by
    have := h.le
    have := h.started
    omega
  rw [hruns.countP_eq hne hc.le le_rfl fun q hq => ?_]
  · have := h.mass
    have := (hruns.cut_ends hne).2
    omega
  · rw [decide_eq_true_eq, hruns.value_le_iff hc hq]
    exact (and_iff_left hq).symm

/-- Near equal mass, with exact quotients. A bin of several values has fewer
rows than twice the target it was opened with; a value as heavy as the target
starts a bin, unless only one bin remains or none is started; and the sweep
keeps count of the rows it has not closed bins for. -/
theorem range_bins_equal_mass (hbins : 1 ≤ bins) (hruns : runs.Of vs)
    (hvalues : ∀ i < vs.length, values.get i = vs.getD i []) :
    ∃ bs, setRangeBinningPolicyBy Sweep.closesExact bins values runs =
        (BytesList.ofList bs, vs.map (rangeBin bins bs)) ∧
      (∀ v ∈ vs, ∀ w ∈ vs, v < w → rangeBin bins bs v = rangeBin bins bs w →
        ∃ c ∈ (Sweep.before Sweep.closesExact bins values runs runs.distinct).boundaryRun,
          rangeBin bins bs (runs.value vs c) = rangeBin bins bs w ∧
          (∀ u ∈ vs, rangeBin bins bs u = rangeBin bins bs w → runs.value vs c ≤ u) ∧
          ((vs.map (rangeBin bins bs)).count (rangeBin bins bs w) : ℚ) <
            2 * (Sweep.before Sweep.closesExact bins values runs (c + 1)).target) ∧
      (∀ r < runs.distinct, 0 < (Sweep.before Sweep.closesExact bins values runs r).cur →
        1 < (Sweep.before Sweep.closesExact bins values runs r).remainingBins →
        (Sweep.before Sweep.closesExact bins values runs r).target ≤
          vs.count (runs.value vs r) →
        ∀ u ∈ vs, u < runs.value vs r → rangeBin bins bs u < rangeBin bins bs (runs.value vs r)) ∧
      ∀ r ≤ runs.distinct, ∃ c,
        (Sweep.before Sweep.closesExact bins values runs r).boundaryRun.getLast? = some c ∧
        (Sweep.before Sweep.closesExact bins values runs r).remainingMass =
          (vs.countP fun v => decide (runs.value vs c ≤ v)) ∧
        (Sweep.before Sweep.closesExact bins values runs r).boundaryRun.length - 1 ≤ bins - 1 := by
  rcases eq_or_ne vs [] with rfl | hne
  · -- no row, and no run to sweep over
    have hsorted : runs.sorted = [] := List.length_eq_zero_iff.1 hruns.length_sorted
    have hdistinct : runs.distinct = 0 := by
      rw [hruns.distinct, Runs.starts_eq_nil (SortedRuns.length_ordering hruns), List.length_nil]
    refine ⟨List.replicate (bins + 1) [], ?_, by simp, by simp, fun r hr => ?_⟩
    · simp [setRangeBinningPolicyBy, hsorted, foldl_pushBack_nil]
    · obtain rfl : r = 0 := by omega
      exact ⟨0, rfl, by simp [Sweep.before, Sweep.begin, hsorted], by
        simp [Sweep.before, Sweep.begin]⟩
  obtain ⟨hthresholds, hrows⟩ :=
    setRangeBinningPolicyBy_eq Sweep.closesExact hbins hvalues hruns hne
  refine ⟨_, Prod.ext hthresholds.boundaries hrows, ?_, ?_, ?_⟩
  · intro v hv w hw hvw hsame
    obtain ⟨q, hq, rfl⟩ := hruns.exists_value hv
    obtain ⟨r, hr, rfl⟩ := hruns.exists_value hw
    have hqr := (hruns.value_lt_iff hq hr).1 hvw
    obtain ⟨c, hcut, hbin, hfirst, hlt⟩ :=
      @bin_mass_lt vs runs bins values _ q r hthresholds hbins hruns hne hqr hr hsame
    refine ⟨c, hcut, hbin, fun u hu hubin => ?_, hlt⟩
    obtain ⟨p, hp, rfl⟩ := hruns.exists_value hu
    have hcp := hfirst p hp hubin
    exact (hruns.value_le_iff (by omega) hp).2 hcp
  · intro r hr hcur hmany hheavy u hu hur
    obtain ⟨q, hq, rfl⟩ := hruns.exists_value hu
    have hqr := (hruns.value_lt_iff hq hr).1 hur
    have hcloses : (Sweep.before Sweep.closesExact bins values runs r).Closes
        Sweep.closesExact runs r := by
      refine ⟨hcur, hmany, ?_⟩
      rw [← hruns.count_value hne hr, Sweep.closesExact, Bool.or_eq_true]
      exact Or.inl (decide_eq_true hheavy)
    refine runBin_lt_of_cut values hthresholds hbins hruns hne ?_ hqr
    refine Sweep.before_mono (show r + 1 ≤ runs.distinct from hr) ?_
    rw [Sweep.before_succ, (Sweep.stepBy_closes hcloses).1]
    exact List.mem_append_right _ (List.mem_singleton_self r)
  · intro r hr
    obtain ⟨c, hc⟩ := Sweep.before_fills Sweep.closesExact values hbins hruns hne hr
    refine ⟨c, hc.opened, hc.mass_eq hruns hne hr, ?_⟩
    have := hc.length
    have := hc.bins_pos
    omega

end Bins

/-- A buffer with a heavy value and two light ones. -/
def heavyAndLight : RangeAttrBuf := [[5], [1], [5], [3]].foldl RangeAttrBuf.push {}

theorem range_bins_equal_mass_heavyAndLight : ∃ c,
    (setRangeBinningPolicyBy Sweep.closesExact 2 heavyAndLight.values
      (heavyAndLight.sort .insertion)).2 = [1, 0, 1, 0] ∧
    ([1, 0, 1, 0].count 0 : ℚ) < 2 * (Sweep.before Sweep.closesExact 2 heavyAndLight.values
      (heavyAndLight.sort .insertion) (c + 1)).target := by
  have hpushed : heavyAndLight.Pushed [[5], [1], [5], [3]] :=
    (((RangeAttrBuf.pushed_nil.push [5]).push [1]).push [5]).push [3]
  have hruns := hpushed.sort .insertion (by decide) (by decide)
  obtain ⟨bs, hpolicy, hmass, -⟩ := @range_bins_equal_mass _ _ 2 heavyAndLight.values (by decide)
    hruns fun i hi => by
      rw [hpushed.values, BytesList.get_ofList (by decide) hi, List.getD_eq_getElem _ _ hi]
  have hrows : (setRangeBinningPolicyBy Sweep.closesExact 2 heavyAndLight.values
      (heavyAndLight.sort .insertion)).2 = [1, 0, 1, 0] := by
    decide +kernel
  rw [hpolicy] at hrows ⊢
  obtain ⟨-, hone, -, hthree, -⟩ : rangeBin 2 bs [5] = 1 ∧ rangeBin 2 bs [1] = 0 ∧
      rangeBin 2 bs [5] = 1 ∧ rangeBin 2 bs [3] = 0 ∧ ([] : List ℕ) = [] := by
    simpa only [List.map_cons, List.map_nil, List.cons.injEq] using hrows
  obtain ⟨c, -, -, -, hlt⟩ := hmass [1] (by decide) [3] (by decide) (by decide)
    (hone.trans hthree.symm)
  simp only [] at hrows
  rw [hrows, hthree] at hlt
  exact ⟨c, hrows, hlt⟩

end BitLSM
