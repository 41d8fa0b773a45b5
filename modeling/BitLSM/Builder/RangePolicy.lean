import BitLSM.Builder.RangeBuf

/-!
Binning a range attribute.

The sorted values are cut into bins of nearly equal mass. Whatever the
double arithmetic decides about where to cut, the thresholds are values that
occur, in order, from the least to the greatest, and a row's bin is found
among them by its value alone: `rangeBin` is the rule the reader applies.
-/

namespace BitLSM

open Wire

/-- The sweep that closes bins. -/
structure Sweep where
  boundaries : BytesList
  /-- The run each boundary is the value of. -/
  boundaryRun : List ℕ
  remainingMass : ℕ
  remainingBins : ℕ
  /-- Mass in the bin being built. -/
  cur : ℕ

/-- Whether to close the bin being built: from the remaining mass, the
remaining bins, the mass of the bin and the mass of the next run. Everything
but the cuts themselves holds for any such rule, so the sweep has it as a
parameter. -/
abbrev CloseRule := ℕ → ℕ → ℕ → ℕ → Bool

namespace Sweep

/-- The rule of the source, in double arithmetic. -/
def closes (fpu : Fpu) : CloseRule := fun mass bins cur run =>
  let target := fpu.div (fpu.ofNat mass) (fpu.ofNat bins)
  let ownBin := decide (target ≤ fpu.ofNat run)
  let nearerBefore := decide (fpu.abs (fpu.sub (fpu.ofNat cur) target) ≤
    fpu.abs (fpu.sub (fpu.ofNat (cur + run)) target))
  ownBin || nearerBefore

def push (s : Sweep) (v : Bytes) (r : ℕ) : Sweep :=
  { s with boundaries := s.boundaries.pushBack v, boundaryRun := s.boundaryRun ++ [r] }

def stepBy (rule : CloseRule) (values : BytesList) (runs : SortedRuns) (s : Sweep) (r : ℕ) :
    Sweep :=
  let start := runs.runStart.getD r 0
  let run := runs.runStart.getD (r + 1) 0 - start
  let s :=
    if 0 < s.cur ∧ 1 < s.remainingBins ∧
        rule s.remainingMass s.remainingBins s.cur run = true then
      { s.push (values.get (runs.sorted.getD start 0)) r with
        remainingMass := s.remainingMass - s.cur
        remainingBins := s.remainingBins - 1
        cur := 0 }
    else s
  { s with cur := s.cur + run }

/-- The sweep before the first run. -/
def begin (bins : ℕ) (values : BytesList) (runs : SortedRuns) : Sweep where
  boundaries := BytesList.pushBack {} (values.get (runs.sorted.headD 0))
  boundaryRun := [0]
  remainingMass := runs.sorted.length
  remainingBins := bins
  cur := 0

/-- Spare bins repeat the maximum. -/
def pad (bins : ℕ) (maxValue : Bytes) (run : ℕ) (s : Sweep) : Sweep :=
  (List.range (bins + 1 - s.boundaries.size)).foldl (fun s _ => s.push maxValue run) s

end Sweep

/-- Thresholds at or below the current run, one forward cursor over all runs. -/
def advance (boundaryRun : List ℕ) (passed r : ℕ) : ℕ :=
  passed + ((boundaryRun.drop passed).takeWhile fun e => decide (e ≤ r)).length

def clampBin (bins passed : ℕ) : ℕ :=
  let bin := if passed = 0 then 0 else passed - 1
  if bins ≤ bin then bins - 1 else bin

/-- One run of the loop that gives rows their bins. -/
def assignRun (bins : ℕ) (runs : SortedRuns) (boundaryRun : List ℕ) (st : ℕ × List ℕ) (r : ℕ) :
    ℕ × List ℕ :=
  let passed := advance boundaryRun st.1 r
  let start := runs.runStart.getD r 0
  (passed, (List.range' start (runs.runStart.getD (r + 1) 0 - start)).foldl
    (fun rows k => rows.set (runs.sorted.getD k 0) (clampBin bins passed)) st.2)

/-- The `bins + 1` boundaries, and the bin of each row. -/
def setRangeBinningPolicyBy (rule : CloseRule) (bins : ℕ) (values : BytesList)
    (runs : SortedRuns) : BytesList × List ℕ :=
  if runs.sorted.isEmpty then
    ((List.range (bins + 1)).foldl (fun l _ => l.pushBack []) {}, [])
  else
    let runCnt := runs.runStart.length - 1
    let s := (List.range runCnt).foldl (Sweep.stepBy rule values runs) (.begin bins values runs)
    let s := s.pad bins (values.get (runs.sorted.getLastD 0)) (runCnt - 1)
    let rows := (List.range runCnt).foldl (assignRun bins runs s.boundaryRun)
      (0, List.replicate runs.sorted.length 0)
    (s.boundaries, rows.2)

def setRangeBinningPolicy (fpu : Fpu) (bins : ℕ) (values : BytesList) (runs : SortedRuns) :
    BytesList × List ℕ :=
  setRangeBinningPolicyBy (Sweep.closes fpu) bins values runs

/-- The bin of a value: the last boundary at or below it, the top bin closed. -/
def rangeBin (bins : ℕ) (boundaries : List Bytes) (v : Bytes) : ℕ :=
  min (bins - 1) (boundaries.countP (fun b => decide (b ≤ v)) - 1)

/-! ### The thresholds of a sweep -/

/-- The sweep before run `r`. -/
structure Sweep.Ok (vs : List Bytes) (runs : SortedRuns) (bins : ℕ) (s : Sweep) (r : ℕ) : Prop where
  boundaries : s.boundaries = BytesList.ofList (s.boundaryRun.map (runs.value vs))
  ordered : s.boundaryRun.Pairwise (· ≤ ·)
  below : ∀ e ∈ s.boundaryRun, e ≤ r - 1
  head : s.boundaryRun.head? = some 0
  length : s.boundaryRun.length + s.remainingBins = bins + 1
  bins : 1 ≤ s.remainingBins

section Policy

variable {vs : List Bytes} {runs : SortedRuns} {bins r : ℕ} {s : Sweep}

theorem Sweep.push_ordered {e : ℕ} (hs : s.boundaryRun.Pairwise (· ≤ ·))
    (hbelow : ∀ x ∈ s.boundaryRun, x ≤ e) (v : Bytes) :
    (s.push v e).boundaryRun.Pairwise (· ≤ ·) := by
  refine List.pairwise_append.2 ⟨hs, List.pairwise_singleton _ _, fun x hx y hy => ?_⟩
  rw [List.mem_singleton.1 hy]
  exact hbelow x hx

theorem Sweep.push_boundaries {e : ℕ}
    (hs : s.boundaries = BytesList.ofList (s.boundaryRun.map (runs.value vs))) :
    (s.push (runs.value vs e) e).boundaries =
      BytesList.ofList ((s.push (runs.value vs e) e).boundaryRun.map (runs.value vs)) := by
  rw [Sweep.push, List.map_append, List.map_singleton, BytesList.ofList_concat, ← hs]

theorem Sweep.push_head {e x : ℕ} (hs : s.boundaryRun.head? = some x) (v : Bytes) :
    (s.push v e).boundaryRun.head? = some x := by
  rw [Sweep.push, List.head?_append, hs]
  rfl

theorem SortedRuns.Of.sorted_lt (h : runs.Of vs) {k : ℕ} (hk : k < vs.length) :
    runs.sorted.getD k 0 < vs.length := by
  have hk' : k < runs.sorted.length := by rwa [h.length_sorted]
  rw [List.getD_eq_getElem _ _ hk']
  exact List.mem_range.1 (h.perm.mem_iff.1 (List.getElem_mem hk'))

theorem Sweep.Ok.step (h : s.Ok vs runs bins r) (hr : r < runs.distinct) (rule : CloseRule)
    {values : BytesList} (hvalues : ∀ i < vs.length, values.get i = vs.getD i [])
    (hruns : runs.Of vs) : (s.stepBy rule values runs r).Ok vs runs bins (r + 1) := by
  have hvalue : values.get (runs.sorted.getD (runs.runStart.getD r 0) 0) = runs.value vs r :=
    hvalues _ (hruns.sorted_lt (hruns.start hr).2.1)
  have hbelow : ∀ e ∈ s.boundaryRun, e ≤ r := fun e he => (h.below e he).trans (by omega)
  have hlength := h.length
  rw [Sweep.stepBy]
  simp only [hvalue]
  split
  · next hclose =>
      refine ⟨Sweep.push_boundaries h.boundaries, Sweep.push_ordered h.ordered hbelow
          (runs.value vs r),
        fun e he => ?_, Sweep.push_head h.head (runs.value vs r), ?_, ?_⟩
      · rcases List.mem_append.1 he with hold | hnew
        · exact hbelow e hold
        · exact (List.mem_singleton.1 hnew).le
      · show (s.boundaryRun ++ [r]).length + (s.remainingBins - 1) = _
        rw [List.length_append, List.length_singleton]
        omega
      · show 1 ≤ s.remainingBins - 1
        omega
  · exact ⟨h.boundaries, h.ordered, hbelow, h.head, h.length, h.bins⟩

theorem Sweep.Ok.steps (h : s.Ok vs runs bins 0) (rule : CloseRule) {values : BytesList}
    (hvalues : ∀ i < vs.length, values.get i = vs.getD i []) (hruns : runs.Of vs)
    (hr : r ≤ runs.distinct) :
    ((List.range r).foldl (Sweep.stepBy rule values runs) s).Ok vs runs bins r := by
  induction r with
  | zero => exact h
  | succ r ih =>
      rw [List.range_succ, List.foldl_append]
      exact (ih (by omega)).step (by omega) rule hvalues hruns

/-- The cuts of a sweep before run `r`: no bin is closed empty, so no run is
cut at twice. -/
structure Sweep.Cuts (s : Sweep) (r : ℕ) : Prop where
  ascending : s.boundaryRun.Pairwise (· < ·)
  below : ∀ e ∈ s.boundaryRun, e ≤ r - 1
  start : r = 0 → s.cur = 0

theorem Sweep.Cuts.step (h : s.Cuts r) (rule : CloseRule) (values : BytesList)
    (runs : SortedRuns) : (s.stepBy rule values runs r).Cuts (r + 1) := by
  have hbelow : ∀ e ∈ s.boundaryRun, e ≤ r := fun e he => (h.below e he).trans (Nat.sub_le r 1)
  rw [Sweep.stepBy]
  simp only []
  split
  · next hclose =>
      have hr : r ≠ 0 := fun h0 => absurd (h.start h0) hclose.1.ne'
      refine ⟨?_, fun e he => ?_, fun h0 => absurd h0 (Nat.succ_ne_zero r)⟩
      · refine List.pairwise_append.2 ⟨h.ascending, List.pairwise_singleton _ _, ?_⟩
        intro e he y hy
        have hle := h.below e he
        rw [List.mem_singleton.1 hy]
        omega
      · rcases List.mem_append.1 he with hold | hnew
        · exact hbelow e hold
        · exact (List.mem_singleton.1 hnew).le
  · exact ⟨h.ascending, hbelow, fun h0 => absurd h0 (Nat.succ_ne_zero r)⟩

theorem Sweep.Cuts.steps (h : s.Cuts 0) (rule : CloseRule) (values : BytesList)
    (runs : SortedRuns) (r : ℕ) :
    ((List.range r).foldl (Sweep.stepBy rule values runs) s).Cuts r := by
  induction r with
  | zero => exact h
  | succ r ih =>
      rw [List.range_succ, List.foldl_append]
      exact ih.step rule values runs

/-- The boundaries and the runs they are the values of, from the first run
to the last. -/
structure Thresholds (vs : List Bytes) (runs : SortedRuns) (bins : ℕ) (boundaries : BytesList)
    (boundaryRun : List ℕ) : Prop where
  boundaries : boundaries = BytesList.ofList (boundaryRun.map (runs.value vs))
  ordered : boundaryRun.Pairwise (· ≤ ·)
  below : ∀ e ∈ boundaryRun, e < runs.distinct
  head : boundaryRun.head? = some 0
  last : boundaryRun.getLast? = some (runs.distinct - 1)
  length : boundaryRun.length = bins + 1

theorem Sweep.pushes {e : ℕ}
    (hs : s.boundaries = BytesList.ofList (s.boundaryRun.map (runs.value vs))) (n : ℕ) :
    ((List.range n).foldl (fun s _ => s.push (runs.value vs e) e) s).boundaries =
        BytesList.ofList ((s.boundaryRun ++ List.replicate n e).map (runs.value vs)) ∧
      ((List.range n).foldl (fun s _ => s.push (runs.value vs e) e) s).boundaryRun =
        s.boundaryRun ++ List.replicate n e := by
  induction n with
  | zero => simp [hs]
  | succ n ih =>
      rw [List.range_succ, List.foldl_append, List.replicate_succ', ← List.append_assoc, ← ih.2]
      rw [← ih.2] at ih
      exact ⟨Sweep.push_boundaries ih.1, rfl⟩

theorem Sweep.Ok.size_eq (h : s.Ok vs runs bins r) : s.boundaries.size = s.boundaryRun.length := by
  rw [h.boundaries, BytesList.size_ofList, List.length_map]

theorem Sweep.Ok.pad_boundaryRun (h : s.Ok vs runs bins r) (e : ℕ) :
    (s.pad bins (runs.value vs e) e).boundaryRun =
      s.boundaryRun ++ List.replicate (bins + 1 - s.boundaryRun.length) e := by
  rw [Sweep.pad, h.size_eq]
  exact (Sweep.pushes h.boundaries _).2

/-- Repeating the maximum fills up the boundaries. -/
theorem Sweep.Ok.pad (h : s.Ok vs runs bins runs.distinct) (hcnt : 0 < runs.distinct) :
    Thresholds vs runs bins
      (s.pad bins (runs.value vs (runs.distinct - 1)) (runs.distinct - 1)).boundaries
      (s.pad bins (runs.value vs (runs.distinct - 1)) (runs.distinct - 1)).boundaryRun := by
  have hsize := h.size_eq
  have hlength := h.length
  have hbins := h.bins
  have hcount : bins + 1 - s.boundaries.size = s.remainingBins := by omega
  obtain ⟨hbounds, hrun⟩ := Sweep.pushes (e := runs.distinct - 1) h.boundaries s.remainingBins
  rw [Sweep.pad, hcount]
  obtain ⟨n, hn⟩ := Nat.exists_eq_succ_of_ne_zero (show s.remainingBins ≠ 0 by omega)
  refine ⟨by rw [hbounds, hrun], ?_, ?_, ?_, ?_, ?_⟩ <;> rw [hrun]
  · refine List.pairwise_append.2 ⟨h.ordered, List.pairwise_replicate.2 (Or.inr le_rfl), ?_⟩
    intro x hx y hy
    rw [(List.mem_replicate.1 hy).2]
    exact h.below x hx
  · intro e he
    rcases List.mem_append.1 he with hold | hnew
    · have := h.below e hold
      omega
    · rw [(List.mem_replicate.1 hnew).2]
      omega
  · rw [List.head?_append, h.head]
    rfl
  · rw [hn, List.replicate_succ', ← List.append_assoc, List.getLast?_concat]
  · rw [List.length_append, List.length_replicate]
    exact h.length

/-! ### Bins of rows -/

theorem takeWhile_length_add {p q : ℕ → Bool} (hpq : ∀ x, p x = true → q x = true) (l : List ℕ) :
    (l.takeWhile p).length + ((l.drop (l.takeWhile p).length).takeWhile q).length =
      (l.takeWhile q).length := by
  induction l with
  | nil => rfl
  | cons x l ih =>
      by_cases hp : p x = true
      · rw [List.takeWhile_cons_of_pos hp, List.takeWhile_cons_of_pos (hpq x hp),
          List.length_cons, List.length_cons, List.drop_succ_cons, ← ih]
        omega
      · rw [List.takeWhile_cons_of_neg hp]
        simp

theorem getElem?_foldl_set (g : ℕ → ℕ) (x : ℕ) (ks : List ℕ) {rows : List ℕ} {i : ℕ}
    (hi : i < rows.length) :
    (ks.foldl (fun rows k => rows.set (g k) x) rows)[i]? =
      if ∃ k ∈ ks, g k = i then some x else rows[i]? := by
  induction ks generalizing rows with
  | nil => simp
  | cons k ks ih =>
      rw [List.foldl_cons, ih (by simpa using hi)]
      by_cases hks : ∃ k ∈ ks, g k = i
      · rw [if_pos hks, if_pos (by simpa using Or.inr hks)]
      · rw [if_neg hks, List.getElem?_set]
        by_cases hk : g k = i
        · simp [hk, hi]
        · have hnone : ¬∃ k' ∈ k :: ks, g k' = i := by
            rintro ⟨k', hk', hg⟩
            rcases List.mem_cons.1 hk' with rfl | hmem
            · exact hk hg
            · exact hks ⟨k', hmem, hg⟩
          rw [if_neg hk, if_neg hnone]

theorem length_foldl_set (g : ℕ → ℕ) (x : ℕ) (ks rows : List ℕ) :
    (ks.foldl (fun rows k => rows.set (g k) x) rows).length = rows.length := by
  induction ks generalizing rows with
  | nil => rfl
  | cons k ks ih => rw [List.foldl_cons, ih, List.length_set]

/-- The rows after the first `r` runs: each has the bin of its run. -/
structure Assigned (vs : List Bytes) (runs : SortedRuns) (bins : ℕ) (boundaryRun : List ℕ) (r : ℕ)
    (st : ℕ × List ℕ) : Prop where
  passed : st.1 = (boundaryRun.takeWhile fun e => decide (e < r)).length
  length : st.2.length = vs.length
  rows : ∀ q < r, ∀ k i, Runs.InRun (runs.ordering vs) q k → runs.sorted[k]? = some i →
    st.2[i]? = some (clampBin bins (boundaryRun.takeWhile fun e => decide (e ≤ q)).length)

theorem Assigned.step {boundaryRun : List ℕ} {st : ℕ × List ℕ} (hruns : runs.Of vs)
    (hr : r < runs.distinct) (h : Assigned vs runs bins boundaryRun r st) :
    Assigned vs runs bins boundaryRun (r + 1) (assignRun bins runs boundaryRun st r) := by
  have hpassed : advance boundaryRun st.1 r =
      (boundaryRun.takeWhile fun e => decide (e ≤ r)).length := by
    rw [advance, h.passed]
    exact takeWhile_length_add (by simp; omega) boundaryRun
  have hlt : (fun e => decide (e ≤ r)) = fun e => decide (e < r + 1) := by
    funext e
    exact decide_eq_decide.2 Nat.lt_succ_iff.symm
  refine ⟨by rw [assignRun, hpassed, hlt], ?_, fun q hq k i hrun hk => ?_⟩
  · rw [assignRun, length_foldl_set, h.length]
  · have hi : i < vs.length := List.mem_range.1 (hruns.perm.mem_iff.1 (List.mem_of_getElem? hk))
    -- the positions written are those of run `r`
    have hwritten : (∃ k' ∈ List.range' (runs.runStart.getD r 0)
        (runs.runStart.getD (r + 1) 0 - runs.runStart.getD r 0), runs.sorted.getD k' 0 = i) ↔
        q = r := by
      constructor
      · rintro ⟨k', hk', hsame⟩
        rw [List.mem_range'_1] at hk'
        have hrun' := (@SortedRuns.Of.inRun_iff vs runs hruns r k' hr).2 (by omega)
        have hk'n : k' < runs.sorted.length := by
          obtain ⟨_, b, -, hb, -, hkb⟩ := hrun'
          have := Runs.le_length_of_mem_cuts hb
          rw [SortedRuns.length_ordering hruns] at this
          rw [hruns.length_sorted]
          omega
        rw [List.getD_eq_getElem _ _ hk'n] at hsame
        have hnodup : runs.sorted.Nodup := hruns.perm.nodup_iff.2 List.nodup_range
        have hkk : k' = k := (List.getElem?_inj hk'n hnodup).1 (by
          rw [hk, List.getElem?_eq_getElem hk'n, hsame])
        exact hrun.unique (hkk ▸ hrun')
      · rintro rfl
        have hrange := (hruns.inRun_iff hr).1 hrun
        refine ⟨k, by rw [List.mem_range'_1]; omega, ?_⟩
        rw [List.getD_eq_getElem?_getD, hk]
        rfl
    rw [assignRun, getElem?_foldl_set _ _ _ (by rw [h.length]; exact hi), hpassed]
    by_cases hqr : q = r
    · rw [if_pos (hwritten.2 hqr), hqr]
    · rw [if_neg (mt hwritten.1 hqr)]
      exact h.rows q (by omega) k i hrun hk

theorem Assigned.steps {boundaryRun : List ℕ} (hruns : runs.Of vs) (hr : r ≤ runs.distinct) :
    Assigned vs runs bins boundaryRun r
      ((List.range r).foldl (assignRun bins runs boundaryRun)
        (0, List.replicate runs.sorted.length 0)) := by
  induction r with
  | zero =>
      refine ⟨?_, by simp [hruns.length_sorted], fun q hq => absurd hq (Nat.not_lt_zero q)⟩
      cases boundaryRun <;> simp
  | succ r ih =>
      rw [List.range_succ, List.foldl_append]
      exact (ih (by omega)).step hruns (by omega)

theorem clampBin_eq (bins passed : ℕ) : clampBin bins passed = min (bins - 1) (passed - 1) := by
  unfold clampBin
  simp only []
  split <;> split <;> omega

/-- A weaker test counts more if it accepts an element that the other one rejects. -/
theorem countP_lt_countP {α : Type} {l : List α} {p q : α → Bool} {a : α}
    (hpq : ∀ x, p x = true → q x = true) (ha : a ∈ l) (hp : p a = false) (hq : q a = true) :
    l.countP p < l.countP q := by
  obtain ⟨front, back, rfl⟩ := List.append_of_mem ha
  have hfront : front.countP p ≤ front.countP q := List.countP_mono_left fun x _ => hpq x
  have hback : back.countP p ≤ back.countP q := List.countP_mono_left fun x _ => hpq x
  rw [List.countP_append, List.countP_append, List.countP_cons_of_neg (by simp [hp]),
    List.countP_cons_of_pos hq]
  omega

theorem takeWhile_length_eq_countP {l : List ℕ} (hl : l.Pairwise (· ≤ ·)) (r : ℕ) :
    (l.takeWhile fun e => decide (e ≤ r)).length = l.countP fun e => decide (e ≤ r) := by
  induction l with
  | nil => rfl
  | cons x l ih =>
      obtain ⟨hx, hl⟩ := List.pairwise_cons.1 hl
      by_cases hxr : x ≤ r
      · rw [List.takeWhile_cons_of_pos (by simpa), List.countP_cons_of_pos (by simpa),
          List.length_cons, ih hl]
      · have hnone : l.countP (fun e => decide (e ≤ r)) = 0 :=
          List.countP_eq_zero.2 fun e he => by
            have := hx e he
            simp
            omega
        rw [List.takeWhile_cons_of_neg (by simpa using hxr),
          List.countP_cons_of_neg (by simpa using hxr), hnone]
        rfl

/-- What a reader may rely on: `bins + 1` sorted boundaries from the least
to the greatest value. -/
structure RangeBoundaries (vs : List Bytes) (bins : ℕ) (boundaries : List Bytes) : Prop where
  length : boundaries.length = bins + 1
  ordered : boundaries.Pairwise (· ≤ ·)
  least : ∀ b, boundaries.head? = some b → ∀ v ∈ vs, b ≤ v
  greatest : ∀ b, boundaries.getLast? = some b → ∀ v ∈ vs, v ≤ b

theorem SortedRuns.Of.exists_value (h : runs.Of vs) {v : Bytes} (hv : v ∈ vs) :
    ∃ r < runs.distinct, v = runs.value vs r := by
  obtain ⟨i, hi⟩ := List.mem_iff_getElem?.1 hv
  obtain ⟨k, r, hr, -, -, hval⟩ := h.exists_run (List.getElem?_eq_some_iff.1 hi).1
  exact ⟨r, hr, Option.some.inj (hi.symm.trans hval)⟩

theorem Thresholds.rangeBoundaries {boundaries : BytesList} {boundaryRun : List ℕ}
    (h : Thresholds vs runs bins boundaries boundaryRun) (hruns : runs.Of vs) :
    RangeBoundaries vs bins (boundaryRun.map (runs.value vs)) := by
  have hmem (e : ℕ) (he : e ∈ boundaryRun) := h.below e he
  refine ⟨by rw [List.length_map, h.length], ?_, fun b hb v hv => ?_, fun b hb v hv => ?_⟩
  · rw [List.pairwise_map]
    exact h.ordered.imp_of_mem fun hx hy hxy =>
      (hruns.value_le_iff (hmem _ hx) (hmem _ hy)).2 hxy
  · rw [List.head?_map, h.head, Option.map_some, Option.some.injEq] at hb
    obtain ⟨r, hr, rfl⟩ := hruns.exists_value hv
    rw [← hb, hruns.value_le_iff (by omega) hr]
    exact Nat.zero_le r
  · rw [List.getLast?_map, h.last, Option.map_some, Option.some.injEq] at hb
    obtain ⟨r, hr, rfl⟩ := hruns.exists_value hv
    rw [← hb, hruns.value_le_iff hr (by omega)]
    omega

/-- Counting thresholds by run is counting them by value. -/
theorem Thresholds.countP_le {boundaries : BytesList} {boundaryRun : List ℕ}
    (h : Thresholds vs runs bins boundaries boundaryRun) (hruns : runs.Of vs)
    (hr : r < runs.distinct) :
    (boundaryRun.map (runs.value vs)).countP (fun b => decide (b ≤ runs.value vs r)) =
      boundaryRun.countP fun e => decide (e ≤ r) := by
  rw [List.countP_map]
  refine List.countP_congr fun e he => ?_
  simp only [Function.comp_apply, decide_eq_true_eq]
  exact hruns.value_le_iff (h.below e he) hr

/-- The loop over the runs gives every row the bin of its value. -/
theorem Thresholds.rows_eq {boundaries : BytesList} {boundaryRun : List ℕ}
    (h : Thresholds vs runs bins boundaries boundaryRun) (hruns : runs.Of vs) :
    ((List.range runs.distinct).foldl (assignRun bins runs boundaryRun)
        (0, List.replicate runs.sorted.length 0)).2 =
      vs.map (rangeBin bins (boundaryRun.map (runs.value vs))) := by
  have hrows := @Assigned.steps vs runs bins runs.distinct boundaryRun hruns le_rfl
  refine List.ext_getElem? fun i => ?_
  by_cases hi : i < vs.length
  · obtain ⟨k, r, hr, hk, hrun, hval⟩ := hruns.exists_run hi
    rw [hrows.rows r hr k i hrun hk, List.getElem?_map, hval, Option.map_some, rangeBin,
      h.countP_le hruns hr, clampBin_eq, takeWhile_length_eq_countP h.ordered]
  · rw [List.getElem?_eq_none (by rw [hrows.length]; omega),
      List.getElem?_eq_none (by rw [List.length_map]; omega)]

theorem foldl_pushBack_nil (n : ℕ) :
    (List.range n).foldl (fun l _ => BytesList.pushBack l []) {} =
      BytesList.ofList (List.replicate n []) := by
  induction n with
  | zero => rfl
  | succ n ih =>
      rw [List.range_succ, List.foldl_append, ih, List.replicate_succ', BytesList.ofList_concat]
      rfl

/-! ### Where a sweep cuts

The cuts depend on the lengths of the runs, and on nothing else. -/

/-- Two sweeps that differ at most in the bytes of their boundaries. -/
structure Sweep.SameCuts (s t : Sweep) : Prop where
  boundaryRun : s.boundaryRun = t.boundaryRun
  remainingMass : s.remainingMass = t.remainingMass
  remainingBins : s.remainingBins = t.remainingBins
  cur : s.cur = t.cur

theorem Sweep.SameCuts.step {t : Sweep} (h : s.SameCuts t) {runs' : SortedRuns}
    (hruns : runs.runStart = runs'.runStart) (rule : CloseRule) (values values' : BytesList)
    (r : ℕ) : (s.stepBy rule values runs r).SameCuts (t.stepBy rule values' runs' r) := by
  rw [Sweep.stepBy, Sweep.stepBy]
  simp only [hruns, h.cur, h.remainingMass, h.remainingBins]
  split
  · exact ⟨congrArg (· ++ [r]) h.boundaryRun, rfl, rfl, rfl⟩
  · exact ⟨h.boundaryRun, h.remainingMass, h.remainingBins, congrArg (· + _) h.cur⟩

theorem Sweep.SameCuts.steps {t : Sweep} (h : s.SameCuts t) {runs' : SortedRuns}
    (hruns : runs.runStart = runs'.runStart) (rule : CloseRule) (values values' : BytesList)
    (rs : List ℕ) :
    (rs.foldl (Sweep.stepBy rule values runs) s).SameCuts
      (rs.foldl (Sweep.stepBy rule values' runs') t) := by
  induction rs generalizing s t with
  | nil => exact h
  | cons r rs ih => exact ih (h.step hruns rule values values' r)

/-- The sweep over the lengths of the runs alone, before run `r`. -/
def cutSweep (rule : CloseRule) (bins : ℕ) (runStart : List ℕ) (r : ℕ) : Sweep :=
  (List.range r).foldl (Sweep.stepBy rule {} ⟨[], runStart, runStart.length - 1⟩)
    ⟨{}, [0], runStart.getLastD 0, bins, 0⟩

/-- The runs whose values become boundaries. -/
def thresholdRunsBy (rule : CloseRule) (bins : ℕ) (runStart : List ℕ) : List ℕ :=
  let cuts := (cutSweep rule bins runStart (runStart.length - 1)).boundaryRun
  cuts ++ List.replicate (bins + 1 - cuts.length) (runStart.length - 1 - 1)

def thresholdRuns (fpu : Fpu) : ℕ → List ℕ → List ℕ := thresholdRunsBy (Sweep.closes fpu)

theorem cutSweep_cuts (rule : CloseRule) (bins : ℕ) (runStart : List ℕ) (r : ℕ) :
    (cutSweep rule bins runStart r).Cuts r :=
  Sweep.Cuts.steps ⟨List.pairwise_singleton _ _, by simp, fun _ => rfl⟩ rule _ _ r

/-- Thresholds below the last run ascend strictly. -/
theorem thresholdRunsBy_strict (rule : CloseRule) (bins : ℕ) (runStart : List ℕ) :
    (thresholdRunsBy rule bins runStart).Pairwise
      fun a b => b < runStart.length - 1 - 1 → a < b := by
  have hcuts := cutSweep_cuts rule bins runStart (runStart.length - 1)
  refine List.pairwise_append.2 ⟨?_, ?_, fun a _ b hb hlt => ?_⟩
  · refine hcuts.ascending.imp ?_
    exact fun h _ => h
  · exact List.pairwise_replicate.2 (Or.inr fun hlt => absurd hlt (lt_irrefl _))
  · rw [(List.mem_replicate.1 hb).2] at hlt
    exact absurd hlt (lt_irrefl _)

theorem SortedRuns.Of.getLastD_runStart (h : runs.Of vs) (hne : vs ≠ []) :
    runs.runStart.getLastD 0 = runs.sorted.length := by
  have hpos : 0 < (runs.ordering vs).length := by
    rw [SortedRuns.length_ordering h]
    exact List.length_pos_iff.2 hne
  rw [h.runStart, Runs.cuts, if_pos hpos, List.getLastD_concat, SortedRuns.length_ordering h,
    h.length_sorted]

/-- What the sweep over the values shares with the sweep over the run lengths. -/
theorem cutSweep_sameCuts (rule : CloseRule) (values : BytesList) (hruns : runs.Of vs)
    (hne : vs ≠ []) (r : ℕ) :
    ((List.range r).foldl (Sweep.stepBy rule values runs) (.begin bins values runs)).SameCuts
      (cutSweep rule bins runs.runStart r) := by
  refine Sweep.SameCuts.steps ?_ ?_ rule values {} _
  · exact ⟨rfl, (hruns.getLastD_runStart hne).symm, rfl, rfl⟩
  · rfl

theorem setRangeBinningPolicyBy_eq (rule : CloseRule) {values : BytesList} (hbins : 1 ≤ bins)
    (hvalues : ∀ i < vs.length, values.get i = vs.getD i []) (hruns : runs.Of vs)
    (hne : vs ≠ []) :
    Thresholds vs runs bins (setRangeBinningPolicyBy rule bins values runs).1
        (thresholdRunsBy rule bins runs.runStart) ∧
      (setRangeBinningPolicyBy rule bins values runs).2 =
        vs.map (rangeBin bins
          ((thresholdRunsBy rule bins runs.runStart).map (runs.value vs))) := by
  obtain ⟨hcnt, hfirst, hlast⟩ := hruns.value_ends hne
  have hpos : 0 < vs.length := List.length_pos_iff.2 hne
  have hsorted : runs.sorted.isEmpty = false := by
    rw [List.isEmpty_eq_false_iff, ← List.length_pos_iff, hruns.length_sorted]
    exact hpos
  have hhead : values.get (runs.sorted.headD 0) = runs.value vs 0 := by
    rw [hvalues _ ?_, hfirst]
    have := hruns.sorted_lt hpos
    rwa [List.getD_eq_getElem?_getD, ← List.head?_eq_getElem?, ← List.headD_eq_head?_getD] at this
  have hmax : values.get (runs.sorted.getLastD 0) = runs.value vs (runs.distinct - 1) := by
    rw [hvalues _ ?_, hlast]
    have := hruns.sorted_lt (show vs.length - 1 < vs.length by omega)
    rwa [List.getD_eq_getElem?_getD, ← hruns.length_sorted, ← List.getLast?_eq_getElem?,
      ← List.getLastD_eq_getLast?, hruns.length_sorted] at this
  have hstart : (Sweep.begin bins values runs).Ok vs runs bins 0 := by
    refine ⟨?_, List.pairwise_singleton _ _, by simp [Sweep.begin], rfl,
      by simp [Sweep.begin]; omega, hbins⟩
    rw [Sweep.begin, hhead]
    rfl
  have hswept := hstart.steps rule hvalues hruns le_rfl
  have hcuts := hswept.pad_boundaryRun (runs.distinct - 1)
  rw [(cutSweep_sameCuts rule values hruns hne _).boundaryRun] at hcuts
  have hthresholds := hswept.pad hcnt
  rw [thresholdRunsBy, hruns.length_runStart hne, ← hcuts, setRangeBinningPolicyBy]
  simp only [hsorted, Bool.false_eq_true, if_false, hruns.length_runStart hne, hmax]
  exact ⟨hthresholds, hthresholds.rows_eq hruns⟩

theorem setRangeBinningPolicy_eq (fpu : Fpu) {values : BytesList} (hbins : 1 ≤ bins)
    (hvalues : ∀ i < vs.length, values.get i = vs.getD i []) (hruns : runs.Of vs)
    (hne : vs ≠ []) :
    Thresholds vs runs bins (setRangeBinningPolicy fpu bins values runs).1
        (thresholdRuns fpu bins runs.runStart) ∧
      (setRangeBinningPolicy fpu bins values runs).2 =
        vs.map (rangeBin bins ((thresholdRuns fpu bins runs.runStart).map (runs.value vs))) :=
  setRangeBinningPolicyBy_eq (Sweep.closes fpu) hbins hvalues hruns hne

/-- The binning policy of the values `vs`: each row's bin is found by its value. -/
theorem setRangeBinningPolicy_spec (fpu : Fpu) {values : BytesList} (hbins : 1 ≤ bins)
    (hvalues : ∀ i < vs.length, values.get i = vs.getD i []) (hruns : runs.Of vs) :
    ∃ boundaries, setRangeBinningPolicy fpu bins values runs =
        (BytesList.ofList boundaries, vs.map (rangeBin bins boundaries)) ∧
      RangeBoundaries vs bins boundaries := by
  rcases eq_or_ne vs [] with rfl | hne
  · have hsorted : runs.sorted = [] := List.length_eq_zero_iff.1 hruns.length_sorted
    refine ⟨List.replicate (bins + 1) [], ?_, by simp,
      List.pairwise_replicate.2 (Or.inr le_rfl), by simp, by simp⟩
    rw [setRangeBinningPolicy, setRangeBinningPolicyBy, hsorted, foldl_pushBack_nil]
    rfl
  · obtain ⟨hthresholds, hrows⟩ := setRangeBinningPolicy_eq fpu hbins hvalues hruns hne
    exact ⟨_, Prod.ext hthresholds.boundaries hrows, hthresholds.rangeBoundaries hruns⟩

end Policy

/-! ### Boundaries are pushed

This needs nothing about the values: the boundaries are a list that was
built by pushes, so they have a wire form. -/

theorem exists_ofList_pushBack {l : BytesList} (h : ∃ vs, l = BytesList.ofList vs) (v : Bytes) :
    ∃ vs, l.pushBack v = BytesList.ofList vs := by
  obtain ⟨vs, rfl⟩ := h
  exact ⟨vs ++ [v], (BytesList.ofList_concat vs v).symm⟩

theorem exists_ofList_step {s : Sweep} (h : ∃ vs, s.boundaries = BytesList.ofList vs)
    (rule : CloseRule) (values : BytesList) (runs : SortedRuns) (r : ℕ) :
    ∃ vs, (s.stepBy rule values runs r).boundaries = BytesList.ofList vs := by
  rw [Sweep.stepBy]
  simp only []
  split
  · exact exists_ofList_pushBack h _
  · exact h

theorem foldl_invariant {α β : Type} {f : α → β → α} {P : α → Prop} {a : α} (l : List β)
    (ha : P a) (hf : ∀ x y, P x → P (f x y)) : P (l.foldl f a) := by
  induction l generalizing a with
  | nil => exact ha
  | cons y l ih => exact ih (hf a y ha)

theorem setRangeBinningPolicy_ofList (fpu : Fpu) (bins : ℕ) (values : BytesList)
    (runs : SortedRuns) :
    ∃ vs, (setRangeBinningPolicy fpu bins values runs).1 = BytesList.ofList vs := by
  rw [setRangeBinningPolicy, setRangeBinningPolicyBy]
  split
  · exact ⟨_, foldl_pushBack_nil (bins + 1)⟩
  · simp only [Sweep.pad]
    refine foldl_invariant (P := fun s : Sweep => ∃ vs, s.boundaries = BytesList.ofList vs) _
      (foldl_invariant (P := fun s : Sweep => ∃ vs, s.boundaries = BytesList.ofList vs) _
        ⟨[_], rfl⟩ fun s r hs => exists_ofList_step hs _ values runs r)
      fun s _ hs => exists_ofList_pushBack hs _

end BitLSM
