import BitLSM.Lib.Binary64
import BitLSM.Lib.Transition
import Mathlib.Algebra.Order.BigOperators.Group.List
import Mathlib.Data.List.Nodup
import Mathlib.Tactic.Ring

/-!
The refresh worker of the cardinality estimator.

Flush and compaction callbacks and `TEST_Refresh` raise signals; one worker
thread answers them with passes of `Reconcile`. A pass pins the current
version, compares its files with those of the last rebuild and rebuilds the
statistics when too many rows have changed hands since.

The steps of a run are those of the signalling threads, of the worker and of
the environment, which replaces the live file set and moves the clock. A step
holds a lock for at most its own length, so that every interleaving of the
program is one of steps; between the worker's wake-up and its reading of the
target the program holds `worker_mu_` for longer than the steps do, and has
fewer interleavings.

The state also keeps a history no step reads: the version of the live set each
signal was raised at, the completed passes, and the `TEST_Refresh` calls that
have returned.
-/

namespace BitLSM

namespace Estimator

/-! ### Live file sets -/

/-- What `Reconcile` reads of a `FileMetaData`. -/
structure FileMeta where
  number : UInt64
  numEntries : UInt64
  deriving DecidableEq, Repr

/-- The files of a version by level. No two files have one number. -/
structure LiveSet where
  levels : List (List FileMeta)
  nodup : (levels.flatten.map FileMeta.number).Nodup

def entries (files : List FileMeta) : ℕ := (files.map fun f => f.numEntries.toNat).sum

/-- The files of `files` whose number no file of `others` has. -/
def without (files others : List FileMeta) : List FileMeta :=
  files.filter fun f => !others.any fun g => g.number == f.number

namespace LiveSet

def files (v : LiveSet) : List FileMeta := v.levels.flatten

def entries (v : LiveSet) : ℕ := Estimator.entries v.files

/-- The entries in the symmetric difference of two file sets. -/
def changed (v w : LiveSet) : ℕ :=
  Estimator.entries (without v.files w.files) + Estimator.entries (without w.files v.files)

end LiveSet

/-! ### The drift check -/

/-- `unordered_map::emplace`, which keeps an entry that is there. -/
def emplace (map : List FileMeta) (f : FileMeta) : List FileMeta :=
  if map.any fun g => g.number == f.number then map else map ++ [f]

/-- The map `live` of `Reconcile`. -/
def liveMap (v : LiveSet) : List FileMeta := v.levels.flatten.foldl emplace []

def liveEntries (v : LiveSet) : UInt64 :=
  v.levels.flatten.foldl (fun n f => n + f.numEntries) 0

/-- One of the two loops that add to `changed`. -/
def addChanged (files others : List FileMeta) (changed : UInt64) : UInt64 :=
  files.foldl
    (fun n f => if others.any fun g => g.number == f.number then n else n + f.numEntries) changed

def changed (live built : List FileMeta) : UInt64 :=
  addChanged built live (addChanged live built 0)

/-- `kStaleRowFraction`, the double nearest to `0.1`. -/
def staleRowFraction : Binary64 := ⟨0x3FB999999999999A⟩

/-- `fresh_enough`. Both casts and the product round to the nearest double. -/
def freshEnough (changed builtEntries : UInt64) : Bool :=
  decide (0 < builtEntries) &&
    decide (Binary64.nearest changed.toNat * 2 ^ 1074 <
      Binary64.nearest (staleRowFraction.magnitude * Binary64.nearest builtEntries.toNat))

/-! ### States and steps -/

/-- A pass whose version is pinned: the signals raised before that, the number
of changes of the live set before that, and the set. -/
structure Pass where
  raised : ℕ
  version : ℕ
  seen : LiveSet

/-- Where the worker is. -/
inductive Pc (σ : Type*) where
  /-- in `worker_cv_.wait` -/
  | waiting
  /-- in the loop around `wait_until` -/
  | pacing
  /-- unlocked, before `GetReferencedSuperVersion` -/
  | reconciling (target : UInt64)
  | pinned (target : UInt64) (pass : Pass)
  /-- the statistics are rebuilt and not published -/
  | rebuilt (target : UInt64) (pass : Pass) (stats : σ)
  /-- `Reconcile` has returned -/
  | returned (target : UInt64) (pass : Pass)
  /-- before `processed_gen_ = target` -/
  | publishing (target : UInt64) (pass : Pass)
  | exited

/-- A completed pass with the statistics that were published at its end. -/
structure Completed (σ : Type*) extends Pass where
  published : σ

structure State (σ : Type*) where
  signalGen : UInt64
  processedGen : UInt64
  stop : Bool
  pc : Pc σ
  builtFiles : List FileMeta
  builtEntries : UInt64
  cached : σ
  /-- `none` is `time_point::min()`. -/
  lastReconcile : Option ℕ
  now : ℕ
  live : LiveSet
  /-- The targets of the `TEST_Refresh` calls that wait. -/
  refreshing : List UInt64
  -- history
  version : ℕ
  announced : List ℕ
  passes : List (Completed σ)
  refreshed : List UInt64

/-- What can happen next. -/
inductive Action where
  | notifyChange
  | testRefresh
  /-- the `i`-th waiting `TEST_Refresh` call returns -/
  | refreshed (i : ℕ)
  /-- the destructor -/
  | stop
  | change (live : LiveSet)
  | tick (elapsed : ℕ)
  /-- the worker's next step -/
  | work

def Action.signals : Action → Bool
  | .notifyChange | .testRefresh => true
  | _ => false

namespace State

variable {σ : Type*} (interval : ℕ) (rebuild : LiveSet → σ)

/-- The members when the worker starts, before the constructor's own signal. -/
def init (empty : σ) (live : LiveSet) : State σ where
  signalGen := 0
  processedGen := 0
  stop := false
  pc := .waiting
  builtFiles := []
  builtEntries := 0
  cached := empty
  lastReconcile := none
  now := 0
  live := live
  refreshing := []
  version := 0
  announced := []
  passes := []
  refreshed := []

def signal (s : State σ) : State σ :=
  { s with signalGen := s.signalGen + 1, announced := s.announced ++ [s.version] }

def notifyChange (s : State σ) : State σ := s.signal

/-- The first critical section of `TEST_Refresh`. -/
def testRefresh (s : State σ) : State σ :=
  { s.signal with refreshing := s.refreshing ++ [s.signal.signalGen] }

/-- The rest of `TEST_Refresh`. -/
def finishRefresh (i : ℕ) (s : State σ) : Option (State σ) :=
  match s.refreshing[i]? with
  | some target =>
      if s.stop || decide (target ≤ s.processedGen) then
        some { s with refreshing := s.refreshing.eraseIdx i, refreshed := target :: s.refreshed }
      else none
  | none => none

def pin (s : State σ) : Pass := ⟨s.announced.length, s.version, s.live⟩

/-- `Reconcile` from the drift check on, up to the publication of the result. -/
def reconcile (target : UInt64) (pass : Pass) (s : State σ) : State σ :=
  if freshEnough (changed (liveMap pass.seen) s.builtFiles) s.builtEntries then
    { s with pc := .returned target pass }
  else
    { s with
      pc := .rebuilt target pass (rebuild pass.seen)
      builtFiles := liveMap pass.seen
      builtEntries := liveEntries pass.seen }

/-- The worker's next step. -/
def work (s : State σ) : Option (State σ) :=
  match s.pc with
  | .waiting =>
      if s.stop then some { s with pc := .exited }
      else if s.processedGen < s.signalGen then some { s with pc := .pacing }
      else none
  | .pacing =>
      if s.stop then some { s with pc := .exited }
      else if s.lastReconcile.all fun last => decide (last + interval ≤ s.now) then
        some { s with pc := .reconciling s.signalGen }
      else none
  | .reconciling target => some { s with pc := .pinned target s.pin }
  | .pinned target pass => some (s.reconcile rebuild target pass)
  | .rebuilt target pass stats => some { s with pc := .returned target pass, cached := stats }
  | .returned target pass =>
      some { s with
        pc := .publishing target pass
        lastReconcile := some s.now
        passes := ⟨pass, s.cached⟩ :: s.passes }
  | .publishing target _ => some { s with pc := .waiting, processedGen := target }
  | .exited => none

def step : Action → State σ → Option (State σ)
  | .notifyChange, s => some s.notifyChange
  | .testRefresh, s => some s.testRefresh
  | .refreshed i, s => s.finishRefresh i
  | .stop, s => some { s with stop := true }
  | .change live, s => some { s with live := live, version := s.version + 1 }
  | .tick elapsed, s => some { s with now := s.now + elapsed }
  | .work, s => s.work interval rebuild

end State

/-! ### The drift check decides the drift -/

theorem toNat_addChanged (files others : List FileMeta) (n : UInt64) :
    (addChanged files others n).toNat = (n.toNat + entries (without files others)) % 2 ^ 64 := by
  induction files generalizing n with
  | nil =>
      have := n.toNat_lt
      simp [addChanged, entries, without]
  | cons f files ih =>
      have hrest := ih
      simp only [addChanged] at hrest
      simp only [addChanged, List.foldl_cons, hrest, entries, without, List.filter_cons]
      by_cases hmem : others.any fun g => g.number == f.number
      · simp [hmem]
      · simp [hmem, UInt64.toNat_add]
        omega

theorem entries_without_le (files others : List FileMeta) :
    entries (without files others) ≤ entries files :=
  (List.filter_sublist.map _).sum_le_sum fun _ _ => Nat.zero_le _

theorem foldl_emplace {files map : List FileMeta}
    (hnodup : ((map ++ files).map FileMeta.number).Nodup) :
    files.foldl emplace map = map ++ files := by
  induction files generalizing map with
  | nil => simp
  | cons f files ih =>
      have hfresh : map.any (fun g => g.number == f.number) = false := by
        rw [List.any_eq_false]
        intro g hg
        rw [List.map_append, List.nodup_append] at hnodup
        simpa using hnodup.2.2 g.number (List.mem_map_of_mem hg) f.number (by simp)
      rw [List.foldl_cons, emplace, if_neg (by simp [hfresh]), ih (by simpa using hnodup)]
      simp

theorem liveMap_eq (v : LiveSet) : liveMap v = v.files :=
  foldl_emplace (by simpa using v.nodup)

theorem toNat_liveEntries (v : LiveSet) : (liveEntries v).toNat = v.entries % 2 ^ 64 := by
  have hsum := toNat_addChanged v.files [] 0
  have hall : without v.files [] = v.files := List.filter_eq_self.2 fun _ _ => rfl
  rw [hall] at hsum
  simpa [addChanged, liveEntries, LiveSet.entries, LiveSet.files] using hsum

theorem magnitude_staleRowFraction :
    10 * staleRowFraction.magnitude * 2 ^ 54 = 2 ^ 1074 * (2 ^ 54 + 1) := by
  decide +kernel

/-- Below `2 ^ 53` rows the rounded comparison is no coarser than the exact
one: `0.1` rounds up by less than half of the last place of any product. -/
theorem lt_of_freshEnough {changed builtEntries : UInt64} (hbuilt : builtEntries.toNat < 2 ^ 53)
    (hfresh : freshEnough changed builtEntries) : 10 * changed.toNat < builtEntries.toNat := by
  obtain ⟨-, hlt⟩ := by
    simpa only [freshEnough, Bool.and_eq_true, decide_eq_true_eq] using hfresh
  rw [Binary64.nearest_of_lt hbuilt] at hlt
  by_contra hge
  -- a count of at most 53 bits that is no larger than the rounded `changed`
  obtain ⟨c, hc, hten, hnear⟩ :
      ∃ c < 2 ^ 53, builtEntries.toNat ≤ 10 * c ∧ c ≤ Binary64.nearest changed.toNat := by
    rcases Nat.lt_or_ge changed.toNat (2 ^ 53) with hsmall | hlarge
    · exact ⟨_, hsmall, by omega, by rw [Binary64.nearest_of_lt hsmall]⟩
    · exact ⟨2 ^ 53 - 1, by omega, by omega, by have := Binary64.le_nearest hlarge; omega⟩
  have hproduct : Binary64.nearest (staleRowFraction.magnitude * builtEntries.toNat) ≤
      c * 2 ^ 1074 := by
    refine Binary64.nearest_le hc ?_
    calc staleRowFraction.magnitude * builtEntries.toNat * 2 ^ 54
        ≤ staleRowFraction.magnitude * (10 * c) * 2 ^ 54 :=
          Nat.mul_le_mul_right _ (Nat.mul_le_mul_left _ hten)
      _ = c * (10 * staleRowFraction.magnitude * 2 ^ 54) := by ring
      _ = c * 2 ^ 1074 * (2 ^ 54 + 1) := by rw [magnitude_staleRowFraction, Nat.mul_assoc]
  exact Nat.not_lt.2 (Nat.le_trans hproduct (Nat.mul_le_mul_right _ hnear)) hlt

theorem toNat_changed {v w : LiveSet} (hv : v.entries < 2 ^ 53) (hw : w.entries < 2 ^ 53) :
    (changed (liveMap w) v.files).toNat = v.changed w := by
  have hvw := entries_without_le v.files w.files
  have hwv := entries_without_le w.files v.files
  rw [changed, liveMap_eq, toNat_addChanged, toNat_addChanged, LiveSet.changed]
  rw [LiveSet.entries] at hv hw
  simp only [UInt64.toNat_zero]
  omega

theorem changed_self (v : LiveSet) : v.changed v = 0 := by
  have hnone : without v.files v.files = [] := by
    rw [without, List.filter_eq_nil_iff]
    intro f hf
    simpa using ⟨f, hf, rfl⟩
  rw [LiveSet.changed, hnone]
  rfl

/-! ### Runs -/

/-- The statistics were built from a file set whose difference to the set the
pass saw holds no entries, or less than a tenth of its own. -/
def Current {σ : Type*} (rebuild : LiveSet → σ) (stats : σ) (seen : LiveSet) : Prop :=
  ∃ built : LiveSet, stats = rebuild built ∧
    (built.changed seen = 0 ∨ 10 * built.changed seen < built.entries)

/-- A pinned version is no older than what each signal raised by then
announced. -/
structure Covers (announced : List ℕ) (pass : Pass) : Prop where
  raised : pass.raised ≤ announced.length
  newer : ∀ g v, g < pass.raised → announced[g]? = some v → v ≤ pass.version

theorem Covers.signal {announced : List ℕ} {pass : Pass} (h : Covers announced pass) (v : ℕ) :
    Covers (announced ++ [v]) pass where
  raised := by simpa using Nat.le_succ_of_le h.raised
  newer g w hg hw := by
    have := h.raised
    exact h.newer g w hg (by rwa [List.getElem?_append_left (by omega)] at hw)

/-- The record of the last rebuild, and the statistics made in it. -/
def Built {σ : Type*} (rebuild : LiveSet → σ) (builtFiles : List FileMeta) (builtEntries : UInt64)
    (stats : σ) : Prop :=
  builtEntries = 0 ∨ ∃ v : LiveSet, v.entries < 2 ^ 53 ∧ builtFiles = v.files ∧
    builtEntries.toNat = v.entries ∧ stats = rebuild v

namespace State

variable {σ : Type*} {interval : ℕ} {rebuild : LiveSet → σ} {s s' : State σ}

/-- What holds of the state where the worker is. -/
def PcOk (rebuild : LiveSet → σ) (s : State σ) : Prop :=
  match s.pc with
  | .waiting | .pacing | .exited => Built rebuild s.builtFiles s.builtEntries s.cached
  | .reconciling target =>
      Built rebuild s.builtFiles s.builtEntries s.cached ∧ target ≤ s.signalGen
  | .pinned target pass =>
      Built rebuild s.builtFiles s.builtEntries s.cached ∧ target.toNat ≤ pass.raised ∧
        Covers s.announced pass ∧ pass.seen.entries < 2 ^ 53
  | .rebuilt target pass stats =>
      Built rebuild s.builtFiles s.builtEntries stats ∧ target.toNat ≤ pass.raised ∧
        Covers s.announced pass ∧ Current rebuild stats pass.seen
  | .returned target pass =>
      Built rebuild s.builtFiles s.builtEntries s.cached ∧ target.toNat ≤ pass.raised ∧
        Covers s.announced pass ∧ Current rebuild s.cached pass.seen
  | .publishing target pass =>
      Built rebuild s.builtFiles s.builtEntries s.cached ∧ target.toNat ≤ pass.raised ∧
        ∃ p ∈ s.passes, p.toPass = pass

structure Inv (rebuild : LiveSet → σ) (s : State σ) : Prop where
  signalGen : s.signalGen.toNat = s.announced.length
  processed_le : s.processedGen ≤ s.signalGen
  live : s.live.entries < 2 ^ 53
  announced : ∀ v ∈ s.announced, v ≤ s.version
  answered : 0 < s.processedGen → ∃ p ∈ s.passes, s.processedGen.toNat ≤ p.raised
  refreshed : s.stop = false → ∀ target ∈ s.refreshed, ∃ p ∈ s.passes, target.toNat ≤ p.raised
  targets : ∀ target ∈ s.refreshing, 0 < target
  passes : ∀ p ∈ s.passes, Covers s.announced p.toPass ∧ Current rebuild p.published p.seen
  pcOk : s.PcOk rebuild

theorem init_inv {empty : σ} {live : LiveSet} (hlive : live.entries < 2 ^ 53) :
    (init empty live).Inv rebuild where
  signalGen := rfl
  processed_le := Nat.le_refl _
  live := hlive
  announced := by simp [init]
  answered := by simp [init]
  refreshed := by simp [init]
  targets := by simp [init]
  passes := by simp [init]
  pcOk := Or.inl rfl

theorem Inv.pin (h : s.Inv rebuild) : Covers s.announced s.pin where
  raised := Nat.le_refl _
  newer _ v _ hv := h.announced v (List.mem_of_getElem? hv)

theorem PcOk.signal (h : s.PcOk rebuild) (hgrow : s.signalGen ≤ s.signal.signalGen) :
    s.signal.PcOk rebuild := by
  revert h
  unfold PcOk
  rw [show s.signal.pc = s.pc from rfl]
  cases s.pc with
  | waiting | pacing | exited | publishing => exact id
  | reconciling => exact fun h => ⟨h.1, UInt64.le_trans h.2 hgrow⟩
  | pinned | rebuilt | returned => exact fun h => ⟨h.1, h.2.1, h.2.2.1.signal _, h.2.2.2⟩

theorem Inv.signal (h : s.Inv rebuild) (hlen : s.announced.length + 1 < 2 ^ 64) :
    s.signal.Inv rebuild := by
  have hgen : s.signal.signalGen.toNat = s.signal.announced.length := by
    have := h.signalGen
    simp only [State.signal, UInt64.toNat_add, List.length_append, List.length_singleton,
      UInt64.toNat_one]
    omega
  have hgrow : s.signalGen ≤ s.signal.signalGen := by
    have := h.signalGen
    rw [UInt64.le_iff_toNat_le, hgen]
    simp only [State.signal, List.length_append]
    omega
  refine
    { signalGen := hgen
      processed_le := UInt64.le_trans h.processed_le hgrow
      live := h.live
      announced := fun v hv => ?_
      answered := h.answered
      refreshed := h.refreshed
      targets := h.targets
      passes := fun p hp => ⟨(h.passes p hp).1.signal _, (h.passes p hp).2⟩
      pcOk := ?_ }
  · rcases List.mem_append.1 hv with hv | hv
    · exact h.announced v hv
    · exact Nat.le_of_eq (List.mem_singleton.1 hv)
  · exact h.pcOk.signal hgrow

theorem Inv.testRefresh (h : s.Inv rebuild) (hlen : s.announced.length + 1 < 2 ^ 64) :
    s.testRefresh.Inv rebuild := by
  have hsignal := h.signal hlen
  refine ⟨hsignal.signalGen, hsignal.processed_le, hsignal.live, hsignal.announced,
    hsignal.answered, hsignal.refreshed, fun target hmem => ?_, hsignal.passes, hsignal.pcOk⟩
  rcases List.mem_append.1 hmem with hmem | hmem
  · exact h.targets target hmem
  · have hgen := hsignal.signalGen
    rw [List.mem_singleton.1 hmem, UInt64.lt_iff_toNat_lt, hgen]
    simp [State.signal]

theorem finishRefresh_inv {i : ℕ} (h : s.Inv rebuild) (hs : s.finishRefresh i = some s') :
    s'.Inv rebuild := by
  unfold finishRefresh at hs
  split at hs
  case h_2 => cases hs
  rename_i target htarget
  split at hs
  case isFalse => cases hs
  rename_i hready
  obtain rfl := Option.some.inj hs
  refine ⟨h.signalGen, h.processed_le, h.live, h.announced, h.answered, fun hstop => ?_,
    fun t ht => h.targets t (List.mem_of_mem_eraseIdx ht), h.passes, h.pcOk⟩
  intro t ht
  rcases List.mem_cons.1 ht with rfl | ht
  · have hle : t ≤ s.processedGen := by
      have hstop : s.stop = false := hstop
      simpa [hstop] using hready
    have hpos := h.targets t (List.mem_of_getElem? htarget)
    obtain ⟨p, hp, hraised⟩ := h.answered (UInt64.lt_of_lt_of_le hpos hle)
    exact ⟨p, hp, Nat.le_trans (UInt64.le_iff_toNat_le.1 hle) hraised⟩
  · exact h.refreshed hstop t ht

theorem Inv.reconcile {target : UInt64} {pass : Pass} (h : s.Inv rebuild)
    (hpc : s.pc = .pinned target pass) : (s.reconcile rebuild target pass).Inv rebuild := by
  have hok := h.pcOk
  rw [PcOk, hpc] at hok
  obtain ⟨hbuilt, htarget, hcovers, hsmall⟩ := hok
  unfold State.reconcile
  split
  case isTrue hfresh =>
    refine ⟨h.signalGen, h.processed_le, h.live, h.announced, h.answered, h.refreshed, h.targets,
      h.passes, hbuilt, htarget, hcovers, ?_⟩
    rcases hbuilt with hnone | ⟨v, hv, hfiles, hentries, hstats⟩
    · simp only [freshEnough, hnone, UInt64.lt_irrefl, decide_false, Bool.false_and,
        Bool.false_eq_true] at hfresh
    · rw [hfiles] at hfresh
      refine ⟨v, hstats, Or.inr ?_⟩
      rw [← toNat_changed hv hsmall, ← hentries]
      exact lt_of_freshEnough (by omega) hfresh
  case isFalse =>
    refine ⟨h.signalGen, h.processed_le, h.live, h.announced, h.answered, h.refreshed, h.targets,
      h.passes, Or.inr ⟨pass.seen, hsmall, liveMap_eq _, ?_, rfl⟩, htarget, hcovers,
      pass.seen, rfl, Or.inl (changed_self _)⟩
    show (liveEntries pass.seen).toNat = _
    rw [toNat_liveEntries]
    omega

/-- The worker's steps keep the invariant. -/
theorem work_inv (h : s.Inv rebuild) (hs : s.work interval rebuild = some s') :
    s'.Inv rebuild := by
  have hok := h.pcOk
  unfold PcOk at hok
  unfold State.work at hs
  cases hpc : s.pc with
  | waiting =>
      simp only [hpc] at hs hok
      split at hs
      · obtain rfl := Option.some.inj hs
        exact { h with pcOk := hok }
      · split at hs
        · obtain rfl := Option.some.inj hs
          exact { h with pcOk := hok }
        · cases hs
  | pacing =>
      simp only [hpc] at hs hok
      split at hs
      · obtain rfl := Option.some.inj hs
        exact { h with pcOk := hok }
      · split at hs
        · obtain rfl := Option.some.inj hs
          exact { h with pcOk := ⟨hok, UInt64.le_refl _⟩ }
        · cases hs
  | reconciling target =>
      simp only [hpc] at hs hok
      obtain rfl := Option.some.inj hs
      have htarget : target.toNat ≤ s.announced.length := by
        rw [← h.signalGen]
        exact UInt64.le_iff_toNat_le.1 hok.2
      exact { h with pcOk := ⟨hok.1, htarget, h.pin, h.live⟩ }
  | pinned target pass =>
      simp only [hpc] at hs
      obtain rfl := Option.some.inj hs
      exact h.reconcile hpc
  | rebuilt target pass stats =>
      simp only [hpc] at hs hok
      obtain rfl := Option.some.inj hs
      exact { h with pcOk := hok }
  | returned target pass =>
      simp only [hpc] at hs hok
      obtain rfl := Option.some.inj hs
      obtain ⟨hbuilt, htarget, hcovers, hcurrent⟩ := hok
      refine
        { h with
          answered := fun hpos => ?_
          refreshed := fun hstop t ht => ?_
          passes := fun p hp => ?_
          pcOk := ⟨hbuilt, htarget, ⟨pass, s.cached⟩, List.mem_cons_self, rfl⟩ }
      · obtain ⟨p, hp, hraised⟩ := h.answered hpos
        exact ⟨p, List.mem_cons_of_mem _ hp, hraised⟩
      · obtain ⟨p, hp, hraised⟩ := h.refreshed hstop t ht
        exact ⟨p, List.mem_cons_of_mem _ hp, hraised⟩
      · rcases List.mem_cons.1 hp with rfl | hp
        · exact ⟨hcovers, hcurrent⟩
        · exact h.passes p hp
  | publishing target pass =>
      simp only [hpc] at hs hok
      obtain rfl := Option.some.inj hs
      obtain ⟨hbuilt, htarget, p, hp, rfl⟩ := hok
      have hle : target ≤ s.signalGen := by
        rw [UInt64.le_iff_toNat_le, h.signalGen]
        exact Nat.le_trans htarget (h.passes p hp).1.raised
      exact { h with processed_le := hle, answered := fun _ => ⟨p, hp, htarget⟩, pcOk := hbuilt }
  | exited =>
      simp only [hpc] at hs
      cases hs

theorem work_announced (hs : s.work interval rebuild = some s') :
    s'.announced = s.announced := by
  grind [State.work, State.reconcile]

theorem finishRefresh_announced {i : ℕ} (hs : s.finishRefresh i = some s') :
    s'.announced = s.announced := by
  grind [State.finishRefresh]

/-- The conditions on what is still to happen: the generations do not wrap
around and every live set has fewer than `2 ^ 53` entries. -/
structure Bounded (actions : List Action) (s : State σ) : Prop where
  signals : s.announced.length + actions.countP Action.signals < 2 ^ 64
  entries : ∀ live, .change live ∈ actions → live.entries < 2 ^ 53

theorem step_inv {a : Action} {actions : List Action} (h : s.Inv rebuild)
    (hbounded : s.Bounded (a :: actions)) (hs : step interval rebuild a s = some s') :
    s'.Inv rebuild ∧ s'.Bounded actions := by
  obtain ⟨hsignals, hentries⟩ := hbounded
  have hrest : ∀ live, .change live ∈ actions → live.entries < 2 ^ 53 :=
    fun live hmem => hentries live (List.mem_cons_of_mem _ hmem)
  rw [List.countP_cons] at hsignals
  cases a with
  | notifyChange =>
      obtain rfl := Option.some.inj hs
      simp only [Action.signals, if_true] at hsignals
      exact ⟨h.signal (by omega), by simp [State.notifyChange, State.signal]; omega, hrest⟩
  | testRefresh =>
      obtain rfl := Option.some.inj hs
      simp only [Action.signals, if_true] at hsignals
      exact ⟨h.testRefresh (by omega), by simp [State.testRefresh, State.signal]; omega, hrest⟩
  | refreshed i =>
      exact ⟨finishRefresh_inv h hs, by rw [finishRefresh_announced hs]; omega, hrest⟩
  | stop =>
      obtain rfl := Option.some.inj hs
      exact ⟨{ h with refreshed := fun hstop => nomatch hstop }, by simp; omega, hrest⟩
  | change live =>
      obtain rfl := Option.some.inj hs
      refine ⟨{ h with
        live := hentries live List.mem_cons_self
        announced := fun v hv => Nat.le_succ_of_le (h.announced v hv) }, by simp; omega, hrest⟩
  | tick =>
      obtain rfl := Option.some.inj hs
      exact ⟨{ h with }, by simp; omega, hrest⟩
  | work => exact ⟨work_inv h hs, by rw [work_announced hs]; omega, hrest⟩

/-- What the refresh protocol guarantees in a state. Signal `g + 1` was raised
when the live set had the version `announced[g]`. -/
structure Safe (rebuild : LiveSet → σ) (s : State σ) : Prop where
  processed_le : s.processedGen ≤ s.signalGen
  /-- A processed signal has a pass that pinned its version after the signal,
  and so sees what the signal announced. -/
  processed : ∀ g v, g < s.processedGen.toNat → s.announced[g]? = some v →
    ∃ p ∈ s.passes, g < p.raised ∧ v ≤ p.version
  /-- A `TEST_Refresh` call returns after such a pass. -/
  refreshed : s.stop = false → ∀ target ∈ s.refreshed, ∃ p ∈ s.passes, target.toNat ≤ p.raised
  /-- What was published at the end of a pass is current for what it saw. -/
  current : ∀ p ∈ s.passes, Current rebuild p.published p.seen

theorem Inv.safe (h : s.Inv rebuild) : s.Safe rebuild where
  processed_le := h.processed_le
  processed g v hg hv := by
    obtain ⟨p, hp, hraised⟩ := h.answered (by rw [UInt64.lt_iff_toNat_lt]; simp; omega)
    exact ⟨p, hp, by omega, (h.passes p hp).1.newer g v (by omega) hv⟩
  refreshed := h.refreshed
  current p hp := (h.passes p hp).2

/-- In every run with fewer than `2 ^ 64` signals, in which every live set has
fewer than `2 ^ 53` entries, no signal is lost and no published statistics drift
by a tenth. -/
theorem refresh_safe {empty : σ} {live : LiveSet} {actions : List Action}
    (hlive : live.entries < 2 ^ 53) (hsignals : actions.countP Action.signals < 2 ^ 64)
    (hchanges : ∀ live, .change live ∈ actions → live.entries < 2 ^ 53)
    (hrun : Transition.run (step interval rebuild) (init empty live) actions = some s) :
    s.Safe rebuild := by
  have hbounded : (init empty live).Bounded actions := ⟨by simpa [init] using hsignals, hchanges⟩
  obtain ⟨hinv, -⟩ := Transition.run_induction
    (P := fun actions s => Inv rebuild s ∧ Bounded actions s)
    (fun a actions s s' h hs => step_inv h.1 h.2 hs) ⟨init_inv hlive, hbounded⟩ hrun
  exact hinv.safe

/-- A rebuild at the first pass; then a file of five rows is added to a hundred,
and a `TEST_Refresh` call returns after a pass that keeps the statistics. -/
def twoPasses : List Action :=
  .notifyChange :: List.replicate 7 .work ++
    [.change ⟨[[⟨2, 5⟩], [⟨1, 100⟩]], by decide⟩, .testRefresh] ++
    List.replicate 6 .work ++ [.refreshed 0]

theorem refresh_safe_twoPasses :
    ∃ s, Transition.run (step 0 LiveSet.entries) (init 0 ⟨[[⟨1, 100⟩]], by decide⟩) twoPasses =
        some s ∧
      s.passes.map Completed.published = [100, 100] ∧ s.refreshed = [2] ∧
      s.Safe LiveSet.entries := by
  have hvalues : (Transition.run (step 0 LiveSet.entries) (init 0 ⟨[[⟨1, 100⟩]], by decide⟩)
      twoPasses).map (fun s => (s.passes.map Completed.published, s.refreshed)) =
      some ([100, 100], [2]) := by decide +kernel
  obtain ⟨s, hrun, hs⟩ := Option.map_eq_some_iff.1 hvalues
  refine ⟨s, hrun, congrArg Prod.fst hs, congrArg Prod.snd hs,
    refresh_safe (by decide) (by decide) ?_ hrun⟩
  intro live hmem
  simp only [twoPasses, List.mem_append, List.mem_cons, List.mem_replicate, List.not_mem_nil,
    reduceCtorEq, Action.change.injEq, and_false, or_false, false_or] at hmem
  subst hmem
  decide

/-- Signals only extend the history and the generation. -/
theorem run_notifyChange (n : ℕ) (s : State σ) :
    Transition.run (step interval rebuild) s (List.replicate n .notifyChange) =
      some { s with
        signalGen := s.signalGen + UInt64.ofNat n
        announced := s.announced ++ List.replicate n s.version } := by
  induction n generalizing s with
  | zero => simp [Transition.run]
  | succ n ih =>
      rw [List.replicate_succ, Transition.run_cons]
      simp only [step, Option.bind_some, ih, State.notifyChange, State.signal, List.append_assoc,
        List.replicate_succ, List.singleton_append, Option.some.injEq, mk.injEq, and_true]
      rw [UInt64.add_assoc, UInt64.ofNat_add, UInt64.add_comm 1]
      rfl

/-- The first pass answers every signal raised before it. -/
theorem run_firstPass (hpc : s.pc = .waiting) (hstop : s.stop = false)
    (hsignal : s.processedGen < s.signalGen) (hlast : s.lastReconcile = none)
    (hbuilt : s.builtEntries = 0) :
    ∃ s', Transition.run (step interval rebuild) s (List.replicate 7 .work) = some s' ∧
      s'.signalGen = s.signalGen ∧ s'.processedGen = s.signalGen := by
  have hrebuild : ∀ n, freshEnough n s.builtEntries = false := fun n => by
    simp only [freshEnough, hbuilt, UInt64.lt_irrefl, decide_false, Bool.false_and]
  simp [Transition.run, List.replicate, step, State.work, State.reconcile, hpc, hstop, hsignal,
    hlast, hrebuild]

/-- The first rebuild sees ten times `2 ^ 53 + 1` rows, the second pass another
`2 ^ 53 + 1` of them: a tenth. -/
def tenthAdded : List Action :=
  .notifyChange :: List.replicate 7 .work ++
    [.change ⟨[[⟨2, 9007199254740993⟩], [⟨1, 90071992547409930⟩]], by decide⟩, .notifyChange] ++
    List.replicate 6 .work

/-- Without the two bounds: the doubles round a tenth to less than a tenth, and
the `2 ^ 64`-th signal takes the generation back to zero. -/
theorem refresh_unsafe_beyond_bounds :
    (∃ s : State (List (List FileMeta)), ∃ p ∈ s.passes,
      Transition.run (step 0 LiveSet.levels)
          (init [] ⟨[[⟨1, 90071992547409930⟩]], by decide⟩) tenthAdded = some s ∧
        ¬ Current LiveSet.levels p.published p.seen) ∧
    ∃ (actions : List Action) (s : State (List (List FileMeta))),
      Transition.run (step 0 LiveSet.levels) (init [] ⟨[], by decide⟩) actions = some s ∧
        s.signalGen < s.processedGen := by
  constructor
  · have hvalues : (Transition.run (step 0 LiveSet.levels)
        (init [] ⟨[[⟨1, 90071992547409930⟩]], by decide⟩) tenthAdded).bind
          (fun s => s.passes.head?.map fun p => (p.published, p.seen.levels)) =
        some ([[⟨1, 90071992547409930⟩]],
          [[⟨2, 9007199254740993⟩], [⟨1, 90071992547409930⟩]]) := by decide +kernel
    obtain ⟨s, hrun, hs⟩ := Option.bind_eq_some_iff.1 hvalues
    obtain ⟨p, hp, hlevels⟩ := Option.map_eq_some_iff.1 hs
    refine ⟨s, p, List.mem_of_mem_head? hp, hrun, ?_⟩
    rintro ⟨built, hbuilt, hdrift⟩
    have hpublished : built.levels = [[⟨1, 90071992547409930⟩]] :=
      hbuilt.symm.trans (congrArg Prod.fst hlevels)
    have hseen : p.seen.levels = [[⟨2, 9007199254740993⟩], [⟨1, 90071992547409930⟩]] :=
      congrArg Prod.snd hlevels
    simp only [LiveSet.changed, LiveSet.entries, LiveSet.files, hpublished, hseen] at hdrift
    revert hdrift
    decide +kernel
  · refine ⟨List.replicate (2 ^ 64 - 1) .notifyChange ++
      (List.replicate 7 .work ++ [.notifyChange]), ?_⟩
    rw [Transition.run_append, run_notifyChange, Option.bind_some, Transition.run_append]
    have hlt : (0 : UInt64) < 0 + UInt64.ofNat (2 ^ 64 - 1) := by decide
    obtain ⟨s, hrun, hsignal, hprocessed⟩ := run_firstPass (s :=
      { init [] ⟨[], by decide⟩ with
        signalGen := 0 + UInt64.ofNat (2 ^ 64 - 1)
        announced := [] ++ List.replicate (2 ^ 64 - 1) 0 }) rfl rfl hlt rfl rfl
    refine ⟨s.notifyChange, congrArg (Option.bind · _) hrun, ?_⟩
    show s.signalGen + 1 < s.processedGen
    rw [hsignal, hprocessed]
    show 0 + UInt64.ofNat (2 ^ 64 - 1) + 1 < 0 + UInt64.ofNat (2 ^ 64 - 1)
    decide

end State

end Estimator

end BitLSM
