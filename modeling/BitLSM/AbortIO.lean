import Mathlib.Data.List.Count

/-!
Aborting asynchronous reads.

All reads of a thread share one completion ring. After a cancel was submitted
for every unfinished handle of `ioHandles`, the ring holds two completions for
each of them and one for every other outstanding read of the thread, in any
order. `abortIO` is the loop that waits for them. What it has done depends on
the completions it has consumed only, and `Consumed` says how.
-/

namespace BitLSM

inductive IOStatus where
  | ok
  | aborted
  | ioError (message : String)
  deriving DecidableEq, Repr

/-- What a callback receives. -/
structure FSReadRequest where
  scratch : ℕ := 0
  offset : UInt64 := 0
  len : ℕ := 0
  /-- The bytes of `scratch` that were read. -/
  result : ℕ × ℕ := (0, 0)
  status : IOStatus := .ok
  deriving DecidableEq, Repr

/-- What a handle says about its read. -/
structure PosixHandle where
  /-- The ring it was submitted to. -/
  iu : ℕ
  scratch : ℕ
  offset : UInt64
  len : ℕ
  iovLen : ℕ
  useDirectIo : Bool
  alignment : ℕ

/-- The handles, the thread's ring, and how the result of a completed read is
put into its request. -/
structure AioEnv (H : Type) where
  handle : H → PosixHandle
  iu : ℕ
  updateResult : Int32 → ℕ → ℕ → Bool → ℕ → FSReadRequest → FSReadRequest

/-- A completion: the handle it is for and `cqe->res`. -/
abbrev Completion (H : Type) := H × Int32

structure AioState (H : Type) where
  isFinished : H → Bool
  reqCount : H → ℕ
  /-- The completions still to come, in the order they arrive. -/
  ring : List (Completion H)
  /-- The callbacks made. -/
  calls : List (H × FSReadRequest) := []

variable {H : Type} [DecidableEq H]

namespace AioEnv

/-- The request of a read that completed on its own. -/
def finishedRequest (env : AioEnv H) (c : Completion H) : FSReadRequest :=
  let h := env.handle c.1
  env.updateResult c.2 h.len h.iovLen h.useDirectIo h.alignment
    { scratch := h.scratch, offset := h.offset, len := h.len }

/-- A completion for a request that is not being aborted. -/
def deliver (env : AioEnv H) (st : AioState H) (c : Completion H) : AioState H :=
  { st with
    isFinished := Function.update st.isFinished c.1 true
    calls := st.calls ++ [(c.1, env.finishedRequest c)] }

/-- A completion for a handle that is being aborted. The second one finishes
it. -/
def count (st : AioState H) (h : H) : AioState H :=
  if st.reqCount h + 1 = 2 then
    { st with
      reqCount := Function.update st.reqCount h (st.reqCount h + 1)
      isFinished := Function.update st.isFinished h true
      calls := st.calls ++ [(h, { status := .aborted })] }
  else { st with reqCount := Function.update st.reqCount h (st.reqCount h + 1) }

theorem count_ring (st : AioState H) (h : H) : (count st h).ring = st.ring := by
  rw [count]
  split <;> rfl

theorem count_reqCount (st : AioState H) (h : H) :
    (count st h).reqCount = Function.update st.reqCount h (st.reqCount h + 1) := by
  rw [count]
  split <;> rfl

theorem count_isFinished (st : AioState H) (h : H) : (count st h).isFinished =
    Function.update st.isFinished h (st.isFinished h || decide (st.reqCount h + 1 = 2)) := by
  rw [count]
  split
  · next heq => simp [heq]
  · next hne => simp [hne]

theorem count_calls (st : AioState H) (h : H) : (count st h).calls =
    st.calls ++ if st.reqCount h + 1 = 2 then [(h, { status := .aborted })] else [] := by
  rw [count]
  split <;> simp

/-- The wait for `target`, over the completions that arrive. On an empty ring
it never returns. -/
def waitFor (env : AioEnv H) (ioHandles : List H) (target : H) :
    List (Completion H) → AioState H → Option (IOStatus × AioState H)
  | [], _ => none
  | c :: ring, st =>
      let st := { st with ring }
      if (env.handle c.1).iu ≠ env.iu then some (.ioError "", st)
      else if c.1 ∉ ioHandles then env.waitFor ioHandles target ring (env.deliver st c)
      else
        let st' := count st c.1
        -- finished by this completion, and the one waited for
        if st.reqCount c.1 + 1 = 2 ∧ c.1 = target then some (.ok, st')
        else env.waitFor ioHandles target ring st'

/-- The loop over the handles. -/
def abortFrom (env : AioEnv H) (ioHandles : List H) :
    List H → AioState H → Option (IOStatus × AioState H)
  | [], st => some (.ok, st)
  | h :: rest, st =>
      if st.isFinished h then env.abortFrom ioHandles rest st
      else
        match env.waitFor ioHandles h st.ring st with
        | none => none
        | some (.ok, st) => env.abortFrom ioHandles rest st
        | some (status, st) => some (status, st)

def abortIO (env : AioEnv H) (ioHandles : List H) (st : AioState H) :
    Option (IOStatus × AioState H) :=
  env.abortFrom ioHandles ioHandles st

end AioEnv

/-- The callbacks made for `h`. -/
def AioState.callsOf (st : AioState H) (h : H) : List FSReadRequest :=
  (st.calls.filter fun c => c.1 = h).map Prod.snd

/-- How many of the completions are for `h`. -/
def completionsOf (cs : List (Completion H)) (h : H) : ℕ := (cs.map Prod.fst).count h

/-- The ring as it is when the loop starts. -/
structure AioState.Submitted (env : AioEnv H) (ioHandles : List H) (st : AioState H) : Prop where
  /-- Every completion is for a request of this thread. -/
  thread : ∀ c ∈ st.ring, (env.handle c.1).iu = env.iu
  /-- The original request and its cancel. -/
  twice : ∀ h ∈ ioHandles, st.isFinished h = false → completionsOf st.ring h = 2
  /-- No cancel is submitted for a finished handle. -/
  never : ∀ h ∈ ioHandles, st.isFinished h = true → completionsOf st.ring h = 0
  once : ∀ h ∉ ioHandles, completionsOf st.ring h ≤ 1
  uncounted : ∀ h ∈ ioHandles, st.isFinished h = false → st.reqCount h = 0
  calls : st.calls = []

/-! ### The state after some completions -/

/-- The state `st` after `done` was consumed from `start`. -/
structure Consumed (env : AioEnv H) (ioHandles : List H) (start : AioState H)
    (done : List (Completion H)) (st : AioState H) : Prop where
  ring : start.ring = done ++ st.ring
  reqCount : ∀ h ∈ ioHandles, st.reqCount h = start.reqCount h + completionsOf done h
  ownFinished : ∀ h ∈ ioHandles,
    st.isFinished h = (start.isFinished h || decide (completionsOf done h = 2))
  ownCalls : ∀ h ∈ ioHandles, st.callsOf h =
    if completionsOf done h = 2 then [{ status := .aborted }] else []
  otherFinished : ∀ h ∉ ioHandles,
    st.isFinished h = (start.isFinished h || decide (0 < completionsOf done h))
  otherCalls : ∀ h ∉ ioHandles, st.callsOf h =
    (done.filter fun c => c.1 = h).map env.finishedRequest

section Step

variable {env : AioEnv H} {ioHandles : List H} {start st : AioState H}
    {done ring : List (Completion H)}
  {c : Completion H}

theorem completionsOf_append (cs ds : List (Completion H)) (h : H) :
    completionsOf (cs ++ ds) h = completionsOf cs h + completionsOf ds h := by
  simp [completionsOf]

theorem completionsOf_concat_self (cs : List (Completion H)) (c : Completion H) :
    completionsOf (cs ++ [c]) c.1 = completionsOf cs c.1 + 1 := by
  rw [completionsOf_append]
  simp [completionsOf]

theorem completionsOf_concat_ne (cs : List (Completion H)) {c : Completion H} {h : H}
    (hne : c.1 ≠ h) : completionsOf (cs ++ [c]) h = completionsOf cs h := by
  rw [completionsOf_append]
  simp [completionsOf, hne]

theorem callsOf_append {st st' : AioState H} {more : List (H × FSReadRequest)}
    (hcalls : st'.calls = st.calls ++ more) (h : H) :
    st'.callsOf h = st.callsOf h ++ (more.filter fun c => c.1 = h).map Prod.snd := by
  rw [AioState.callsOf, hcalls, List.filter_append, List.map_append, ← AioState.callsOf]

/-- A completion of a request that is not being aborted. -/
theorem Consumed.deliver (h : Consumed env ioHandles start done st) (hring : st.ring = c :: ring)
    (hc : c.1 ∉ ioHandles) :
    Consumed env ioHandles start (done ++ [c]) (env.deliver { st with ring } c) := by
  have hne {x : H} (hx : x ∈ ioHandles) : c.1 ≠ x := fun heq => hc (heq ▸ hx)
  have hcalls (x : H) := @callsOf_append _ _ st (env.deliver { st with ring } c)
    [(c.1, env.finishedRequest c)] rfl x
  refine ⟨by rw [h.ring, hring]; simp [AioEnv.deliver], fun x hx => ?_, fun x hx => ?_,
    fun x hx => ?_, fun x hx => ?_, fun x hx => ?_⟩
  · rw [completionsOf_concat_ne done (hne hx)]
    exact h.reqCount x hx
  · rw [completionsOf_concat_ne done (hne hx), ← h.ownFinished x hx]
    exact Function.update_of_ne (hne hx).symm _ _
  · rw [completionsOf_concat_ne done (hne hx), ← h.ownCalls x hx, hcalls]
    simp [hne hx]
  · show Function.update st.isFinished c.1 true x = _
    by_cases heq : c.1 = x
    · subst heq
      simp [completionsOf_concat_self]
    · rw [completionsOf_concat_ne done heq, ← h.otherFinished x hx,
        Function.update_of_ne (Ne.symm heq)]
  · rw [hcalls, h.otherCalls x hx, List.filter_append, List.map_append]
    congr 1
    by_cases heq : c.1 = x <;> simp [heq]

theorem Consumed.completionsOf_le (h : Consumed env ioHandles start done st) (x : H) :
    completionsOf done x ≤ completionsOf start.ring x := by
  rw [h.ring, completionsOf_append]
  omega

section Own

variable (hs : start.Submitted env ioHandles)
include hs

/-- A handle that is being aborted was unfinished, and not all its completions
are consumed while one is left. -/
theorem Consumed.reqCount_eq (h : Consumed env ioHandles start done st)
    (hring : st.ring = c :: ring) (hc : c.1 ∈ ioHandles) :
    st.reqCount c.1 = completionsOf done c.1 ∧ completionsOf done c.1 ≤ 1 ∧
      start.isFinished c.1 = false := by
  have htotal : completionsOf start.ring c.1 =
      completionsOf done c.1 + (completionsOf ring c.1 + 1) := by
    rw [h.ring, hring, completionsOf_append]
    simp [completionsOf]
  have hopen : start.isFinished c.1 = false := by
    cases hfinished : start.isFinished c.1 with
    | false => rfl
    | true =>
        have := hs.never c.1 hc hfinished
        omega
  have htwice := hs.twice c.1 hc hopen
  rw [h.reqCount c.1 hc, hs.uncounted c.1 hc hopen]
  exact ⟨Nat.zero_add _, by omega, hopen⟩

theorem Consumed.count (h : Consumed env ioHandles start done st) (hring : st.ring = c :: ring)
    (hc : c.1 ∈ ioHandles) :
    Consumed env ioHandles start (done ++ [c]) (AioEnv.count { st with ring } c.1) := by
  obtain ⟨hcount, hle, hopen⟩ := h.reqCount_eq hs hring hc
  have hne {x : H} (hx : x ∉ ioHandles) : c.1 ≠ x := fun heq => hx (heq ▸ hc)
  have hfilter {x : H} (hx : x ∉ ioHandles) :
      ((done ++ [c]).filter fun d => d.1 = x) = done.filter fun d => d.1 = x := by
    simp [List.filter_append, hne hx]
  have hcalls (x : H) := callsOf_append (AioEnv.count_calls { st with ring } c.1) x
  have hdone := completionsOf_concat_self done c
  refine ⟨by rw [h.ring, hring, AioEnv.count_ring]; simp, fun x hx => ?_, fun x hx => ?_,
    fun x hx => ?_, fun x hx => ?_, fun x hx => ?_⟩
  · rw [AioEnv.count_reqCount]
    by_cases heq : c.1 = x
    · subst heq
      rw [Function.update_self, hdone, hs.uncounted c.1 hc hopen, Nat.zero_add]
      exact congrArg (· + 1) hcount
    · rw [Function.update_of_ne (Ne.symm heq), completionsOf_concat_ne done heq]
      exact h.reqCount x hx
  · rw [AioEnv.count_isFinished]
    by_cases heq : c.1 = x
    · subst heq
      have hbefore := h.ownFinished c.1 hc
      rw [hopen] at hbefore ⊢
      have hnot : completionsOf done c.1 ≠ 2 := by omega
      simp only [Function.update_self, hbefore, hcount, hdone, hnot, decide_false, Bool.or_false]
    · rw [Function.update_of_ne (Ne.symm heq), completionsOf_concat_ne done heq]
      exact h.ownFinished x hx
  · rw [hcalls]
    have hbefore := h.ownCalls x hx
    by_cases heq : c.1 = x
    · subst heq
      have hnot : completionsOf done c.1 ≠ 2 := by omega
      rw [if_neg hnot] at hbefore
      show st.callsOf c.1 ++ _ = _
      rw [hbefore, hdone, List.nil_append]
      simp only [hcount]
      split <;> simp
    · rw [completionsOf_concat_ne done heq, ← hbefore]
      show st.callsOf x ++ _ = _
      split <;> simp [heq]
  · rw [AioEnv.count_isFinished, Function.update_of_ne (hne hx).symm,
      completionsOf_concat_ne done (hne hx)]
    exact h.otherFinished x hx
  · rw [hcalls, hfilter hx, ← h.otherCalls x hx]
    show st.callsOf x ++ _ = _
    split <;> simp [hne hx]

/-! ### The loops -/

/-- A handle waited for has a completion left: the wait ends. -/
theorem waitFor_spec (h : Consumed env ioHandles start done st) {target : H}
    (ht : target ∈ ioHandles) (hopen : st.isFinished target = false) :
    ∃ more st', env.waitFor ioHandles target st.ring st = some (.ok, st') ∧
      Consumed env ioHandles start (done ++ more) st' ∧ st'.isFinished target = true := by
  induction hring : st.ring generalizing done st with
  | nil =>
      have hfinished := h.ownFinished target ht
      rw [hopen, eq_comm, Bool.or_eq_false_iff] at hfinished
      have hall : start.ring = done := by rw [h.ring, hring, List.append_nil]
      have htwice := hs.twice target ht hfinished.1
      rw [hall] at htwice
      simp [htwice] at hfinished
  | cons c ring ih =>
      have hthread : (env.handle c.1).iu = env.iu := hs.thread c (by rw [h.ring, hring]; simp)
      rw [AioEnv.waitFor]
      simp only [hthread, ne_eq, not_true_eq_false, if_false]
      by_cases hc : c.1 ∈ ioHandles
      · have hnext := h.count hs hring hc
        rw [if_neg (not_not.2 hc)]
        by_cases hlast : st.reqCount c.1 + 1 = 2 ∧ c.1 = target
        · refine ⟨[c], _, if_pos hlast, hnext, ?_⟩
          rw [AioEnv.count_isFinished, hlast.2, Function.update_self]
          simp [← hlast.2, hlast.1]
        · have hopen' : (AioEnv.count { st with ring } c.1).isFinished target = false := by
            rw [AioEnv.count_isFinished]
            by_cases heq : c.1 = target
            · have hne : ¬st.reqCount c.1 + 1 = 2 := fun h2 => hlast ⟨h2, heq⟩
              rw [heq, Function.update_self]
              simpa [← heq, hne] using heq ▸ hopen
            · rw [Function.update_of_ne (Ne.symm heq)]
              exact hopen
          obtain ⟨more, st', hwait, hconsumed, hfinished⟩ :=
            ih hnext hopen' (AioEnv.count_ring _ _)
          refine ⟨c :: more, st', ?_, by simpa using hconsumed, hfinished⟩
          rw [if_neg hlast, hwait]
      · have hnext := h.deliver hring hc
        have hopen' : (env.deliver { st with ring } c).isFinished target = false := by
          have hne : target ≠ c.1 := fun heq => hc (heq ▸ ht)
          exact (Function.update_of_ne hne _ _).trans hopen
        obtain ⟨more, st', hwait, hconsumed, hfinished⟩ := ih hnext hopen' rfl
        refine ⟨c :: more, st', ?_, by simpa using hconsumed, hfinished⟩
        rw [if_pos hc, hwait]

/-- What is finished stays finished. -/
theorem Consumed.isFinished_mono {st' : AioState H} {more : List (Completion H)} {x : H}
    (h : Consumed env ioHandles start done st)
    (h' : Consumed env ioHandles start (done ++ more) st') (hx : x ∈ ioHandles)
    (hfinished : st.isFinished x = true) : st'.isFinished x = true := by
  rw [h.ownFinished x hx] at hfinished
  rw [h'.ownFinished x hx]
  cases hstart : start.isFinished x with
  | true => rfl
  | false =>
      have htwice := hs.twice x hx hstart
      have hle := h'.completionsOf_le x
      have hdone : completionsOf done x = 2 := by simpa [hstart] using hfinished
      rw [completionsOf_append] at hle ⊢
      simp only [Bool.false_or, decide_eq_true_eq]
      omega

theorem abortFrom_spec {handles : List H} (hsub : ∀ x ∈ handles, x ∈ ioHandles)
    (h : Consumed env ioHandles start done st) :
    ∃ more st', env.abortFrom ioHandles handles st = some (.ok, st') ∧
      Consumed env ioHandles start (done ++ more) st' ∧
      ∀ x ∈ handles, st'.isFinished x = true := by
  induction handles generalizing done st with
  | nil => exact ⟨[], st, rfl, by simpa using h, by simp⟩
  | cons x rest ih =>
      rw [List.forall_mem_cons] at hsub
      rw [AioEnv.abortFrom]
      by_cases hfinished : st.isFinished x = true
      · obtain ⟨more, st', hloop, hconsumed, hrest⟩ := ih hsub.2 h
        refine ⟨more, st', ?_, hconsumed, List.forall_mem_cons.2 ⟨?_, hrest⟩⟩
        · rw [if_pos hfinished, hloop]
        · exact h.isFinished_mono hs hconsumed hsub.1 hfinished
      · obtain ⟨more, mid, hwait, hmid, hx⟩ :=
          waitFor_spec hs h hsub.1 (Bool.not_eq_true _ ▸ hfinished)
        obtain ⟨more', st', hloop, hconsumed, hrest⟩ := ih hsub.2 hmid
        refine ⟨more ++ more', st', ?_, by rwa [← List.append_assoc],
          List.forall_mem_cons.2 ⟨hmid.isFinished_mono hs hconsumed hsub.1 hx, hrest⟩⟩
        rw [if_neg hfinished, hwait]
        exact hloop

end Own

theorem consumed_nil (hcalls : st.calls = []) : Consumed env ioHandles st [] st := by
  refine ⟨rfl, fun _ _ => rfl, fun _ _ => ?_, fun _ _ => ?_, fun _ _ => ?_, fun _ _ => ?_⟩ <;>
    simp [completionsOf, AioState.callsOf, hcalls]

theorem filter_eq_singleton {x : H} (hc : c ∈ done) (hx : c.1 = x)
    (hle : completionsOf done x ≤ 1) : (done.filter fun d => d.1 = x) = [c] := by
  have hmem : c ∈ done.filter fun d => d.1 = x := List.mem_filter.2 ⟨hc, by simpa using hx⟩
  have hlen : (done.filter fun d => d.1 = x).length ≤ 1 := by
    rw [← List.countP_eq_length_filter]
    rw [completionsOf, List.count, List.countP_map] at hle
    refine Nat.le_trans (Nat.le_of_eq (List.countP_congr fun d _ => ?_)) hle
    simp
  obtain ⟨d, hd⟩ := List.length_eq_one_iff.1 (Nat.le_antisymm hlen (List.length_pos_of_mem hmem))
  rw [hd] at hmem ⊢
  rw [List.mem_singleton.1 hmem]

end Step

/-- A wait that is over: every handle of `ioHandles` is finished, each that was
not is told once that it was aborted, and each other request whose completion
was consumed is finished and told once its own result. -/
structure Aborted (env : AioEnv H) (ioHandles : List H) (start : AioState H)
    (consumed : List (Completion H)) (st : AioState H) : Prop where
  ring : start.ring = consumed ++ st.ring
  finished : ∀ h ∈ ioHandles, st.isFinished h = true
  aborted : ∀ h ∈ ioHandles, st.callsOf h =
    if start.isFinished h then [] else [{ status := .aborted }]
  delivered : ∀ c ∈ consumed, c.1 ∉ ioHandles →
    st.isFinished c.1 = true ∧ st.callsOf c.1 = [env.finishedRequest c]
  untouched : ∀ h ∉ ioHandles, (∀ c ∈ consumed, c.1 ≠ h) →
    st.isFinished h = start.isFinished h ∧ st.callsOf h = []

/-- Two handles to abort, and a prefetch whose completion comes first. -/
def twoAborts : AioState (Fin 4) where
  isFinished h := h = 3
  reqCount _ := 0
  ring := [(2, 7), (1, 0), (1, -125), (0, 5), (0, -2)]

def plainEnv : AioEnv (Fin 4) where
  handle _ := ⟨0, 0, 0, 8, 8, false, 1⟩
  iu := 0
  updateResult res _ _ _ _ req := { req with result := (req.scratch, res.toNatClampNeg) }

end BitLSM
