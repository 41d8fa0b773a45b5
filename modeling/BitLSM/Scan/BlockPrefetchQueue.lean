import BitLSM.Lib.Transition
import BitLSM.Scan.TableIterator

/-!
The block prefetch queue of a scan.

The queue keeps the reads of the next `depth` target blocks in flight. Slot `i`
serves the targets `i`, `i + depth`, `i + 2 * depth` and so on: a submission
takes the slot over, and whatever its buffer held is gone. `BufferFor` may be
called for any target, so a slot's owner depends on all calls before.

Positions in the target list are below the size of a vector, so their sums with
the depth do not wrap and are numbers.
-/

namespace BitLSM

/-! ### The slots -/

/-- What `PrefetchAsync` answers. -/
inductive AsyncStatus where
  | ok
  /-- Submitted and in flight. -/
  | tryAgain
  | notSupported
  | failed
  deriving DecidableEq, Repr

/-- What one submission meets. -/
structure SubmitEnv where
  /-- What other threads have made of the process-wide flag meanwhile. -/
  flag : Option Bool := none
  inBlockCache : Bool := false
  /-- Whether `PrepareIOOptions` succeeds. -/
  preparesIO : Bool := true
  prefetchAsync : AsyncStatus := .tryAgain

structure FilePrefetchBuffer where
  /-- Offset and length of the last `PrefetchAsync`. -/
  requested : Option (UInt64 × UInt64) := none
  deriving DecidableEq, Repr

/-- `BlockSizeWithTrailer` adds the five bytes of the trailer. -/
def blockRequest (handle : BlockHandle) : UInt64 × UInt64 := (handle.1, handle.2 + 5)

def kNoTarget : ℕ := 2 ^ 64 - 1

namespace BlockPrefetchQueue

structure Slot where
  buf : Option FilePrefetchBuffer := none
  target : ℕ := kNoTarget
  submitted : Bool := false

namespace Slot

/-- The slot is taken over, and its buffer kept. -/
def claim (slot : Slot) (target : ℕ) : Slot := { slot with target, submitted := false }

/-- The buffer is created on its first use. -/
def createBuffer (slot : Slot) : Slot := { slot with buf := some (slot.buf.getD {}) }

def prefetchAsync (slot : Slot) (handle : BlockHandle) (status : AsyncStatus) : Slot :=
  { slot with
    buf := slot.buf.map fun _ => { requested := some (blockRequest handle) }
    submitted := status = .ok ∨ status = .tryAgain }

/-- The slot was last taken over for the target `t`, and the read it has
submitted is that of the target's block. -/
structure Holds (targets : List TargetBlock) (t : ℕ) (slot : Slot) : Prop where
  target : slot.target = t
  request : slot.submitted = true → ∃ b block, slot.buf = some b ∧ targets[t]? = some block ∧
    b.requested = some (blockRequest block.handle)

theorem holds_of_not_submitted {targets : List TargetBlock} {t : ℕ} {slot : Slot}
    (htarget : slot.target = t) (h : slot.submitted = false) : slot.Holds targets t where
  target := htarget
  request := by
    intro hsub
    simp [h] at hsub

theorem holds_prefetchAsync {targets : List TargetBlock} {t : ℕ} {block : TargetBlock}
    (slot : Slot) (hblock : targets[t]? = some block) (status : AsyncStatus) :
    ((slot.claim t).createBuffer.prefetchAsync block.handle status).Holds targets t where
  target := rfl
  request := fun _ => ⟨_, block, rfl, hblock, rfl⟩

end Slot

end BlockPrefetchQueue

/-! ### The queue -/

structure BlockPrefetchQueue where
  slots : List BlockPrefetchQueue.Slot
  /-- The list `Prepare` bound the queue to. -/
  targets : Option (List TargetBlock) := none
  nextSubmit : ℕ := 0
  /-- The process-wide flag. -/
  asyncUnavailable : Bool := false
  /-- The process-wide counter of blocks read out of a buffer. -/
  served : UInt64 := 0
  /-- Submissions so far, of all target lists. -/
  moment : ℕ := 0
  /-- The targets submitted since `Prepare`, for the statements only. -/
  log : List ℕ := []

namespace BlockPrefetchQueue

def new (depth : UInt32) : BlockPrefetchQueue := { slots := List.replicate depth.toNat {} }

/-- The answer of the environment, and what it leaves in the flag. -/
def submitSlot (env : SubmitEnv) (targets : List TargetBlock) (targetIdx : ℕ) (unavailable : Bool)
    (slot : Slot) : Option (Slot × Bool) :=
  if unavailable then some (slot.claim targetIdx, unavailable)
  else do
    let block ← targets[targetIdx]?
    -- Prefetching a cached block is wasted I/O.
    if env.inBlockCache then return (slot.claim targetIdx, unavailable)
    if !env.preparesIO then return ((slot.claim targetIdx).createBuffer, unavailable)
    return ((slot.claim targetIdx).createBuffer.prefetchAsync block.handle env.prefetchAsync,
      env.prefetchAsync = .notSupported)

/-- The slot after its submission is back in its place. -/
def record (q : BlockPrefetchQueue) (targetIdx : ℕ) (slot : Slot) (unavailable : Bool) :
    BlockPrefetchQueue :=
  { q with
    slots := q.slots.set (targetIdx % q.slots.length) slot
    asyncUnavailable := unavailable
    moment := q.moment + 1
    log := q.log ++ [targetIdx] }

/-- `none` is an access beyond the slots or the target list. -/
def submit (env : ℕ → SubmitEnv) (targets : List TargetBlock) (targetIdx : ℕ)
    (q : BlockPrefetchQueue) : Option BlockPrefetchQueue := do
  let slot ← q.slots[targetIdx % q.slots.length]?
  let unavailable := (env q.moment).flag.getD q.asyncUnavailable
  let (slot, unavailable) ← submitSlot (env q.moment) targets targetIdx unavailable slot
  return q.record targetIdx slot unavailable

/-- `n` turns of the loop of `TopUp`. -/
def submitNext (env : ℕ → SubmitEnv) (targets : List TargetBlock) :
    ℕ → BlockPrefetchQueue → Option BlockPrefetchQueue
  | 0, q => some q
  | n + 1, q => do
      let q ← submit env targets q.nextSubmit q
      submitNext env targets n { q with nextSubmit := q.nextSubmit + 1 }

def topUp (env : ℕ → SubmitEnv) (idx : ℕ) (q : BlockPrefetchQueue) : Option BlockPrefetchQueue :=
  match q.targets with
  | none => some q
  | some targets =>
      if q.slots.isEmpty then some q
      else submitNext env targets (min (idx + q.slots.length) targets.length - q.nextSubmit) q

def prepare (env : ℕ → SubmitEnv) (targets : List TargetBlock) (q : BlockPrefetchQueue) :
    Option BlockPrefetchQueue :=
  topUp env 0 { q with targets := some targets, nextSubmit := 0, log := [] }

/-- The buffer of the slot, if the slot is the target's. -/
def serve (idx : ℕ) (q : BlockPrefetchQueue) :
    Option (Option FilePrefetchBuffer × BlockPrefetchQueue) := do
  let slot ← q.slots[idx % q.slots.length]?
  if slot.target ≠ idx ∨ !slot.submitted then return (none, q)
  return (slot.buf, { q with served := q.served + 1 })

def bufferFor (env : ℕ → SubmitEnv) (idx : ℕ) (q : BlockPrefetchQueue) :
    Option (Option FilePrefetchBuffer × BlockPrefetchQueue) :=
  match q.targets with
  | none => some (none, q)
  | some targets =>
      if q.slots.isEmpty ∨ targets.length ≤ idx then some (none, q)
      else (topUp env idx q).bind (serve idx)

/-- The queue after calls of `BufferFor`, in order. -/
def callAll (env : ℕ → SubmitEnv) (q : BlockPrefetchQueue) (calls : List ℕ) :
    Option BlockPrefetchQueue :=
  Transition.run (fun idx q => (bufferFor env idx q).map Prod.snd) q calls

/-- The target slot `i` was last taken over for. -/
def lastSubmission (q : BlockPrefetchQueue) (i : ℕ) : Option ℕ :=
  (q.log.filter (· % q.slots.length = i)).getLast?

/-! ### Who owns a slot -/

/-- What holds from `Prepare` on. -/
structure Prepared (depth : ℕ) (targets : List TargetBlock) (q : BlockPrefetchQueue) : Prop where
  length_slots : q.slots.length = depth
  bound_to : q.targets = some targets
  log : q.log = List.range q.nextSubmit
  next_le : q.nextSubmit ≤ targets.length
  owned : ∀ i t, q.lastSubmission i = some t →
    ∃ slot, q.slots[i]? = some slot ∧ slot.Holds targets t

theorem submitSlot_holds (env : SubmitEnv) {targets : List TargetBlock} {t : ℕ}
    (ht : t < targets.length) (unavailable : Bool) (slot : Slot) :
    ∃ slot' flag, submitSlot env targets t unavailable slot = some (slot', flag) ∧
      slot'.Holds targets t := by
  have hblock : targets[t]? = some targets[t] := List.getElem?_eq_getElem ht
  unfold submitSlot
  split
  · exact ⟨_, _, rfl, Slot.holds_of_not_submitted rfl rfl⟩
  · simp only [hblock, Option.bind_eq_bind, Option.bind_some, Option.pure_def]
    split
    · exact ⟨_, _, rfl, Slot.holds_of_not_submitted rfl rfl⟩
    · split
      · exact ⟨_, _, rfl, Slot.holds_of_not_submitted rfl rfl⟩
      · exact ⟨_, _, rfl, Slot.holds_prefetchAsync slot hblock _⟩

/-- The next target in order is submitted, and its slot is now that target's. -/
theorem Prepared.submit (env : ℕ → SubmitEnv) {depth : ℕ} {targets : List TargetBlock}
    {q : BlockPrefetchQueue} (h : Prepared depth targets q) (hdepth : 0 < depth)
    (hnext : q.nextSubmit < targets.length) :
    ∃ q', submit env targets q.nextSubmit q = some q' ∧ q'.nextSubmit = q.nextSubmit ∧
      Prepared depth targets { q' with nextSubmit := q'.nextSubmit + 1 } := by
  have hi : q.nextSubmit % q.slots.length < q.slots.length :=
    Nat.mod_lt _ (h.length_slots.symm ▸ hdepth)
  obtain ⟨slot, flag, hslot, hholds⟩ := submitSlot_holds (env q.moment) hnext
    ((env q.moment).flag.getD q.asyncUnavailable) (q.slots[q.nextSubmit % q.slots.length])
  have hsubmit : BlockPrefetchQueue.submit env targets q.nextSubmit q =
      some (q.record q.nextSubmit slot flag) := by
    simp only [BlockPrefetchQueue.submit, List.getElem?_eq_getElem hi, hslot, Option.bind_eq_bind,
      Option.bind_some, Option.pure_def]
  refine ⟨_, hsubmit, rfl, ?_⟩
  constructor
  · exact (List.length_set).trans h.length_slots
  · exact h.bound_to
  · simp only [record, h.log, List.range_succ]
  · exact hnext
  · intro i t hlast
    simp only [record, lastSubmission, List.length_set, List.filter_append] at hlast
    by_cases heq : q.nextSubmit % q.slots.length = i
    · -- the slot just taken over
      simp only [List.filter_cons, heq, decide_true, if_true, List.filter_nil,
        List.getLast?_append, List.getLast?_singleton, Option.some_or, Option.some.injEq] at hlast
      subst hlast heq
      exact ⟨slot, List.getElem?_set_self hi, hholds⟩
    · simp only [List.filter_cons, heq, decide_false, Bool.false_eq_true, if_false,
        List.filter_nil, List.append_nil] at hlast
      obtain ⟨old, hold, howned⟩ := h.owned i t hlast
      exact ⟨old, (List.getElem?_set_ne heq).trans hold, howned⟩

theorem Prepared.submitNext (env : ℕ → SubmitEnv) {depth : ℕ} {targets : List TargetBlock}
    (hdepth : 0 < depth) {n : ℕ} {q : BlockPrefetchQueue} (h : Prepared depth targets q)
    (hn : q.nextSubmit + n ≤ targets.length) :
    ∃ q', submitNext env targets n q = some q' ∧ Prepared depth targets q' ∧
      q'.nextSubmit = q.nextSubmit + n := by
  induction n generalizing q with
  | zero => exact ⟨q, rfl, h, rfl⟩
  | succ n ih =>
      obtain ⟨mid, hmid, hnext, hprepared⟩ := h.submit env hdepth (by omega)
      obtain ⟨q', hq', hq'prepared, hq'next⟩ := ih hprepared (by simp only [hnext]; omega)
      refine ⟨q', ?_, hq'prepared, ?_⟩
      · simp only [BlockPrefetchQueue.submitNext, hmid, Option.bind_eq_bind, Option.bind_some]
        exact hq'
      · simp only [hnext] at hq'next
        omega

/-- The window ahead of `idx` is submitted, and nothing beyond it. -/
theorem Prepared.topUp (env : ℕ → SubmitEnv) {depth : ℕ} {targets : List TargetBlock}
    {q : BlockPrefetchQueue} (h : Prepared depth targets q) (hdepth : 0 < depth) (idx : ℕ) :
    ∃ q', topUp env idx q = some q' ∧ Prepared depth targets q' ∧
      q'.nextSubmit = max q.nextSubmit (min (idx + depth) targets.length) := by
  have hne : q.slots.isEmpty = false := by
    rw [List.isEmpty_eq_false_iff_exists_mem, ← List.length_pos_iff_exists_mem, h.length_slots]
    exact hdepth
  have hbound := h.next_le
  obtain ⟨q', hq', hprepared, hnext⟩ := h.submitNext env hdepth
    (n := min (idx + depth) targets.length - q.nextSubmit) (by omega)
  refine ⟨q', ?_, hprepared, by omega⟩
  simp only [BlockPrefetchQueue.topUp, h.bound_to, hne, Bool.false_eq_true, if_false,
      h.length_slots]
  exact hq'

theorem prepare_prepared (env : ℕ → SubmitEnv) (targets : List TargetBlock)
    (q : BlockPrefetchQueue) :
    ∃ q', prepare env targets q = some q' ∧ Prepared q.slots.length targets q' ∧
      q'.nextSubmit ≤ q.slots.length := by
  have hstart : Prepared q.slots.length targets
      { q with targets := some targets, nextSubmit := 0, log := [] } :=
    ⟨rfl, rfl, rfl, Nat.zero_le _, by simp [lastSubmission]⟩
  by_cases hdepth : 0 < q.slots.length
  · obtain ⟨q', hq', hprepared, hnext⟩ := hstart.topUp env hdepth 0
    exact ⟨q', hq', hprepared, by simp only at hnext; omega⟩
  · have hnil : q.slots = [] := List.length_eq_zero_iff.1 (by omega)
    have hprepare : prepare env targets q =
        some { q with targets := some targets, nextSubmit := 0, log := [] } := by
      simp only [prepare, topUp, hnil, List.isEmpty_nil, if_true]
    exact ⟨_, hprepare, hstart, Nat.zero_le _⟩

/-- Serving a target changes the counter alone, and the buffer is that of a
slot the target owns. -/
theorem Prepared.serve {depth : ℕ} {targets : List TargetBlock} {q : BlockPrefetchQueue}
    (h : Prepared depth targets q) (hdepth : 0 < depth) (idx : ℕ) :
    ∃ buffer q', serve idx q = some (buffer, q') ∧ Prepared depth targets q' ∧
      q'.nextSubmit = q.nextSubmit ∧
      ∀ b, buffer = some b → ∃ slot, q'.slots[idx % depth]? = some slot ∧ slot.buf = some b ∧
        slot.target = idx ∧ slot.submitted = true := by
  have hi : idx % q.slots.length < q.slots.length := Nat.mod_lt _ (h.length_slots.symm ▸ hdepth)
  simp only [BlockPrefetchQueue.serve, List.getElem?_eq_getElem hi, Option.bind_eq_bind,
    Option.bind_some, Option.pure_def]
  split
  · exact ⟨none, q, rfl, h, rfl, by simp⟩
  · rename_i hslot
    simp only [ne_eq, Bool.not_eq_true, not_or, not_not, Bool.not_eq_false'] at hslot
    refine ⟨_, _, rfl, ⟨h.length_slots, h.bound_to, h.log, h.next_le, h.owned⟩, rfl, ?_⟩
    intro b hb
    exact ⟨_, h.length_slots ▸ List.getElem?_eq_getElem hi, hb, hslot.1, by simpa using hslot.2⟩

/-- One call: the window moves up to the target, and a buffer comes from a slot
the target owns. -/
theorem Prepared.bufferFor (env : ℕ → SubmitEnv) {depth : ℕ} {targets : List TargetBlock}
    {q : BlockPrefetchQueue} (h : Prepared depth targets q) (idx : ℕ) :
    ∃ buffer q', bufferFor env idx q = some (buffer, q') ∧ Prepared depth targets q' ∧
      q'.nextSubmit = max q.nextSubmit
        (if depth = 0 ∨ targets.length ≤ idx then 0 else min (idx + depth) targets.length) ∧
      ∀ b, buffer = some b → idx < q'.nextSubmit ∧ ∃ slot, q'.slots[idx % depth]? = some slot ∧
        slot.buf = some b ∧ slot.target = idx ∧ slot.submitted = true := by
  have hempty : q.slots.isEmpty = true ↔ depth = 0 := by
    rw [List.isEmpty_iff_length_eq_zero, h.length_slots]
  simp only [BlockPrefetchQueue.bufferFor, h.bound_to, hempty]
  split
  · exact ⟨none, q, rfl, h, (Nat.max_zero _).symm, by simp⟩
  · rename_i hcall
    obtain ⟨mid, hmid, hprepared, hnext⟩ := h.topUp env (by omega) idx
    obtain ⟨buffer, q', hserve, hq', hq'next, hslot⟩ := hprepared.serve (by omega) idx
    refine ⟨buffer, q', by rw [hmid]; exact hserve, hq', hq'next.trans hnext, ?_⟩
    intro b hb
    exact ⟨by omega, hslot b hb⟩

theorem Prepared.callAll (env : ℕ → SubmitEnv) {depth : ℕ} {targets : List TargetBlock}
    {q : BlockPrefetchQueue} (h : Prepared depth targets q) (calls : List ℕ) :
    ∃ q', callAll env q calls = some q' ∧ Prepared depth targets q' := by
  induction calls generalizing q with
  | nil => exact ⟨q, rfl, h⟩
  | cons idx calls ih =>
      obtain ⟨buffer, mid, hmid, hprepared, -⟩ := h.bufferFor env idx
      obtain ⟨q', hq', hq'prepared⟩ := ih hprepared
      refine ⟨q', ?_, hq'prepared⟩
      simp only [BlockPrefetchQueue.callAll, Transition.run_cons, hmid, Option.map_some,
        Option.bind_some]
      exact hq'

/-! ### The window of a forward scan -/

/-- While the calls go forward, nothing is submitted beyond the window of the
next call. -/
theorem Prepared.callAll_forward {env : ℕ → SubmitEnv} {depth : ℕ} {targets : List TargetBlock}
    {q q' : BlockPrefetchQueue} {calls : List ℕ} {idx : ℕ} (h : Prepared depth targets q)
    (hstart : q.nextSubmit ≤ depth) (hforward : (calls ++ [idx]).Pairwise (· ≤ ·))
    (hcalls : BlockPrefetchQueue.callAll env q calls = some q') : q'.nextSubmit ≤ idx + depth := by
  -- Everything submitted so far lies in the window of each call still to come.
  have key := Transition.run_induction
    (P := fun rest q => Prepared depth targets q ∧ (rest ++ [idx]).Pairwise (· ≤ ·) ∧
      ∀ c ∈ rest ++ [idx], q.nextSubmit ≤ c + depth) ?_
    ⟨h, hforward, fun c _ => by omega⟩ hcalls
  · exact key.2.2 idx (by simp)
  · rintro c rest q q' ⟨hq, hpair, hbound⟩ hstep
    obtain ⟨buffer, next, hnext, hprepared, hsubmit, -⟩ := hq.bufferFor env c
    simp only [hnext, Option.map_some, Option.some.injEq] at hstep
    subst hstep
    simp only [List.cons_append, List.pairwise_cons, List.mem_cons, forall_eq_or_imp]
      at hpair hbound
    refine ⟨hprepared, hpair.2, fun d hd => ?_⟩
    have hle := hpair.1 d hd
    have hd' := hbound.2 d hd
    rw [hsubmit]
    split <;> omega

theorem mod_ne_of_lt_add {t n depth : ℕ} (htn : t < n) (hn : n < t + depth) :
    n % depth ≠ t % depth := by
  intro h
  have hzero := Nat.sub_mod_eq_zero_of_mod_eq h
  rw [Nat.mod_eq_of_lt (by omega)] at hzero
  omega

/-- A target keeps its slot as long as the window has not moved past it. -/
theorem Prepared.lastSubmission_eq {depth : ℕ} {targets : List TargetBlock}
    {q : BlockPrefetchQueue} (h : Prepared depth targets q) {t : ℕ} (ht : t < q.nextSubmit)
    (hwindow : q.nextSubmit ≤ t + depth) : q.lastSubmission (t % depth) = some t := by
  simp only [lastSubmission, h.log, h.length_slots]
  obtain ⟨n, hn⟩ : ∃ n, q.nextSubmit = t + 1 + n := ⟨_, (Nat.add_sub_of_le ht).symm⟩
  rw [hn] at hwindow ⊢
  clear hn ht
  induction n with
  | zero => simp [List.range_succ]
  | succ n ih =>
      have hne : (t + 1 + n) % depth ≠ t % depth := mod_ne_of_lt_add (by omega) (by omega)
      rw [← Nat.add_assoc, List.range_succ, List.filter_append]
      simp only [List.filter_cons, hne, decide_false, Bool.false_eq_true, if_false,
        List.filter_nil, List.append_nil]
      exact ih (by omega)

/-- Every submission since `Prepare` is remembered by its slot. -/
theorem Prepared.target_eq {depth : ℕ} {targets : List TargetBlock} {q : BlockPrefetchQueue}
    (h : Prepared depth targets q) {i t : ℕ} {slot : Slot} (ht : q.lastSubmission i = some t)
    (hslot : q.slots[i]? = some slot) : slot.Holds targets t := by
  obtain ⟨owner, howner, hholds⟩ := h.owned i t ht
  obtain rfl : slot = owner := Option.some.inj (hslot.symm.trans howner)
  exact hholds

/-- A submitted target's slot has a last submission. -/
theorem Prepared.exists_lastSubmission {depth : ℕ} {targets : List TargetBlock}
    {q : BlockPrefetchQueue} (h : Prepared depth targets q) {t : ℕ} (ht : t < q.nextSubmit) :
    ∃ last, q.lastSubmission (t % depth) = some last := by
  apply Option.isSome_iff_exists.1
  have hmem : t ∈ q.log.filter (· % q.slots.length = t % depth) := by
    simp [h.log, h.length_slots, ht]
  rw [lastSubmission, List.getLast?_isSome]
  exact List.ne_nil_of_mem hmem

/-- Whatever the calls after `Prepare`, targets are submitted once and in
order, and a buffer that is handed out belongs to a slot whose last submission
was for the target asked for: its last request is the target's block. While the
calls go forward, each slot of the window is still that of its target. -/
theorem bufferFor_serves_own_target (env : ℕ → SubmitEnv) (start : BlockPrefetchQueue)
    (targets : List TargetBlock) (calls : List ℕ) (idx : ℕ) :
    ∃ q buffer q', (start.prepare env targets).bind (fun q => q.callAll env calls) = some q ∧
      q.bufferFor env idx = some (buffer, q') ∧
      q'.log.Pairwise (· < ·) ∧
      (∀ b, buffer = some b → q'.lastSubmission (idx % start.slots.length) = some idx ∧
        ∃ slot block, q'.slots[idx % start.slots.length]? = some slot ∧ slot.buf = some b ∧
          slot.target = idx ∧ targets[idx]? = some block ∧
          b.requested = some (blockRequest block.handle)) ∧
      ((calls ++ [idx]).Pairwise (· ≤ ·) →
        (∀ t ∈ q'.log, t < idx + start.slots.length) ∧
        ∀ t, idx ≤ t → t < min (idx + start.slots.length) targets.length →
          q'.lastSubmission (t % start.slots.length) = some t ∧
          ∃ slot, q'.slots[t % start.slots.length]? = some slot ∧ slot.target = t) := by
  obtain ⟨first, hfirst, hprepared, hstart⟩ := prepare_prepared env targets start
  obtain ⟨q, hq, hqprepared⟩ := hprepared.callAll env calls
  obtain ⟨buffer, q', hbuffer, hq', hnext, hserved⟩ := hqprepared.bufferFor env idx
  refine ⟨q, buffer, q', by rw [hfirst]; exact hq, hbuffer, ?_, ?_, ?_⟩
  · rw [hq'.log]
    exact List.pairwise_lt_range
  · intro b hb
    obtain ⟨hlt, slot, hslot, hbuf, htarget, hsubmitted⟩ := hserved b hb
    obtain ⟨last, hlast⟩ := hq'.exists_lastSubmission hlt
    have hholds := hq'.target_eq hlast hslot
    obtain rfl : last = idx := hholds.target.symm.trans htarget
    obtain ⟨c, block, hc, hblock, hrequest⟩ := hholds.request hsubmitted
    obtain rfl : c = b := Option.some.inj (hc.symm.trans hbuf)
    exact ⟨hlast, slot, block, hslot, hbuf, htarget, hblock, hrequest⟩
  · intro hforward
    have hahead := hprepared.callAll_forward hstart hforward hq
    have hwindow : q'.nextSubmit ≤ idx + start.slots.length := by
      rw [hnext]
      split <;> omega
    refine ⟨fun t ht => ?_, fun t hle hlt => ?_⟩
    · rw [hq'.log, List.mem_range] at ht
      omega
    · have hsubmitted : t < q'.nextSubmit := by
        rw [hnext, if_neg (by omega)]
        omega
      have hlast := hq'.lastSubmission_eq hsubmitted (by omega)
      obtain ⟨slot, hslot, hholds⟩ := hq'.owned _ t hlast
      exact ⟨hlast, slot, hslot, hholds.target⟩

/-- Three blocks of a table, with gaps between them. -/
def gappedTargets : List TargetBlock := [⟨0, (0, 15)⟩, ⟨2, (40, 15)⟩, ⟨3, (60, 15)⟩]

/-- A queue of depth two, asked for the first and then for the second block:
the slot of the first is the third's by then. -/
theorem bufferFor_serves_own_target_second :
    ∃ q b q', ((new 2).prepare (fun _ => {}) gappedTargets).bind
        (fun q => q.callAll (fun _ => {}) [0]) = some q ∧
      q.bufferFor (fun _ => {}) 1 = some (some b, q') ∧ b.requested = some (40, 20) ∧
      q'.lastSubmission 1 = some 1 ∧ q'.lastSubmission 0 = some 2 := by
  have hserved : ((((new 2).prepare (fun _ => {}) gappedTargets).bind
      (fun q => q.callAll (fun _ => {}) [0])).bind (fun q => q.bufferFor (fun _ => {}) 1)).map
        Prod.fst = some (some ⟨some (40, 20)⟩) := by decide
  obtain ⟨q, buffer, q', hq, hbuffer, -, hown, hwindow⟩ :=
    bufferFor_serves_own_target (fun _ => {}) (new 2) gappedTargets [0] 1
  rw [hq, Option.bind_some, hbuffer, Option.map_some, Option.some.injEq] at hserved
  obtain rfl : buffer = some ⟨some (40, 20)⟩ := hserved
  obtain ⟨-, hslots⟩ := hwindow (by decide)
  exact ⟨q, _, q', hq, hbuffer, rfl, (hown _ rfl).1, (hslots 2 (by decide) (by decide)).1⟩

end BlockPrefetchQueue

end BitLSM
