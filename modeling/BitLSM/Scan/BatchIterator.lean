import BitLSM.Lib.Transition
import BitLSM.Scan.Candidates
import BitLSM.Scan.QueryContext
import BitLSM.Scan.ShadowCheck

/-!
The iterator of a scan.

`FetchNextBatch` takes candidates off the merge and decides for each of them
whether its row is the answer: in candidate mode the keys alone are handed
out, in an authoritative scan the rows are, and otherwise a candidate that
the shadow check does not clear is looked up again. `seekToFirst_drains` says
what comes out of a scan: one verdict per user key of the merge, up to the
first failure.
-/

namespace BitLSM

open Wire

inductive ResultMode where
  | verified
  | candidate
  deriving DecidableEq, Repr

/-- What the iterator asks outside the merge. -/
structure BatchEnv where
  resultMode : ResultMode
  authoritativeScan : Bool
  compiled : Option CompiledQuery
  readSeqno : UInt64
  /-- The version as the `n`-th check finds it. -/
  lsmAt : ℕ → LsmState
  /-- The lookups of the checker, and the answers of the table cache to it. -/
  reads : RocksReads
  findTable : ℕ → UInt64 → Status
  /-- The answers of the `n`-th `MultiGet`, by key. -/
  multiGet : ℕ → Bytes → Except Failure Bytes

structure BatchIter (σ : Type) where
  merge : σ
  checkEnabled : Bool
  latest : Bytes := []
  batchKeys : List Bytes := []
  batchValues : List Bytes := []
  batchCurIdx : ℕ := 0
  valid : Bool := false
  status : Status := .ok
  checker : ShadowChecker := {}
  /-- How many checks were made, and how many `MultiGet` calls. -/
  checks : ℕ := 0
  gets : ℕ := 0
  checkedKeys : UInt64 := 0
  skippedKeys : UInt64 := 0
  skippedBatches : UInt64 := 0

/-- From this many checked keys on the check has to clear this share of them. -/
def kCheckSampleKeys : UInt64 := 4096

def kMinSkipRatePct : UInt64 := 25

/-! ### Verdicts -/

/-- What the shadow check is told about each candidate. -/
def Candidates.toCheck (c : Candidates) : List (Bytes × UInt64 × ℤ × UInt64 × Bool) :=
  c.keys.zip (c.seqnos.zip (c.srcLevels.zip (c.srcFiles.zip c.inFileShadowed)))

namespace BatchEnv

variable (env : BatchEnv)

/-- Which candidates are dirty. A row shadowed in its own file is not probed
for. -/
def judge : List (Bytes × UInt64 × ℤ × UInt64 × Bool) → ℕ → ShadowChecker →
    List Bool × ℕ × ShadowChecker
  | [], n, c => ([], n, c)
  | (key, seqno, level, file, shadowed) :: rest, n, c =>
      if shadowed then
        let (dirty, out) := judge rest n c
        (true :: dirty, out)
      else
        let (newer, c) := c.mayHaveNewerVersion env.reads env.findTable key seqno file
          env.readSeqno (env.lsmAt n) level
        let (dirty, out) := judge rest (n + 1) c
        (newer :: dirty, out)

/-- A dirty key in the `n`-th `MultiGet`: nothing if it is not found or the
query rejects it. -/
def fetch (n : ℕ) (key : Bytes) : Option (Except Failure (Option Bytes)) :=
  match env.multiGet n key with
  | .error ⟨.notFound _, _⟩ => some (.ok none)
  | .error failure => some (.error failure)
  | .ok value =>
      match env.compiled with
      | none => some (.ok (some value))
      | some cq => (cq.eval value).map fun b => .ok (if b then some value else none)

theorem fetch_congr {env env' : BatchEnv} {n : ℕ} {key : Bytes}
    (hget : env.multiGet n key = env'.multiGet n key) (hcompiled : env.compiled = env'.compiled) :
    env.fetch n key = env'.fetch n key := by
  rw [fetch, fetch, hget, hcompiled]

theorem fetch_notFound {n : ℕ} {key : Bytes} {msg : String} {h : Status.notFound msg ≠ .ok}
    (hget : env.multiGet n key = .error ⟨.notFound msg, h⟩) :
    env.fetch n key = some (.ok none) := by
  rw [fetch, hget]

theorem fetch_failed {n : ℕ} {key : Bytes} {failure : Failure}
    (hget : env.multiGet n key = .error failure) (hne : ∀ msg, failure.1 ≠ .notFound msg) :
    env.fetch n key = some (.error failure) := by
  rw [fetch, hget]
  split
  · next msg h heq => exact absurd (congrArg Subtype.val (Except.error.inj heq)) (hne msg)
  · next heq => rw [Except.error.inj heq]
  · next heq => cases heq

theorem fetch_found {n : ℕ} {key value : Bytes} (hget : env.multiGet n key = .ok value)
    {cq : CompiledQuery} (hcq : env.compiled = some cq) {b : Bool}
    (heval : cq.eval value = some b) :
    env.fetch n key = some (.ok (if b then some value else none)) := by
  rw [fetch, hget, hcq]
  simp only [heval, Option.map_some]

/-- The ordered merge: clean keys keep their scan row, dirty ones take the
verdict of the lookup. -/
def resolve (n : ℕ) : List Bytes → List Bytes → List Bool →
    Option (Except Failure (List (Bytes × Bytes)))
  | [], _, _ => some (.ok [])
  | _ :: _, _, [] => none
  | _ :: _, [], false :: _ => none
  | key :: keys, value :: values, false :: dirty =>
      (resolve n keys values dirty).map (Except.map ((key, value) :: ·))
  | key :: keys, values, true :: dirty =>
      (env.fetch n key).bind fun
        | .error failure => some (.error failure)
        | .ok none => resolve n keys values.tail dirty
        | .ok (some value) =>
            (resolve n keys values.tail dirty).map (Except.map ((key, value) :: ·))

end BatchEnv

/-! ### Batches -/

namespace BatchIter

variable {σ : Type} (env : BatchEnv) (m : MergeIter σ)

/-- The dirty candidates. The check turns itself off for good when it clears
too few. -/
def judgeAll (it : BatchIter σ) (c : Candidates) : List Bool × BatchIter σ :=
  if it.checkEnabled = true then
    let (dirty, checks, checker) := env.judge c.toCheck it.checks it.checker
    let checkedKeys := it.checkedKeys + UInt64.ofNat c.keys.length
    let skippedKeys := it.skippedKeys + UInt64.ofNat (c.keys.length - dirty.count true)
    let giveUp : Bool := decide (kCheckSampleKeys ≤ checkedKeys ∧
      skippedKeys * 100 < checkedKeys * kMinSkipRatePct)
    (dirty, { it with checks, checker, checkedKeys, skippedKeys, checkEnabled := !giveUp })
  else (List.replicate c.keys.length true, it)

/-- What becomes of the candidates of one round: the rows of the batch, or the
failure of a lookup. -/
def takeBatch (it : BatchIter σ) (c : Candidates) : Option (BatchIter σ × Option Failure) :=
  if env.resultMode = .candidate then some ({ it with batchKeys := c.keys }, none)
  else if env.authoritativeScan = true then
    some ({ it with
            batchKeys := c.keys
            batchValues := c.values
            skippedBatches := it.skippedBatches + 1 }, none)
  else
    let (dirty, it) := it.judgeAll env c
    let gets := if true ∈ dirty then it.gets + 1 else it.gets
    (env.resolve it.gets c.keys c.values dirty).map fun
      | .error failure => ({ it with gets }, some failure)
      | .ok rows =>
          ({ it with gets, batchKeys := rows.map Prod.fst, batchValues := rows.map Prod.snd }, none)

/-- The loop of `FetchNextBatch`: until there is a batch or the merge ends. A
failure drops the batch. -/
def fetchLoop (fuel batchSize : ℕ) : ℕ → BatchIter σ → Option (BatchIter σ)
  | 0, _ => none
  | n + 1, it =>
      if it.batchKeys ≠ [] then some { it with valid := true }
      else if m.head it.merge = none then some it
      else
        match m.collectCandidates ⟨env.authoritativeScan, it.checkEnabled⟩ batchSize fuel it.merge
          it.latest {} with
        | none => none
        | some (merge, latest, c) =>
            if m.status merge ≠ .ok then
              some { it with merge, latest, status := m.status merge }
            else if c.keys = [] then some { it with merge, latest }
            else
              match takeBatch env { it with merge, latest } c with
              | none => none
              | some (it, some failure) => some { it with status := failure }
              | some (it, none) => fetchLoop fuel batchSize n it

def fetchNextBatch (fuel batchSize : ℕ) (it : BatchIter σ) : Option (BatchIter σ) :=
  let it := { it with batchKeys := [], batchValues := [], batchCurIdx := 0, valid := false }
  -- never scan on top of a failed merge
  if m.status it.merge ≠ .ok then some { it with status := m.status it.merge }
  else fetchLoop env m fuel batchSize fuel it

def kBatchSize : ℕ := 1024

def seekToFirst (fuel : ℕ) (it : BatchIter σ) : Option (BatchIter σ) :=
  (m.seekToFirst it.merge).bind fun merge =>
    fetchNextBatch env m fuel kBatchSize { it with merge, latest := [] }

def next (fuel : ℕ) (it : BatchIter σ) : Option (BatchIter σ) :=
  let it := { it with batchCurIdx := it.batchCurIdx + 1 }
  if it.batchKeys.length ≤ it.batchCurIdx then fetchNextBatch env m fuel kBatchSize it
  else some it

/-- The current key, with its value where values are fetched. -/
def current (it : BatchIter σ) : Option (Bytes × Option Bytes) :=
  if it.valid = true then
    it.batchKeys[it.batchCurIdx]?.map fun key => (key, it.batchValues[it.batchCurIdx]?)
  else none

def cursor (fuel : ℕ) : Cursor (BatchIter σ) (Bytes × Option Bytes) where
  head := current
  next := next env m fuel

inductive Call where
  | seekToFirst
  | next
  deriving DecidableEq, Repr

/-- The calls a consumer makes. `Next` asks for a valid iterator. -/
def step (fuel : ℕ) : Call → BatchIter σ → Option (BatchIter σ)
  | .seekToFirst, it => it.seekToFirst env m fuel
  | .next, it => if it.valid = true then it.next env m fuel else none

end BatchIter

/-! ### What a candidate turns into -/

namespace BatchEnv

/-- Candidates are looked at again after the merge. -/
def Rechecks (env : BatchEnv) : Prop := env.resultMode = .verified ∧ env.authoritativeScan = false

/-- What is handed out for a candidate, if `answer` are the rows of the
result. -/
def verdict (env : BatchEnv) (answer : Bytes → Option Bytes) (r : SourceRow) :
    Option (Bytes × Option Bytes) :=
  if env.resultMode = .candidate then some (r.entry.userKey, none)
  else if env.authoritativeScan = true then some (r.entry.userKey, some r.entry.value)
  else (answer r.entry.userKey).map fun value => (r.entry.userKey, some value)

/-- Rows the check clears are the answer, and so is what a lookup brings, if it
does not fail. -/
structure Answers (env : BatchEnv) (faulty : Prop) (answer : Bytes → Option Bytes)
    (rows : List SourceRow) : Prop where
  clean : env.Rechecks → ∀ r ∈ rows, r.hasNewer = false → ∀ n (c c' : ShadowChecker),
    c.mayHaveNewerVersion env.reads env.findTable r.entry.userKey r.entry.seqno r.sourceFile env.readSeqno
      (env.lsmAt n) r.sourceLevel = (false, c') →
    answer r.entry.userKey = some r.entry.value
  fetch : env.Rechecks → ∀ r ∈ rows, ∀ n,
    env.fetch n r.entry.userKey = some (.ok (answer r.entry.userKey)) ∨
      ∃ failure, env.fetch n r.entry.userKey = some (.error failure) ∧ faulty

variable {env : BatchEnv} {faulty : Prop} {answer : Bytes → Option Bytes} {rows : List SourceRow}

theorem toCheck_of {mode : CandidateMode} (hmode : mode.checkEnabled = true)
    (chunk : List SourceRow) : (Candidates.of mode chunk).toCheck = chunk.map fun r =>
      (r.entry.userKey, r.entry.seqno, r.sourceLevel, r.sourceFile, r.hasNewer) := by
  simp only [Candidates.toCheck, Candidates.of, hmode, if_true, List.zip_map']

/-- What is not dirty is the answer. -/
theorem Answers.judge (h : env.Answers faulty answer rows) (hrechecks : env.Rechecks)
    {chunk : List SourceRow} (hchunk : chunk ⊆ rows) (n : ℕ) (c : ShadowChecker) :
    List.Forall₂ (fun r dirty => dirty = false → answer r.entry.userKey = some r.entry.value)
      chunk (env.judge (chunk.map fun r =>
        (r.entry.userKey, r.entry.seqno, r.sourceLevel, r.sourceFile, r.hasNewer)) n c).1 := by
  induction chunk generalizing n c with
  | nil => exact .nil
  | cons r chunk ih =>
      rw [List.cons_subset] at hchunk
      rw [List.map_cons, BatchEnv.judge]
      cases hnewer : r.hasNewer with
      | true => exact .cons (fun hfalse => by cases hfalse) (ih hchunk.2 n c)
      | false =>
          refine .cons (fun hclean => ?_) (ih hchunk.2 (n + 1) _)
          exact h.clean hrechecks r hchunk.1 hnewer n c _ (Prod.ext hclean rfl)

/-- The rows a batch ends up with. -/
theorem Answers.resolve (h : env.Answers faulty answer rows) (hrechecks : env.Rechecks) (n : ℕ)
    {chunk : List SourceRow} (hchunk : chunk ⊆ rows) {values : List Bytes} {dirty : List Bool}
    (hclean : List.Forall₂
      (fun r dirty => dirty = false → answer r.entry.userKey = some r.entry.value) chunk dirty)
    (hvalues : values = chunk.map (fun r => r.entry.value) ∨ ∀ d ∈ dirty, d = true) :
    env.resolve n (chunk.map fun r => r.entry.userKey) values dirty =
        some (.ok (chunk.filterMap fun r =>
          (answer r.entry.userKey).map fun value => (r.entry.userKey, value))) ∨
      ∃ failure, env.resolve n (chunk.map fun r => r.entry.userKey) values dirty =
        some (.error failure) ∧ faulty := by
  induction hclean generalizing values with
  | nil => exact Or.inl rfl
  | @cons r d chunk dirty hr _ ih =>
      rw [List.cons_subset] at hchunk
      rw [List.map_cons, List.filterMap_cons]
      have htail : values.tail = chunk.map (fun r => r.entry.value) ∨ ∀ d ∈ dirty, d = true :=
        hvalues.imp (fun hv => by rw [hv]; rfl) fun hd => (List.forall_mem_cons.1 hd).2
      cases d with
      | false =>
          obtain rfl : values = (r :: chunk).map (fun r => r.entry.value) :=
            hvalues.resolve_right fun hd => by cases (List.forall_mem_cons.1 hd).1
          rw [List.map_cons, BatchEnv.resolve, hr rfl]
          rcases ih hchunk.2 htail with hok | ⟨failure, herror, hfaulty⟩
          · exact Or.inl (by rw [List.map_cons, List.tail_cons] at hok; rw [hok]; rfl)
          · rw [List.map_cons, List.tail_cons] at herror
            exact Or.inr ⟨failure, by rw [herror]; rfl, hfaulty⟩
      | true =>
          have hunfold : env.resolve n (r.entry.userKey :: chunk.map fun r => r.entry.userKey)
              values (true :: dirty) = (env.fetch n r.entry.userKey).bind fun
                | .error failure => some (.error failure)
                | .ok none => env.resolve n (chunk.map fun r => r.entry.userKey) values.tail dirty
                | .ok (some value) =>
                    (env.resolve n (chunk.map fun r => r.entry.userKey) values.tail dirty).map
                      (Except.map ((r.entry.userKey, value) :: ·)) := by
            cases values <;> rfl
          rw [hunfold]
          rcases h.fetch hrechecks r hchunk.1 n with hfetch | ⟨failure, hfetch, hfaulty⟩
          · rw [hfetch]
            rcases ih hchunk.2 htail with hok | ⟨failure, herror, hfaulty⟩
            · refine Or.inl ?_
              cases answer r.entry.userKey with
              | none => exact hok
              | some value => exact congrArg (Option.map _) hok
            · refine Or.inr ⟨failure, ?_, hfaulty⟩
              cases answer r.entry.userKey with
              | none => exact herror
              | some value => exact congrArg (Option.map _) herror
          · exact Or.inr ⟨failure, by rw [hfetch]; rfl, hfaulty⟩

end BatchEnv

/-! ### Batches and what is left -/

namespace BatchIter

variable {σ : Type}

/-- The rows of the current batch. -/
def batch (it : BatchIter σ) : List (Bytes × Option Bytes) :=
  it.batchKeys.mapIdx fun i key => (key, it.batchValues[i]?)

theorem length_batch (it : BatchIter σ) : it.batch.length = it.batchKeys.length := by
  rw [batch, List.length_mapIdx]

theorem current_eq {it : BatchIter σ} (hvalid : it.valid = true) :
    it.current = it.batch[it.batchCurIdx]? := by
  rw [current, if_pos hvalid, batch, List.getElem?_mapIdx]

theorem batch_candidates {it : BatchIter σ} {chunk : List SourceRow}
    (hkeys : it.batchKeys = chunk.map fun r => r.entry.userKey) (hvalues : it.batchValues = []) :
    it.batch = chunk.map fun r => (r.entry.userKey, none) := by
  rw [batch, hkeys, hvalues]
  refine List.ext_getElem? fun i => ?_
  rw [List.getElem?_mapIdx, List.getElem?_map, List.getElem?_map, Option.map_map]
  rfl

theorem batch_rows {it : BatchIter σ} {rows : List (Bytes × Bytes)}
    (hkeys : it.batchKeys = rows.map Prod.fst) (hvalues : it.batchValues = rows.map Prod.snd) :
    it.batch = rows.map fun row => (row.1, some row.2) := by
  rw [batch, hkeys, hvalues]
  refine List.ext_getElem? fun i => ?_
  rw [List.getElem?_mapIdx, List.getElem?_map, List.getElem?_map, List.getElem?_map]
  cases rows[i]? <;> rfl

section Fetch

variable {env : BatchEnv} {m : MergeIter σ} {track : Bool} {inv : σ → Prop} {faulty : Prop}
  {answer : Bytes → Option Bytes} {rows : List SourceRow}

/-- The state a scan can be started from. -/
structure Ready (m : MergeIter σ) (track : Bool) (inv : σ → Prop) (faulty : Prop)
    (it : BatchIter σ) : Prop where
  merge : inv it.merge ∨ (m.status it.merge ≠ .ok ∧ faulty)
  check : it.checkEnabled = true → track = true
  status : it.status ≠ .ok → faulty

/-- The merge still delivers `back`. -/
structure Behind (m : MergeIter σ) (track : Bool) (inv : σ → Prop) (faulty : Prop)
    (rows : List SourceRow) (it : BatchIter σ) (back : List SourceRow) : Prop where
  ok : m.status it.merge = .ok
  serves : m.Serves track inv faulty it.merge back
  subset : back ⊆ rows
  length_le : back.length ≤ rows.length
  check : it.checkEnabled = true → track = true
  status : it.status ≠ .ok → faulty

theorem Behind.of_same {it it' : BatchIter σ} {back : List SourceRow}
    (h : Behind m track inv faulty rows it back) (hmerge : it'.merge = it.merge)
    (hcheck : it'.checkEnabled = it.checkEnabled) (hstatus : it'.status = it.status) :
    Behind m track inv faulty rows it' back := by
  refine ⟨?_, ?_, h.subset, h.length_le, ?_, ?_⟩
  · rw [hmerge]
    exact h.ok
  · rw [hmerge]
    exact h.serves
  · rw [hcheck]
    exact h.check
  · rw [hstatus]
    exact h.status

theorem Behind.ready {it : BatchIter σ} {back : List SourceRow}
    (h : Behind m track inv faulty rows it back) : Ready m track inv faulty it :=
  ⟨Or.inl (h.serves.inv_of_ok h.ok), h.check, h.status⟩

/-- How a fetch ends that has `full` to hand out: on a failure, at the end of
the merge, or with a batch. -/
inductive Fetched (env : BatchEnv) (m : MergeIter σ) (track : Bool) (inv : σ → Prop)
    (faulty : Prop) (answer : Bytes → Option Bytes) (rows : List SourceRow) (status : Status)
    (bound : ℕ) (full : List (Bytes × Option Bytes)) (it : BatchIter σ) : Prop
  | stopped : it.valid = false → it.status ≠ .ok → faulty → Ready m track inv faulty it →
      Fetched env m track inv faulty answer rows status bound full it
  | ended : it.valid = false → it.status = status → full = [] → Ready m track inv faulty it →
      Fetched env m track inv faulty answer rows status bound full it
  | batch {back : List SourceRow} : it.valid = true → it.status = status → it.batchCurIdx = 0 →
      it.batchKeys ≠ [] → Behind m track inv faulty rows it back → back.length < bound →
      full = it.batch ++ (dedup it.latest back).filterMap (env.verdict answer) →
      Fetched env m track inv faulty answer rows status bound full it

theorem verdict_of_rechecks (hrechecks : env.Rechecks) (chunk : List SourceRow) :
    chunk.filterMap (env.verdict answer) = (chunk.filterMap fun r =>
      (answer r.entry.userKey).map fun value => (r.entry.userKey, value)).map
        fun row => (row.1, some row.2) := by
  rw [List.map_filterMap]
  refine List.filterMap_congr fun r _ => ?_
  rw [BatchEnv.verdict, if_neg (by rw [hrechecks.1]; decide), if_neg (by rw [hrechecks.2]; decide),
    Option.map_map]
  rfl

/-- Taking a batch leaves the merge and the position alone. -/
structure Keeps (it it' : BatchIter σ) : Prop where
  merge : it'.merge = it.merge
  latest : it'.latest = it.latest
  status : it'.status = it.status
  cur : it'.batchCurIdx = it.batchCurIdx
  valid : it'.valid = it.valid
  check : it'.checkEnabled = true → it.checkEnabled = true

theorem Keeps.refl (it : BatchIter σ) : Keeps it it := ⟨rfl, rfl, rfl, rfl, rfl, id⟩

/-- Candidates that are not dirty are the answer, and their values were kept. -/
theorem judgeAll_spec (henv : env.Answers faulty answer rows) (hrechecks : env.Rechecks)
    (it : BatchIter σ) {chunk : List SourceRow} (hchunk : chunk ⊆ rows) :
    ∃ dirty it', it.judgeAll env (.of ⟨env.authoritativeScan, it.checkEnabled⟩ chunk) =
        (dirty, it') ∧ Keeps it it' ∧
      List.Forall₂ (fun r dirty => dirty = false → answer r.entry.userKey = some r.entry.value)
        chunk dirty ∧
      ((Candidates.of ⟨env.authoritativeScan, it.checkEnabled⟩ chunk).values =
        chunk.map (fun r => r.entry.value) ∨ ∀ d ∈ dirty, d = true) := by
  rw [judgeAll]
  by_cases hcheck : it.checkEnabled = true
  · rw [if_pos hcheck]
    refine ⟨_, _, rfl, ⟨rfl, rfl, rfl, rfl, rfl, fun _ => hcheck⟩, ?_, Or.inl ?_⟩
    · rw [BatchEnv.toCheck_of hcheck]
      exact henv.judge hrechecks hchunk it.checks it.checker
    · simp [Candidates.of, hcheck]
  · rw [if_neg hcheck]
    refine ⟨_, _, rfl, Keeps.refl it, ?_, Or.inr fun d hd => List.eq_of_mem_replicate hd⟩
    have hlen : (Candidates.of ⟨env.authoritativeScan, it.checkEnabled⟩ chunk).keys.length =
        chunk.length := List.length_map _
    rw [hlen]
    refine List.forall₂_iff_get.2 ⟨by simp, fun i _ hi hfalse => ?_⟩
    simp at hfalse

theorem takeBatch_spec (henv : env.Answers faulty answer rows) {it : BatchIter σ}
    (hvalues : it.batchValues = []) {chunk : List SourceRow} (hchunk : chunk ⊆ rows) :
    ∃ it' failed,
      takeBatch env it (.of ⟨env.authoritativeScan, it.checkEnabled⟩ chunk) = some (it', failed) ∧
      Keeps it it' ∧
      ((∃ failure, failed = some failure ∧ faulty) ∨
        (failed = none ∧ it'.batch = chunk.filterMap (env.verdict answer) ∧
          (it'.batchKeys = [] → it'.batchValues = []))) := by
  set mode : CandidateMode := ⟨env.authoritativeScan, it.checkEnabled⟩ with hmodeDef
  have hkeys : (Candidates.of mode chunk).keys = chunk.map fun r => r.entry.userKey := rfl
  rw [takeBatch]
  by_cases hmode : env.resultMode = .candidate
  · rw [if_pos hmode]
    refine ⟨_, _, rfl, ⟨rfl, rfl, rfl, rfl, rfl, id⟩, Or.inr ⟨rfl, ?_, fun _ => hvalues⟩⟩
    refine Eq.trans (batch_candidates hkeys hvalues) ?_
    rw [← List.filterMap_eq_map]
    exact List.filterMap_congr fun r _ => by rw [BatchEnv.verdict, if_pos hmode]; rfl
  rw [if_neg hmode]
  by_cases hauth : env.authoritativeScan = true
  · rw [if_pos hauth]
    have hvals : (Candidates.of mode chunk).values = chunk.map fun r => r.entry.value := by
      simp [Candidates.of, mode, hauth]
    refine ⟨_, _, rfl, ⟨rfl, rfl, rfl, rfl, rfl, id⟩, Or.inr ⟨rfl, ?_, fun hnil => ?_⟩⟩
    · refine Eq.trans (@batch_rows _ _ (chunk.map fun r => (r.entry.userKey, r.entry.value))
        (by rw [List.map_map]; exact hkeys) (by rw [List.map_map]; exact hvals)) ?_
      rw [List.map_map, ← List.filterMap_eq_map]
      exact List.filterMap_congr fun r _ => by
        rw [BatchEnv.verdict, if_neg hmode, if_pos hauth]
        rfl
    · have hnil' : (chunk.map fun r => r.entry.userKey) = [] := hnil
      rw [List.map_eq_nil_iff] at hnil'
      show (Candidates.of mode chunk).values = []
      rw [hvals, hnil']
      rfl
  rw [if_neg hauth]
  have hrechecks : env.Rechecks := by
    refine ⟨?_, by simpa using hauth⟩
    cases hresult : env.resultMode with
    | verified => rfl
    | candidate => exact absurd hresult hmode
  obtain ⟨dirty, it', hjudge, hkeeps, hclean, hvals⟩ := judgeAll_spec henv hrechecks it hchunk
  rw [hjudge]
  rcases henv.resolve hrechecks it'.gets hchunk hclean hvals with
    hresolve | ⟨failure, hresolve, hfaulty⟩
  · refine ⟨_, _, congrArg (Option.map _) hresolve, ⟨hkeeps.merge, hkeeps.latest, hkeeps.status,
      hkeeps.cur, hkeeps.valid, hkeeps.check⟩, Or.inr ⟨rfl, ?_, fun hnil => ?_⟩⟩
    · rw [verdict_of_rechecks hrechecks]
      exact batch_rows rfl rfl
    · exact List.map_eq_nil_iff.2 (List.map_eq_nil_iff.1 hnil)
  · exact ⟨_, _, congrArg (Option.map _) hresolve, ⟨hkeeps.merge, hkeeps.latest, hkeeps.status,
      hkeeps.cur, hkeeps.valid, hkeeps.check⟩, Or.inl ⟨failure, rfl, hfaulty⟩⟩

/-- The loop hands out what is in the batch and what the merge still has. -/
theorem fetchLoop_spec (henv : env.Answers faulty answer rows) {fuel batchSize n bound : ℕ}
    (hsize : 0 < batchSize) (hfuel : rows.length < fuel) {it : BatchIter σ}
    {back : List SourceRow} (hback : Behind m track inv faulty rows it back)
    (hn : back.length < n) (hbound : back.length ≤ bound)
    (hkeys : it.batchKeys ≠ [] → back.length < bound)
    (hvalues : it.batchKeys = [] → it.batchValues = []) (hcur : it.batchCurIdx = 0)
    (hvalid : it.valid = false) :
    ∃ it', fetchLoop env m fuel batchSize n it = some it' ∧
      Fetched env m track inv faulty answer rows it.status bound
        (it.batch ++ (dedup it.latest back).filterMap (env.verdict answer)) it' := by
  induction n generalizing it back with
  | zero => omega
  | succ n ih =>
      rw [fetchLoop]
      by_cases hbatch : it.batchKeys = []
      · rw [if_neg (not_not.2 hbatch)]
        have hnil : it.batch = [] := by rw [batch, hbatch]; rfl
        rcases hback.serves.cases_head with ⟨hhead, -, rfl⟩ | ⟨-, hfailed, -⟩ |
          ⟨row, r, rest, t, hhead, -, -, -, hrest, -⟩
        · refine ⟨it, if_pos hhead, .ended hvalid rfl ?_ hback.ready⟩
          rw [hnil]
          rfl
        · exact absurd hback.ok hfailed
        have hlen := hback.length_le
        obtain ⟨chunk, merge, latest, hloop, hcase⟩ :=
          @MergeIter.collectCandidates_serves _ _ _ _ _ _ ⟨env.authoritativeScan, it.checkEnabled⟩
            hback.check batchSize _ hback.serves fuel (by omega) it.latest [] (Nat.zero_le _)
        rw [Candidates.of_nil, List.nil_append] at hloop
        rw [if_neg (by rw [hhead]; exact Option.some_ne_none _), hloop]
        rcases hcase with ⟨hfailed, -, hfaulty⟩ | ⟨back', htaken⟩
        · simp only [if_pos hfailed]
          exact ⟨_, rfl, .stopped hvalid hfailed hfaulty
            ⟨Or.inr ⟨hfailed, hfaulty⟩, hback.check, fun _ => hfaulty⟩⟩
        have hshort := htaken.back_lt hsize (by rw [hrest]; exact List.cons_ne_nil _ _)
        have hbehind (it' : BatchIter σ) (hmerge : it'.merge = merge)
            (hcheck : it'.checkEnabled = true → it.checkEnabled = true)
            (hstatus : it'.status ≠ .ok → faulty) : Behind m track inv faulty rows it' back' := by
          subst hmerge
          exact ⟨htaken.ok, htaken.serves, List.Subset.trans htaken.back_suffix.subset hback.subset,
            by omega, fun h => hback.check (hcheck h), hstatus⟩
        simp only [if_neg (not_not.2 htaken.ok)]
        rw [hnil, htaken.dedup_eq, List.nil_append, List.filterMap_append]
        by_cases hempty : chunk = []
        · subst hempty
          obtain rfl := htaken.drained hsize
          exact ⟨_, if_pos rfl, .ended hvalid rfl rfl
            (hbehind { it with merge, latest } rfl id hback.status).ready⟩
        have hchunk : chunk ⊆ rows := by
          refine List.Subset.trans ?_
            (List.Subset.trans (dedup_sublist it.latest back).subset hback.subset)
          rw [htaken.dedup_eq]
          exact List.subset_append_left _ _
        have hne : (Candidates.of ⟨env.authoritativeScan, it.checkEnabled⟩ chunk).keys ≠ [] := by
          simpa [Candidates.of] using hempty
        rw [if_neg hne]
        obtain ⟨it₁, failed, htake, hkeeps, ⟨failure, rfl, hfaulty⟩ | ⟨rfl, hrows, hvalues₁⟩⟩ :=
          takeBatch_spec henv
            (show ({ it with merge, latest } : BatchIter σ).batchValues = [] from hvalues hbatch)
            hchunk
        all_goals simp only [htake]
        · refine ⟨_, rfl, .stopped (hkeeps.valid.trans hvalid) failure.2 hfaulty ?_⟩
          exact (hbehind { it₁ with status := failure } hkeeps.merge hkeeps.check
            fun _ => hfaulty).ready
        · have hstatus : it₁.status ≠ .ok → faulty := by
            rw [hkeeps.status]
            exact hback.status
          have hnext := ih (hbehind it₁ hkeeps.merge hkeeps.check hstatus) (by omega) (by omega)
            (fun _ => by omega) hvalues₁ (hkeeps.cur.trans hcur) (hkeeps.valid.trans hvalid)
          rwa [hkeeps.status, hkeeps.latest, hrows] at hnext
      · rw [if_pos hbatch]
        exact ⟨_, rfl, .batch rfl rfl hcur hbatch (hback.of_same rfl rfl rfl) (hkeys hbatch) rfl⟩

theorem fetchNextBatch_spec (henv : env.Answers faulty answer rows) {fuel batchSize : ℕ}
    (hsize : 0 < batchSize) (hfuel : rows.length < fuel) {it : BatchIter σ}
    {back : List SourceRow} (hback : Behind m track inv faulty rows it back) :
    ∃ it', fetchNextBatch env m fuel batchSize it = some it' ∧
      Fetched env m track inv faulty answer rows it.status back.length
        ((dedup it.latest back).filterMap (env.verdict answer)) it' := by
  have hlen := hback.length_le
  have hcleared : Behind m track inv faulty rows
      { it with batchKeys := [], batchValues := [], batchCurIdx := 0, valid := false } back :=
    hback.of_same rfl rfl rfl
  rw [fetchNextBatch]
  simp only [if_neg (not_not.2 hback.ok)]
  exact fetchLoop_spec henv hsize hfuel hcleared (by omega) le_rfl (fun hne => absurd rfl hne)
    (fun _ => rfl) rfl rfl

/-- A merge that has failed stops the scan. -/
theorem fetchNextBatch_failed {fuel batchSize bound : ℕ} {status : Status}
    {full : List (Bytes × Option Bytes)} {it : BatchIter σ} (hfailed : m.status it.merge ≠ .ok)
    (hfaulty : faulty) (hcheck : it.checkEnabled = true → track = true) :
    ∃ it', fetchNextBatch env m fuel batchSize it = some it' ∧
      Fetched env m track inv faulty answer rows status bound full it' := by
  rw [fetchNextBatch]
  simp only [if_pos hfailed]
  exact ⟨_, rfl, .stopped rfl hfailed hfaulty
    ⟨Or.inr ⟨hfailed, hfaulty⟩, hcheck, fun _ => hfaulty⟩⟩

/-! ### The scan as a whole -/

section Scan

variable (henv : env.Answers faulty answer rows) {fuel : ℕ} (hfuel : rows.length < fuel)
include henv hfuel

theorem seekToFirst_spec (hrewinds : m.Rewinds track inv faulty rows) (hsticky : m.Sticky)
    {it : BatchIter σ} (hready : Ready m track inv faulty it) :
    ∃ it', seekToFirst env m fuel it = some it' ∧
      Fetched env m track inv faulty answer rows it.status rows.length
        ((dedup [] rows).filterMap (env.verdict answer)) it' := by
  rw [seekToFirst]
  rcases hready.merge with hinv | ⟨hfailed, hfaulty⟩
  · obtain ⟨merge, hseek, hserves⟩ := hrewinds it.merge hinv
    rw [hseek, Option.bind_some]
    by_cases hok : m.status merge = .ok
    · have hstart : Behind m track inv faulty rows { it with merge, latest := [] } rows :=
        ⟨hok, hserves, List.Subset.refl _, le_rfl, hready.check, hready.status⟩
      exact fetchNextBatch_spec henv (by decide) hfuel hstart
    · rcases hserves.cases_head with ⟨-, hok', -⟩ | ⟨-, -, hfaulty⟩ | ⟨_, _, _, _, -, -, hok', -⟩
      · exact absurd hok' hok
      · exact fetchNextBatch_failed hok hfaulty hready.check
      · exact absurd hok' hok
  · obtain ⟨merge, hseek, -, hsame⟩ := hsticky it.merge hfailed
    rw [hseek, Option.bind_some]
    refine fetchNextBatch_failed ?_ hfaulty hready.check
    show m.status merge ≠ .ok
    rw [hsame]
    exact hfailed

/-- The iterator stands in a batch, with `back` behind it. -/
structure At (m : MergeIter σ) (track : Bool) (inv : σ → Prop) (faulty : Prop)
    (rows : List SourceRow) (it : BatchIter σ) (back : List SourceRow) : Prop where
  valid : it.valid = true
  cur_lt : it.batchCurIdx < it.batchKeys.length
  behind : Behind m track inv faulty rows it back

/-- Within a batch `Next` goes to the next row, and behind it to the next
batch. -/
theorem At.next {it : BatchIter σ} {back : List SourceRow}
    (h : At m track inv faulty rows it back) :
    (it.batchCurIdx + 1 < it.batchKeys.length ∧
      BatchIter.next env m fuel it = some { it with batchCurIdx := it.batchCurIdx + 1 }) ∨
    (it.batchCurIdx + 1 = it.batchKeys.length ∧ ∃ it', BatchIter.next env m fuel it = some it' ∧
      Fetched env m track inv faulty answer rows it.status back.length
        ((dedup it.latest back).filterMap (env.verdict answer)) it') := by
  have hlt := h.cur_lt
  rcases Nat.lt_or_ge (it.batchCurIdx + 1) it.batchKeys.length with hin | hend
  · exact Or.inl ⟨hin, if_neg (not_le.2 hin)⟩
  · refine Or.inr ⟨by omega, ?_⟩
    have hmoved : Behind m track inv faulty rows
        { it with batchCurIdx := it.batchCurIdx + 1 } back := h.behind.of_same rfl rfl rfl
    obtain ⟨it', hfetch, hfetched⟩ :=
      fetchNextBatch_spec henv (show 0 < kBatchSize by decide) hfuel hmoved
    exact ⟨it', (if_pos hend).trans hfetch, hfetched⟩

end Scan

/-- A drain from `it` hands out `full`, or a part of it up to a failure. -/
def Drains (env : BatchEnv) (m : MergeIter σ) (fuel : ℕ) (track : Bool) (inv : σ → Prop)
    (faulty : Prop) (it : BatchIter σ) (status : Status) (full : List (Bytes × Option Bytes)) :
    Prop :=
  ∃ emitted final, (cursor env m fuel).Yields it emitted final ∧ Ready m track inv faulty final ∧
    emitted <+: full ∧
    ((emitted = full ∧ final.status = status) ∨ (final.status ≠ .ok ∧ faulty))

section Drain

variable (henv : env.Answers faulty answer rows) {fuel : ℕ} (hfuel : rows.length < fuel)
include henv hfuel

omit henv hfuel in
theorem Drains.cons {it it' : BatchIter σ} {status : Status} {x : Bytes × Option Bytes}
    {full : List (Bytes × Option Bytes)} (hhead : it.current = some x)
    (hnext : it.next env m fuel = some it')
    (h : Drains env m fuel track inv faulty it' status full) :
    Drains env m fuel track inv faulty it status (x :: full) := by
  obtain ⟨emitted, final, hyields, hready, hpre, hend⟩ := h
  refine ⟨x :: emitted, final, .more hhead hnext hyields, hready,
    List.cons_prefix_cons.2 ⟨rfl, hpre⟩, ?_⟩
  exact hend.imp_left fun h => ⟨by rw [h.1], h.2⟩

omit henv hfuel in
/-- A fetch and what follows it, once the batches are known to be handed
out. -/
theorem Fetched.drains_of {status : Status} {bound : ℕ} {full : List (Bytes × Option Bytes)}
    {it : BatchIter σ}
    (hbatches : ∀ {it : BatchIter σ} {back : List SourceRow}, back.length < bound →
      At m track inv faulty rows it back → Drains env m fuel track inv faulty it it.status
        (it.batch.drop it.batchCurIdx ++ (dedup it.latest back).filterMap (env.verdict answer)))
    (h : Fetched env m track inv faulty answer rows status bound full it) :
    Drains env m fuel track inv faulty it status full := by
  have hdone (hvalid : it.valid = false) : (cursor env m fuel).Yields it [] it :=
    .done (by show it.current = none; rw [current, hvalid]; rfl)
  cases h with
  | stopped hvalid hstatus hfaulty hready =>
      exact ⟨[], it, hdone hvalid, hready, List.nil_prefix, Or.inr ⟨hstatus, hfaulty⟩⟩
  | ended hvalid hstatus hfull hready =>
      rw [hfull]
      exact ⟨[], it, hdone hvalid, hready, List.nil_prefix, Or.inl ⟨rfl, hstatus⟩⟩
  | batch hvalid hstatus hcur hne hbehind hshort hfull =>
      have hdrains := hbatches hshort
        ⟨hvalid, by rw [hcur]; exact List.length_pos_iff.2 hne, hbehind⟩
      rw [hcur, List.drop_zero] at hdrains
      rw [hfull, ← hstatus]
      exact hdrains

/-- The rows left in the batch, and then those of the batches behind it. -/
theorem At.drains {it : BatchIter σ} {back : List SourceRow}
    (h : At m track inv faulty rows it back) :
    Drains env m fuel track inv faulty it it.status
      (it.batch.drop it.batchCurIdx ++
        (dedup it.latest back).filterMap (env.verdict answer)) := by
  induction hlen : back.length using Nat.strong_induction_on generalizing it back with
  | _ len ihBack =>
      induction hleft : it.batchKeys.length - it.batchCurIdx generalizing it with
      | zero =>
          have := h.cur_lt
          omega
      | succ left ihLeft =>
          have hlt : it.batchCurIdx < it.batch.length := by
            rw [length_batch]
            exact h.cur_lt
          have hhead : it.current = some it.batch[it.batchCurIdx] := by
            rw [current_eq h.valid, List.getElem?_eq_getElem hlt]
          rw [List.drop_eq_getElem_cons hlt, List.cons_append]
          rcases h.next henv hfuel with ⟨hin, hnext⟩ | ⟨hend, it', hnext, hfetched⟩
          · refine Drains.cons hhead hnext ?_
            have hleft' : it.batchKeys.length - (it.batchCurIdx + 1) = left := by omega
            exact ihLeft ⟨h.valid, hin, h.behind.of_same rfl rfl rfl⟩ hleft'
          · rw [List.drop_eq_nil_of_le (by rw [length_batch]; omega), List.nil_append]
            refine Drains.cons hhead hnext (hfetched.drains_of fun {it back} hshort hat => ?_)
            exact ihBack back.length (by omega) hat rfl

/-- What every state of a consumer's run keeps. -/
theorem ready_of_run (hrewinds : m.Rewinds track inv faulty rows) (hsticky : m.Sticky)
    {start it : BatchIter σ} (hready : Ready m track inv faulty start)
    (hvalid : start.valid = false) {calls : List Call}
    (hrun : Transition.run (step env m fuel) start calls = some it) :
    Ready m track inv faulty it ∧
      (it.valid = true → ∃ back, At m track inv faulty rows it back) := by
  have hfetched {it : BatchIter σ} {status : Status} {bound : ℕ}
      {full : List (Bytes × Option Bytes)}
      (h : Fetched env m track inv faulty answer rows status bound full it) :
      Ready m track inv faulty it ∧
        (it.valid = true → ∃ back, At m track inv faulty rows it back) := by
    cases h with
    | stopped hnot _ _ hready | ended hnot _ _ hready =>
        exact ⟨hready, fun hvalid => by rw [hnot] at hvalid; cases hvalid⟩
    | batch hvalid _ hcur hne hbehind =>
        exact ⟨hbehind.ready, fun _ => ⟨_, hvalid, by rw [hcur]; exact List.length_pos_iff.2 hne,
          hbehind⟩⟩
  refine Transition.invariant
    (P := fun it => Ready m track inv faulty it ∧
      (it.valid = true → ∃ back, At m track inv faulty rows it back))
    (fun call it it' h hstep => ?_) ⟨hready, fun h => by rw [hvalid] at h; cases h⟩ hrun
  cases call with
  | seekToFirst =>
      obtain ⟨it₁, hseek, hout⟩ := seekToFirst_spec henv hfuel hrewinds hsticky h.1
      obtain rfl := Option.some.inj (hseek.symm.trans hstep)
      exact hfetched hout
  | next =>
      have hmove : (if it.valid = true then it.next env m fuel else none) = some it' := hstep
      rw [Option.ite_none_right_eq_some] at hmove
      obtain ⟨back, hat⟩ := h.2 hmove.1
      rcases hat.next henv hfuel with ⟨hin, hnext⟩ | ⟨-, it₁, hnext, hout⟩
      · obtain rfl := Option.some.inj (hnext.symm.trans hmove.2)
        exact ⟨⟨h.1.merge, h.1.check, h.1.status⟩, fun _ => ⟨back, hat.valid, hin, hat.behind.ok,
          hat.behind.serves, hat.behind.subset, hat.behind.length_le, hat.behind.check,
          hat.behind.status⟩⟩
      · obtain rfl := Option.some.inj (hnext.symm.trans hmove.2)
        exact hfetched hout

/-- A scan started at any moment of a consumer's run. -/
theorem seekToFirst_drains (hrewinds : m.Rewinds track inv faulty rows) (hsticky : m.Sticky)
    {start it : BatchIter σ} (hready : Ready m track inv faulty start)
    (hvalid : start.valid = false) {calls : List Call}
    (hrun : Transition.run (step env m fuel) start calls = some it) :
    ∃ it', seekToFirst env m fuel it = some it' ∧
      Drains env m fuel track inv faulty it' it.status
        ((dedup [] rows).filterMap (env.verdict answer)) := by
  obtain ⟨hready', -⟩ := ready_of_run henv hfuel hrewinds hsticky hready hvalid hrun
  obtain ⟨it', hseek, hfetched⟩ := seekToFirst_spec henv hfuel hrewinds hsticky hready'
  exact ⟨it', hseek, hfetched.drains_of fun _ hat => hat.drains henv hfuel⟩

end Drain

end Fetch

end BatchIter

end BitLSM
