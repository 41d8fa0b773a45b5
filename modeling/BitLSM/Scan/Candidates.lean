import BitLSM.Lib.Fallible
import BitLSM.Scan.DataBlock

/-!
Candidates of a scan: one per user key of the merged stream.

`collectCandidates` is the inner loop of `FetchNextBatch`. It takes rows off
the merge until a batch is full and drops a row whose user key is the one
added last; `latest` is that register and lives on across batches.
`candidateBatches` is the sequence of batches of a whole drain. `dedup` says
what they hold when put together.
-/

namespace BitLSM

open Wire

/-- A row of the merge with what its source says about it. The key may fail to
parse, and the last answer is there only when the source keeps it. -/
structure MergeRow where
  entry : Option Entry
  sourceLevel : ℤ
  sourceFile : UInt64
  hasNewer : Option Bool

/-- The merging iterator: a cursor over rows that can be put back to the start,
with a status. -/
structure MergeIter (σ : Type) extends Cursor σ MergeRow where
  seekToFirst : σ → Option σ
  status : σ → Status

/-- What is kept for each candidate. -/
structure CandidateMode where
  authoritativeScan : Bool
  checkEnabled : Bool

structure Candidates where
  keys : List Bytes := []
  values : List Bytes := []
  seqnos : List UInt64 := []
  srcLevels : List ℤ := []
  srcFiles : List UInt64 := []
  inFileShadowed : List Bool := []

def Candidates.add (mode : CandidateMode) (c : Candidates) (e : Entry) (row : MergeRow) :
    Option Candidates :=
  let c :=
    { c with
      keys := c.keys ++ [e.userKey]
      values :=
        if mode.authoritativeScan || mode.checkEnabled then c.values ++ [e.value] else c.values }
  if mode.checkEnabled then
    row.hasNewer.map fun newer =>
      { c with
        seqnos := c.seqnos ++ [e.seqno]
        srcLevels := c.srcLevels ++ [row.sourceLevel]
        srcFiles := c.srcFiles ++ [row.sourceFile]
        inFileShadowed := c.inFileShadowed ++ [newer] }
  else some c

/-- One row against the register: `latest_user_key_added` and the candidates
behind it. -/
def addRow (mode : CandidateMode) (latest : Bytes) (c : Candidates) (row : MergeRow) :
    Option (Bytes × Candidates) :=
  match row.entry with
  | none => some (latest, c)
  | some e =>
      if e.userKey = latest then some (latest, c)
      else (c.add mode e row).map fun c => (e.userKey, c)

namespace MergeIter

variable {σ : Type}

/-- The inner loop; `none` when it is undefined or the fuel runs out. -/
def collectCandidates (m : MergeIter σ) (mode : CandidateMode) (batchSize : ℕ) :
    ℕ → σ → Bytes → Candidates → Option (σ × Bytes × Candidates)
  | 0, _, _, _ => none
  | fuel + 1, s, latest, c =>
      match m.head s with
      | none => some (s, latest, c)
      | some row =>
          if c.keys.length < batchSize then
            match addRow mode latest c row, m.next s with
            | some (latest, c), some s => m.collectCandidates mode batchSize fuel s latest c
            | _, _ => none
          else some (s, latest, c)

/-- The candidates of every batch, from the `i`-th on. What is kept may change
from batch to batch. -/
def candidateBatches (m : MergeIter σ) (modes : ℕ → CandidateMode) (batchSize : ℕ) :
    ℕ → ℕ → σ → Bytes → Option (List Candidates)
  | 0, _, _, _ => none
  | fuel + 1, i, s, latest =>
      if m.status s ≠ .ok then some []
      else
        match m.head s with
        | none => some []
        | some _ =>
            match m.collectCandidates (modes i) batchSize (fuel + 1) s latest {} with
            | none => none
            | some (s, latest, c) =>
                if m.status s ≠ .ok then some []
                else if c.keys = [] then some []
                else (m.candidateBatches modes batchSize fuel (i + 1) s latest).map (c :: ·)

/-- A drain from `SeekToFirst` on, which clears the register. -/
def candidatesFromStart (m : MergeIter σ) (modes : ℕ → CandidateMode) (batchSize fuel : ℕ)
    (s : σ) : Option (List Candidates) :=
  (m.seekToFirst s).bind fun s => m.candidateBatches modes batchSize fuel 0 s []

end MergeIter

/-! ### Rows with a key -/

/-- A row of an internal key, with everything its source knows. -/
structure SourceRow where
  entry : Entry
  sourceLevel : ℤ
  sourceFile : UInt64
  hasNewer : Bool
  deriving DecidableEq, Repr

def SourceRow.toMergeRow (r : SourceRow) : MergeRow :=
  ⟨some r.entry, r.sourceLevel, r.sourceFile, some r.hasNewer⟩

/-- The candidates made of `rows`. -/
def Candidates.of (mode : CandidateMode) (rows : List SourceRow) : Candidates where
  keys := rows.map fun r => r.entry.userKey
  values :=
    if mode.authoritativeScan || mode.checkEnabled then rows.map fun r => r.entry.value else []
  seqnos := if mode.checkEnabled then rows.map fun r => r.entry.seqno else []
  srcLevels := if mode.checkEnabled then rows.map SourceRow.sourceLevel else []
  srcFiles := if mode.checkEnabled then rows.map SourceRow.sourceFile else []
  inFileShadowed := if mode.checkEnabled then rows.map SourceRow.hasNewer else []

theorem Candidates.of_nil (mode : CandidateMode) : Candidates.of mode [] = {} := by
  simp [Candidates.of]

theorem Candidates.add_of (mode : CandidateMode) (rows : List SourceRow) (r : SourceRow) :
    (Candidates.of mode rows).add mode r.entry r.toMergeRow =
      some (Candidates.of mode (rows ++ [r])) := by
  obtain ⟨authoritative, check⟩ := mode
  cases check <;> cases authoritative <;> simp [Candidates.add, Candidates.of, SourceRow.toMergeRow]

/-- The rows whose user key is not the one added last. -/
def dedup (latest : Bytes) : List SourceRow → List SourceRow
  | [] => []
  | r :: rest =>
      if r.entry.userKey = latest then dedup latest rest else r :: dedup r.entry.userKey rest

theorem dedup_sublist (latest : Bytes) (rows : List SourceRow) :
    (dedup latest rows).Sublist rows := by
  induction rows generalizing latest with
  | nil => exact List.Sublist.refl _
  | cons r rest ih =>
      rw [dedup]
      split
      · exact (ih latest).cons r
      · exact (ih r.entry.userKey).cons_cons r

/-- The merge delivers `rows` and then ends, all without an error. -/
inductive MergeIter.Streams {σ : Type} (m : MergeIter σ) : σ → List SourceRow → Prop
  | done {s : σ} : m.head s = none → m.status s = .ok → Streams m s []
  | more {s t : σ} {r : SourceRow} {rest : List SourceRow} :
      m.head s = some r.toMergeRow → m.status s = .ok → m.next s = some t → Streams m t rest →
      Streams m s (r :: rest)

/-- The row of the merge is `r`, as far as its source tells. -/
structure MergeRow.Shows (track : Bool) (row : MergeRow) (r : SourceRow) : Prop where
  entry : row.entry = some r.entry
  sourceLevel : row.sourceLevel = r.sourceLevel
  sourceFile : row.sourceFile = r.sourceFile
  hasNewer : track = true → row.hasNewer = some r.hasNewer

theorem SourceRow.toMergeRow_shows (track : Bool) (r : SourceRow) : r.toMergeRow.Shows track r :=
  ⟨rfl, rfl, rfl, fun _ => rfl⟩

theorem MergeRow.Shows.eq {row : MergeRow} {r : SourceRow} (h : row.Shows true r) :
    row = r.toMergeRow := by
  obtain ⟨entry, level, file, newer⟩ := row
  obtain ⟨rfl, rfl, rfl, hnewer⟩ := h
  rw [SourceRow.toMergeRow, ← hnewer rfl]

theorem MergeRow.Shows.addRow {mode : CandidateMode} {track : Bool}
    (hmode : mode.checkEnabled = true → track = true) {row : MergeRow} {r : SourceRow}
    (h : row.Shows track r) (latest : Bytes) (taken : List SourceRow) :
    BitLSM.addRow mode latest (.of mode taken) row =
      if r.entry.userKey = latest then some (latest, .of mode taken)
      else some (r.entry.userKey, .of mode (taken ++ [r])) := by
  have hadd : (Candidates.of mode taken).add mode r.entry row =
      some (.of mode (taken ++ [r])) := by
    rw [← Candidates.add_of, Candidates.add, Candidates.add]
    cases hcheck : mode.checkEnabled with
    | true =>
        obtain rfl := hmode hcheck
        rw [h.eq]
    | false => rfl
  rw [BitLSM.addRow, h.entry]
  simp only []
  split
  · rfl
  · rw [hadd]
    rfl

/-- The merge delivers `rows`, or stops on a failure. -/
abbrev MergeIter.Serves {σ : Type} (m : MergeIter σ) (track : Bool) (inv : σ → Prop)
    (faulty : Prop) (s : σ) (rows : List SourceRow) : Prop :=
  m.toCursor.Delivers (fun s => m.status s = .ok) (MergeRow.Shows track) inv faulty s rows

/-- From any state that keeps `inv` the merge can be put back, and then
delivers `rows`. -/
def MergeIter.Rewinds {σ : Type} (m : MergeIter σ) (track : Bool) (inv : σ → Prop)
    (faulty : Prop) (rows : List SourceRow) : Prop :=
  ∀ s, inv s → ∃ t, m.seekToFirst s = some t ∧ m.Serves track inv faulty t rows

/-- A failure stays: later `SeekToFirst` calls leave the merge invalid with the
same error. -/
def MergeIter.Sticky {σ : Type} (m : MergeIter σ) : Prop :=
  ∀ s, m.status s ≠ .ok → ∃ t, m.seekToFirst s = some t ∧ m.head t = none ∧
    m.status t = m.status s

namespace MergeIter

variable {σ : Type} {m : MergeIter σ} {s : σ}

theorem Streams.status_ok {rows : List SourceRow} (h : m.Streams s rows) : m.status s = .ok := by
  cases h <;> assumption

theorem Streams.serves {rows : List SourceRow} (h : m.Streams s rows) :
    m.Serves true (fun _ => True) False s rows := by
  induction h with
  | done hnone hok => exact .done trivial hnone hok
  | more hhead hok hnext _ ih =>
      exact .more trivial hhead (SourceRow.toMergeRow_shows _ _) hok hnext ih

theorem Serves.streams {inv : σ → Prop} {rows : List SourceRow}
    (h : m.Serves true inv False s rows) : m.Streams s rows := by
  induction h with
  | done _ hnone hok => exact .done hnone hok
  | failed _ _ hfaulty => exact hfaulty.elim
  | more _ hhead hshows hok hnext _ ih => exact .more (hshows.eq ▸ hhead) hok hnext ih

/-- What a batch leaves behind when the merge goes on: it has taken `chunk`
and stands on the rows `back`, with the register where a run over all rows
would have it. -/
structure BatchTaken (m : MergeIter σ) (track : Bool) (inv : σ → Prop) (faulty : Prop)
    (batchSize : ℕ) (rows taken chunk back : List SourceRow) (latest latest' : Bytes) (s' : σ) :
    Prop where
  ok : m.status s' = .ok
  serves : m.Serves track inv faulty s' back
  dedup_eq : dedup latest rows = chunk ++ dedup latest' back
  back_suffix : back <:+ rows
  back_lt : taken.length < batchSize → rows ≠ [] → back.length < rows.length
  size_le : (taken ++ chunk).length ≤ batchSize
  drained : (taken ++ chunk).length < batchSize → back = []

/-- One batch. -/
theorem collectCandidates_serves {track : Bool} {inv : σ → Prop} {faulty : Prop}
    {mode : CandidateMode} (hmode : mode.checkEnabled = true → track = true) (batchSize : ℕ)
    {rows : List SourceRow} (h : m.Serves track inv faulty s rows) {fuel : ℕ}
    (hfuel : rows.length < fuel) (latest : Bytes) (taken : List SourceRow)
    (htaken : taken.length ≤ batchSize) :
    ∃ chunk s' latest',
      m.collectCandidates mode batchSize fuel s latest (.of mode taken) =
        some (s', latest', .of mode (taken ++ chunk)) ∧
      ((m.status s' ≠ .ok ∧ m.head s' = none ∧ faulty) ∨ ∃ back,
        m.BatchTaken track inv faulty batchSize rows taken chunk back latest latest' s') := by
  induction h generalizing fuel latest taken with
  | @done s hinv hnone hok =>
      obtain _ | fuel := fuel
      · simp at hfuel
      refine ⟨[], s, latest, ?_, Or.inr ⟨[], hok, .done hinv hnone hok, rfl, List.suffix_rfl,
        fun _ h => absurd rfl h, by simpa using htaken, fun _ => rfl⟩⟩
      rw [collectCandidates, hnone, List.append_nil]
  | @failed s _ hnone hok hfaulty =>
      obtain _ | fuel := fuel
      · simp at hfuel
      refine ⟨[], s, latest, ?_, Or.inl ⟨hok, hnone, hfaulty⟩⟩
      rw [collectCandidates, hnone, List.append_nil]
  | @more s t row r rest hinv hhead hshows hok hnext hrest ih =>
      obtain _ | fuel := fuel
      · simp at hfuel
      rw [List.length_cons] at hfuel
      have hlen : (Candidates.of mode taken).keys.length = taken.length := by simp [Candidates.of]
      rw [collectCandidates, hhead]
      simp only [hlen]
      by_cases hroom : taken.length < batchSize
      · rw [if_pos hroom, hnext, hshows.addRow hmode]
        by_cases hkey : r.entry.userKey = latest
        · obtain ⟨chunk, s', latest', hloop, hstop | ⟨back, hback⟩⟩ :=
            @ih fuel (by omega) latest taken htaken
          · exact ⟨chunk, s', latest', by rw [if_pos hkey]; exact hloop, Or.inl hstop⟩
          · have hle := hback.back_suffix.length_le
            refine ⟨chunk, s', latest', by rw [if_pos hkey]; exact hloop, Or.inr ⟨back,
              hback.ok, hback.serves, ?_, hback.back_suffix.trans (List.suffix_cons _ _),
              fun _ _ => ?_, hback.size_le, hback.drained⟩⟩
            · rw [dedup, if_pos hkey, hback.dedup_eq]
            · rw [List.length_cons]
              omega
        · obtain ⟨chunk, s', latest', hloop, hstop⟩ :=
            @ih fuel (by omega) r.entry.userKey (taken ++ [r])
              (by rw [List.length_append]; exact hroom)
          rw [List.append_assoc, List.singleton_append] at hloop
          refine ⟨r :: chunk, s', latest', by rw [if_neg hkey]; exact hloop, ?_⟩
          rcases hstop with hstop | ⟨back, hback⟩
          · exact Or.inl hstop
          · have hle := hback.back_suffix.length_le
            have hsize := hback.size_le
            have hdrained := hback.drained
            rw [List.append_assoc, List.singleton_append] at hsize hdrained
            refine Or.inr ⟨back, hback.ok, hback.serves, ?_,
              hback.back_suffix.trans (List.suffix_cons _ _), fun _ _ => ?_, hsize, hdrained⟩
            · rw [dedup, if_neg hkey, hback.dedup_eq, List.cons_append]
            · rw [List.length_cons]
              omega
      · refine ⟨[], s, latest, ?_, Or.inr ⟨r :: rest, hok,
          .more hinv hhead hshows hok hnext hrest, rfl, List.suffix_rfl,
          fun h => absurd h hroom,
          by simpa using htaken, fun hlt => ?_⟩⟩
        · rw [if_neg hroom, List.append_nil]
        · rw [List.append_nil] at hlt
          exact absurd hlt hroom

/-- One batch of a merge that does not fail. -/
theorem collectCandidates_spec (mode : CandidateMode) (batchSize : ℕ) {rows : List SourceRow}
    (h : m.Streams s rows) {fuel : ℕ} (hfuel : rows.length < fuel) (latest : Bytes) :
    ∃ chunk back s' latest',
      m.collectCandidates mode batchSize fuel s latest {} = some (s', latest', .of mode chunk) ∧
      m.Streams s' back ∧
      m.BatchTaken true (fun _ => True) False batchSize rows [] chunk back latest latest' s' := by
  obtain ⟨chunk, s', latest', hloop, ⟨-, -, hfaulty⟩ | ⟨back, hback⟩⟩ :=
    collectCandidates_serves (fun _ => rfl) batchSize h.serves hfuel latest [] (Nat.zero_le _)
  · exact hfaulty.elim
  · rw [Candidates.of_nil] at hloop
    exact ⟨chunk, back, s', latest', hloop, hback.serves.streams, hback⟩

/-- All batches: put together they are the rows a run over the whole stream
keeps. -/
theorem candidateBatches_spec (modes : ℕ → CandidateMode) {batchSize : ℕ} (hsize : 0 < batchSize)
    {rows : List SourceRow} (h : m.Streams s rows) {fuel : ℕ} (hfuel : rows.length < fuel) (i : ℕ)
    (latest : Bytes) :
    ∃ chunks : List (List SourceRow), chunks.flatten = dedup latest rows ∧
      (∀ chunk ∈ chunks, chunk.length ≤ batchSize) ∧
      m.candidateBatches modes batchSize fuel i s latest =
        some (chunks.mapIdx fun j chunk => .of (modes (i + j)) chunk) := by
  induction fuel generalizing s rows i latest with
  | zero => omega
  | succ fuel ih =>
      have hok := h.status_ok
      cases hrows : rows with
      | nil =>
          subst hrows
          cases h with
          | done hnone _ =>
              refine ⟨[], rfl, by simp, ?_⟩
              rw [candidateBatches, if_neg (not_not.2 hok), hnone]
              rfl
      | cons r rest =>
          have hhead : m.head s = some r.toMergeRow := by
            subst hrows
            cases h with
            | more hhead => exact hhead
          obtain ⟨chunk, back, s', latest', hloop, hstream, htaken⟩ :=
            collectCandidates_spec (modes i) batchSize h hfuel latest
          have hdedup := htaken.dedup_eq
          have hlen := htaken.size_le
          have hfull := htaken.drained
          rw [List.nil_append] at hlen hfull
          have hback := htaken.back_lt hsize (by simp [hrows])
          rw [candidateBatches, if_neg (not_not.2 hok), hhead]
          simp only [hloop, hstream.status_ok, ne_eq, not_true_eq_false, if_false]
          by_cases hempty : chunk = []
          · -- nothing was kept although there was room: the merge is exhausted
            subst hempty
            have hback := hfull (by simpa using hsize)
            subst hback
            refine ⟨[], by rw [← hrows, hdedup]; rfl, by simp, ?_⟩
            rw [if_pos (by simp [Candidates.of])]
            rfl
          · obtain ⟨chunks, hflat, hsizes, hbatches⟩ :=
              ih hstream (by omega) (i + 1) latest'
            refine ⟨chunk :: chunks, ?_, List.forall_mem_cons.2 ⟨hlen, hsizes⟩, ?_⟩
            · rw [List.flatten_cons, hflat, ← hrows, hdedup]
            · rw [if_neg (by simpa [Candidates.of] using hempty), hbatches, Option.map_some,
                List.mapIdx_cons]
              simp only [Nat.add_zero, Option.some.injEq, List.cons.injEq, true_and]
              congr 1
              funext j chunk
              rw [Nat.add_right_comm, Nat.add_assoc]

end MergeIter

/-! ### One candidate per user key -/

/-- The first row of each user key, in order. -/
def firstVersions (rows : List SourceRow) : List SourceRow :=
  rows.eraseDupsBy fun a b => a.entry.userKey == b.entry.userKey

theorem firstVersions_cons (r : SourceRow) (rest : List SourceRow) :
    firstVersions (r :: rest) =
      r :: firstVersions (rest.filter fun b => b.entry.userKey ≠ r.entry.userKey) := by
  rw [firstVersions, List.eraseDupsBy_cons, firstVersions]
  simp

theorem dedup_eq {rows : List SourceRow}
    (hsorted : SortedByInternalKey (rows.map SourceRow.entry)) {latest : Bytes}
    (hlatest : ∀ r ∈ rows, latest ≤ r.entry.userKey) :
    dedup latest rows = firstVersions (rows.filter fun r => r.entry.userKey ≠ latest) := by
  induction rows generalizing latest with
  | nil => rfl
  | cons r rest ih =>
      rw [List.map_cons, SortedByInternalKey, List.pairwise_cons, List.forall_mem_map] at hsorted
      rw [List.forall_mem_cons] at hlatest
      rw [dedup]
      by_cases hkey : r.entry.userKey = latest
      · rw [if_pos hkey, List.filter_cons_of_neg (by simp [hkey])]
        exact ih hsorted.2 hlatest.2
      · have hle : ∀ x ∈ rest, r.entry.userKey ≤ x.entry.userKey := by
          intro x hx
          rcases hsorted.1 x hx with hlt | ⟨heq, -⟩
          · exact hlt.le
          · exact heq.le
        -- nothing behind `r` can still have the old key
        have hkeep : (rest.filter fun x => x.entry.userKey ≠ latest) = rest := by
          rw [List.filter_eq_self]
          intro x hx
          have hlt := lt_of_lt_of_le (lt_of_le_of_ne hlatest.1 (Ne.symm hkey)) (hle x hx)
          simpa using hlt.ne'
        rw [if_neg hkey, List.filter_cons_of_pos (by simpa using hkey), hkeep, ih hsorted.2 hle,
          firstVersions_cons]

/-- The keys that are kept ascend from the register on. -/
theorem dedup_ascending {rows : List SourceRow}
    (hsorted : SortedByInternalKey (rows.map SourceRow.entry)) {latest : Bytes}
    (hlatest : ∀ r ∈ rows, latest ≤ r.entry.userKey) :
    (∀ r ∈ dedup latest rows, latest < r.entry.userKey) ∧
      (dedup latest rows).Pairwise fun a b => a.entry.userKey < b.entry.userKey := by
  induction rows generalizing latest with
  | nil => exact ⟨by simp [dedup], .nil⟩
  | cons r rest ih =>
      rw [List.map_cons, SortedByInternalKey, List.pairwise_cons, List.forall_mem_map] at hsorted
      rw [List.forall_mem_cons] at hlatest
      rw [dedup]
      by_cases hkey : r.entry.userKey = latest
      · rw [if_pos hkey]
        exact ih hsorted.2 hlatest.2
      · rw [if_neg hkey]
        have hlt : latest < r.entry.userKey := lt_of_le_of_ne hlatest.1 (Ne.symm hkey)
        obtain ⟨habove, hpairwise⟩ := ih hsorted.2 fun x hx =>
          (hsorted.1 x hx).elim (fun h => h.le) fun h => h.1.le
        refine ⟨List.forall_mem_cons.2 ⟨hlt, fun x hx => hlt.trans (habove x hx)⟩, ?_⟩
        exact List.pairwise_cons.2 ⟨habove, hpairwise⟩

/-- From the start of a scan, where the register is the empty string. -/
theorem dedup_nil {rows : List SourceRow}
    (hsorted : SortedByInternalKey (rows.map SourceRow.entry)) :
    dedup [] rows = firstVersions (rows.filter fun r => r.entry.userKey ≠ []) :=
  dedup_eq hsorted fun _ _ => not_lt.1 (List.not_lt_nil _)

theorem mem_of_mem_firstVersions {r : SourceRow} :
    ∀ {rows : List SourceRow}, r ∈ firstVersions rows → r ∈ rows
  | [], h => h
  | x :: rest, h => by
      rw [firstVersions_cons, List.mem_cons] at h
      rcases h with rfl | h
      · exact List.mem_cons_self
      · exact List.mem_cons_of_mem _ (List.mem_of_mem_filter (mem_of_mem_firstVersions h))
termination_by rows => rows.length
decreasing_by exact Nat.lt_succ_of_le (List.length_filter_le _ _)

theorem exists_mem_firstVersions {r : SourceRow} :
    ∀ {rows : List SourceRow}, r ∈ rows →
      ∃ x ∈ firstVersions rows, x.entry.userKey = r.entry.userKey
  | x :: rest, h => by
      rw [firstVersions_cons]
      by_cases hkey : r.entry.userKey = x.entry.userKey
      · exact ⟨x, List.mem_cons_self, hkey.symm⟩
      · have hrest : r ∈ rest := (List.mem_cons.1 h).resolve_left fun heq => hkey (by rw [heq])
        obtain ⟨y, hy, hyr⟩ := exists_mem_firstVersions
          (List.mem_filter.2 ⟨hrest, decide_eq_true hkey⟩ :
            r ∈ rest.filter fun b => b.entry.userKey ≠ x.entry.userKey)
        exact ⟨y, List.mem_cons_of_mem _ hy, hyr⟩
termination_by rows => rows.length
decreasing_by exact Nat.lt_succ_of_le (List.length_filter_le _ _)

/-- The batches hold the first row of each user key, each with what its mode
keeps, and no batch is longer than allowed. -/
def TakesFirstVersions (modes : ℕ → CandidateMode) (batchSize : ℕ) (rows : List SourceRow)
    (batches : List Candidates) : Prop :=
  ∃ chunks : List (List SourceRow), chunks.flatten = firstVersions rows ∧
    (∀ chunk ∈ chunks, chunk.length ≤ batchSize) ∧
    batches = chunks.mapIdx fun i chunk => .of (modes i) chunk

theorem flatMap_keys_mapIdx (modes : ℕ → CandidateMode) (chunks : List (List SourceRow)) :
    (chunks.mapIdx fun i chunk => Candidates.of (modes i) chunk).flatMap Candidates.keys =
      chunks.flatten.map fun r => r.entry.userKey := by
  induction chunks generalizing modes with
  | nil => rfl
  | cons chunk chunks ih =>
      rw [List.mapIdx_cons, List.flatMap_cons, ih fun i => modes (i + 1), List.flatten_cons,
        List.map_append]
      rfl

theorem candidates_exact_iff {σ : Type} {m : MergeIter σ} {s start : σ} {rows : List SourceRow}
    (hseek : m.seekToFirst s = some start) (hstream : m.Streams start rows)
    (hsorted : SortedByInternalKey (rows.map SourceRow.entry)) (modes : ℕ → CandidateMode)
    {batchSize : ℕ}
    (hsize : 0 < batchSize) :
    (∀ fuel, rows.length < fuel → ∃ batches,
        m.candidatesFromStart modes batchSize fuel s = some batches ∧
          TakesFirstVersions modes batchSize rows batches) ↔
      ∀ r ∈ rows, r.entry.userKey ≠ [] := by
  have hrun (fuel : ℕ) (hfuel : rows.length < fuel) :
      ∃ chunks : List (List SourceRow),
        chunks.flatten = firstVersions (rows.filter fun r => r.entry.userKey ≠ []) ∧
        (∀ chunk ∈ chunks, chunk.length ≤ batchSize) ∧
        m.candidatesFromStart modes batchSize fuel s =
          some (chunks.mapIdx fun i chunk => .of (modes i) chunk) := by
    obtain ⟨chunks, hflat, hsizes, hbatches⟩ :=
      MergeIter.candidateBatches_spec modes hsize hstream hfuel 0 []
    refine ⟨chunks, hflat.trans (dedup_nil hsorted), hsizes, ?_⟩
    rw [MergeIter.candidatesFromStart, hseek, Option.bind_some, hbatches]
    simp
  constructor
  · intro h r hr hempty
    obtain ⟨chunks, hflat, -, hbatches⟩ := hrun _ (Nat.lt_succ_self _)
    obtain ⟨batches, hbatches', chunks', hflat', -, rfl⟩ := h _ (Nat.lt_succ_self _)
    have hkeys := congrArg (List.flatMap Candidates.keys)
      (Option.some.inj (hbatches.symm.trans hbatches'))
    rw [flatMap_keys_mapIdx, flatMap_keys_mapIdx, hflat, hflat'] at hkeys
    obtain ⟨x, hx, hxr⟩ := exists_mem_firstVersions hr
    have hmem : [] ∈ (firstVersions rows).map fun r => r.entry.userKey :=
      List.mem_map.2 ⟨x, hx, hxr.trans hempty⟩
    rw [← hkeys] at hmem
    obtain ⟨y, hy, hyempty⟩ := List.mem_map.1 hmem
    have hne := (List.mem_filter.1 (mem_of_mem_firstVersions hy)).2
    simp [hyempty] at hne
  · intro h fuel hfuel
    have hall : (rows.filter fun r => r.entry.userKey ≠ []) = rows :=
      List.filter_eq_self.2 fun r hr => by simpa using h r hr
    obtain ⟨chunks, hflat, hsizes, hbatches⟩ := hrun fuel hfuel
    rw [hall] at hflat
    exact ⟨_, hbatches, chunks, hflat, hsizes, rfl⟩

/-- A merge whose rows are given as a list. -/
def listMerge (rows : List SourceRow) : MergeIter (List SourceRow) where
  head l := l.head?.map SourceRow.toMergeRow
  next l := some l.tail
  seekToFirst _ := some rows
  status _ := .ok

theorem listMerge_streams (all rows : List SourceRow) : (listMerge all).Streams rows rows := by
  induction rows with
  | nil => exact .done rfl rfl
  | cons r rest ih => exact .more rfl rfl rfl ih

/-- Two versions of one key across a batch boundary, and another key. -/
def threeVersions : List SourceRow :=
  [⟨⟨[1], 5, .value, [10]⟩, -1, 0, false⟩, ⟨⟨[1], 3, .value, [11]⟩, 0, 7, true⟩,
    ⟨⟨[2], 4, .value, [12]⟩, 0, 7, false⟩]

theorem candidates_exact_threeVersions : ∃ batches,
    (listMerge threeVersions).candidatesFromStart (fun _ => ⟨false, true⟩) 1 4 [] = some batches ∧
      TakesFirstVersions (fun _ => ⟨false, true⟩) 1 threeVersions batches :=
  (candidates_exact_iff rfl (listMerge_streams threeVersions threeVersions)
    (by unfold SortedByInternalKey; decide) (fun _ => ⟨false, true⟩) (by decide)).2 (by decide) 4
    (by decide)

/-- A stream that begins with the empty user key. -/
def emptyKeyFirst : List SourceRow :=
  [⟨⟨[], 5, .value, [10]⟩, -1, 0, false⟩, ⟨⟨[1], 3, .value, [11]⟩, -1, 0, false⟩]

theorem emptyKey_dropped : SortedByInternalKey (emptyKeyFirst.map SourceRow.entry) ∧
    (firstVersions emptyKeyFirst).map (fun r => r.entry.userKey) = [[], [1]] ∧
    ((listMerge emptyKeyFirst).candidatesFromStart (fun _ => ⟨false, true⟩) 1024 3 []).map
      (List.map Candidates.keys) = some [[[1]]] :=
  ⟨by unfold SortedByInternalKey; decide, by decide, by decide⟩

end BitLSM
