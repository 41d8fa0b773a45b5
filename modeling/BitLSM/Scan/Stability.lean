import BitLSM.Lib.Lockstep
import BitLSM.Scan.ReferenceScan

/-!
A scan beside a writer.

The scan pins a version of the tree but reads its active memtable live: the
memtable cursor walks it, the shadow check probes it and `MultiGet` looks
keys up in it, each at moments of its own, while entries above the snapshot
go in. Two scans of the same tree beside different writers run in lockstep:
they stand on the same row with the same status after the same calls.
-/

namespace BitLSM

open Wire

/-! ### Writes to the active memtable -/

/-- A writer: what it writes, all above the snapshot, and how much of it is in
at the moves of the memtable cursor, at the shadow checks and at the lookups. -/
structure Writer (s : LsmState) (read : UInt64) where
  writes : List Entry
  above : ∀ e ∈ writes, read < e.seqno
  sorted : (s.mem.entries.map Entry.key).Pairwise (· < ·)
  fresh : ((s.mem.entries ++ writes).map Entry.key).Nodup
  atMove : ℕ → ℕ
  atMove_mono : Monotone atMove
  atCheck : ℕ → ℕ
  atGet : ℕ → ℕ

namespace Writer

variable {s : LsmState} {read : UInt64} (writer : Writer s read)

/-- A writer that writes nothing. -/
def idle : Writer s read :=
  { writer with
    writes := []
    above := List.forall_mem_nil _
    fresh := by
      rw [List.append_nil]
      exact writer.sorted.imp fun h => h.ne }

theorem fresh_take (n : ℕ) : ((s.mem.entries ++ writer.writes.take n).map Entry.key).Nodup :=
  writer.fresh.sublist (((List.take_sublist n _).append_left _).map _)

/-- The active memtable as its cursor finds it. -/
def memTable : LiveMemTable where
  contents n := insertEntries s.mem.entries (writer.writes.take (writer.atMove n))
  size := s.mem.entries.length + writer.writes.length
  stops _ := none
  sorted n := insertEntries_sorted writer.sorted (writer.fresh_take _)
  grows n := by
    intro e he
    rw [(insertEntries_perm _ _).mem_iff] at he ⊢
    have hsub := List.take_sublist_take_left (l := writer.writes) (writer.atMove_mono n.le_succ)
    exact (hsub.append_left _).subset he
  length_le n := by
    rw [(insertEntries_perm _ _).length_eq, List.length_append]
    exact Nat.add_le_add_left (List.length_take_le' _ _) _

end Writer

/-- The scan's surroundings beside a writer. The lookups that fail are the same
beside every writer. -/
def ScanWorld.beside (w : ScanWorld) {s : LsmState} {read : UInt64} (writer : Writer s read)
    (getFails : ℕ → Bytes → Option Failure) : ScanWorld :=
  { w with
    mem := writer.memTable
    lsmAt := fun n => s.written (writer.writes.take (writer.atCheck n))
    multiGet := fun n k =>
      match getFails n k with
      | some failure => .error failure
      | none =>
          match (s.written (writer.writes.take (writer.atGet n))).versions.get k read with
          | some value => .ok value
          | none => .error .notFound }

/-! ### Reads at the snapshot -/

section Reads

variable {s : LsmState} {read : UInt64} {writes : List Entry}
  (habove : ∀ e ∈ writes, read < e.seqno)
include habove

theorem memGet_written (reads : RocksReads) (k : Bytes) :
    reads.memGet (s.written writes).mem k read = reads.memGet s.mem k read := by
  ext1
  · rw [reads.memGet_seqno, reads.memGet_seqno, LsmState.visible_written habove]
  · rw [reads.memGet_covering, reads.memGet_covering]
    rfl

theorem mayHaveNewerVersion_written (reads : RocksReads) (findTable : ℕ → UInt64 → Status)
    (k : Bytes) (cand srcFile : UInt64) (srcLevel : ℤ) (c : ShadowChecker) :
    c.mayHaveNewerVersion reads findTable k cand srcFile read (s.written writes) srcLevel =
      c.mayHaveNewerVersion reads findTable k cand srcFile read s srcLevel := by
  rw [ShadowChecker.mayHaveNewerVersion, ShadowChecker.mayHaveNewerVersion, memtablesHaveNewer,
    memtablesHaveNewer, memGet_written habove]
  rfl

end Reads

/-! ### Related iterators -/

/-- Related states look the same and move to related states. -/
structure MergeIter.Respects {σ : Type} (m : MergeIter σ) (R : σ → σ → Prop) : Prop where
  head : ∀ {a b}, R a b → m.head a = m.head b
  status : ∀ {a b}, R a b → m.status a = m.status b
  next : ∀ {a b}, R a b → Option.Rel R (m.next a) (m.next b)
  seekToFirst : ∀ {a b}, R a b → Option.Rel R (m.seekToFirst a) (m.seekToFirst b)

/-- The snapshot sees the same entries of the memtable all the time. -/
structure LiveMemTable.Shows (m : LiveMemTable) (read : UInt64) (kept : List Entry) : Prop where
  never_stops : ∀ n, m.stops n = none
  seen : ∀ n, (m.contents n).filter (fun e => decide (e.seqno ≤ read)) = kept

theorem Writer.memTable_shows {s : LsmState} {read : UInt64} (writer : Writer s read) :
    writer.memTable.Shows read (s.mem.entries.filter fun e => decide (e.seqno ≤ read)) where
  never_stops _ := rfl
  seen n := by
    refine filter_insertEntries (fun e he => ?_) s.mem.entries
    exact decide_eq_false (UInt64.not_le.2 (writer.above e (List.mem_of_mem_take he)))

namespace MemTableIter

variable {q : QueryContext} {kept : List Entry}

/-- Two iterators over memtables of which the snapshot sees the same. -/
structure Twin (q : QueryContext) (kept : List Entry) (a b : MemTableIter) : Prop where
  left : a.mem.Shows q.readSeqno kept
  right : b.mem.Shows q.readSeqno kept
  cur : a.cur = b.cur
  status : a.status = b.status

/-- Where a move ends depends on what the snapshot sees only. -/
theorem moveBehind_shows {it : MemTableIter} (hmem : it.mem.Shows q.readSeqno kept)
    (bound : Option InternalKey) :
    Option.Rel (fun it' cur => it'.mem = it.mem ∧ it'.status = it.status ∧ it'.cur = cur)
      (it.moveBehind q bound) (firstPassing q (kept.filter (behind bound))) := by
  have hp (e : Entry) (he : decide (e.seqno ≤ q.readSeqno) = false) :
      q.rowPasses e = some false := by
    rw [QueryContext.rowPasses, if_pos (UInt64.not_le.1 (of_decide_eq_false he))]
  rcases findNextValidEntry_rel hp hmem.seen
    (show it.mem.size < it.mem.size + 1 + it.mem.upTo it.moves bound by omega) with
    hrel | ⟨moves, failure, k, -, hstop⟩
  · rw [moveBehind]
    generalize findNextValidEntry q it.mem _ _ _ = x, firstPassing q _ = y at hrel ⊢
    cases hrel with
    | none => exact .none
    | @some out cur hout =>
        obtain ⟨moves, out⟩ := out
        obtain rfl : out = .ok cur := hout
        exact .some ⟨rfl, rfl, rfl⟩
  · rw [hmem.never_stops] at hstop
    cases hstop

theorem Twin.moveBehind {a b : MemTableIter} (h : Twin q kept a b) (bound : Option InternalKey) :
    Option.Rel (Twin q kept) (a.moveBehind q bound) (b.moveBehind q bound) := by
  refine Lockstep.rel_of_common (moveBehind_shows h.left bound) (moveBehind_shows h.right bound) ?_
  rintro a' b' cur ⟨hmem, hstatus, rfl⟩ ⟨hmem', hstatus', hcur⟩
  exact ⟨hmem ▸ h.left, hmem' ▸ h.right, hcur.symm, by rw [hstatus, hstatus', h.status]⟩

theorem iter_respects : (iter q).Respects (Twin q kept) where
  head h := congrArg (Option.map _) h.cur
  status h := h.status
  next {a b} h := by
    show Option.Rel _ (a.cur.bind _) (b.cur.bind _)
    rw [h.cur]
    exact Lockstep.rel_bind (Lockstep.rel_refl (fun _ => rfl) b.cur) fun e _ heq => by
      rw [heq]
      exact h.moveBehind _
  seekToFirst h := h.moveBehind none

end MemTableIter

/-- The same child, or the active memtable beside two writers. -/
inductive ScanChild.Twin (q : QueryContext) (kept : List Entry) : ScanChild → ScanChild → Prop
  | same (child : ScanChild) : Twin q kept child child
  | memtable {a b : MemTableIter} : MemTableIter.Twin q kept a b →
      Twin q kept (.memtable a) (.memtable b)

theorem childIter_respects {opts : TableOptions} {q : QueryContext} {w : ScanWorld}
    {kept : List Entry} : (childIter opts q w).Respects (ScanChild.Twin q kept) where
  head h := by
    cases h with
    | same child => rfl
    | memtable h => exact MemTableIter.iter_respects.head h
  status h := by
    cases h with
    | same child => rfl
    | memtable h => exact MemTableIter.iter_respects.status h
  next h := by
    cases h with
    | same child => exact Lockstep.rel_refl .same _
    | memtable h => exact Lockstep.rel_map (MemTableIter.iter_respects.next h) fun _ _ => .memtable
  seekToFirst h := by
    cases h with
    | same child => exact Lockstep.rel_refl .same _
    | memtable h =>
        exact Lockstep.rel_map (MemTableIter.iter_respects.seekToFirst h) fun _ _ => .memtable

namespace MergingIter

variable {τ : Type} {c : MergeIter τ} {R : τ → τ → Prop}

/-- Two merges with related children. -/
structure Twin (R : τ → τ → Prop) (a b : MergingIter τ) : Prop where
  children : List.Forall₂ R a.children b.children
  heap : a.heap = b.heap
  status : a.status = b.status

variable (hc : c.Respects R)
include hc

theorem Twin.topChild (heapTop : HeapTop) {a b : MergingIter τ} (h : Twin R a b) :
    Option.Rel (fun x y => x.1 = y.1 ∧ R x.2 y.2) (a.topChild heapTop c)
      (b.topChild heapTop c) := by
  have hkeys : a.keys c = b.keys c := by
    rw [keys, keys, h.heap]
    congr 1
    funext i
    refine Lockstep.bind_eq (Lockstep.getElem?_rel h.children i) fun x y hxy => ?_
    rw [keyOf, keyOf, hc.head hxy]
  rw [MergingIter.topChild, MergingIter.topChild, hkeys, h.heap]
  cases b.keys c with
  | none => exact .none
  | some keys =>
      rw [Option.bind_some, Option.bind_some]
      cases b.heap[heapTop.top keys]? with
      | none => exact .none
      | some i =>
          exact Lockstep.rel_map (Lockstep.getElem?_rel h.children i) fun x y hxy => ⟨rfl, hxy⟩

theorem Twin.putBack {a b : MergingIter τ} (h : Twin R a b) (i : ℕ) {x y : τ} (hxy : R x y) :
    Twin R (a.putBack c i x) (b.putBack c i y) := by
  have hchildren := Lockstep.set_forall₂ h.children hxy i
  rw [MergingIter.putBack, MergingIter.putBack, hc.head hxy, hc.status hxy, h.heap]
  split
  · exact ⟨hchildren, rfl, h.status⟩
  · split
    · exact ⟨hchildren, rfl, rfl⟩
    · exact ⟨hchildren, rfl, h.status⟩

theorem seekChildren_rel {l l' : List τ} (h : List.Forall₂ R l l') (i : ℕ) :
    Option.Rel (fun x y => List.Forall₂ R x.1 y.1 ∧ x.2 = y.2) (seekChildren c i l)
      (seekChildren c i l') := by
  induction h generalizing i with
  | nil => exact .some ⟨.nil, rfl⟩
  | cons hab hrest ih =>
      rw [seekChildren, seekChildren]
      refine Lockstep.rel_bind (hc.seekToFirst hab) fun x y hxy => ?_
      rw [hc.head hxy, hc.status hxy]
      split
      · refine Lockstep.rel_map (ih (i + 1)) ?_
        rintro ⟨children, out⟩ ⟨children', _⟩ ⟨hchildren, rfl⟩
        exact ⟨.cons hxy hchildren, rfl⟩
      · split
        · exact .some ⟨.cons hxy hrest, rfl⟩
        · refine Lockstep.rel_map (ih (i + 1)) ?_
          rintro ⟨children, out⟩ ⟨children', _⟩ ⟨hchildren, rfl⟩
          exact ⟨.cons hxy hchildren, rfl⟩

theorem iter_respects (heapTop : HeapTop) : (iter heapTop c).Respects (Twin R) where
  head h := Lockstep.bind_eq (h.topChild hc heapTop) fun _ _ hxy => hc.head hxy.2
  status h := h.status
  next h := Lockstep.rel_bind (h.topChild hc heapTop) fun x y hxy =>
    Lockstep.rel_map (hc.next hxy.2) fun x' y' hxy' => by
      rw [hxy.1]
      exact h.putBack hc _ hxy'
  seekToFirst {a b} h := by
    show Option.Rel _ (MergingIter.seekToFirst c a) (MergingIter.seekToFirst c b)
    rw [MergingIter.seekToFirst, MergingIter.seekToFirst, h.status]
    split
    · exact .some ⟨h.children, rfl, rfl⟩
    · refine Lockstep.rel_map (seekChildren_rel hc h.children 0) ?_
      rintro ⟨children, heap, status⟩ ⟨children', heap', status'⟩ ⟨hchildren, hout⟩
      obtain ⟨rfl, rfl⟩ := Prod.mk.inj hout
      exact ⟨hchildren, rfl, rfl⟩

end MergingIter

/-! ### Batches -/

/-- Two environments that answer alike. -/
structure BatchEnv.Agrees (env env' : BatchEnv) : Prop where
  resultMode : env.resultMode = env'.resultMode
  authoritativeScan : env.authoritativeScan = env'.authoritativeScan
  judge : env.judge = env'.judge
  resolve : env.resolve = env'.resolve

namespace BatchEnv

variable {env env' : BatchEnv}

theorem judge_congr
    (hcheck : ∀ n key seqno level file (c : ShadowChecker),
      c.mayHaveNewerVersion env.reads env.findTable key seqno file env.readSeqno (env.lsmAt n) level =
        c.mayHaveNewerVersion env'.reads env'.findTable key seqno file env'.readSeqno (env'.lsmAt n) level) :
    env.judge = env'.judge := by
  funext cands
  induction cands with
  | nil => rfl
  | cons cand rest ih =>
      obtain ⟨key, seqno, level, file, shadowed⟩ := cand
      funext n c
      rw [judge, judge, ih, hcheck]

theorem resolve_congr (hfetch : env.fetch = env'.fetch) : env.resolve = env'.resolve := by
  funext n keys
  induction keys with
  | nil =>
      funext values dirty
      rw [resolve, resolve]
  | cons key keys ih =>
      funext values dirty
      cases dirty with
      | nil => rw [resolve, resolve]
      | cons d dirty =>
          cases d with
          | false =>
              cases values with
              | nil => rw [resolve, resolve]
              | cons value values => rw [resolve, resolve, ih]
          | true => cases values <;> rw [resolve, resolve, hfetch, ih]

end BatchEnv

theorem MergeIter.Respects.collectCandidates {σ : Type} {m : MergeIter σ} {R : σ → σ → Prop}
    (hm : m.Respects R) (mode : CandidateMode) (batchSize fuel : ℕ) {a b : σ} (h : R a b)
    (latest : Bytes) (c : Candidates) :
    Option.Rel (fun x y => R x.1 y.1 ∧ x.2 = y.2)
      (m.collectCandidates mode batchSize fuel a latest c)
      (m.collectCandidates mode batchSize fuel b latest c) := by
  induction fuel generalizing a b latest c with
  | zero => exact .none
  | succ fuel ih =>
      rw [MergeIter.collectCandidates, MergeIter.collectCandidates, hm.head h]
      cases m.head b with
      | none => exact .some ⟨h, rfl⟩
      | some row =>
          simp only []
          split
          · have hnext := hm.next h
            generalize m.next a = x, m.next b = y at hnext ⊢
            cases addRow mode latest c row with
            | none => cases hnext <;> exact .none
            | some out =>
                cases hnext with
                | none => exact .none
                | some hxy => exact ih hxy _ _
          · exact .some ⟨h, rfl⟩

namespace BatchIter

variable {σ : Type}

def withMerge (it : BatchIter σ) (merge : σ) : BatchIter σ := { it with merge }

/-- Two iterators that differ in the state of the merge only. -/
def Twin (R : σ → σ → Prop) (a b : BatchIter σ) : Prop :=
  ∃ x, R x b.merge ∧ a = b.withMerge x

variable {env env' : BatchEnv} {m : MergeIter σ} {R : σ → σ → Prop}

theorem judgeAll_withMerge (it : BatchIter σ) (merge : σ) (c : Candidates) :
    (it.withMerge merge).judgeAll env c =
      ((it.judgeAll env c).1, (it.judgeAll env c).2.withMerge merge) := by
  rw [judgeAll, judgeAll]
  by_cases hcheck : it.checkEnabled = true
  · rw [if_pos hcheck, if_pos (show (it.withMerge merge).checkEnabled = true from hcheck)]
    rfl
  · rw [if_neg hcheck, if_neg (show ¬(it.withMerge merge).checkEnabled = true from hcheck)]

theorem takeBatch_withMerge (it : BatchIter σ) (merge : σ) (c : Candidates) :
    takeBatch env (it.withMerge merge) c =
      (takeBatch env it c).map fun out => (out.1.withMerge merge, out.2) := by
  rw [takeBatch, takeBatch, judgeAll_withMerge]
  split
  · rfl
  · split
    · rfl
    · simp only [withMerge, Option.map_map]
      congr 1
      funext out
      cases out with
      | error failure => rfl
      | ok rows => rfl

theorem takeBatch_merge {it : BatchIter σ} {c : Candidates} {out : BatchIter σ × Option Failure}
    (h : takeBatch env it c = some out) : out.1.merge = it.merge := by
  have hsame := @takeBatch_withMerge σ env it it.merge c
  rw [show it.withMerge it.merge = it from rfl, h, Option.map_some] at hsame
  exact congrArg (fun out => out.1.merge) (Option.some.inj hsame)

theorem takeBatch_agrees (hagrees : env.Agrees env') (it : BatchIter σ) (c : Candidates) :
    takeBatch env it c = takeBatch env' it c := by
  rw [takeBatch, takeBatch, judgeAll, judgeAll, hagrees.resultMode, hagrees.authoritativeScan,
    hagrees.judge, hagrees.resolve]

variable (hagrees : env.Agrees env') (hm : m.Respects R)
include hagrees hm

theorem Twin.fetchLoop (fuel batchSize n : ℕ) {a b : BatchIter σ} (h : Twin R a b) :
    Option.Rel (Twin R) (fetchLoop env m fuel batchSize n a)
      (fetchLoop env' m fuel batchSize n b) := by
  induction n generalizing a b with
  | zero => exact .none
  | succ n ih =>
      obtain ⟨x, hx, rfl⟩ := h
      rw [BatchIter.fetchLoop, BatchIter.fetchLoop, hagrees.authoritativeScan]
      show Option.Rel _ (if b.batchKeys ≠ [] then _ else if m.head x = none then _ else _) _
      rw [hm.head hx]
      split
      · exact .some ⟨x, hx, rfl⟩
      split
      · exact .some ⟨x, hx, rfl⟩
      have hcollect := hm.collectCandidates ⟨env'.authoritativeScan, b.checkEnabled⟩ batchSize fuel
        hx b.latest {}
      dsimp only [withMerge]
      generalize m.collectCandidates _ batchSize fuel x b.latest {} = left,
        m.collectCandidates _ batchSize fuel b.merge b.latest {} = right at hcollect ⊢
      cases hcollect with
      | none => exact .none
      | @some left right hout =>
          obtain ⟨y, latest, c⟩ := left
          obtain ⟨z, latest', c'⟩ := right
          obtain ⟨hyz, heq⟩ := hout
          obtain ⟨rfl, rfl⟩ := Prod.mk.inj heq
          simp only [hm.status hyz]
          split
          · exact .some ⟨y, hyz, rfl⟩
          split
          · exact .some ⟨y, hyz, rfl⟩
          have htake : takeBatch env { b with merge := y, latest } c =
              (takeBatch env' { b with merge := z, latest } c).map fun out =>
                (out.1.withMerge y, out.2) := by
            rw [← takeBatch_withMerge, takeBatch_agrees hagrees]
            rfl
          rw [htake]
          cases htaken : takeBatch env' { b with merge := z, latest } c with
          | none => exact .none
          | some out =>
              have hmerge : out.1.merge = z := takeBatch_merge htaken
              obtain ⟨it, failed⟩ := out
              have hit : R y it.merge := by
                rw [show it.merge = z from hmerge]
                exact hyz
              cases failed with
              | some failure => exact .some ⟨y, hit, rfl⟩
              | none => exact ih ⟨y, hit, rfl⟩

theorem Twin.fetchNextBatch (fuel batchSize : ℕ) {a b : BatchIter σ} (h : Twin R a b) :
    Option.Rel (Twin R) (a.fetchNextBatch env m fuel batchSize)
      (b.fetchNextBatch env' m fuel batchSize) := by
  obtain ⟨x, hx, rfl⟩ := h
  rw [BatchIter.fetchNextBatch, BatchIter.fetchNextBatch]
  show Option.Rel _ (if m.status x ≠ .ok then some { b.withMerge x with
    batchKeys := [], batchValues := [], batchCurIdx := 0, valid := false, status := m.status x }
    else _) _
  rw [hm.status hx]
  split
  · exact .some ⟨x, hx, rfl⟩
  · exact Twin.fetchLoop hagrees hm _ _ _ ⟨x, hx, rfl⟩

theorem Twin.step (fuel : ℕ) (call : Call) {a b : BatchIter σ} (h : Twin R a b) :
    Option.Rel (Twin R) (step env m fuel call a) (step env' m fuel call b) := by
  obtain ⟨x, hx, rfl⟩ := h
  cases call with
  | seekToFirst =>
      exact Lockstep.rel_bind (hm.seekToFirst hx) fun y z hyz =>
        Twin.fetchNextBatch hagrees hm _ _ ⟨y, hyz, rfl⟩
  | next =>
      show Option.Rel _ (if b.valid = true then (b.withMerge x).next env m fuel else none)
        (if b.valid = true then b.next env' m fuel else none)
      split
      · rw [BatchIter.next, BatchIter.next]
        show Option.Rel _ (if b.batchKeys.length ≤ b.batchCurIdx + 1 then _ else _) _
        split
        · exact Twin.fetchNextBatch hagrees hm _ _ ⟨x, hx, rfl⟩
        · exact .some ⟨x, hx, rfl⟩
      · exact .none

end BatchIter

/-! ### Scans beside writers -/

section Scans

variable {cfg : ScanConfig} {s : LsmState} {w : ScanWorld}
  {getFails : ℕ → Bytes → Option Failure}

theorem ScanConfig.context_readSeqno {q : QueryContext} (h : cfg.context s = some q) :
    q.readSeqno = cfg.readSeqno := by
  rw [context] at h
  split at h <;>
  · obtain ⟨compiled, -, h⟩ := Option.bind_eq_some_iff.1 h
    obtain ⟨sabiQuery, -, h⟩ := Option.bind_eq_some_iff.1 h
    obtain rfl := Option.some.inj h
    rfl

theorem openLevel0_congr {opts : TableOptions} {q : QueryContext} {w' : ScanWorld}
    (h : w.tables = w'.tables) (files : List SstFile) :
    openLevel0 opts q w files = openLevel0 opts q w' files := by
  induction files with
  | nil => rfl
  | cons f rest ih => rw [openLevel0, openLevel0, ScanWorld.openTable, ScanWorld.openTable, h, ih]

theorem Writer.above_take (writer : Writer s cfg.readSeqno) (n : ℕ) :
    ∀ e ∈ writer.writes.take n, cfg.readSeqno < e.seqno :=
  fun e he => writer.above e (List.mem_of_mem_take he)

/-- What the snapshot sees of the active memtable. -/
def ScanConfig.memSeen (cfg : ScanConfig) (s : LsmState) : List Entry :=
  s.mem.entries.filter fun e => decide (e.seqno ≤ cfg.readSeqno)

/-- The checks and the lookups are those beside no writer. -/
theorem batchEnv_agrees (writer : Writer s cfg.readSeqno) (q : QueryContext) :
    (cfg.batchEnv s (w.beside writer getFails) q).Agrees
      (cfg.batchEnv s (w.beside writer.idle getFails) q) where
  resultMode := rfl
  authoritativeScan := rfl
  judge := BatchEnv.judge_congr fun n key seqno level file c =>
    (mayHaveNewerVersion_written (writer.above_take _) w.reads w.findTable key seqno file level c).trans
      (mayHaveNewerVersion_written (writer.idle.above_take _) w.reads w.findTable key seqno file level
        c).symm
  resolve := by
    refine BatchEnv.resolve_congr ?_
    have hget : (w.beside writer getFails).multiGet = (w.beside writer.idle getFails).multiGet := by
      funext n k
      simp only [ScanWorld.beside, LsmState.get_written (writer.above_take _),
        LsmState.get_written (writer.idle.above_take _)]
    funext n k
    exact BatchEnv.fetch_congr (congrFun (congrFun hget n) k) rfl

theorem openMerge_twin (writer : Writer s cfg.readSeqno) {q : QueryContext}
    (hread : q.readSeqno = cfg.readSeqno) :
    Option.Rel (MergingIter.Twin (ScanChild.Twin q (cfg.memSeen s)))
      (openMerge cfg.table q (w.beside writer getFails) s)
      (openMerge cfg.table q (w.beside writer.idle getFails) s) := by
  have htwin : MemTableIter.Twin q (cfg.memSeen s) { mem := writer.memTable }
      { mem := writer.idle.memTable } := by
    refine ⟨?_, ?_, rfl, rfl⟩
    · rw [hread]
      exact writer.memTable_shows
    · rw [hread]
      exact writer.idle.memTable_shows
  have hlevel0 (writer : Writer s cfg.readSeqno) : openLevel0 cfg.table q (w.beside writer getFails)
      s.level0 = openLevel0 cfg.table q w s.level0 :=
    openLevel0_congr (show (w.beside writer getFails).tables = w.tables from rfl) _
  rw [openMerge, openMerge, hlevel0, hlevel0]
  refine Lockstep.rel_map (Lockstep.rel_refl (R := Eq) (fun _ => rfl) _) ?_
  rintro ⟨tables, status⟩ _ rfl
  refine ⟨.cons (.memtable htwin) ?_, rfl, rfl⟩
  exact List.forall₂_same.2 fun child _ => .same child

end Scans

/-- Whatever is written above the snapshot while a scan is open, and whenever,
the scan stands on the same row with the same status after the same calls. -/
theorem scan_unaffected_by_writer (cfg : ScanConfig) (s : LsmState) (w : ScanWorld)
    (getFails : ℕ → Bytes → Option Failure) (writer : Writer s cfg.readSeqno) (fuel : ℕ)
    (calls : List BatchIter.Call) :
    ((cfg.openScan s (w.beside writer getFails)).bind fun scan =>
        (scan.run fuel calls).map fun it => (it.current, it.status)) =
      ((cfg.openScan s (w.beside writer.idle getFails)).bind fun scan =>
        (scan.run fuel calls).map fun it => (it.current, it.status)) := by
  rw [ScanConfig.openScan, ScanConfig.openScan]
  cases hcontext : cfg.context s with
  | none => rfl
  | some q =>
      rw [Option.bind_some, Option.bind_some, Option.bind_map, Option.bind_map]
      refine Lockstep.bind_eq (openMerge_twin writer (cfg.context_readSeqno hcontext)) ?_
      intro merging merging' htwin
      have hmerge : (MergingIter.iter cfg.heapTop (childIter cfg.table q w)).Respects
          (MergingIter.Twin (ScanChild.Twin q (cfg.memSeen s))) :=
        MergingIter.iter_respects childIter_respects cfg.heapTop
      have hagrees : (cfg.batchEnv s (w.beside writer getFails) q).Agrees
        (cfg.batchEnv s (w.beside writer.idle getFails) q) := batchEnv_agrees writer q
      have hstart : BatchIter.Twin (MergingIter.Twin (ScanChild.Twin q (cfg.memSeen s)))
          { merge := merging, checkEnabled := cfg.checkEnabled s }
          { merge := merging', checkEnabled := cfg.checkEnabled s } := ⟨merging, htwin, rfl⟩
      have hrun := Lockstep.run_rel
        (fun call a b => BatchIter.Twin.step hagrees hmerge fuel call) hstart calls
      refine Lockstep.map_eq hrun ?_
      rintro a b ⟨x, -, rfl⟩
      rfl

/-! Three entries in the memtable over the four keys, one of them above the
snapshot, while a writer deletes one key and overwrites two. -/

def busyState : LsmState :=
  { fourKeysState with
    mem := ⟨[⟨[2], 12, .value, [25]⟩, ⟨[3], 35, .value, [31]⟩, ⟨[4], 14, .deletion, []⟩], []⟩ }

/-- One more write is in at each move of the cursor and before each lookup, and
all of them are at the shadow checks. -/
def busyWriter : Writer busyState 30 where
  writes := [⟨[2], 40, .deletion, []⟩, ⟨[3], 41, .value, [32]⟩, ⟨[1], 42, .value, [11]⟩]
  above := by decide
  sorted := by decide
  fresh := by decide
  atMove n := n
  atMove_mono := monotone_id
  atCheck _ := 3
  atGet n := n + 1

/-- The writes are in while the scan moves, and it stands on the same rows. -/
theorem scan_unaffected_by_writer_busy :
    busyWriter.memTable.contents 1 ≠ busyWriter.memTable.contents 0 ∧
    ∀ calls,
      ((((scanAll .verified 2).openScan busyState
          ((fourKeysState_shape.calmWorld 30).beside busyWriter fun _ _ => none)).bind fun scan =>
            (scan.run 20 calls).map fun it => (it.current, it.status)) =
        ((scanAll .verified 2).openScan busyState
          ((fourKeysState_shape.calmWorld 30).beside busyWriter.idle fun _ _ => none)).bind
            fun scan => (scan.run 20 calls).map fun it => (it.current, it.status)) ∧
      (calls = [.seekToFirst, .next] →
        (((scanAll .verified 2).openScan busyState
          ((fourKeysState_shape.calmWorld 30).beside busyWriter fun _ _ => none)).bind fun scan =>
            (scan.run 20 calls).map fun it => (it.current, it.status)) =
          some (some ([2], some [25]), .ok)) := by
  refine ⟨by decide, fun calls => ?_⟩
  have hsame := scan_unaffected_by_writer (scanAll .verified 2) busyState
    (fourKeysState_shape.calmWorld 30) (fun _ _ => none) busyWriter 20 calls
  refine ⟨hsame, ?_⟩
  rintro rfl
  exact hsame.trans (by decide +kernel)

end BitLSM
