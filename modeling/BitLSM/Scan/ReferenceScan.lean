import BitLSM.Scan.MergedRows

/-!
A scan against the reference database.

The reference answers a key with its newest version at the snapshot. In
verified mode a scan hands out exactly the keys whose answer the query
accepts, in candidate mode it hands out all of them and possibly more. A
scan around which something fails hands out a part of that and does not end
with an OK status.
-/

namespace BitLSM

open Wire TableScan

/-! ### Tree, configuration and surroundings -/

/-- No Put of a file is covered by a newer tombstone of the same file that the
snapshot sees. -/
def LsmState.NoOwnTombstones (s : LsmState) (read : UInt64) : Prop :=
  ∀ f ∈ s.files, ∀ e ∈ f.rows, e.type = .value → ∀ t ∈ f.rangeDels, t.Covers e.userKey →
    e.seqno < t.seqno → ¬t.seqno ≤ read

/-- The scan is of a tree it can read. -/
structure ScanConfig.Scannable (cfg : ScanConfig) (s : LsmState) : Prop where
  shape : s.Shape
  valid : cfg.Valid
  built : ∀ f ∈ s.files, ∃ rho, f.Built cfg.table cfg.options rho
  snapshot : cfg.resultMode = .verified → cfg.readSeqno < kMaxSequenceNumber
  tombstones : cfg.resultMode = .verified → s.NoOwnTombstones cfg.readSeqno

namespace ScanWorld

variable (cfg : ScanConfig) (s : LsmState) (w : ScanWorld)

/-- Nothing is written while the scan is open, and a lookup that does not fail
brings the newest version. -/
structure Still : Prop where
  memtables : List.Forall₂ (fun (m : LiveMemTable) (v : Versions) => ∀ n, m.contents n = v.entries)
    (w.mem :: w.imm) (s.mem :: s.imm)
  lsm : ∀ n, w.lsmAt n = s
  calls : ∀ level n, ∀ f ∈ s.files, (w.tables level n f).CallsInRange cfg.table f
  found : ∀ n k value, w.multiGet n k = .ok value →
    s.versions.get k cfg.readSeqno = some value
  notFound : ∀ n k msg h, w.multiGet n k = .error ⟨.notFound msg, h⟩ →
    s.versions.get k cfg.readSeqno = none

/-- A memtable, a table or a lookup fails. A key that is not found is not a
failure, and neither is a table the shadow check cannot open. -/
def Fails : Prop :=
  (∃ m ∈ w.mem :: w.imm, ∃ n, m.stops n ≠ none) ∨
    (∃ q, cfg.context s = some q ∧ ∃ level n, ∃ f ∈ s.files,
      (w.tables level n f).Fails cfg.table q f) ∨
    ∃ n k, ∃ failure : Failure, w.multiGet n k = .error failure ∧
      ∀ msg, failure.1 ≠ .notFound msg

end ScanWorld

/-- The answer of the reference to a key. -/
def ScanConfig.answer (cfg : ScanConfig) (s : LsmState) (k : Bytes) : Option Bytes :=
  (s.versions.get k cfg.readSeqno).filter cfg.accepts

theorem ScanConfig.answer_eq_some {cfg : ScanConfig} {s : LsmState} {k value : Bytes} :
    cfg.answer s k = some value ↔
      s.versions.get k cfg.readSeqno = some value ∧ cfg.accepts value = true :=
  Option.filter_eq_some_iff

/-- What a candidate turns into. -/
def ScanConfig.verdict (cfg : ScanConfig) (s : LsmState) (r : SourceRow) :
    Option (Bytes × Option Bytes) :=
  match cfg.resultMode with
  | .candidate => some (r.entry.userKey, none)
  | .verified => (cfg.answer s r.entry.userKey).map fun value => (r.entry.userKey, some value)

/-! ### Rows that are the answer -/

theorem LsmState.eq_zero_of_allZeroed {s : LsmState} (hs : s.Shape) (hzero : s.allZeroed = true)
    {k : Bytes} {n : ℕ} (hhas : s.versions.Has k n) : n = 0 := by
  simp only [allZeroed, Bool.and_eq_true, List.isEmpty_iff] at hzero
  obtain ⟨⟨⟨⟨hentries, hdels⟩, himm⟩, hlevel0⟩, hfiles⟩ := hzero
  obtain ⟨p, hp, hhas⟩ := Versions.has_join.1 hhas
  rw [places, himm, hlevel0, List.map_nil, List.nil_append, List.singleton_append,
    List.mem_cons] at hp
  rcases hp with rfl | hp
  · rcases hhas with ⟨e, he, -⟩ | ⟨t, ht, -⟩
    · rw [hentries] at he
      cases he
    · rw [hdels] at ht
      cases ht
  obtain ⟨files, hmem, rfl⟩ := List.mem_map.1 hp
  obtain ⟨v, hv, hhas⟩ := Versions.has_join.1 hhas
  obtain ⟨f, hf, rfl⟩ := List.mem_map.1 hv
  have hnonempty : files ∈ s.levels.tail.filter fun files => !files.isEmpty := by
    refine List.mem_filter.2 ⟨hmem, ?_⟩
    simpa using List.ne_nil_of_mem hf
  split at hfiles
  · next only hone =>
      rw [hone, List.mem_singleton] at hnonempty
      subst hnonempty
      have hseqno : f.largestSeqno = 0 := by simpa using List.all_eq_true.1 hfiles f hf
      have hle := (hs.files f (mem_files_of_level (List.mem_of_mem_tail hmem) hf)).seqno_le k n hhas
      rw [hseqno] at hle
      simpa using hle
  · cases hfiles

section Answer

variable {cfg : ScanConfig} {s : LsmState} {q : QueryContext} {ids : SstFile → List ℕ}

/-- A version nothing is newer than is the answer, if it passes the filters. -/
theorem ScanConfig.answer_of_newest (hs : s.Shape) (hmode : cfg.resultMode = .verified)
    {e : Entry} (he : e ∈ s.versions.entries) (hpass : cfg.Passes e)
    (hnewest : ∀ n, s.versions.Has e.userKey n → n ≤ cfg.readSeqno.toNat → n ≤ e.seqno.toNat) :
    cfg.answer s e.userKey = some e.value := by
  obtain ⟨hread, htype, haccepts⟩ := hpass
  exact answer_eq_some.2 ⟨hs.get_eq_some_iff.2 ⟨e, he, rfl, htype, rfl, hread, hnewest⟩,
    haccepts hmode⟩

/-- A row whose source reports nothing newer is the newest there. -/
theorem LsmState.Origin.newest {r : SourceRow} (hs : s.Shape) {interval : ℕ}
    (hinterval : ∀ f ∈ s.files, ∀ b ∈ f.blocks, b.SeekableBy interval)
    (h : s.Origin q interval ids r) (hflag : r.hasNewer = false) :
    s.NewestInSource r.entry r.sourceLevel r.sourceFile := by
  cases h with
  | memtable hm he => exact .memtable hm he
  | @table level files f _ hlevel hf hr =>
      have hfile := mem_files_of_level (List.mem_of_getElem? hlevel) hf
      have hmax := SstFile.newest_of_scanRows (hs.files f hfile) (hinterval f hfile) hr hflag
      obtain ⟨id, -, e, he, -, rfl⟩ := SstFile.mem_scanRows.1 hr
      exact .table hlevel hf (List.mem_of_getElem? he) hmax

theorem LsmState.Origin.not_shadowed {r : SourceRow} (hs : s.Shape)
    (hown : s.NoOwnTombstones cfg.readSeqno) (hq : cfg.Means q) {interval : ℕ}
    (h : s.Origin q interval ids r) :
    ¬s.ShadowedInSource cfg.readSeqno r.entry r.sourceLevel r.sourceFile := by
  rintro ⟨hlevel, g, hg, hnumber, t, ht, hcov, hlt, hle⟩
  cases h with
  | memtable => exact hlevel rfl
  | @table level files f _ hfiles hf hr =>
      obtain ⟨id, -, e, he, hpass, rfl⟩ := SstFile.mem_scanRows.1 hr
      have hfile := mem_files_of_level (List.mem_of_getElem? hfiles) hf
      obtain rfl := hs.numbers g hg f hfile hnumber
      exact hown g hg e (List.mem_of_getElem? he) (hq.passes_iff.1 hpass).2.1 t ht hcov hlt hle

end Answer

/-! ### The rows of the merge -/

/-- The rows of a scan: what the indexes select, merged. -/
structure ScanConfig.Merged (cfg : ScanConfig) (s : LsmState) (q : QueryContext)
    (ids : SstFile → List ℕ) (rows : List SourceRow) : Prop where
  means : cfg.Means q
  selects : ∀ f ∈ s.files, f.Selects cfg.options cfg.query (ids f)
  merges : SortedMerge.Merges (fun r : SourceRow => r.entry.key)
    (s.scanLists q cfg.table.interval ids) rows

namespace ScanConfig.Merged

variable {cfg : ScanConfig} {s : LsmState} {q : QueryContext} {ids : SstFile → List ℕ}
  {rows : List SourceRow} (h : cfg.Merged s q ids rows)
include h

theorem origin {r : SourceRow} (hr : r ∈ rows) : s.Origin q cfg.table.interval ids r :=
  LsmState.mem_scanLists.1 (h.merges.perm.subset hr)

theorem passes {r : SourceRow} (hr : r ∈ rows) :
    r.entry ∈ s.versions.entries ∧ cfg.Passes r.entry := by
  obtain ⟨hmem, hpass⟩ := (h.origin hr).entry_mem
  exact ⟨hmem, h.means.passes_iff.1 hpass⟩

theorem sorted : SortedByInternalKey (rows.map SourceRow.entry) := by
  refine List.pairwise_map.2 (h.merges.sorted.imp fun {a b} hlt => ?_)
  exact (InternalKey.lt_iff.1 hlt).imp_right fun h => ⟨h.1, UInt64.le_iff_toNat_le.2 h.2.le⟩

/-- A Put the snapshot sees and the query accepts is among the rows. -/
theorem complete {e : Entry} (he : e ∈ s.versions.entries)
    (hread : e.seqno.toNat ≤ cfg.readSeqno.toNat) (htype : e.type = .value)
    (haccepts : cfg.accepts e.value = true) : ∃ r ∈ rows, r.entry = e := by
  have hpass : q.passes e = true := h.means.passes_iff.2 ⟨hread, htype, fun _ => haccepts⟩
  have hmem {r : SourceRow} (hr : s.Origin q cfg.table.interval ids r) : r ∈ rows :=
    h.merges.perm.symm.subset (LsmState.mem_scanLists.2 hr)
  rcases LsmState.mem_versions_entries.1 he with ⟨m, hm, he⟩ | ⟨level, files, hlevel, f, hf, he⟩
  · exact ⟨MemTableIter.row e, hmem (.memtable hm he hpass), rfl⟩
  · obtain ⟨id, hid⟩ := List.mem_iff_getElem?.1 he
    have hselects := h.selects f (LsmState.mem_files_of_level (List.mem_of_getElem? hlevel) hf)
    have hin : id ∈ ids f := hselects.complete id e hid htype (by simpa [accepts] using haccepts)
    exact ⟨_, hmem (.table hlevel hf (SstFile.mem_scanRows.2 ⟨id, hin, e, hid, hpass, rfl⟩)), rfl⟩

/-- The candidates ascend, none has the empty key. -/
theorem dedup_ascending :
    (∀ r ∈ dedup [] rows, r.entry.userKey ≠ []) ∧
      (dedup [] rows).Pairwise fun a b => a.entry.userKey < b.entry.userKey := by
  obtain ⟨habove, hpairwise⟩ :=
    BitLSM.dedup_ascending h.sorted fun r _ => not_lt.1 (List.not_lt_nil r.entry.userKey)
  exact ⟨fun r hr => (habove r hr).ne', hpairwise⟩

/-- Every other key of the rows has a candidate. -/
theorem exists_candidate {r : SourceRow} (hr : r ∈ rows) (hne : r.entry.userKey ≠ []) :
    ∃ x ∈ dedup [] rows, x.entry.userKey = r.entry.userKey := by
  rw [dedup_nil h.sorted]
  exact exists_mem_firstVersions (List.mem_filter.2 ⟨hr, decide_eq_true hne⟩)

/-- The keys handed out ascend. -/
theorem verdicts_ascending :
    (((dedup [] rows).filterMap (cfg.verdict s)).map Prod.fst).Pairwise (· < ·) := by
  have hkey {r : SourceRow} {x : Bytes × Option Bytes} (hx : cfg.verdict s r = some x) :
      x.1 = r.entry.userKey := by
    rw [verdict] at hx
    split at hx
    · exact (Option.some.inj hx) ▸ rfl
    · obtain ⟨value, -, rfl⟩ := Option.map_eq_some_iff.1 hx
      rfl
  rw [List.pairwise_map, List.pairwise_filterMap]
  refine h.dedup_ascending.2.imp fun {a b} hlt x hx y hy => ?_
  rw [hkey hx, hkey hy]
  exact hlt

/-- In verified mode the verdicts are the reference's answers. -/
theorem mem_verdicts_verified (hs : s.Shape) (hmode : cfg.resultMode = .verified) {k : Bytes}
    {x : Option Bytes} : (k, x) ∈ (dedup [] rows).filterMap (cfg.verdict s) ↔
      k ≠ [] ∧ ∃ value, x = some value ∧ cfg.answer s k = some value := by
  have hverdict (r : SourceRow) : cfg.verdict s r =
      (cfg.answer s r.entry.userKey).map fun value => (r.entry.userKey, some value) := by
    rw [verdict, hmode]
  simp only [List.mem_filterMap, hverdict, Option.map_eq_some_iff, Prod.mk.injEq]
  constructor
  · rintro ⟨r, hr, value, hanswer, rfl, rfl⟩
    exact ⟨h.dedup_ascending.1 r hr, value, rfl, hanswer⟩
  · rintro ⟨hne, value, rfl, hanswer⟩
    obtain ⟨hget, haccepts⟩ := answer_eq_some.1 hanswer
    obtain ⟨e, he, rfl, htype, rfl, hread, -⟩ := hs.get_eq_some_iff.1 hget
    obtain ⟨r, hr, rfl⟩ := h.complete he hread htype haccepts
    obtain ⟨c, hc, hkey⟩ := h.exists_candidate hr hne
    exact ⟨c, hc, r.entry.value, by rw [hkey]; exact hanswer, hkey, rfl⟩

omit h in
theorem mem_verdicts_candidate (hmode : cfg.resultMode = .candidate) {k : Bytes}
    {x : Option Bytes} : (k, x) ∈ (dedup [] rows).filterMap (cfg.verdict s) ↔
      x = none ∧ ∃ r ∈ dedup [] rows, r.entry.userKey = k := by
  have hverdict (r : SourceRow) : cfg.verdict s r = some (r.entry.userKey, none) := by
    rw [verdict, hmode]
  simp only [List.mem_filterMap, hverdict, Option.some.injEq, Prod.mk.injEq]
  constructor
  · rintro ⟨r, hr, rfl, rfl⟩
    exact ⟨rfl, r, hr, rfl⟩
  · rintro ⟨rfl, r, hr, rfl⟩
    exact ⟨r, hr, rfl, rfl⟩

end ScanConfig.Merged

/-! ### The scan -/

/-- Started at any moment of a consumer's run, the scan hands out `full`, or a
part of it and ends on a failure. -/
def OpenScan.Drains (scan : OpenScan) (bound : ℕ) (faulty : Prop)
    (full : List (Bytes × Option Bytes)) : Prop :=
  ∀ fuel, bound < fuel → ∀ calls it, scan.run fuel calls = some it →
    ∃ it' emitted final, scan.seekToFirst fuel it = some it' ∧
      (scan.cursor fuel).Yields it' emitted final ∧ emitted <+: full ∧
      (final.status = .ok → emitted = full) ∧ (final.status ≠ .ok → faulty)

theorem OpenScan.Drains.of_calm {scan : OpenScan} {bound : ℕ} {faulty : Prop}
    {full : List (Bytes × Option Bytes)} (h : scan.Drains bound faulty full) (hcalm : ¬faulty)
    {fuel : ℕ} (hfuel : bound < fuel) {calls : List BatchIter.Call}
    {it : BatchIter (MergingIter ScanChild)} (hrun : scan.run fuel calls = some it) :
    ∃ it' final, scan.seekToFirst fuel it = some it' ∧
      (scan.cursor fuel).Yields it' full final ∧ final.status = .ok := by
  obtain ⟨it', emitted, final, hseek, hyields, -, hall, hfails⟩ := h fuel hfuel calls it hrun
  have hok : final.status = .ok := by
    by_contra hne
    exact hcalm (hfails hne)
  obtain rfl := hall hok
  exact ⟨it', final, hseek, hyields, hok⟩

section Scan

variable {cfg : ScanConfig} {s : LsmState} {w : ScanWorld} {q : QueryContext}
  {ids : SstFile → List ℕ} {rows : List SourceRow}

theorem ScanConfig.Scannable.interval (h : cfg.Scannable s) :
    ∀ f ∈ s.files, ∀ b ∈ f.blocks, b.SeekableBy cfg.table.interval := by
  intro f hf
  obtain ⟨rho, hbuilt⟩ := h.built f hf
  exact hbuilt.interval

/-- The check and the lookup give the reference's answer. -/
theorem ScanConfig.Scannable.answers (h : cfg.Scannable s) (hw : w.Still cfg s)
    (hrows : cfg.Merged s q ids rows) :
    (cfg.batchEnv s w q).Answers (w.Fails cfg s) (cfg.answer s) rows where
  clean := by
    rintro ⟨hmode, -⟩ r hr hflag n c c' hcheck
    have hcheck' : c.mayHaveNewerVersion w.reads w.findTable r.entry.userKey r.entry.seqno r.sourceFile
        cfg.readSeqno s r.sourceLevel = (false, c') := by
      rw [← hw.lsm n]
      exact hcheck
    have horigin := hrows.origin hr
    obtain ⟨hmem, hpass⟩ := hrows.passes hr
    refine answer_of_newest h.shape hmode hmem hpass fun n hhas hn => ?_
    obtain ⟨p, hp, hhas⟩ := Versions.has_join.1 hhas
    exact h.shape.nothing_newer (h.snapshot hmode) (horigin.newest h.shape h.interval hflag)
      hcheck' (horigin.not_shadowed h.shape (h.tombstones hmode) hrows.means) hp hhas hn
  fetch := by
    rintro ⟨hmode, -⟩ r hr n
    obtain ⟨cq, hcq, heval⟩ := hrows.means.verified hmode
    cases hget : w.multiGet n r.entry.userKey with
    | ok value =>
        refine Or.inl ((BatchEnv.fetch_found _ hget hcq (heval value)).trans ?_)
        rw [answer, hw.found n _ value hget, Option.filter_some]
    | error failure =>
        by_cases hmissing : ∃ msg, failure.1 = .notFound msg
        · obtain ⟨status, hstatus⟩ := failure
          obtain ⟨msg, rfl⟩ := hmissing
          refine Or.inl ((BatchEnv.fetch_notFound _ hget).trans ?_)
          rw [answer, hw.notFound n _ msg _ hget]
          rfl
        · rw [not_exists] at hmissing
          exact Or.inr ⟨failure, BatchEnv.fetch_failed _ hget hmissing,
            Or.inr (Or.inr ⟨n, _, failure, hget, hmissing⟩)⟩

/-- However a candidate is judged, the verdict is that of the reference. -/
theorem ScanConfig.Scannable.verdict_eq (h : cfg.Scannable s) (hrows : cfg.Merged s q ids rows)
    {r : SourceRow} (hr : r ∈ rows) :
    (cfg.batchEnv s w q).verdict (cfg.answer s) r = cfg.verdict s r := by
  rw [BatchEnv.verdict, ScanConfig.verdict]
  cases hmode : cfg.resultMode with
  | candidate => exact if_pos hmode
  | verified =>
      have hmode' : ¬(cfg.batchEnv s w q).resultMode = .candidate := by
        show ¬cfg.resultMode = .candidate
        rw [hmode]
        decide
      rw [if_neg hmode']
      split
      · -- an authoritative scan: every version has number zero
        next hauth =>
          have hzero : s.allZeroed = true := by
            have hall : cfg.authoritativeScan s = true := hauth
            rw [authoritativeScan, Bool.and_eq_true] at hall
            exact hall.2
          obtain ⟨hmem, hpass⟩ := hrows.passes hr
          rw [answer_of_newest h.shape hmode hmem hpass fun n hhas _ => by
            rw [LsmState.eq_zero_of_allZeroed h.shape hzero hhas]
            exact Nat.zero_le _]
          rfl
      · rfl

/-- The rows of a scan do not depend on what happens around it. -/
theorem ScanConfig.Scannable.exists_rows (h : cfg.Scannable s) :
    ∃ q ids rows, cfg.context s = some q ∧ q.track = cfg.checkEnabled s ∧
      cfg.Merged s q ids rows ∧ ∀ w : ScanWorld, w.Still cfg s →
        ∀ f ∈ s.files, OpensRows cfg.table q w (w.Fails cfg s)
          (fun level f => f.scanRows level cfg.table.interval q (ids f)) f := by
  obtain ⟨q, hcontext, hmeans, htrack⟩ := h.valid.exists_context s
  have hfile (f : SstFile) (hf : f ∈ s.files) : ∃ ids, f.Selects cfg.options cfg.query ids ∧
      ∀ w : ScanWorld, w.Still cfg s → OpensRows cfg.table q w (w.Fails cfg s)
        (fun level f => f.scanRows level cfg.table.interval q ids) f := by
    obtain ⟨rho, hbuilt⟩ := h.built f hf
    obtain ⟨ids, hselects, hopens⟩ :=
      hbuilt.exists_ids h.valid.schema h.valid.query hmeans.encoded hmeans.total
    refine ⟨ids, hselects, fun w hw level n => ?_⟩
    exact hopens level (w.tables level n f) (w.Fails cfg s) (hw.calls level n f hf)
      fun hfails => Or.inr (Or.inl ⟨q, hcontext, level, n, f, hf, hfails⟩)
  choose! ids hselects hopens using hfile
  obtain ⟨rows, hmerges⟩ : ∃ rows, SortedMerge.Merges (fun r : SourceRow => r.entry.key)
      (s.scanLists q cfg.table.interval ids) rows :=
    h.shape.exists_scanMerge fun f hf => (hselects f hf).sorted
  exact ⟨q, ids, rows, hcontext, htrack, ⟨hmeans, hselects, hmerges⟩,
    fun w hw f hf => hopens f hf w hw⟩

theorem ScanWorld.Still.stable (hw : w.Still cfg s) (hq : q.Total) :
    ∀ m ∈ w.mem :: w.imm, m.Stable q := by
  have hmems := hw.memtables
  generalize w.mem :: w.imm = mems, s.mem :: s.imm = vs at hmems ⊢
  induction hmems with
  | nil => simp
  | cons hcontents _ ih =>
      refine List.forall_mem_cons.2 ⟨⟨hq, fun n => ?_⟩, ih⟩
      rw [LiveMemTable.rows, hcontents n, hcontents 0]

theorem ScanWorld.Still.rows_eq (hw : w.Still cfg s) (q : QueryContext) :
    (w.mem :: w.imm).map (fun m => m.rows q) =
      (s.mem :: s.imm).map fun m => m.entries.filter q.passes := by
  rw [← List.forall₂_eq_eq_eq, List.forall₂_map_left_iff, List.forall₂_map_right_iff]
  exact hw.memtables.imp fun m v hcontents => by rw [LiveMemTable.rows, hcontents 0]

/-- A scan opens, and what it hands out depends on what happens around it in
how far it gets only. -/
theorem ScanConfig.Scannable.exists_scan (h : cfg.Scannable s) :
    ∃ q ids rows, cfg.Merged s q ids rows ∧ ∀ w : ScanWorld, w.Still cfg s →
      ∃ scan, cfg.openScan s w = some scan ∧
        scan.Drains rows.length (w.Fails cfg s) ((dedup [] rows).filterMap (cfg.verdict s)) := by
  obtain ⟨q, ids, rows, hcontext, htrack, hrows, hopens⟩ := h.exists_rows
  refine ⟨q, ids, rows, hrows, fun w hw => ?_⟩
  have hmems (m : LiveMemTable) (hm : m ∈ w.mem :: w.imm) : m.Stable q ∧
      ∀ n failure, m.stops n = some failure → w.Fails cfg s :=
    ⟨hw.stable hrows.means.total m hm, fun n failure hstop =>
      Or.inl ⟨m, hm, n, by rw [hstop]; exact Option.some_ne_none _⟩⟩
  obtain ⟨merging, hopen, hready⟩ := openMerge_ready hmems (hopens w hw)
  rw [hw.rows_eq q] at hready
  set start : BatchIter (MergingIter ScanChild) :=
    { merge := merging, checkEnabled := cfg.checkEnabled s }
  refine ⟨⟨cfg.batchEnv s w q, MergingIter.iter cfg.heapTop (childIter cfg.table q w), start⟩,
    ?_, ?_⟩
  · rw [openScan, hcontext, Option.bind_some, hopen]
    rfl
  · intro fuel hfuel calls it hrun
    have hchild (rows : List SourceRow) : (childIter cfg.table q w).Rewinds q.track
        (ScanChild.Holds cfg.table q w (w.Fails cfg s) rows) (w.Fails cfg s) rows :=
      childIter_rewinds rows
    have hrewinds : (MergingIter.iter cfg.heapTop (childIter cfg.table q w)).Rewinds q.track _ _
        rows := MergingIter.iter_rewinds hchild hrows.merges
    have hstart : BatchIter.Ready (MergingIter.iter cfg.heapTop (childIter cfg.table q w)) q.track
        (MergingIter.Ready (ScanChild.Holds cfg.table q w (w.Fails cfg s)) (w.Fails cfg s)
          (s.scanLists q cfg.table.interval ids)) (w.Fails cfg s) start :=
      ⟨Or.inl hready, fun hcheck => htrack.trans hcheck, fun hne => absurd rfl hne⟩
    obtain ⟨it', hseek, emitted, final, hyields, hfinal, hpre, hend⟩ :=
      BatchIter.seekToFirst_drains (h.answers hw hrows) hfuel hrewinds
        (MergingIter.iter_sticky _ _) hstart rfl hrun
    have hverdicts : (dedup [] rows).filterMap ((cfg.batchEnv s w q).verdict (cfg.answer s)) =
        (dedup [] rows).filterMap (cfg.verdict s) :=
      List.filterMap_congr fun r hr => h.verdict_eq hrows ((dedup_sublist [] rows).subset hr)
    rw [hverdicts] at hpre hend
    refine ⟨it', emitted, final, hseek, hyields, hpre, fun hok => ?_, hfinal.status⟩
    rcases hend with ⟨hall, -⟩ | ⟨hfailed, -⟩
    · exact hall
    · exact absurd hok hfailed

end Scan

/-! ### Surroundings in which nothing happens -/

namespace LsmState.Shape

variable {s : LsmState} (hs : s.Shape)

def calmWorld (read : UInt64) : ScanWorld where
  mem := .frozen s.mem.entries (hs.memtables s.mem List.mem_cons_self)
  imm := s.imm.attach.map fun m =>
    .frozen m.1.entries (hs.memtables m.1 (List.mem_cons_of_mem _ m.2))
  tables _ _ _ :=
    { bins := .calm
      blockCache := true
      prefetch := false
      before := []
      stray := fun _ => .error ⟨.corruption "", by decide⟩ }
  lsmAt _ := s
  reads := .standard
  findTable _ _ := .ok
  multiGet _ k :=
    match s.versions.get k read with
    | some value => .ok value
    | none => .error .notFound

/-- What the lookups of the calm world are. -/
theorem calmWorld_multiGet (read : UInt64) (n : ℕ) (k : Bytes) :
    (∃ value, s.versions.get k read = some value ∧
      (hs.calmWorld read).multiGet n k = .ok value) ∨
    (s.versions.get k read = none ∧
      (hs.calmWorld read).multiGet n k = .error .notFound) := by
  simp only [calmWorld]
  cases s.versions.get k read with
  | some value => exact Or.inl ⟨value, rfl, rfl⟩
  | none => exact Or.inr ⟨rfl, rfl⟩

theorem calmWorld_still (cfg : ScanConfig) : (hs.calmWorld cfg.readSeqno).Still cfg s where
  memtables := by
    refine .cons (fun _ => rfl) ?_
    show List.Forall₂ _ (s.imm.attach.map _) s.imm
    conv => rhs; rw [← List.attach_map_subtype_val s.imm]
    rw [List.forall₂_map_left_iff, List.forall₂_map_right_iff, List.forall₂_same]
    exact fun m _ _ => rfl
  lsm _ := rfl
  calls _ _ _ _ _ _ := List.forall_mem_nil _
  found n k value h := by
    rcases hs.calmWorld_multiGet cfg.readSeqno n k with ⟨v, hget, hmulti⟩ | ⟨-, hmulti⟩
    · rw [hget, Except.ok.inj (hmulti.symm.trans h)]
    · cases hmulti.symm.trans h
  notFound n k msg _ h := by
    rcases hs.calmWorld_multiGet cfg.readSeqno n k with ⟨v, -, hmulti⟩ | ⟨hget, -⟩
    · cases hmulti.symm.trans h
    · exact hget

theorem calmWorld_not_fails {cfg : ScanConfig} (hvalid : cfg.Valid)
    (hmode : cfg.table.mode = .resident)
    (hindexed : ∀ f ∈ s.files, ∃ rho, f.Indexed cfg.table cfg.options rho) :
    ¬(hs.calmWorld cfg.readSeqno).Fails cfg s := by
  rintro (⟨m, hm, n, hstop⟩ | ⟨q, hcontext, level, n, f, hf, hfails⟩ | ⟨n, k, failure, hget, hne⟩)
  · rcases List.mem_cons.1 hm with rfl | hm
    · exact hstop rfl
    · obtain ⟨v, -, rfl⟩ := List.mem_map.1 hm
      exact hstop rfl
  · obtain ⟨q', hcontext', hmeans, -⟩ := hvalid.exists_context s
    obtain rfl := Option.some.inj (hcontext.symm.trans hcontext')
    obtain ⟨rho, hf⟩ := hindexed f hf
    exact hf.not_fails hvalid.schema hvalid.query hmeans.encoded hmode
      (fun _ _ => List.forall_mem_nil _) rfl rfl (fun _ _ => rfl) hfails
  · rcases hs.calmWorld_multiGet cfg.readSeqno n k with ⟨v, -, hmulti⟩ | ⟨-, hmulti⟩
    · cases hmulti.symm.trans hget
    · exact hne "" (congrArg Subtype.val (Except.error.inj (hmulti.symm.trans hget))).symm

end LsmState.Shape

/-! ### Small trees -/

/-- The index of a block at the start of a file, for the schema of one-byte
integers. -/
def blockIndex (b : DataBlock) : Option Bytes :=
  (SABIBuilder.run Runtime.oneRow.hash (valueLayoutExtractor (.ofOptions oneByteInt))
    (SABISchema.fromOptions oneByteInt ⟨0x3FF0000000000000⟩) (tableCalls [(b, (0, 40))])).bind
      fun builder => builder.finish .oneRow

/-- A file of one block. -/
def oneBlockFile (number : UInt64) (b : DataBlock) (smallest largest : InternalKey)
    (largestSeqno : UInt64) (rangeDels : List RangeTombstone) : SstFile where
  number
  smallest
  largest
  largestSeqno
  numRangeDeletions := UInt64.ofNat rangeDels.length
  filter := some fun k => b.entries.any fun e => e.userKey == k
  table := [(b, (0, 40))]
  rangeDels
  index := (blockIndex b).getD []
  rep := ⟨(blockIndex b).getD [], 0⟩

/-- All rows, with a resident index. -/
def scanAll (resultMode : ResultMode) (interval : ℕ) : ScanConfig where
  options := oneByteInt
  table := ⟨.oneRow, .resident, interval⟩
  query := ⟨[]⟩
  resultMode
  readSeqno := 30
  plainValues := true
  heapTop := .first

theorem scanAll_valid (resultMode : ResultMode) (interval : ℕ) :
    (scanAll resultMode interval).Valid where
  schema := rfl
  query := rfl
  conditions _ := by show 0 < 2 ^ 32; decide
  comparands _ := trivial

/-- The limits of the index of a block. -/
def blockIndexFits (o : BitLSMOptions) (b : DataBlock) : Option Bool :=
  (SABIBuilder.run Runtime.oneRow.hash (valueLayoutExtractor (.ofOptions o))
    (SABISchema.fromOptions o ⟨0x3FF0000000000000⟩) (tableCalls [(b, (0, 40))])).bind
      fun builder => (builder.buildIndex .oneRow).bind fun idx =>
        (builder.finish .oneRow).map fun index =>
          decide (idx.regionEnd Runtime.oneRow.frozen 1 ≤ 2 ^ 32 - 32 ∧ index.length < 2 ^ 32)

theorem oneBlockFile_indexed {b : DataBlock}
    (hfit : RowsFit (rowsOf (valueLayoutExtractor (.ofOptions oneByteInt))
      (tableCalls [(b, (0, 40))])))
    (hindex : blockIndexFits oneByteInt b = some true)
    (hne : b.entries ≠ []) (interval : ℕ) (number : UInt64) (smallest largest : InternalKey)
    (largestSeqno : UInt64) (rangeDels : List RangeTombstone) :
    (oneBlockFile number b smallest largest largestSeqno rangeDels).Indexed
      ⟨.oneRow, .resident, interval⟩ oneByteInt ⟨0x3FF0000000000000⟩ := by
  obtain ⟨builder, hrun, h⟩ := Option.bind_eq_some_iff.1 hindex
  obtain ⟨idx, hidx, h⟩ := Option.bind_eq_some_iff.1 h
  obtain ⟨index, hfinish, h⟩ := Option.map_eq_some_iff.1 h
  obtain ⟨hroom, hlen⟩ := of_decide_eq_true h
  have hget : (blockIndex b).getD [] = index := by
    rw [blockIndex, hrun, Option.bind_some, hfinish]
    rfl
  exact
    { fit := hfit
      built := ⟨builder, idx, hrun, hidx, by rw [handlesOf_tableCalls]; exact hroom,
        by rw [oneBlockFile, hget]; exact hfinish⟩
      index_lt := by rw [oneBlockFile, hget]; exact hlen
      placed := HasAt.self _
      handles_lt := List.forall_mem_singleton.2 ⟨show 0 < 2 ^ 32 by decide,
        show 40 < 2 ^ 32 by decide⟩
      handles_nodup := List.nodup_singleton _
      nonempty := List.forall_mem_singleton.2 hne }

/-- Four keys, with a restart point at every other one. -/
def fourKeys : DataBlock where
  entries := [⟨[1], 0, .value, [10]⟩, ⟨[2], 0, .value, [20]⟩, ⟨[3], 0, .value, [30]⟩,
    ⟨[4], 0, .value, [40]⟩]
  restartInterval := 2
  interval_pos := Nat.two_pos
  length_lt := by decide

/-- Their file, the only one of the tree. -/
def fourKeysState : LsmState where
  mem := ⟨[], []⟩
  imm := []
  levels := [[], [oneBlockFile 7 fourKeys ⟨[1], 0⟩ ⟨[4], 0⟩ 0 []]]

theorem fourKeysState_shape : fourKeysState.Shape where
  memtables := List.forall_mem_singleton.2 List.Pairwise.nil
  files := List.forall_mem_singleton.2
    { sorted := by decide
      smallest_le := by decide
      le_largest := by decide
      smallest_le_largest := by decide
      smallest_le_start := List.forall_mem_nil _
      stop_le_largest := List.forall_mem_nil _
      largest_from := by decide
      seqno_le := by
        rintro k n (⟨e, he, -, rfl⟩ | ⟨t, ht, -⟩)
        · exact (show ∀ e ∈ fourKeys.entries, e.seqno.toNat ≤ 0 by decide) e he
        · cases ht
      counted := fun hne => absurd rfl hne
      filtered := by decide }
  numbers := by
    intro f hf g hg _
    rw [List.mem_singleton.1 hf, List.mem_singleton.1 hg]
  disjoint := List.forall_mem_singleton.2 (List.pairwise_singleton _ _)
  newer := by
    refine List.pairwise_pair.2 fun k a b ha _ => ?_
    rcases ha with ⟨e, he, -⟩ | ⟨t, ht, -⟩
    · cases he
    · cases ht

theorem fourKeysState_indexed (interval : ℕ) : ∀ f ∈ fourKeysState.files,
    f.Indexed ⟨.oneRow, .resident, interval⟩ oneByteInt ⟨0x3FF0000000000000⟩ := by
  refine List.forall_mem_singleton.2 (oneBlockFile_indexed ⟨by decide, fun i => ?_⟩
    (by decide +kernel) (by decide) _ _ _ _ _ _)
  cases i with
  | zero => decide
  | succ i => exact Nat.two_pow_pos 32

/-- With the restart interval the block was written with, all is as it should
be. -/
theorem fourKeysState_scannable (resultMode : ResultMode) :
    (scanAll resultMode 2).Scannable fourKeysState where
  shape := fourKeysState_shape
  valid := scanAll_valid resultMode 2
  built f hf := ⟨_, { fourKeysState_indexed 2 f hf with
    interval := by
      rw [List.mem_singleton.1 hf]
      exact List.forall_mem_singleton.2 (Or.inl rfl) }⟩
  snapshot _ := show (30 : UInt64) < kMaxSequenceNumber by decide
  tombstones _ f hf e _ _ t ht := by
    rw [List.mem_singleton.1 hf] at ht
    cases ht

theorem fourKeysState_calm (resultMode : ResultMode) (interval : ℕ) :
    ¬(fourKeysState_shape.calmWorld 30).Fails (scanAll resultMode interval) fourKeysState :=
  fourKeysState_shape.calmWorld_not_fails (scanAll_valid resultMode interval) rfl
    fun f hf => ⟨_, fourKeysState_indexed interval f hf⟩

/-- What a scan from the start hands out, and the status it ends with. -/
def OpenScan.result (scan : OpenScan) (fuel : ℕ) : Option (List (Bytes × Option Bytes) × Status) :=
  (scan.seekToFirst fuel scan.start).bind fun it =>
    ((scan.cursor fuel).collect fuel it).map fun (emitted, final) => (emitted, final.status)

theorem OpenScan.yields_of_result {scan : OpenScan} {fuel : ℕ}
    {emitted : List (Bytes × Option Bytes)} {status : Status}
    (h : scan.result fuel = some (emitted, status)) :
    ∃ it final, scan.seekToFirst fuel scan.start = some it ∧
      (scan.cursor fuel).Yields it emitted final ∧ final.status = status := by
  obtain ⟨it, hseek, h⟩ := Option.bind_eq_some_iff.1 h
  obtain ⟨⟨xs, final⟩, hcollect, heq⟩ := Option.map_eq_some_iff.1 h
  obtain ⟨rfl, rfl⟩ := Prod.mk.inj heq
  exact ⟨it, final, hseek, Cursor.yields_of_collect hcollect, rfl⟩

theorem OpenScan.result_of_yields {scan : OpenScan} {fuel : ℕ}
    {it final : BatchIter (MergingIter ScanChild)} {emitted : List (Bytes × Option Bytes)}
    (hseek : scan.seekToFirst fuel scan.start = some it)
    (hyields : (scan.cursor fuel).Yields it emitted final) (hfuel : emitted.length < fuel) :
    scan.result fuel = some (emitted, final.status) := by
  rw [result, hseek, Option.bind_some, Cursor.collect_of_yields hyields hfuel, Option.map_some]

/-! ### Scans and the reference -/

section Results

variable {cfg : ScanConfig} {s : LsmState} {w : ScanWorld}

end Results

section Results

variable {cfg : ScanConfig} {s : LsmState} {w : ScanWorld}

end Results

section Results

variable {cfg : ScanConfig} {s : LsmState} {w : ScanWorld}

end Results

/-- No data block can be read. -/
def unreadable (w : ScanWorld) : ScanWorld :=
  { w with
    tables := fun level n f => { w.tables level n f with
      readFails := fun _ _ => some ⟨.ioError "", by decide⟩ } }

def upperKeys : DataBlock where
  entries := [⟨[0], 20, .value, [50]⟩, ⟨[5], 20, .value, [60]⟩]
  restartInterval := 2
  interval_pos := Nat.two_pos
  length_lt := by decide

def lastKey : DataBlock where
  entries := [⟨[6], 20, .value, [90]⟩]
  restartInterval := 2
  interval_pos := Nat.two_pos
  length_lt := by decide

def lowerKeys : DataBlock where
  entries := [⟨[1], 3, .value, [70]⟩, ⟨[3], 5, .value, [80]⟩]
  restartInterval := 2
  interval_pos := Nat.two_pos
  length_lt := by decide

def upperFile : SstFile := oneBlockFile 7 upperKeys ⟨[0], 20⟩ ⟨[5], 20⟩ 20 []

def lastFile : SstFile := oneBlockFile 9 lastKey ⟨[6], 20⟩ ⟨[6], 20⟩ 20 []

def lowerFile : SstFile :=
  oneBlockFile 8 lowerKeys ⟨[1], 3⟩ ⟨[4], kMaxSequenceNumber⟩ 10 [⟨[3], [4], 10⟩]

def threeFilesState : LsmState where
  mem := ⟨[], []⟩
  imm := []
  levels := [[], [upperFile, lastFile], [lowerFile]]

theorem mem_threeFilesState {f : SstFile} (hf : f ∈ threeFilesState.files) :
    f = upperFile ∨ f = lastFile ∨ f = lowerFile := by
  have hf' : f ∈ [upperFile, lastFile, lowerFile] := hf
  simpa using hf'

theorem threeFilesState_wellFormed {f : SstFile} (hf : f ∈ threeFilesState.files) :
    f.WellFormed := by
  rcases mem_threeFilesState hf with rfl | rfl | rfl
  all_goals
    refine ⟨by decide, by decide, by decide, by decide, by decide, by decide, by decide,
      fun k n hhas => ?_, by decide, by decide⟩
    rcases hhas with ⟨e, he, -, rfl⟩ | ⟨t, ht, -, rfl⟩
  · exact (show ∀ e ∈ upperFile.rows, e.seqno.toNat ≤ 20 by decide) e he
  · cases ht
  · exact (show ∀ e ∈ lastFile.rows, e.seqno.toNat ≤ 20 by decide) e he
  · cases ht
  · exact (show ∀ e ∈ lowerFile.rows, e.seqno.toNat ≤ 10 by decide) e he
  · exact (show ∀ t ∈ lowerFile.rangeDels, t.seqno.toNat ≤ 10 by decide) t ht

theorem threeFilesState_shape : threeFilesState.Shape where
  memtables := List.forall_mem_singleton.2 List.Pairwise.nil
  files _ hf := threeFilesState_wellFormed hf
  numbers f hf g hg heq := by
    rcases mem_threeFilesState hf with rfl | rfl | rfl <;>
      rcases mem_threeFilesState hg with rfl | rfl | rfl <;>
        first
        | rfl
        | exact absurd heq (by decide)
  disjoint := List.forall_mem_cons.2 ⟨List.pairwise_pair.2 (by decide),
    List.forall_mem_singleton.2 (List.pairwise_singleton _ _)⟩
  newer := by
    have hempty (p : Versions) : LsmState.Newer ⟨[], []⟩ p := by
      rintro k a b (⟨e, he, -⟩ | ⟨t, ht, -⟩) -
      · cases he
      · cases ht
    -- the two levels have no key in common
    refine List.pairwise_cons.2 ⟨fun p _ => hempty p, List.pairwise_pair.2 ?_⟩
    rintro k a b (⟨e, he, rfl, -⟩ | ⟨t, ht, -⟩) hlower
    · rcases hlower with ⟨e', he', hkey, -⟩ | ⟨t, ht, hcov, -⟩
      · exact absurd hkey ((show ∀ e ∈ upperKeys.entries ++ lastKey.entries,
          ∀ e' ∈ lowerKeys.entries, e'.userKey ≠ e.userKey by decide) e he e' he')
      · exact absurd hcov ((show ∀ e ∈ upperKeys.entries ++ lastKey.entries,
          ∀ t ∈ lowerFile.rangeDels, ¬t.Covers e.userKey by decide) e he t ht)
    · cases ht

theorem threeFilesState_built {f : SstFile} (hf : f ∈ threeFilesState.files) :
    f.Built (scanAll .verified 2).table oneByteInt ⟨0x3FF0000000000000⟩ := by
  rcases mem_threeFilesState hf with rfl | rfl | rfl
  all_goals
    refine ⟨oneBlockFile_indexed ⟨by decide, fun i => ?_⟩ (by decide +kernel) (by decide)
      _ _ _ _ _ _, List.forall_mem_singleton.2 (Or.inl rfl)⟩
    cases i with
    | zero => decide
    | succ i => exact Nat.two_pow_pos 32

/-- The first table the shadow check asks for cannot be opened. -/
def flaky (w : ScanWorld) : ScanWorld :=
  { w with findTable := fun n _ => if n = 0 then .ioError "" else .ok }

end BitLSM
