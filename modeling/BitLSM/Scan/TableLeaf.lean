import BitLSM.Scan.LsmState
import BitLSM.Scan.QueryContext
import BitLSM.Scan.Candidates
import BitLSM.Scan.TableRows
import BitLSM.TableIndex

/-!
A table file as a child of the merge.

Opening a file loads its index, builds the bitmap of the query and finds the
blocks to visit. Each of these steps can fail, and so can every read of a
data block later. A table whose index could not be loaded, or whose bitmap
misses a bin, is never scanned. What an open table delivers does not depend
on what happened around it: it is the rows its index selects, or a failure.
-/

namespace BitLSM

open Wire TableScan

/-- How tables are read. -/
structure TableOptions where
  rt : Runtime
  mode : SABIReaderMode
  /-- The configured `block_restart_interval`. -/
  interval : ℕ

/-- What happens around one table iterator. -/
structure TableWorld where
  /-- The error the table cache ends with. -/
  findTable : Option Failure := none
  /-- The error the load of the index ends with. -/
  indexEntry : Option Failure := none
  bins : BinEnv
  blockCache : Bool
  prefetch : Bool
  /-- The calls on the reader before the bitmap is built, the submitted reads among them. -/
  before : List SABIReader.BinCall
  /-- The errors of data block reads, by the call that makes them. -/
  readFails : ℕ → BlockHandle → Option Failure := fun _ _ => none
  /-- What is read where no block of the file starts. -/
  stray : BlockHandle → Except Failure DataBlock

/-- The block a handle of the file leads to. -/
def SstFile.blockAt (f : SstFile) (handle : BlockHandle) : Option DataBlock :=
  (f.table.find? fun entry => entry.2 == handle).map Prod.fst

/-- The read of a block when nothing fails. -/
def TableWorld.readBlock (w : TableWorld) (f : SstFile) (handle : BlockHandle) :
    Except Status DataBlock :=
  match f.blockAt handle with
  | some b => .ok b
  | none =>
      match w.stray handle with
      | .ok b => .ok b
      | .error failure => .error failure

/-- What the constructor of a table iterator fixes. -/
structure TableSource where
  level : ℤ
  number : UInt64
  scan : TableScan
  targets : List TargetBlock
  readFails : ℕ → BlockHandle → Option Failure

/-- A table iterator, with the number of its calls so far. -/
structure TableLeaf where
  source : TableSource
  it : TableIter := {}
  calls : ℕ := 0

/-- Some reads of data blocks fail. -/
def TableScan.withFails (s : TableScan) (fails : BlockHandle → Option Failure) : TableScan :=
  { s with
    readBlock := fun handle =>
      match fails handle with
      | some failure => .error failure
      | none => s.readBlock handle }

/-! ### Opening a table -/

namespace TableWorld

variable (opts : TableOptions) (q : QueryContext) (w : TableWorld) (f : SstFile)

/-- The bitmap of the query, and whether a bin could not be loaded. A query
that cannot match has the empty bitmap. -/
def queryBitmap (r : SABIReader) : Option (Roaring × Bool) :=
  if q.sabiQuery.unsat = true ∨ r.queryCanMatch q.sabiQuery = false then some (∅, false)
  else
    -- a resident reader keeps nothing between calls
    (r.serveAll opts.rt.frozen w.bins f.rep (SABIReader.startBins w.blockCache)
      (if r.mode = .resident then [] else w.before)).bind fun bins =>
        ((BinSource.ofReader opts.rt.frozen w.bins f.rep w.prefetch r).buildQueryBitmap r
          ⟨bins, false⟩ q.sabiQuery).map fun (bitmap, loads) => (bitmap, loads.failed)

/-- The scan a reader and a bitmap lead to. -/
def tableScan (r : SABIReader) (bitmap : Roaring) : TableScan where
  dataEntriesCntPsum := r.dataEntriesCntPsum
  blockHandles := r.handles
  interval := opts.interval
  bitmap
  compiled := q.compiled
  track := q.track
  readSeqno := q.readSeqno
  readBlock := w.readBlock f

/-- A table iterator without an index: its status keeps it from scanning. -/
def unindexed (level : ℤ) (failure : Failure) : TableLeaf where
  source :=
    { level
      number := f.number
      scan := ⟨[], [], opts.interval, ∅, q.compiled, q.track, q.readSeqno, w.readBlock f⟩
      targets := []
      readFails := w.readFails }
  it := { status := failure }

/-- `FindTable` and the constructor of the table iterator. -/
def openTable (level : ℤ) : Option (Except Failure TableLeaf) :=
  match w.findTable with
  | some failure => some (.error failure)
  | none =>
      match w.indexEntry with
      | some failure => some (.ok (w.unindexed opts q f level failure))
      | none =>
          (SABIReader.parse opts.rt.frozen opts.mode f.index).bind fun r =>
            (w.queryBitmap opts q f r).bind fun (bitmap, failed) =>
              let scan := w.tableScan opts q f r bitmap
              scan.targetBlocks.map fun targets =>
                .ok {
                  source := ⟨level, f.number, scan, targets, w.readFails⟩
                  it :=
                    { status := if failed then .corruption "SABI bin read failed" else .ok } }

/-- Something fails around the table. -/
def Fails : Prop :=
  w.findTable ≠ none ∨ w.indexEntry ≠ none ∨ (∃ n handle, w.readFails n handle ≠ none) ∨
    ∃ r bitmap, SABIReader.parse opts.rt.frozen opts.mode f.index = some r ∧
      w.queryBitmap opts q f r = some (bitmap, true)

end TableWorld

/-! ### The iterator -/

namespace TableLeaf

/-- A row as the merge sees it. -/
def mergeRow (source : TableSource) (row : Entry × Option Bool) : MergeRow :=
  ⟨some row.1, source.level, source.number, row.2⟩

/-- The scan of this call. -/
def scan (leaf : TableLeaf) : TableScan :=
  leaf.source.scan.withFails (leaf.source.readFails leaf.calls)

def seekToFirst (leaf : TableLeaf) : Option TableLeaf :=
  (leaf.scan.seekToFirst leaf.source.targets leaf.it).map fun it =>
    { leaf with it, calls := leaf.calls + 1 }

def next (leaf : TableLeaf) : Option TableLeaf :=
  (leaf.scan.next leaf.source.targets leaf.it).map fun it =>
    { leaf with it, calls := leaf.calls + 1 }

def iter : MergeIter TableLeaf where
  head leaf := (current leaf.it).map (mergeRow leaf.source)
  next := next
  seekToFirst := seekToFirst
  status leaf := leaf.it.status

theorem head_of_not_valid {leaf : TableLeaf} (h : leaf.it.valid = false) :
    iter.head leaf = none := by
  show (current leaf.it).map _ = none
  rw [current, h]
  rfl

theorem iter_sticky : iter.Sticky := by
  intro leaf hstatus
  have hseek : leaf.scan.seekToFirst leaf.source.targets leaf.it =
      some { leaf.it with valid := false } := if_pos hstatus
  refine ⟨{ leaf with it := { leaf.it with valid := false }, calls := leaf.calls + 1 }, ?_,
    head_of_not_valid rfl, rfl⟩
  show leaf.seekToFirst = _
  rw [seekToFirst, hseek]
  rfl

end TableLeaf

/-! ### Reads that fail -/

namespace TableScan

variable {s : TableScan}

theorem compact_withFails (fails : BlockHandle → Option Failure) (n i cursor : ℕ)
    (buf : ScanBuffers) :
    (s.withFails fails).compact n i cursor buf = s.compact n i cursor buf := by
  induction n generalizing i cursor buf with
  | zero => rfl
  | succ n ih =>
      rw [compact, compact]
      simp only [ih]
      rfl

/-- A load ends as without the failures, or on one of them. -/
theorem loadNextBlock_withFails (fails : BlockHandle → Option Failure)
    (targets : List TargetBlock) (it : TableIter) :
    (s.withFails fails).loadNextBlock targets it = s.loadNextBlock targets it ∨
      ∃ it' handle, ∃ failure : Failure, fails handle = some failure ∧
        (s.withFails fails).loadNextBlock targets it = some it' ∧ it'.valid = false ∧
        it'.status = failure := by
  induction targets generalizing it with
  | nil => exact Or.inl rfl
  | cons target rest ih =>
      rw [loadNextBlock, loadNextBlock]
      have hbounds : (s.withFails fails).blockBounds target.idx.toNat =
          s.blockBounds target.idx.toNat := rfl
      by_cases hvisited : it.visited < 2 ^ 31
      · rw [if_pos hvisited, if_pos hvisited, hbounds]
        cases s.blockBounds target.idx.toNat with
        | none => exact Or.inl rfl
        | some bounds =>
            obtain ⟨start, stop⟩ := bounds
            simp only []
            cases hlocal : localIndexes start stop it.ids with
            | mk indexes ids =>
            simp only []
            by_cases hempty : indexes = []
            · simp only [if_pos hempty]
              exact ih _
            · simp only [if_neg hempty]
              cases hfails : fails target.handle with
              | some failure =>
                  have hread : (s.withFails fails).readBlock target.handle = .error failure := by
                    show (match fails target.handle with | some f => _ | none => _) = _
                    rw [hfails]
                  rw [hread]
                  exact Or.inr ⟨_, target.handle, failure, hfails, rfl, rfl, rfl⟩
              | none =>
                  have hread : (s.withFails fails).readBlock target.handle =
                      s.readBlock target.handle := by
                    show (match fails target.handle with | some f => _ | none => _) = _
                    rw [hfails]
                  rw [hread]
                  cases s.readBlock target.handle with
                  | error status => exact Or.inl rfl
                  | ok block =>
                      have hfill : block.getAllByIndexes (s.withFails fails).interval
                          (s.withFails fails).track indexes it.buffers =
                        block.getAllByIndexes s.interval s.track indexes it.buffers := rfl
                      simp only [hfill]
                      cases block.getAllByIndexes s.interval s.track indexes it.buffers with
                      | none => exact Or.inl rfl
                      | some buf =>
                          simp only [compact_withFails]
                          cases s.compact (Int32.ofNat indexes.length).toNatClampNeg 0 0 buf with
                          | none => exact Or.inl rfl
                          | some out =>
                              simp only []
                              by_cases hcount : 0 < out.1
                              · simp only [if_pos hcount]
                                exact Or.inl trivial
                              · simp only [if_neg hcount]
                                exact ih _
      · rw [if_neg hvisited, if_neg hvisited]
        exact Or.inl rfl

theorem next_withFails (fails : BlockHandle → Option Failure) (targets : List TargetBlock)
    (it : TableIter) : (s.withFails fails).next targets it = s.next targets it ∨
      ∃ it' handle, ∃ failure : Failure, fails handle = some failure ∧
        (s.withFails fails).next targets it = some it' ∧ it'.valid = false ∧
        it'.status = failure := by
  rw [next, next]
  split
  · exact Or.inl rfl
  · exact loadNextBlock_withFails fails _ _

theorem seekToFirst_withFails (fails : BlockHandle → Option Failure) (targets : List TargetBlock)
    (it : TableIter) : (s.withFails fails).seekToFirst targets it = s.seekToFirst targets it ∨
      ∃ it' handle, ∃ failure : Failure, fails handle = some failure ∧
        (s.withFails fails).seekToFirst targets it = some it' ∧ it'.valid = false ∧
        it'.status = failure := by
  rw [seekToFirst, seekToFirst]
  split
  · exact Or.inl rfl
  · exact loadNextBlock_withFails fails _ _

/-- A load keeps the status, up to the error of a read. -/
theorem loadNextBlock_status {targets : List TargetBlock} {it it' : TableIter}
    (h : s.loadNextBlock targets it = some it') :
    it'.status = it.status ∨ ∃ handle, s.readBlock handle = .error it'.status := by
  induction targets generalizing it with
  | nil =>
      rw [loadNextBlock, Option.ite_none_right_eq_some] at h
      exact Or.inl (Option.some.inj h.2 ▸ rfl)
  | cons target rest ih =>
      rw [loadNextBlock, Option.ite_none_right_eq_some] at h
      replace h := h.2
      split at h
      · cases h
      · dsimp only at h
        split at h
        · have hrest := ih h
          exact hrest
        · split at h
          · next status hread =>
              obtain rfl := Option.some.inj h
              exact Or.inr ⟨target.handle, hread⟩
          · split at h
            · cases h
            · split at h
              · cases h
              · split at h
                · exact Or.inl (Option.some.inj h ▸ rfl)
                · have hrest := ih h
                  exact hrest

end TableScan

/-! ### What an open table delivers -/

/-- Without failures the table delivers `rows`, each time it is put back. -/
structure TableSource.Scans (source : TableSource) (track : Bool) (rows : List SourceRow) :
    Prop where
  scans : ∀ it : TableIter, it.status = .ok → ∃ it' out final,
    source.scan.seekToFirst source.targets it = some it' ∧
      (source.scan.cursor source.targets).Yields it' out final ∧ final.status = .ok ∧
      List.Forall₂ (fun row r => (TableLeaf.mergeRow source row).Shows track r) out rows
  errors : ∀ handle status, source.scan.readBlock handle = .error status → status ≠ .ok

namespace TableLeaf

/-- The table has failed, or it will deliver `rows`. -/
def Good (track : Bool) (faulty : Prop) (rows : List SourceRow) (leaf : TableLeaf) : Prop :=
  (leaf.it.status ≠ .ok ∧ faulty) ∨
    (leaf.it.status = .ok ∧ leaf.source.Scans track rows ∧
      ∀ n handle failure, leaf.source.readFails n handle = some failure → faulty)

variable {source : TableSource} {track : Bool} {faulty : Prop} {rows : List SourceRow}

section Source

variable (hsource : source.Scans track rows)
  (hfails : ∀ n handle failure, source.readFails n handle = some failure → faulty)
include hsource hfails

/-- A scan that would go through delivers its rows or stops on a failure. -/
theorem serves {it final : TableIter} {out : List (Entry × Option Bool)} {rest : List SourceRow}
    (hyields : (source.scan.cursor source.targets).Yields it out final)
    (hfinal : final.status = .ok)
    (hrows : List.Forall₂ (fun row r => (mergeRow source row).Shows track r) out rest)
    (calls : ℕ) : iter.Serves track (Good track faulty rows) faulty ⟨source, it, calls⟩ rest ∧
      it.status = .ok := by
  induction hyields generalizing rest calls with
  | @done it hnone =>
      cases hrows
      refine ⟨.done (Or.inr ⟨hfinal, hsource, hfails⟩) ?_ hfinal, hfinal⟩
      exact congrArg (Option.map (mergeRow source)) hnone
  | @more it it' final row out hhead hnext _ ih =>
      cases hrows with
      | @cons _ r _ rest hrow hrest =>
      obtain ⟨hserves, hok'⟩ := ih hfinal hrest (calls + 1)
      have hok : it.status = .ok := by
        have hmove : source.scan.next source.targets it = some it' := hnext
        rw [TableScan.next] at hmove
        split at hmove
        · obtain rfl := Option.some.inj hmove
          exact hok'
        · rcases loadNextBlock_status hmove with hsame | ⟨handle, herror⟩
          · exact hsame.symm.trans hok'
          · exact absurd hok' (hsource.errors handle _ herror)
      refine ⟨?_, hok⟩
      have hhead' : iter.head ⟨source, it, calls⟩ = some (mergeRow source row) :=
        congrArg (Option.map (mergeRow source)) hhead
      have hinv : Good track faulty rows ⟨source, it, calls⟩ := Or.inr ⟨hok, hsource, hfails⟩
      rcases next_withFails (source.readFails calls) source.targets it with
        hsame | ⟨it₁, handle, failure, hfail, hstop, hinvalid, hstatus⟩
      · refine .more hinv hhead' hrow hok ?_ hserves
        show next ⟨source, it, calls⟩ = _
        rw [next]
        exact congrArg (Option.map _) (hsame.trans hnext)
      · refine .more hinv hhead' hrow hok (t := ⟨source, it₁, calls + 1⟩) ?_
          (.failed (head_of_not_valid hinvalid) ?_ (hfails _ _ _ hfail))
        · show next ⟨source, it, calls⟩ = _
          rw [next]
          exact congrArg (Option.map _) hstop
        · show it₁.status ≠ .ok
          rw [hstatus]
          exact failure.2

end Source

theorem iter_rewinds (track : Bool) (faulty : Prop) (rows : List SourceRow) :
    iter.Rewinds track (Good track faulty rows) faulty rows := by
  rintro ⟨source, it, calls⟩ (⟨hfailed, hfaulty⟩ | ⟨hok, hsource, hfails⟩)
  · obtain ⟨leaf, hseek, hhead, hstatus⟩ := iter_sticky ⟨source, it, calls⟩ hfailed
    refine ⟨leaf, hseek, .failed hhead ?_ hfaulty⟩
    rw [hstatus]
    exact hfailed
  obtain ⟨it', out, final, hseek, hyields, hfinal, hrows⟩ := hsource.scans it hok
  rcases seekToFirst_withFails (source.readFails calls) source.targets it with
    hsame | ⟨it₁, handle, failure, hfail, hstop, hinvalid, hstatus⟩
  · refine ⟨⟨source, it', calls + 1⟩, ?_,
      (serves hsource hfails hyields hfinal hrows (calls + 1)).1⟩
    show seekToFirst ⟨source, it, calls⟩ = _
    rw [seekToFirst]
    exact congrArg (Option.map _) (hsame.trans hseek)
  · refine ⟨⟨source, it₁, calls + 1⟩, ?_,
      .failed (head_of_not_valid hinvalid) ?_ (hfails _ _ _ hfail)⟩
    · show seekToFirst ⟨source, it, calls⟩ = _
      rw [seekToFirst]
      exact congrArg (Option.map _) hstop
    · show it₁.status ≠ .ok
      rw [hstatus]
      exact failure.2

end TableLeaf

/-! ### The calls a file was built with -/

section Calls

variable (table : List (DataBlock × BlockHandle))

theorem handlesOf_tableCalls : handlesOf (tableCalls table) = table.map Prod.snd := by
  induction table with
  | nil => rfl
  | cons entry table ih =>
      rw [handlesOf, tableCalls] at ih
      rw [handlesOf, tableCalls, List.flatMap_cons, List.filterMap_append, List.filterMap_append,
        List.filterMap_map, ih, List.map_cons]
      simp

theorem rowValues_tableCalls : rowValues (tableCalls table) =
    (tableRows (table.map Prod.fst)).map fun e =>
      if e.type = .value then some e.value else none := by
  induction table with
  | nil => rfl
  | cons entry table ih =>
      rw [rowValues, tableCalls] at ih
      have hrows : tableRows (entry.1 :: table.map Prod.fst) =
          entry.1.entries ++ tableRows (table.map Prod.fst) := List.flatMap_cons
      rw [rowValues, tableCalls, List.flatMap_cons, List.filterMap_append, List.filterMap_append,
        List.filterMap_map, ih, List.map_cons, hrows, List.map_append]
      congr 1
      simp only [List.filterMap_cons_none, List.filterMap_nil, List.append_nil]
      rw [← List.filterMap_eq_map]
      refine List.filterMap_congr fun e _ => ?_
      obtain ⟨key, seqno, type, value⟩ := e
      cases type <;> rfl

theorem rowValues_tableCalls_eq_some {j : ℕ} {value : Bytes} :
    (rowValues (tableCalls table))[j]? = some (some value) ↔
      ∃ e, (tableRows (table.map Prod.fst))[j]? = some e ∧ e.type = .value ∧ e.value = value := by
  rw [rowValues_tableCalls, List.getElem?_map, Option.map_eq_some_iff]
  refine exists_congr fun e => and_congr_right fun _ => ?_
  rw [Option.ite_none_right_eq_some, Option.some.injEq]

theorem zip_table : (table.map Prod.fst).zip (table.map Prod.snd) = table := by
  rw [← List.unzip_fst, ← List.unzip_snd, List.zip_unzip]

/-- Every row is in a block that was announced. -/
theorem coveredRows_tableCalls :
    coveredRows (tableCalls table) = (tableRows (table.map Prod.fst)).length := by
  have hpsum := @psum_tableCalls (table.map Prod.fst) (table.map Prod.snd) (by simp) (0, [])
  rw [zip_table] at hpsum
  rw [coveredRows, tableLayout, hpsum, ← rowsBefore_length]
  cases table with
  | nil => rfl
  | cons entry table => simp [List.range_succ]

end Calls

/-! ### The rows of a file -/

/-- The shadowed flag of row `id`. -/
def shadowedAt (interval : ℕ) : List DataBlock → ℕ → Bool
  | [], _ => true
  | b :: rest, id =>
      if id < b.entries.length then b.shadowOf interval id
      else shadowedAt interval rest (id - b.entries.length)

theorem shadowedAt_eq {interval : ℕ} {blocks : List DataBlock} {k id : ℕ} {b : DataBlock}
    (hb : blocks[k]? = some b) (hin : InBlock blocks k id) :
    shadowedAt interval blocks id = b.shadowOf interval (id - rowsBefore blocks k) := by
  induction blocks generalizing k id with
  | nil => simp at hb
  | cons first rest ih =>
      obtain ⟨hle, hlt⟩ := hin
      rw [rowsBefore_cons] at hlt
      rw [shadowedAt]
      cases k with
      | zero =>
          obtain rfl : first = b := Option.some.inj hb
          have hzero : rowsBefore rest 0 = 0 := rfl
          rw [if_pos (by omega)]
          rfl
      | succ k =>
          rw [rowsBefore_cons] at hle
          rw [if_neg (by omega), ih hb ⟨by omega, by omega⟩, rowsBefore_cons, Nat.sub_sub]

namespace SstFile

/-- What the scan hands out for the row ids: the rows that pass the filters. -/
def scanRows (f : SstFile) (level : ℤ) (interval : ℕ) (q : QueryContext) (ids : List ℕ) :
    List SourceRow :=
  ids.filterMap fun id => (f.rows[id]?.filter q.passes).map fun e =>
    ⟨e, level, f.number, shadowedAt interval f.blocks id⟩

theorem mem_scanRows {f : SstFile} {level : ℤ} {interval : ℕ} {q : QueryContext} {ids : List ℕ}
    {r : SourceRow} : r ∈ f.scanRows level interval q ids ↔ ∃ id ∈ ids, ∃ e,
      f.rows[id]? = some e ∧ q.passes e = true ∧
        r = ⟨e, level, f.number, shadowedAt interval f.blocks id⟩ := by
  rw [scanRows, List.mem_filterMap]
  refine exists_congr fun id => and_congr_right fun _ => ?_
  rw [Option.map_eq_some_iff]
  refine exists_congr fun e => ?_
  rw [Option.filter_eq_some_iff, and_assoc, eq_comm (a := r)]

theorem scanRows_sorted {f : SstFile} (hf : f.WellFormed) {level : ℤ} {interval : ℕ}
    {q : QueryContext} {ids : List ℕ} (hids : ids.Pairwise (· < ·)) :
    (f.scanRows level interval q ids).Pairwise fun a b => a.entry.key < b.entry.key := by
  rw [scanRows, List.pairwise_filterMap]
  refine hids.imp fun {i j} hij a ha b hb => ?_
  obtain ⟨e, he, rfl⟩ := Option.map_eq_some_iff.1 ha
  obtain ⟨e', he', rfl⟩ := Option.map_eq_some_iff.1 hb
  obtain ⟨hi, rfl⟩ := List.getElem?_eq_some_iff.1 (Option.filter_eq_some_iff.1 he).1
  obtain ⟨hj, rfl⟩ := List.getElem?_eq_some_iff.1 (Option.filter_eq_some_iff.1 he').1
  exact List.pairwise_iff_getElem.1 (List.pairwise_map.1 hf.sorted) i j hi hj hij

/-- A clear flag says that the row is the newest of its file. -/
theorem newest_of_scanRows {f : SstFile} (hf : f.WellFormed) {level : ℤ} {interval : ℕ}
    (hinterval : ∀ b ∈ f.blocks, b.SeekableBy interval) {q : QueryContext} {ids : List ℕ}
    {r : SourceRow} (hr : r ∈ f.scanRows level interval q ids) (hflag : r.hasNewer = false) :
    ∀ x ∈ f.rows, x.userKey = r.entry.userKey → x.seqno.toNat ≤ r.entry.seqno.toNat := by
  obtain ⟨id, -, e, he, -, rfl⟩ := mem_scanRows.1 hr
  obtain ⟨k, hk, hin⟩ := exists_inBlock (List.getElem?_eq_some_iff.1 he).1
  have hb : f.blocks[k]? = some f.blocks[k] := List.getElem?_eq_getElem hk
  have hshadow : shadowedAt interval f.blocks id = false := hflag
  rw [shadowedAt_eq hb hin] at hshadow
  obtain ⟨i, p, hp, he', hne⟩ :=
    predecessor_of_shadowOf hb (hinterval _ (List.mem_of_getElem? hb)) hin he hshadow
  intro x hx hkey
  exact UInt64.le_iff_toNat_le.1 (hf.sortedByInternalKey.no_newer hp he' hne x hx hkey)

/-- The index of the file selects `ids`: value rows, and all that the query
accepts. -/
structure Selects (f : SstFile) (o : BitLSMOptions) (q : BitLSMQuery) (ids : List ℕ) : Prop where
  sorted : ids.Pairwise (· < ·)
  values : ∀ id ∈ ids, ∃ e, f.rows[id]? = some e ∧ e.type = .value
  complete : ∀ (id : ℕ) e, f.rows[id]? = some e → e.type = .value →
    q.checkCondition e.value (ValueLayout.ofOptions o) = some true → id ∈ ids

/-- The index of the file is what a table builder with these options writes,
within its limits. -/
structure Indexed (opts : TableOptions) (o : BitLSMOptions) (rho : Binary64) (f : SstFile) :
    Prop where
  fit : RowsFit (rowsOf (valueLayoutExtractor (ValueLayout.ofOptions o)) (tableCalls f.table))
  built : ∃ b idx, SABIBuilder.run opts.rt.hash (valueLayoutExtractor (ValueLayout.ofOptions o))
      (SABISchema.fromOptions o rho) (tableCalls f.table) = some b ∧
    b.buildIndex opts.rt = some idx ∧
    idx.regionEnd opts.rt.frozen (handlesOf (tableCalls f.table)).length ≤ 2 ^ 32 - 32 ∧
    b.finish opts.rt = some f.index
  index_lt : f.index.length < 2 ^ 32
  placed : HasAt f.rep.file f.rep.udiOff f.index
  handles_lt : ∀ entry ∈ f.table, entry.2.1.toNat < 2 ^ 32 ∧ entry.2.2.toNat < 2 ^ 32
  handles_nodup : (f.table.map Prod.snd).Nodup
  nonempty : ∀ b ∈ f.blocks, b.entries ≠ []

theorem Indexed.blocks_le {opts : TableOptions} {o : BitLSMOptions} {rho : Binary64} {f : SstFile}
    (hf : f.Indexed opts o rho) : 12 * f.table.length ≤ 2 ^ 32 - 32 := by
  obtain ⟨b, idx, -, -, hroom, -⟩ := hf.built
  rw [handlesOf_tableCalls, List.length_map] at hroom
  exact entries_le_of_regionEnd_le hroom

/-- And its blocks are read with a restart interval that suits them. -/
structure Built (opts : TableOptions) (o : BitLSMOptions) (rho : Binary64) (f : SstFile) : Prop
    extends f.Indexed opts o rho where
  interval : ∀ b ∈ f.blocks, b.SeekableBy opts.interval

end SstFile

/-- Targets are found for any bitmap. -/
theorem TableScan.exists_targetsFrom {s : TableScan}
    (hlen : s.dataEntriesCntPsum.length ≤ s.blockHandles.length) (ids : List ℕ)
    (last : Option ℕ) (start : ℕ) : ∃ targets, s.targetsFrom ids last start = some targets := by
  induction ids generalizing last start with
  | nil => exact ⟨[], rfl⟩
  | cons id ids ih =>
      rw [targetsFrom]
      split
      · next hblock =>
          split
          · exact ih last start
          · obtain ⟨rest, hrest⟩ := ih (some (s.upperBound start id)) (s.upperBound start id)
            rw [List.getElem?_eq_getElem (lt_of_lt_of_le hblock hlen), hrest]
            exact ⟨_, rfl⟩
      · exact ih last start

/-- The calls on the reader stay within its bins. -/
def TableWorld.CallsInRange (opts : TableOptions) (f : SstFile) (w : TableWorld) : Prop :=
  ∀ r, SABIReader.parse opts.rt.frozen opts.mode f.index = some r →
    ∀ call ∈ w.before, call.InRange r.totalBins

namespace SstFile.Indexed

variable {opts : TableOptions} {o : BitLSMOptions} {rho : Binary64} {f : SstFile}
  (hf : f.Indexed opts o rho)
include hf

theorem rows_lt : f.rows.length < 2 ^ 32 := by
  have hcount := hf.fit.count
  have hle := coveredRows_le (valueLayoutExtractor (ValueLayout.ofOptions o)) (tableCalls f.table)
  rw [coveredRows_tableCalls] at hle
  exact lt_of_le_of_lt hle hcount

/-- A handle of the file leads to its block. -/
theorem readBlock_eq (w : TableWorld) {k : ℕ} {b : DataBlock} {handle : BlockHandle}
    (hb : f.blocks[k]? = some b) (hhandle : (f.table.map Prod.snd)[k]? = some handle) :
    w.readBlock f handle = .ok b := by
  have hentry : f.table[k]? = some (b, handle) := by
    rw [SstFile.blocks, List.getElem?_map] at hb
    rw [List.getElem?_map] at hhandle
    obtain ⟨entry, hentry, rfl⟩ := Option.map_eq_some_iff.1 hb
    obtain ⟨entry', hentry', rfl⟩ := Option.map_eq_some_iff.1 hhandle
    rw [hentry, Option.some.inj (hentry.symm.trans hentry')]
  have hat : f.blockAt handle = some b := by
    rw [SstFile.blockAt]
    cases hfind : f.table.find? fun entry => entry.2 == handle with
    | none =>
        have hnone := List.find?_eq_none.1 hfind _ (List.mem_of_getElem? hentry)
        simp at hnone
    | some entry =>
        obtain ⟨j, hj⟩ := List.mem_iff_getElem?.1 (List.mem_of_find?_eq_some hfind)
        have hsame : entry.2 = handle := by simpa using List.find?_some hfind
        have hjk : j = k := by
          refine (List.getElem?_inj ?_ hf.handles_nodup).1 ?_
          · rw [List.length_map]
            exact (List.getElem?_eq_some_iff.1 hj).1
          · rw [List.getElem?_map, hj, hhandle, Option.map_some, hsame]
        subst hjk
        rw [Option.some.inj (hj.symm.trans hentry)]
        rfl
  rw [TableWorld.readBlock, hat]

/-- The reader of the file's index. -/
theorem exists_reader (hschema : validateAttrSpecs o = .ok) {bq : BitLSMQuery}
    (hq : bq.validate o = .ok) {sq : SABIQuery} (hsq : encodeQuery bq o = some sq) :
    ∃ r idx, SABIReader.parse opts.rt.frozen opts.mode f.index = some r ∧ r.mode = opts.mode ∧
      r.Reads opts.rt.frozen (SABISchema.fromOptions o rho)
        (rowsOf (valueLayoutExtractor (ValueLayout.ofOptions o)) (tableCalls f.table))
        (coveredRows (tableCalls f.table)) idx f.index ∧
      r.Answers idx o bq sq (tableCalls f.table) ∧
      sq.AttrsBelow (SABISchema.fromOptions o rho).indexTypes.length ∧
      r.handles = f.table.map Prod.snd ∧
      r.dataEntriesCntPsum =
        (tableLayout (tableCalls f.table)).2.map fun e => UInt32.ofNat e.psum := by
  obtain ⟨b, idx, hrun, hidx, hroom, hfinish⟩ := hf.built
  obtain ⟨sq', hsq', hbelow, hreaders⟩ :=
    SABIBuilder.finish_answers hschema hf.fit hrun hidx hroom hfinish hf.index_lt hq
  obtain rfl : sq' = sq := Option.some.inj (hsq'.symm.trans hsq)
  obtain ⟨r, hparse, hmode, hreads, hanswers⟩ := hreaders opts.mode
  have hreader := Option.some.inj (hparse.symm.trans
    (SABIBuilder.finish_parse_eq hrun hidx hroom hfinish hf.index_lt opts.mode))
  refine ⟨r, idx, hparse, hmode, hreads, hanswers, hbelow, ?_, ?_⟩
  · rw [hreader, SABIReader.handles_readerOf, handlesOf_tableCalls]
    exact map_toUInt32_handles_eq_iff.2 (List.forall_mem_map.2 hf.handles_lt)
  · rw [hreader]
    rfl

/-- The bitmap of a query, unless a bin could not be read. A resident reader
has all bins. -/
theorem queryBitmap_spec {r : SABIReader} {idx : BitmapIndex} {q : QueryContext}
    (hparse : SABIReader.parse opts.rt.frozen opts.mode f.index = some r)
    (hreads : r.Reads opts.rt.frozen (SABISchema.fromOptions o rho)
      (rowsOf (valueLayoutExtractor (ValueLayout.ofOptions o)) (tableCalls f.table))
      (coveredRows (tableCalls f.table)) idx f.index)
    (hbelow : q.sabiQuery.AttrsBelow (SABISchema.fromOptions o rho).indexTypes.length)
    {w : TableWorld} (hcalls : w.CallsInRange opts f) :
    ∃ bitmap failed, w.queryBitmap opts q f r = some (bitmap, failed) ∧
      (r.mode = .resident → failed = false) ∧
      (failed = false → bitmap =
        if q.sabiQuery.unsat = true ∨ r.queryCanMatch q.sabiQuery = false then ∅
        else queryRows r idx.bitmaps q.sabiQuery) := by
  rw [TableWorld.queryBitmap]
  by_cases hcase : q.sabiQuery.unsat = true ∨ r.queryCanMatch q.sabiQuery = false
  · exact ⟨∅, false, if_pos hcase, fun _ => rfl, fun _ => (if_pos hcase).symm⟩
  · obtain ⟨bins, hserve, hsound⟩ :=
      hreads.exists_served hf.placed w.bins w.blockCache (hcalls r hparse)
    obtain ⟨bitmap, loads, hbuild, hresident, hloads⟩ :=
      hreads.buildQueryBitmap hbelow hf.placed w.bins w.prefetch hsound
    refine ⟨bitmap, loads.failed, ?_, hresident, fun hok => ?_⟩
    · rw [if_neg hcase, hserve, Option.bind_some, hbuild]
      rfl
    · rw [if_neg hcase]
      exact hloads hok

/-- Nothing fails around a table when no read does and the index is resident. -/
theorem not_fails (hschema : validateAttrSpecs o = .ok) {bq : BitLSMQuery}
    (hq : bq.validate o = .ok) {q : QueryContext} (hsq : encodeQuery bq o = some q.sabiQuery)
    (hmode : opts.mode = .resident) {w : TableWorld} (hcalls : w.CallsInRange opts f)
    (hfind : w.findTable = none) (hentry : w.indexEntry = none)
    (hreadFails : ∀ n handle, w.readFails n handle = none) : ¬w.Fails opts q f := by
  obtain ⟨r, idx, hparse, hsame, hreads, -, hbelow, -, -⟩ := hf.exists_reader hschema hq hsq
  obtain ⟨bitmap, failed, hbitmap, hresident, -⟩ :=
    hf.queryBitmap_spec hparse hreads hbelow hcalls
  rintro (hne | hne | ⟨n, handle, hne⟩ | ⟨r', bitmap', hparse', hbitmap'⟩)
  · exact hne hfind
  · exact hne hentry
  · exact hne (hreadFails n handle)
  · obtain rfl := Option.some.inj (hparse.symm.trans hparse')
    obtain ⟨rfl, rfl⟩ := Prod.mk.inj (Option.some.inj (hbitmap.symm.trans hbitmap'))
    cases hresident (hsame.trans hmode)

end SstFile.Indexed

namespace SstFile.Built

variable {opts : TableOptions} {o : BitLSMOptions} {rho : Binary64} {f : SstFile}
  (hf : f.Built opts o rho)
include hf

section Scan

variable {r : SABIReader} (hhandles : r.handles = f.table.map Prod.snd)
  (hpsum : r.dataEntriesCntPsum =
    (tableLayout (tableCalls f.table)).2.map fun e => UInt32.ofNat e.psum)
include hhandles hpsum

theorem describes (q : QueryContext) (w : TableWorld) (bitmap : Roaring) :
    (w.tableScan opts q f r bitmap).Describes f.blocks where
  psum := ⟨f.table.map Prod.snd, by simp [SstFile.blocks], by
    rw [SstFile.blocks, zip_table]
    exact hpsum⟩
  handles := by
    show r.handles.length = _
    rw [hhandles, SstFile.blocks, List.length_map, List.length_map]
  reads k handle b hhandle hb := by
    refine hf.readBlock_eq w hb ?_
    rw [← hhandles]
    exact hhandle
  interval := hf.interval

omit hf hhandles hpsum in
theorem emits_shows {s : TableScan} {q : QueryContext} {source : TableSource}
    (hnumber : source.number = f.number) (htrack : s.track = q.track)
    (hshows : ∀ e, s.shows (some e) = q.passes e) {ids : List ℕ}
    (hids : ∀ id ∈ ids, id < f.rows.length) {out : List (Entry × Option Bool)}
    (hemits : List.Forall₂ (s.EmitsRow f.blocks)
      (ids.filter fun id => s.shows (tableRows f.blocks)[id]?) out) :
    List.Forall₂ (fun row r => (TableLeaf.mergeRow source row).Shows q.track r) out
      (f.scanRows source.level s.interval q ids) := by
  induction ids generalizing out with
  | nil => cases hemits; exact .nil
  | cons id ids ih =>
      rw [List.forall_mem_cons] at hids
      have hrow : f.rows[id]? = some f.rows[id] := List.getElem?_eq_getElem hids.1
      have hshow : s.shows (tableRows f.blocks)[id]? = q.passes f.rows[id] := by
        rw [← hshows]
        exact congrArg s.shows hrow
      rw [SstFile.scanRows, List.filterMap_cons]
      cases hpass : q.passes f.rows[id] with
      | false =>
          rw [List.filter_cons_of_neg (by rw [hshow, hpass]; decide)] at hemits
          have hnone : f.rows[id]?.filter q.passes = none := by
            rw [hrow, Option.filter_some, if_neg (by rw [hpass]; decide)]
          rw [hnone]
          exact ih hids.2 hemits
      | true =>
          rw [List.filter_cons_of_pos (by rw [hshow, hpass])] at hemits
          have hsome : f.rows[id]?.filter q.passes = some f.rows[id] := by
            rw [hrow, Option.filter_some, if_pos hpass]
          rw [hsome]
          cases hemits with
          | @cons _ row _ out hemit hrest =>
              refine .cons ⟨?_, rfl, hnumber, fun ht => ?_⟩ (ih hids.2 hrest)
              · show some row.1 = some f.rows[id]
                exact hemit.row.symm.trans hrow
              · obtain ⟨k, b, hb, hin, hflag⟩ := hemit.flag (htrack.trans ht)
                rw [shadowedAt_eq hb hin]
                exact hflag

/-- The scan of the rows a bitmap has. -/
theorem scans {q : QueryContext} (htotal : q.Total) (w : TableWorld) {bitmap : Roaring}
    (hbitmap : ∀ id ∈ bitmap, id < f.rows.length) (level : ℤ) :
    ∃ targets, (w.tableScan opts q f r bitmap).targetBlocks = some targets ∧
      TableSource.Scans ⟨level, f.number, w.tableScan opts q f r bitmap, targets, w.readFails⟩
        q.track (f.scanRows level opts.interval q bitmap.toUint32Array) := by
  have hdescribes := hf.describes hhandles hpsum q w bitmap
  have hblocks := hf.blocks_le
  have heval : (w.tableScan opts q f r bitmap).Evaluates f.blocks := fun e _ =>
    Option.isSome_iff_ne_none.2 (htotal e)
  have hcount : (blocksHolding f.blocks bitmap.toUint32Array).length < 2 ^ 31 := by
    refine lt_of_le_of_lt (List.length_filter_le _ _) ?_
    rw [List.length_range, SstFile.blocks, List.length_map]
    omega
  obtain ⟨targets, htargets, hscan⟩ :=
    seek_emits hdescribes hf.rows_lt hf.nonempty heval hbitmap hcount
  refine ⟨targets, htargets, fun it hok => ?_, fun handle status herror => ?_⟩
  · obtain ⟨it', out, final, hseek, hyields, hemits, hfinal, -⟩ := hscan it hok
    exact ⟨it', out, final, hseek, hyields, hfinal, emits_shows rfl rfl (fun _ => rfl)
      (fun id hid => hbitmap id (Roaring.mem_toUint32Array.1 hid)) hemits⟩
  · have hread : w.readBlock f handle = .error status := herror
    rw [TableWorld.readBlock] at hread
    split at hread
    · cases hread
    · split at hread
      · cases hread
      · next failure _ =>
          obtain rfl := Except.error.inj hread
          exact failure.2

end Scan

/-- Whatever happens around the file, opening it fails or gives the scan of the
rows its index selects. -/
theorem exists_ids (hschema : validateAttrSpecs o = .ok) {bq : BitLSMQuery}
    (hq : bq.validate o = .ok) {q : QueryContext} (hsq : encodeQuery bq o = some q.sabiQuery)
    (htotal : q.Total) :
    ∃ ids, f.Selects o bq ids ∧ ∀ (level : ℤ) (w : TableWorld) (faulty : Prop),
      w.CallsInRange opts f → (w.Fails opts q f → faulty) →
      (∃ failure, w.openTable opts q f level = some (.error failure) ∧ faulty) ∨
        ∃ leaf, w.openTable opts q f level = some (.ok leaf) ∧
          leaf.Good q.track faulty (f.scanRows level opts.interval q ids) := by
  obtain ⟨r, idx, hparse, -, hreads, hanswers, hbelow, hhandles, hpsum⟩ :=
    hf.exists_reader hschema hq hsq
  -- the row ids every world ends up with unless a bin is missing
  let rows : Roaring :=
    if q.sabiQuery.unsat = true ∨ r.queryCanMatch q.sabiQuery = false then ∅
    else queryRows r idx.bitmaps q.sabiQuery
  have hvalues : ∀ id ∈ rows, ∃ e, f.rows[id]? = some e ∧ e.type = .value := by
    intro id hid
    have hmem : id ∈ queryRows r idx.bitmaps q.sabiQuery := by
      by_cases hcase : q.sabiQuery.unsat = true ∨ r.queryCanMatch q.sabiQuery = false
      · simp [rows, if_pos hcase] at hid
      · simpa only [rows, if_neg hcase] using hid
    obtain ⟨value, hvalue⟩ := hanswers.valueRows id hmem
    obtain ⟨e, he, htype, -⟩ := (rowValues_tableCalls_eq_some f.table).1 hvalue
    exact ⟨e, he, htype⟩
  have hcomplete : ∀ (id : ℕ) e, f.rows[id]? = some e → e.type = .value →
      bq.checkCondition e.value (ValueLayout.ofOptions o) = some true → id ∈ rows := by
    intro id e he htype hcheck
    have hvalue := (rowValues_tableCalls_eq_some f.table).2 ⟨e, he, htype, rfl⟩
    obtain ⟨hunsat, hcan⟩ := hanswers.canMatch id e.value hvalue hcheck
    have hcase : ¬(q.sabiQuery.unsat = true ∨ r.queryCanMatch q.sabiQuery = false) := by
      simp [hunsat, hcan]
    simp only [rows, if_neg hcase]
    refine hanswers.complete id e.value hvalue hcheck fun _ => ?_
    rw [coveredRows_tableCalls]
    exact (List.getElem?_eq_some_iff.1 he).1
  have hlt : ∀ id ∈ rows, id < f.rows.length := fun id hid => by
    obtain ⟨e, he, -⟩ := hvalues id hid
    exact (List.getElem?_eq_some_iff.1 he).1
  refine ⟨rows.toUint32Array, ⟨rows.pairwise_toUint32Array,
    fun id hid => hvalues id (Roaring.mem_toUint32Array.1 hid),
    fun id e he htype hcheck => Roaring.mem_toUint32Array.2 (hcomplete id e he htype hcheck)⟩,
    fun level w faulty hcalls hfails => ?_⟩
  rw [TableWorld.openTable]
  cases hfind : w.findTable with
  | some failure =>
      exact Or.inl ⟨failure, rfl, hfails (Or.inl (by simp [hfind]))⟩
  | none =>
  cases hentry : w.indexEntry with
  | some failure =>
      refine Or.inr ⟨_, rfl, Or.inl ⟨failure.2, hfails (Or.inr (Or.inl (by simp [hentry])))⟩⟩
  | none =>
  refine Or.inr ?_
  have hreadFails (n : ℕ) (handle : BlockHandle) (failure : Failure)
      (h : w.readFails n handle = some failure) : faulty :=
    hfails (Or.inr (Or.inr (Or.inl ⟨n, handle, by simp [h]⟩)))
  obtain ⟨bitmap, failed, hbitmap, -, hexact⟩ :=
    hf.queryBitmap_spec hparse hreads hbelow hcalls
  simp only [hparse, Option.bind_some, hbitmap]
  cases failed with
  | true =>
      have hdescribes := hf.describes hhandles hpsum q w bitmap
      obtain ⟨targets, htargets⟩ := (w.tableScan opts q f r bitmap).exists_targetsFrom
        (by rw [hdescribes.psum_eq, hdescribes.handles]; simp) bitmap.toUint32Array none 0
      refine ⟨_, congrArg (Option.map _) htargets, Or.inl ⟨by simp, hfails ?_⟩⟩
      exact Or.inr (Or.inr (Or.inr ⟨r, bitmap, hparse, hbitmap⟩))
  | false =>
      obtain rfl : bitmap = rows := hexact rfl
      obtain ⟨targets, htargets, hscans⟩ := hf.scans hhandles hpsum htotal w hlt level
      exact ⟨_, congrArg (Option.map _) htargets, Or.inr ⟨rfl, hscans, hreadFails⟩⟩

end SstFile.Built

end BitLSM
