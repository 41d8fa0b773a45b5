import BitLSM.Scan.BatchIterator
import BitLSM.Scan.LevelIterator
import BitLSM.Scan.MemTableIterator
import BitLSM.Scan.MergingIterator
import BitLSM.Scan.TableLeaf

/-!
Opening a scan.

The constructor compiles and encodes the query, decides from the shape of the
tree how candidates are going to be judged, and opens the children of the
merge: the memtables, the files of level 0 and one iterator for each level
below. `openMerge_ready` says that the merge it starts with can be scanned,
and what it delivers.
-/

namespace BitLSM

open Wire

/-- What a scan is opened with. -/
structure ScanConfig where
  options : BitLSMOptions
  table : TableOptions
  query : BitLSMQuery
  resultMode : ResultMode
  readSeqno : UInt64
  /-- No merge operator and no blob files: the bytes of a row are its value. -/
  plainValues : Bool
  heapTop : HeapTop

/-- What happens around a scan. -/
structure ScanWorld where
  mem : LiveMemTable
  imm : List LiveMemTable
  /-- Around the table iterators, by level and by how many tables were opened before. -/
  tables : ℕ → ℕ → SstFile → TableWorld
  /-- The version as the `n`-th shadow check finds it. -/
  lsmAt : ℕ → LsmState
  reads : RocksReads
  findTable : ℕ → UInt64 → Status
  multiGet : ℕ → Bytes → Except Failure Bytes

/-! ### How candidates are judged -/

/-- Empty memtables and level 0, one level with files, and none of them with a
sequence number above zero: no key has a second version. -/
def LsmState.allZeroed (s : LsmState) : Bool :=
  s.mem.entries.isEmpty && s.mem.rangeDels.isEmpty && s.imm.isEmpty && s.level0.isEmpty &&
    match s.levels.tail.filter fun files => !files.isEmpty with
    | [files] => files.all fun f => f.largestSeqno == 0
    | _ => false

namespace ScanConfig

variable (cfg : ScanConfig) (s : LsmState)

def authoritativeScan : Bool :=
  decide (cfg.resultMode = .verified) && cfg.plainValues && s.allZeroed

def checkEnabled : Bool :=
  decide (cfg.resultMode = .verified) && cfg.plainValues && !cfg.authoritativeScan s

/-- The query in its two forms. In candidate mode rows are not verified. -/
def context : Option QueryContext := do
  let compiled ←
    match cfg.resultMode with
    | .candidate => some none
    | .verified => (CompiledQuery.ofQuery cfg.query cfg.options).map some
  let sabiQuery ← encodeQuery cfg.query cfg.options
  return ⟨cfg.readSeqno, sabiQuery, compiled, cfg.checkEnabled s⟩

end ScanConfig

/-! ### The children of the merge -/

inductive ScanChild where
  | memtable (it : MemTableIter)
  | table (leaf : TableLeaf)
  | level (level : ℕ) (it : LevelIter SstFile TableLeaf)

section Children

variable (opts : TableOptions) (q : QueryContext) (w : ScanWorld)

def ScanWorld.openTable (level n : ℕ) (f : SstFile) : Option (Except Failure TableLeaf) :=
  (w.tables level n f).openTable opts q f level

/-- A level as an iterator of its own. -/
def levelIter (level : ℕ) : MergeIter (LevelIter SstFile TableLeaf) :=
  LevelIter.iter (w.openTable opts q level) TableLeaf.iter

def childIter : MergeIter ScanChild where
  head
    | .memtable it => (MemTableIter.iter q).head it
    | .table leaf => TableLeaf.iter.head leaf
    | .level level it => (levelIter opts q w level).head it
  next
    | .memtable it => ((MemTableIter.iter q).next it).map .memtable
    | .table leaf => (TableLeaf.iter.next leaf).map .table
    | .level level it => ((levelIter opts q w level).next it).map (.level level)
  seekToFirst
    | .memtable it => ((MemTableIter.iter q).seekToFirst it).map .memtable
    | .table leaf => (TableLeaf.iter.seekToFirst leaf).map .table
    | .level level it => ((levelIter opts q w level).seekToFirst it).map (.level level)
  status
    | .memtable it => (MemTableIter.iter q).status it
    | .table leaf => TableLeaf.iter.status leaf
    | .level level it => (levelIter opts q w level).status it

/-- The files of level 0. The first that does not open becomes the status. -/
def openLevel0 : List SstFile → Option (List ScanChild × Status)
  | [] => some ([], .ok)
  | f :: rest =>
      (w.openTable opts q 0 0 f).bind fun
        | .error failure => (openLevel0 rest).map fun (children, _) => (children, failure)
        | .ok leaf =>
            (openLevel0 rest).map fun (children, status) => (.table leaf :: children, status)

/-- The levels with files, from `level` on. -/
def levelChildren : ℕ → List (List SstFile) → List ScanChild
  | _, [] => []
  | level, files :: rest =>
      if files.isEmpty = true then levelChildren (level + 1) rest
      else .level level { files } :: levelChildren (level + 1) rest

/-- The constructor of the merging iterator. -/
def openMerge (s : LsmState) : Option (MergingIter ScanChild) :=
  (openLevel0 opts q w s.level0).map fun (tables, status) =>
    { children := (w.mem :: w.imm).map (fun mem => .memtable { mem }) ++
        (tables ++ levelChildren 1 s.levels.tail)
      status }

end Children

/-! ### The iterator -/

/-- An open scan: what it asks, its merge, and the state it starts in. -/
structure OpenScan where
  env : BatchEnv
  merge : MergeIter (MergingIter ScanChild)
  start : BatchIter (MergingIter ScanChild)

/-- What the scan asks outside the merge. -/
def ScanConfig.batchEnv (cfg : ScanConfig) (s : LsmState) (w : ScanWorld) (q : QueryContext) :
    BatchEnv where
  resultMode := cfg.resultMode
  authoritativeScan := cfg.authoritativeScan s
  compiled := q.compiled
  readSeqno := cfg.readSeqno
  lsmAt := w.lsmAt
  reads := w.reads
  findTable := w.findTable
  multiGet := w.multiGet

def ScanConfig.openScan (cfg : ScanConfig) (s : LsmState) (w : ScanWorld) : Option OpenScan :=
  (cfg.context s).bind fun q =>
    (openMerge cfg.table q w s).map fun merging =>
      { env := cfg.batchEnv s w q
        merge := MergingIter.iter cfg.heapTop (childIter cfg.table q w)
        start := { merge := merging, checkEnabled := cfg.checkEnabled s } }

namespace OpenScan

variable (scan : OpenScan) (fuel : ℕ)

def seekToFirst (it : BatchIter (MergingIter ScanChild)) :
    Option (BatchIter (MergingIter ScanChild)) :=
  it.seekToFirst scan.env scan.merge fuel

def cursor : Cursor (BatchIter (MergingIter ScanChild)) (Bytes × Option Bytes) :=
  BatchIter.cursor scan.env scan.merge fuel

/-- The state after the calls of a consumer. -/
def run (calls : List BatchIter.Call) : Option (BatchIter (MergingIter ScanChild)) :=
  Transition.run (BatchIter.step scan.env scan.merge fuel) scan.start calls

end OpenScan

/-! ### What the children deliver -/

section Deliver

variable {opts : TableOptions} {q : QueryContext} {w : ScanWorld} {faulty : Prop}

/-- The child can be put back, and then delivers `rows`. -/
def ScanChild.Holds (opts : TableOptions) (q : QueryContext) (w : ScanWorld) (faulty : Prop)
    (rows : List SourceRow) : ScanChild → Prop
  | .memtable it => it.mem.Stable q ∧ (∀ n failure, it.mem.stops n = some failure → faulty) ∧
      it.status = .ok ∧ rows = (it.mem.rows q).map MemTableIter.row
  | .table leaf => leaf.Good q.track faulty rows
  | .level l it => ∃ rowsOf, LevelIter.Ready faulty it.files it ∧
      (∀ f ∈ it.files, LevelIter.Opens (w.openTable opts q l) TableLeaf.iter q.track
        (fun _ => True) faulty rowsOf f) ∧ rows = it.files.flatMap rowsOf

theorem childIter_rewinds (rows : List SourceRow) :
    (childIter opts q w).Rewinds q.track (ScanChild.Holds opts q w faulty rows) faulty rows := by
  intro child hchild
  cases child with
  | memtable it =>
      obtain ⟨hmem, hstops, hok, rfl⟩ := hchild
      obtain ⟨it', hseek, hserves⟩ := MemTableIter.iter_rewinds hmem hstops q.track it ⟨rfl, hok⟩
      refine ⟨.memtable it', congrArg (Option.map _) hseek, hserves.map (fun _ => rfl)
        (fun _ => rfl) (fun _ => Iff.rfl) fun it₁ hit₁ => ?_⟩
      obtain ⟨hsame, hok₁⟩ := hit₁
      rw [← hsame] at hmem hstops ⊢
      exact ⟨hmem, hstops, hok₁, rfl⟩
  | table leaf =>
      obtain ⟨leaf', hseek, hserves⟩ := TableLeaf.iter_rewinds q.track faulty rows leaf hchild
      exact ⟨.table leaf', congrArg (Option.map _) hseek, hserves.map (fun _ => rfl)
        (fun _ => rfl) (fun _ => Iff.rfl) fun _ => id⟩
  | level level it =>
      obtain ⟨rowsOf, hready, hopen, rfl⟩ := hchild
      obtain ⟨it', hseek, hserves⟩ := LevelIter.iter_rewinds hopen it hready
      refine ⟨.level level it', congrArg (Option.map _) hseek, hserves.map (fun _ => rfl)
        (fun _ => rfl) (fun _ => Iff.rfl) fun it₁ hit₁ => ?_⟩
      have hfiles := hit₁.1
      rw [← hfiles] at hit₁ hopen ⊢
      exact ⟨rowsOf, hit₁, hopen, rfl⟩

variable {rowsOf : ℕ → SstFile → List SourceRow}

/-- However a file is opened, that fails or gives its rows. -/
def OpensRows (opts : TableOptions) (q : QueryContext) (w : ScanWorld) (faulty : Prop)
    (rowsOf : ℕ → SstFile → List SourceRow) (f : SstFile) : Prop :=
  ∀ level n, (∃ failure, w.openTable opts q level n f = some (.error failure) ∧ faulty) ∨
    ∃ leaf, w.openTable opts q level n f = some (.ok leaf) ∧
      leaf.Good q.track faulty (rowsOf level f)

theorem openLevel0_spec {files : List SstFile}
    (hopen : ∀ f ∈ files, OpensRows opts q w faulty rowsOf f) :
    ∃ children status, openLevel0 opts q w files = some (children, status) ∧
      ((status ≠ .ok ∧ faulty) ∨ (status = .ok ∧
        List.Forall₂ (ScanChild.Holds opts q w faulty) (files.map (rowsOf 0)) children)) := by
  induction files with
  | nil => exact ⟨[], .ok, rfl, Or.inr ⟨rfl, .nil⟩⟩
  | cons f rest ih =>
      rw [List.forall_mem_cons] at hopen
      obtain ⟨children, status, hrest, hcase⟩ := ih hopen.2
      rw [openLevel0]
      rcases hopen.1 0 0 with ⟨failure, hfail, hfaulty⟩ | ⟨leaf, hleaf, hgood⟩
      · rw [hfail, Option.bind_some]
        refine ⟨children, failure, ?_, Or.inl ⟨failure.2, hfaulty⟩⟩
        simp only [hrest, Option.map_some]
      · rw [hleaf, Option.bind_some]
        refine ⟨.table leaf :: children, status, ?_, ?_⟩
        · simp only [hrest, Option.map_some]
        · exact hcase.imp_right fun h => ⟨h.1, .cons hgood h.2⟩

/-- The rows of the levels with files, from `level` on. -/
def levelLists (rowsOf : ℕ → SstFile → List SourceRow) : ℕ → List (List SstFile) →
    List (List SourceRow)
  | _, [] => []
  | level, files :: rest =>
      if files.isEmpty = true then levelLists rowsOf (level + 1) rest
      else files.flatMap (rowsOf level) :: levelLists rowsOf (level + 1) rest

theorem levelChildren_holds {levels : List (List SstFile)}
    (hopen : ∀ files ∈ levels, ∀ f ∈ files, OpensRows opts q w faulty rowsOf f) (level : ℕ) :
    List.Forall₂ (ScanChild.Holds opts q w faulty) (levelLists rowsOf level levels)
      (levelChildren level levels) := by
  induction levels generalizing level with
  | nil => exact .nil
  | cons files rest ih =>
      rw [List.forall_mem_cons] at hopen
      rw [levelLists, levelChildren]
      split
      · exact ih hopen.2 (level + 1)
      · refine .cons ⟨rowsOf level, ⟨rfl, fun hne => absurd rfl hne⟩, fun f hf n => ?_, rfl⟩
          (ih hopen.2 (level + 1))
        refine (hopen.1 f hf level n).imp_right fun ⟨leaf, hleaf, hgood⟩ => ?_
        obtain ⟨sti, hseek, hserves⟩ := TableLeaf.iter_rewinds q.track faulty _ leaf hgood
        refine ⟨leaf, sti, hleaf, hseek, ?_⟩
        exact hserves.map (f := id) (fun _ => rfl) (fun _ => (congrFun Option.map_id _).symm)
          (fun _ => Iff.rfl) fun _ _ => trivial

/-- The rows of all children, from those of the memtables and of each file. -/
def childLists (mems : List (List Entry)) (rowsOf : ℕ → SstFile → List SourceRow)
    (s : LsmState) : List (List SourceRow) :=
  mems.map (List.map MemTableIter.row) ++
    (s.level0.map (rowsOf 0) ++ levelLists rowsOf 1 s.levels.tail)

theorem openMerge_ready {s : LsmState} (hmems : ∀ mem ∈ w.mem :: w.imm, mem.Stable q ∧
      ∀ n failure, mem.stops n = some failure → faulty)
    (hopen : ∀ f ∈ s.files, OpensRows opts q w faulty rowsOf f) :
    ∃ merging, openMerge opts q w s = some merging ∧
      MergingIter.Ready (ScanChild.Holds opts q w faulty) faulty
        (childLists ((w.mem :: w.imm).map (·.rows q)) rowsOf s) merging := by
  obtain ⟨tables, status, htables, hcase⟩ := openLevel0_spec
    fun f hf => hopen f (LsmState.mem_files_of_level0 hf)
  refine ⟨_, congrArg (Option.map _) htables, ?_⟩
  rcases hcase with hfailed | ⟨hok, hleaves⟩
  · exact Or.inl hfailed
  · refine Or.inr ⟨hok, List.rel_append ?_ (List.rel_append hleaves (levelChildren_holds ?_ 1))⟩
    · rw [List.map_map, List.forall₂_map_left_iff, List.forall₂_map_right_iff, List.forall₂_same]
      exact fun mem hmem => ⟨(hmems mem hmem).1, (hmems mem hmem).2, rfl, rfl⟩
    · exact fun files hfiles f hf =>
        hopen f (LsmState.mem_files_of_level (List.mem_of_mem_tail hfiles) hf)

end Deliver

end BitLSM
