import BitLSM.Scan.Candidates
import BitLSM.Scan.QueryContext

/-!
The scan of one level below level 0.

The files of a level are disjoint and sorted, so they are scanned one after
another. A file that cannot be opened, or whose scan stops on an error, ends
the scan of the level; going on to the next file would drop its rows.
-/

namespace BitLSM

structure LevelIter (F τ : Type) where
  files : List F
  /-- The files behind the current one. -/
  rest : List F := []
  /-- How many tables were opened so far. -/
  opens : ℕ := 0
  /-- The scan of the current file. -/
  sti : Option τ := none
  status : Status := .ok
  valid : Bool := false

namespace LevelIter

variable {F τ : Type} (openTable : ℕ → F → Option (Except Failure τ)) (c : MergeIter τ)

/-- Open the files in order until one has a row. -/
def loadFiles : List F → LevelIter F τ → Option (LevelIter F τ)
  | [], it => some { it with rest := [], valid := false }
  | f :: rest, it =>
      (openTable it.opens f).bind fun
        | .error failure =>
            some { it with rest, opens := it.opens + 1, sti := none, status := failure,
                           valid := false }
        | .ok table =>
            (c.seekToFirst table).bind fun sti =>
              let it := { it with rest, opens := it.opens + 1, sti := some sti }
              if (c.head sti).isSome then some { it with valid := true }
              else if c.status sti ≠ .ok then
                some { it with status := c.status sti, valid := false }
              else loadFiles rest it

/-- A failure is sticky. -/
def seekToFirst (it : LevelIter F τ) : Option (LevelIter F τ) :=
  if it.status ≠ .ok then some { it with valid := false }
  else loadFiles openTable c it.files it

def next (it : LevelIter F τ) : Option (LevelIter F τ) :=
  (it.sti.bind c.next).bind fun sti =>
    let it := { it with sti := some sti }
    if (c.head sti).isSome then some it
    else if c.status sti ≠ .ok then some { it with status := c.status sti, valid := false }
    else loadFiles openTable c it.rest { it with valid := false }

def iter : MergeIter (LevelIter F τ) where
  head it := if it.valid = true then it.sti.bind c.head else none
  next := next openTable c
  seekToFirst := seekToFirst openTable c
  status := status

theorem head_of_not_valid {it : LevelIter F τ} (h : it.valid = false) :
    (iter openTable c).head it = none := by
  show (if it.valid = true then _ else _) = none
  rw [h]
  rfl

theorem head_of_valid {it : LevelIter F τ} {sti : τ} (hvalid : it.valid = true)
    (hsti : it.sti = some sti) : (iter openTable c).head it = c.head sti := by
  show (if it.valid = true then _ else _) = _
  rw [if_pos hvalid, hsti]
  rfl

theorem iter_sticky : (iter openTable c).Sticky := by
  intro it hstatus
  exact ⟨{ it with valid := false }, if_pos hstatus, head_of_not_valid openTable c rfl, rfl⟩

/-! ### What the level delivers -/

/-- Opening a file either fails or gives the scan of its rows. -/
def Opens (track : Bool) (inv : τ → Prop) (faulty : Prop) (rowsOf : F → List SourceRow)
    (f : F) : Prop :=
  ∀ n, (∃ failure, openTable n f = some (.error failure) ∧ faulty) ∨
    ∃ table sti, openTable n f = some (.ok table) ∧ c.seekToFirst table = some sti ∧
      c.Serves track inv faulty sti (rowsOf f)

/-- The state the level can be put back from. -/
def Ready (faulty : Prop) (files : List F) (it : LevelIter F τ) : Prop :=
  it.files = files ∧ (it.status ≠ .ok → faulty)

variable {openTable c} {track : Bool} {inv : τ → Prop} {faulty : Prop}
  {rowsOf : F → List SourceRow} {files rest : List F}

/-- The files of `rest` are scanned, from any state without an error. -/
def Loads (openTable : ℕ → F → Option (Except Failure τ)) (c : MergeIter τ) (track : Bool)
    (faulty : Prop) (rowsOf : F → List SourceRow) (files rest : List F) : Prop :=
  ∀ it : LevelIter F τ, it.files = files → it.status = .ok →
    ∃ it', loadFiles openTable c rest it = some it' ∧
      (iter openTable c).Serves track (Ready faulty files) faulty it' (rest.flatMap rowsOf)

/-- In the middle of a file, with `rest` behind it. -/
theorem serves_of_file (hrest : Loads openTable c track faulty rowsOf files rest) {sti : τ}
    {rows : List SourceRow} (hserves : c.Serves track inv faulty sti rows)
    (hvalid : (c.head sti).isSome = true) {it : LevelIter F τ} (hfiles : it.files = files)
    (hok : it.status = .ok) (hsti : it.sti = some sti) (hitrest : it.rest = rest)
    (hit : it.valid = true) :
    (iter openTable c).Serves track (Ready faulty files) faulty it
      (rows ++ rest.flatMap rowsOf) := by
  induction hserves generalizing it with
  | done _ hhead _ => simp [hhead] at hvalid
  | failed hhead _ _ => simp [hhead] at hvalid
  | @more sti sti' row r rows _ hhead hshows _ hnext hmore ih =>
      have hready : Ready faulty files it := ⟨hfiles, fun hne => absurd hok hne⟩
      have hhead' : (iter openTable c).head it = some row :=
        (head_of_valid openTable c hit hsti).trans hhead
      have hmove : (iter openTable c).next it = _ :=
        congrArg (Option.bind · _) ((congrArg (Option.bind · c.next) hsti).trans hnext)
      rcases hmore.cases_head with ⟨hend, hok', rfl⟩ | ⟨hend, hfailed, hfaulty⟩ |
        ⟨row', -, -, -, hgo, -⟩
      · obtain ⟨it', hload, hserves'⟩ :=
          hrest { it with sti := some sti', valid := false } hfiles hok
        refine .more hready hhead' hshows hok (t := it') (hmove.trans ?_) hserves'
        rw [← hitrest] at hload
        simp only [Option.bind_some, hend, hok', Option.isSome_none, Bool.false_eq_true, if_false,
          ne_eq, not_true_eq_false]
        exact hload
      · refine .more hready hhead' hshows hok
          (t := { it with sti := some sti', status := c.status sti', valid := false })
          (hmove.trans ?_) ?_
        · simp only [Option.bind_some, hend, Option.isSome_none, Bool.false_eq_true, if_false,
            if_pos hfailed]
        · exact .failed (head_of_not_valid openTable c rfl) hfailed hfaulty
      · refine .more hready hhead' hshows hok (t := { it with sti := some sti' })
          (hmove.trans ?_) (ih (by rw [hgo]; rfl) hfiles hok rfl hitrest hit)
        simp only [Option.bind_some, hgo, Option.isSome_some, if_true]

theorem loads (hopen : ∀ f ∈ rest, Opens openTable c track inv faulty rowsOf f) :
    Loads openTable c track faulty rowsOf files rest := by
  induction rest with
  | nil =>
      intro it hfiles hok
      exact ⟨_, rfl, .done ⟨hfiles, fun hne => absurd hok hne⟩
        (head_of_not_valid openTable c rfl) hok⟩
  | cons f rest ih =>
      rw [List.forall_mem_cons] at hopen
      have hloads := ih hopen.2
      intro it hfiles hok
      rw [loadFiles]
      rcases hopen.1 it.opens with ⟨failure, hfail, hfaulty⟩ | ⟨table, sti, htable, hseek, hserves⟩
      · rw [hfail]
        exact ⟨_, rfl, .failed (head_of_not_valid openTable c rfl) failure.2 hfaulty⟩
      · rw [htable]
        simp only [Option.bind_some, hseek]
        rw [List.flatMap_cons]
        rcases hserves.cases_head with ⟨hend, hok', hnil⟩ | ⟨hend, hfailed, hfaulty⟩ |
          ⟨row, -, -, -, hgo, -⟩
        · simp only [hend, hok', Option.isSome_none, Bool.false_eq_true, if_false, ne_eq,
            not_true_eq_false, hnil, List.nil_append]
          exact hloads _ hfiles hok
        · simp only [hend, Option.isSome_none, Bool.false_eq_true, if_false, if_pos hfailed]
          exact ⟨_, rfl, .failed (head_of_not_valid openTable c rfl) hfailed hfaulty⟩
        · simp only [hgo, Option.isSome_some, if_true]
          exact ⟨_, rfl, serves_of_file hloads hserves (by rw [hgo]; rfl) hfiles hok rfl rfl rfl⟩

/-- The level iterator as a whole. -/
theorem iter_rewinds (hopen : ∀ f ∈ files, Opens openTable c track inv faulty rowsOf f) :
    (iter openTable c).Rewinds track (Ready faulty files) faulty (files.flatMap rowsOf) := by
  rintro it ⟨hfiles, hstatus⟩
  by_cases hok : it.status = .ok
  · have hloads : Loads openTable c track faulty rowsOf files files := loads hopen
    obtain ⟨it', hload, hserves⟩ := hloads it hfiles hok
    refine ⟨it', ?_, hserves⟩
    show seekToFirst openTable c it = _
    rw [seekToFirst, if_neg (not_not.2 hok), hfiles]
    exact hload
  · obtain ⟨it', hseek, hhead, hsame⟩ := iter_sticky openTable c it hok
    exact ⟨it', hseek, .failed hhead (hsame ▸ hok) (hstatus hok)⟩

end LevelIter

end BitLSM
