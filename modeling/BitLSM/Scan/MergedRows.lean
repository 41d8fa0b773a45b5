import Mathlib.Data.List.Forall2
import BitLSM.Scan.OpenScan

/-!
The rows a scan merges.

Each child of the merge hands out the Puts of its source that the snapshot
sees, those of a file as far as its index selects them. No two of these rows
have the same internal key, so they have one sorted merge, and it has every
row the query accepts.
-/

namespace BitLSM

open Wire

/-! ### What the query means -/

namespace ScanConfig

/-- The query accepts the value of a row. -/
def accepts (cfg : ScanConfig) (value : Bytes) : Bool :=
  cfg.query.checkCondition value (ValueLayout.ofOptions cfg.options) == some true

/-- The schema and the query are valid, and a query that is compiled fits its
32-bit offsets. -/
structure Valid (cfg : ScanConfig) : Prop where
  schema : validateAttrSpecs cfg.options = .ok
  query : cfg.query.validate cfg.options = .ok
  conditions : cfg.resultMode = .verified → cfg.query.clauseGroups.flatten.length < 2 ^ 32
  comparands : cfg.resultMode = .verified →
    CompiledQuery.ArenaFits 0 cfg.query.clauseGroups.flatten

/-- The two forms of the query say what it says. -/
structure Means (cfg : ScanConfig) (q : QueryContext) : Prop where
  readSeqno : q.readSeqno = cfg.readSeqno
  encoded : encodeQuery cfg.query cfg.options = some q.sabiQuery
  verified : cfg.resultMode = .verified →
    ∃ cq, q.compiled = some cq ∧ ∀ row, cq.eval row = some (cfg.accepts row)
  candidate : cfg.resultMode = .candidate → q.compiled = none

variable {cfg : ScanConfig}

theorem Valid.checkCondition_eq (hvalid : cfg.Valid) (row : Bytes) :
    cfg.query.checkCondition row (ValueLayout.ofOptions cfg.options) = some (cfg.accepts row) := by
  rw [accepts, BitLSMQuery.checkCondition_eq row hvalid.schema hvalid.query]
  simp

theorem Valid.exists_context (hvalid : cfg.Valid) (s : LsmState) :
    ∃ q, cfg.context s = some q ∧ cfg.Means q ∧ q.track = cfg.checkEnabled s := by
  obtain ⟨sq, hsq, -⟩ := encodeQuery_spec hvalid.query
  cases hmode : cfg.resultMode with
  | candidate =>
      refine ⟨⟨cfg.readSeqno, sq, none, cfg.checkEnabled s⟩, ?_, ⟨rfl, hsq, ?_, fun _ => rfl⟩, rfl⟩
      · rw [context, hmode, hsq]
        rfl
      · rw [hmode]
        intro h
        cases h
  | verified =>
      obtain ⟨cq, hcompile, hcq⟩ := CompiledQuery.ofQuery_spec hvalid.query
        (hvalid.conditions hmode) (hvalid.comparands hmode)
      refine ⟨⟨cfg.readSeqno, sq, some cq, cfg.checkEnabled s⟩, ?_,
        ⟨rfl, hsq, fun _ => ⟨cq, rfl, fun row => ?_⟩, ?_⟩, rfl⟩
      · rw [context, hmode, hsq, hcompile]
        rfl
      · rw [hcq.eval_eq hvalid.schema hvalid.query, hvalid.checkCondition_eq]
      · rw [hmode]
        intro h
        cases h

/-- A row the leaves hand out: a Put the snapshot sees, which the query accepts
if rows are verified. -/
def Passes (cfg : ScanConfig) (e : Entry) : Prop :=
  e.seqno.toNat ≤ cfg.readSeqno.toNat ∧ e.type = .value ∧
    (cfg.resultMode = .verified → cfg.accepts e.value = true)

namespace Means

variable {q : QueryContext} (hq : cfg.Means q)
include hq

theorem rowPasses_of_value {e : Entry} (hread : e.seqno.toNat ≤ cfg.readSeqno.toNat)
    (htype : e.type = .value) :
    q.rowPasses e = some (cfg.resultMode == .candidate || cfg.accepts e.value) := by
  have hsees : ¬q.readSeqno < e.seqno := by
    rw [hq.readSeqno, UInt64.lt_iff_toNat_lt]
    omega
  rw [QueryContext.rowPasses, if_neg hsees, if_neg (by simp [htype])]
  cases hmode : cfg.resultMode with
  | candidate =>
      rw [hq.candidate hmode]
      rfl
  | verified =>
      obtain ⟨cq, hcq, heval⟩ := hq.verified hmode
      rw [hcq]
      exact heval e.value

theorem rowPasses_of_not {e : Entry}
    (h : ¬(e.seqno.toNat ≤ cfg.readSeqno.toNat ∧ e.type = .value)) :
    q.rowPasses e = some false := by
  rw [QueryContext.rowPasses, hq.readSeqno]
  split
  · rfl
  next hsees =>
  rw [UInt64.lt_iff_toNat_lt, not_lt] at hsees
  refine if_pos ?_
  cases htype : e.type with
  | value => exact absurd ⟨hsees, htype⟩ h
  | deletion => exact Or.inl rfl
  | singleDeletion => exact Or.inr rfl

theorem total : q.Total := by
  intro e
  by_cases h : e.seqno.toNat ≤ cfg.readSeqno.toNat ∧ e.type = .value
  · rw [hq.rowPasses_of_value h.1 h.2]
    exact Option.some_ne_none _
  · rw [hq.rowPasses_of_not h]
    exact Option.some_ne_none _

theorem passes_iff {e : Entry} : q.passes e = true ↔ cfg.Passes e := by
  rw [QueryContext.passes, beq_iff_eq, Passes]
  by_cases h : e.seqno.toNat ≤ cfg.readSeqno.toNat ∧ e.type = .value
  · rw [hq.rowPasses_of_value h.1 h.2]
    cases hmode : cfg.resultMode <;> simp [h.1, h.2]
  · rw [hq.rowPasses_of_not h]
    constructor
    · intro hfalse
      cases hfalse
    · exact fun hpasses => absurd ⟨hpasses.1, hpasses.2.1⟩ h

end Means

end ScanConfig

/-! ### The lists of the children -/

theorem mem_levelLists {rowsOf : ℕ → SstFile → List SourceRow} {levels : List (List SstFile)}
    {n : ℕ} {l : List SourceRow} : l ∈ levelLists rowsOf n levels ↔
      ∃ (i : ℕ) (files : List SstFile), levels[i]? = some files ∧ files ≠ [] ∧
        l = files.flatMap (rowsOf (n + i)) := by
  induction levels generalizing n with
  | nil => simp [levelLists]
  | cons files rest ih =>
      have hsplit : (∃ (i : ℕ) (files' : List SstFile), (files :: rest)[i]? = some files' ∧
          files' ≠ [] ∧ l = files'.flatMap (rowsOf (n + i))) ↔
          (files ≠ [] ∧ l = files.flatMap (rowsOf n)) ∨ l ∈ levelLists rowsOf (n + 1) rest := by
        rw [ih]
        constructor
        · rintro ⟨_ | i, files', hi, hne, hl⟩
          · obtain rfl : files = files' := Option.some.inj hi
            exact Or.inl ⟨hne, hl⟩
          · exact Or.inr ⟨i, files', hi, hne, by rw [Nat.add_right_comm]; exact hl⟩
        · rintro (⟨hne, hl⟩ | ⟨i, files', hi, hne, hl⟩)
          · exact ⟨0, files, rfl, hne, hl⟩
          · exact ⟨i + 1, files', hi, hne, by rw [Nat.add_right_comm] at hl; exact hl⟩
      rw [hsplit, levelLists]
      split
      · next hnil => simp [List.isEmpty_iff.1 hnil]
      · next hne =>
          have hne' : files ≠ [] := fun hnil => hne (List.isEmpty_iff.2 hnil)
          simp [hne']

section Lists

variable {s : LsmState} {q : QueryContext} {interval : ℕ} {ids : SstFile → List ℕ}

/-- The rows of the children of a scan, where `ids` are the row ids the index
of each file selects. -/
def LsmState.scanLists (s : LsmState) (q : QueryContext) (interval : ℕ)
    (ids : SstFile → List ℕ) : List (List SourceRow) :=
  childLists ((s.mem :: s.imm).map fun m => m.entries.filter q.passes)
    (fun level f => f.scanRows level interval q (ids f)) s

/-- A row of a child, with its place in the tree. -/
inductive LsmState.Origin (s : LsmState) (q : QueryContext) (interval : ℕ)
    (ids : SstFile → List ℕ) : SourceRow → Prop
  | memtable {m : Versions} {e : Entry} : m ∈ s.mem :: s.imm → e ∈ m.entries →
      q.passes e = true → Origin s q interval ids (MemTableIter.row e)
  | table {level : ℕ} {files : List SstFile} {f : SstFile} {r : SourceRow} :
      s.levels[level]? = some files → f ∈ files → r ∈ f.scanRows level interval q (ids f) →
      Origin s q interval ids r

theorem LsmState.mem_scanLists {r : SourceRow} :
    r ∈ (s.scanLists q interval ids).flatten ↔ s.Origin q interval ids r := by
  simp only [scanLists, childLists, List.flatten_append, List.mem_append, List.map_map,
    List.mem_flatten, List.mem_map, mem_levelLists]
  constructor
  · rintro (⟨l, ⟨m, hm, rfl⟩, hr⟩ | ⟨l, ⟨f, hf, rfl⟩, hr⟩ | ⟨l, ⟨i, files, hi, -, rfl⟩, hr⟩)
    · obtain ⟨e, he, rfl⟩ := List.mem_map.1 hr
      exact .memtable hm (List.mem_filter.1 he).1 (List.mem_filter.1 he).2
    · have hne : s.levels ≠ [] := by
        rintro hnil
        rw [level0, hnil] at hf
        cases hf
      refine .table (show s.levels[0]? = some s.level0 from ?_) hf hr
      rw [level0, List.headD_eq_head?_getD, List.head?_eq_getElem?]
      cases hlevels : s.levels with
      | nil => exact absurd hlevels hne
      | cons l rest => rfl
    · obtain ⟨f, hf, hr⟩ := List.mem_flatMap.1 hr
      rw [List.getElem?_tail] at hi
      refine .table hi hf ?_
      rwa [Nat.add_comm]
  · rintro (⟨hm, he, hpass⟩ | ⟨hlevel, hf, hr⟩)
    · exact Or.inl ⟨_, ⟨_, hm, rfl⟩, List.mem_map_of_mem (List.mem_filter.2 ⟨he, hpass⟩)⟩
    · refine Or.inr ?_
      rename_i level files f
      obtain _ | level := level
      · refine Or.inl ⟨_, ⟨f, ?_, rfl⟩, hr⟩
        rw [level0, List.headD_eq_head?_getD, List.head?_eq_getElem?, hlevel]
        exact hf
      · refine Or.inr ⟨_, ⟨level, files, by rw [List.getElem?_tail]; exact hlevel,
          List.ne_nil_of_mem hf, rfl⟩, List.mem_flatMap.2 ⟨f, hf, ?_⟩⟩
        rwa [Nat.add_comm]

/-- The rows of an origin are versions of the tree. -/
theorem LsmState.Origin.entry_mem {r : SourceRow} (h : s.Origin q interval ids r) :
    r.entry ∈ s.versions.entries ∧ q.passes r.entry = true := by
  cases h with
  | memtable hm he hpass => exact ⟨mem_versions_entries.2 (Or.inl ⟨_, hm, he⟩), hpass⟩
  | table hlevel hf hr =>
      obtain ⟨id, -, e, he, hpass, rfl⟩ := SstFile.mem_scanRows.1 hr
      exact ⟨mem_versions_entries.2 (Or.inr ⟨_, _, hlevel, _, hf, List.mem_of_getElem? he⟩), hpass⟩

/-- Every row of the list is a version of the place. -/
def HeldBy (l : List SourceRow) (p : Versions) : Prop :=
  ∀ r ∈ l, p.Has r.entry.userKey r.entry.seqno.toNat

theorem SstFile.heldBy_scanRows (f : SstFile) (level : ℤ) (ids : List ℕ) :
    HeldBy (f.scanRows level interval q ids) f.versions := by
  intro r hr
  obtain ⟨id, -, e, he, -, rfl⟩ := SstFile.mem_scanRows.1 hr
  exact Or.inl ⟨e, List.mem_of_getElem? he, rfl, rfl⟩

theorem levelLists_held {rowsOf : ℕ → SstFile → List SourceRow}
    (hrows : ∀ level f, HeldBy (rowsOf level f) f.versions) (n : ℕ)
    (levels : List (List SstFile)) :
    List.SublistForall₂ HeldBy (levelLists rowsOf n levels)
      (levels.map fun files => .join (files.map SstFile.versions)) := by
  induction levels generalizing n with
  | nil => exact .nil
  | cons files rest ih =>
      rw [levelLists, List.map_cons]
      split
      · exact .cons_right (ih (n + 1))
      · refine .cons (fun r hr => ?_) (ih (n + 1))
        obtain ⟨f, hf, hr⟩ := List.mem_flatMap.1 hr
        exact Versions.has_join.2 ⟨f.versions, List.mem_map_of_mem hf, hrows n f r hr⟩

/-- Each list belongs to a place of its own. -/
theorem LsmState.scanLists_held (s : LsmState) (q : QueryContext) (interval : ℕ)
    (ids : SstFile → List ℕ) :
    List.SublistForall₂ HeldBy (s.scanLists q interval ids) s.places := by
  have hfiles (level : ℕ) (f : SstFile) :
      HeldBy (f.scanRows level interval q (ids f)) f.versions := f.heldBy_scanRows level (ids f)
  obtain ⟨below, hbelow, hsub⟩ :=
    List.sublistForall₂_iff.1 (levelLists_held hfiles 1 s.levels.tail)
  refine List.sublistForall₂_iff.2 ⟨(s.mem :: s.imm) ++ (s.level0.map SstFile.versions ++ below),
    List.rel_append ?_ (List.rel_append ?_ hbelow),
    (List.Sublist.refl _).append ((List.Sublist.refl _).append hsub)⟩
  · rw [List.map_map, List.forall₂_map_left_iff, List.forall₂_same]
    intro m hm r hr
    obtain ⟨e, he, rfl⟩ := List.mem_map.1 hr
    exact Or.inl ⟨e, (List.mem_filter.1 he).1, rfl, rfl⟩
  · rw [List.forall₂_map_left_iff, List.forall₂_map_right_iff, List.forall₂_same]
    exact fun f _ => hfiles 0 f

theorem pairwise_of_sublistForall₂ {α β : Type} {R : α → β → Prop} {S : β → β → Prop}
    {T : α → α → Prop} (himp : ∀ a a' b b', R a b → R a' b' → S b b' → T a a') {l : List α}
    {l' : List β} (h : List.SublistForall₂ R l l') (hl' : l'.Pairwise S) : l.Pairwise T := by
  have hmem : ∀ {l : List α} {l' : List β}, List.SublistForall₂ R l l' →
      ∀ a ∈ l, ∃ b ∈ l', R a b := by
    intro l l' h
    induction h with
    | nil => simp
    | cons hab _ ih =>
        refine List.forall_mem_cons.2 ⟨⟨_, List.mem_cons_self, hab⟩, fun a ha => ?_⟩
        obtain ⟨b, hb, hab⟩ := ih a ha
        exact ⟨b, List.mem_cons_of_mem _ hb, hab⟩
    | cons_right _ ih =>
        intro a ha
        obtain ⟨b, hb, hab⟩ := ih a ha
        exact ⟨b, List.mem_cons_of_mem _ hb, hab⟩
  induction h with
  | nil => exact .nil
  | cons hab hrest ih =>
      rw [List.pairwise_cons] at hl'
      refine List.pairwise_cons.2 ⟨fun a' ha' => ?_, ih hl'.2⟩
      obtain ⟨b', hb', hab'⟩ := hmem hrest a' ha'
      exact himp _ _ _ _ hab hab' (hl'.1 b' hb')
  | cons_right _ ih => exact ih (List.pairwise_cons.1 hl').2

section Shape

variable (hs : s.Shape)
include hs

/-- Within a child the rows are sorted. -/
theorem LsmState.Shape.scanLists_sorted (hids : ∀ f ∈ s.files, (ids f).Pairwise (· < ·))
    {l : List SourceRow} (hl : l ∈ s.scanLists q interval ids) :
    l.Pairwise fun a b => a.entry.key < b.entry.key := by
  have hfile (level : ℤ) (f : SstFile) (hf : f ∈ s.files) :
      (f.scanRows level interval q (ids f)).Pairwise fun a b => a.entry.key < b.entry.key :=
    SstFile.scanRows_sorted (hs.files f hf) (hids f hf)
  rw [scanLists, childLists, List.mem_append, List.mem_append, List.map_map] at hl
  rcases hl with hl | hl | hl
  · obtain ⟨m, hm, rfl⟩ := List.mem_map.1 hl
    refine List.pairwise_map.2 ?_
    exact (List.pairwise_map.1 (hs.memtables m hm)).sublist List.filter_sublist
  · obtain ⟨f, hf, rfl⟩ := List.mem_map.1 hl
    exact hfile 0 f (mem_files_of_level0 hf)
  · obtain ⟨i, files, hi, -, rfl⟩ := mem_levelLists.1 hl
    have hfiles := List.mem_of_getElem? hi
    apply hs.level_sorted hfiles
    · exact fun f hf => hfile _ f (mem_files_of_level (List.mem_of_mem_tail hfiles) hf)
    · intro f _ r hr
      obtain ⟨id, -, e, he, -, rfl⟩ := SstFile.mem_scanRows.1 hr
      exact ⟨e, List.mem_of_getElem? he, rfl⟩

/-- The children have a merge. -/
theorem LsmState.Shape.exists_scanMerge (hids : ∀ f ∈ s.files, (ids f).Pairwise (· < ·)) :
    ∃ rows, SortedMerge.Merges (fun r : SourceRow => r.entry.key)
      (s.scanLists q interval ids) rows := by
  have hsorted (l : List SourceRow) (hl : l ∈ s.scanLists q interval ids) :=
    hs.scanLists_sorted hids hl
  apply SortedMerge.exists_merges hsorted
  refine List.pairwise_flatten.2 ⟨fun l hl => (hsorted l hl).imp fun h => h.ne, ?_⟩
  refine pairwise_of_sublistForall₂ (fun l l' p p' hp hp' hnewer r hr r' hr' hkey => ?_)
    (s.scanLists_held q interval ids) hs.newer
  -- a shallower place has newer versions of a key only
  obtain ⟨huser, hseqno⟩ := InternalKey.mk.inj hkey
  have hlt := hnewer _ _ _ (hp r hr) (huser ▸ hp' r' hr')
  rw [hseqno] at hlt
  exact lt_irrefl _ hlt

end Shape

end Lists

end BitLSM
