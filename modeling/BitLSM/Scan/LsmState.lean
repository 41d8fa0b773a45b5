import Mathlib.Data.Prod.Lex
import BitLSM.Reader.Bins
import BitLSM.Scan.TableIterator

/-!
The state a scan runs against: the pinned version of the tree.

It has an active memtable, immutable memtables, the files of level 0 and the
levels below, each holding versions of user keys: entries and range
tombstones. `Shape` is what the storage engine guarantees about them. `get`
is the answer of a point lookup at a snapshot.
-/

namespace BitLSM

open Wire TableScan

/-- A tombstone for the user keys from `start` up to `stop`, which is not
covered. -/
structure RangeTombstone where
  start : Bytes
  stop : Bytes
  seqno : UInt64
  deriving DecidableEq, Repr

def RangeTombstone.Covers (t : RangeTombstone) (k : Bytes) : Prop := t.start ≤ k ∧ k < t.stop

instance (t : RangeTombstone) (k : Bytes) : Decidable (t.Covers k) :=
  inferInstanceAs (Decidable (_ ∧ _))

/-! ### Internal keys -/

/-- A user key with a sequence number. The type that follows it in an internal
key only orders versions of the same number, of which there is one at most. -/
@[ext]
structure InternalKey where
  userKey : Bytes
  seqno : UInt64
  deriving DecidableEq, Repr

/-- User keys from small to large, the versions of one from new to old. -/
instance internalKeyLinearOrder : LinearOrder InternalKey :=
  LinearOrder.lift' (fun key : InternalKey => toLex (key.userKey, OrderDual.toDual key.seqno.toNat))
    fun a b h => by
      obtain ⟨hkey, hseqno⟩ := Prod.mk.inj (toLex_inj.1 h)
      exact InternalKey.ext hkey (UInt64.toNat_inj.1 (OrderDual.toDual_inj.1 hseqno))

theorem InternalKey.lt_iff {a b : InternalKey} :
    a < b ↔ a.userKey < b.userKey ∨ a.userKey = b.userKey ∧ b.seqno.toNat < a.seqno.toNat :=
  Prod.Lex.lt_iff

theorem InternalKey.le_iff {a b : InternalKey} :
    a ≤ b ↔ a.userKey < b.userKey ∨ a.userKey = b.userKey ∧ b.seqno.toNat ≤ a.seqno.toNat :=
  Prod.Lex.le_iff

theorem InternalKey.userKey_mono {a b : InternalKey} (h : a ≤ b) : a.userKey ≤ b.userKey := by
  rcases InternalKey.le_iff.1 h with hlt | ⟨heq, -⟩
  · exact hlt.le
  · exact heq.le

def Entry.key (e : Entry) : InternalKey := ⟨e.userKey, e.seqno⟩

/-- The number above those of all entries. -/
def kMaxSequenceNumber : UInt64 := 72057594037927935

/-! ### Versions in one place -/

/-- What a memtable, a file or a level holds. -/
structure Versions where
  entries : List Entry
  rangeDels : List RangeTombstone := []

namespace Versions

/-- There is an entry of `k` with number `n`, or a tombstone that covers it. -/
def Has (v : Versions) (k : Bytes) (n : ℕ) : Prop :=
  (∃ e ∈ v.entries, e.userKey = k ∧ e.seqno.toNat = n) ∨
    ∃ t ∈ v.rangeDels, t.Covers k ∧ t.seqno.toNat = n

/-- All of several places. -/
def join (vs : List Versions) : Versions where
  entries := vs.flatMap entries
  rangeDels := vs.flatMap rangeDels

theorem has_join {vs : List Versions} {k : Bytes} {n : ℕ} :
    (join vs).Has k n ↔ ∃ v ∈ vs, v.Has k n := by
  simp only [Has, join, List.mem_flatMap]
  constructor
  · rintro (⟨e, ⟨v, hv, he⟩, h⟩ | ⟨t, ⟨v, hv, ht⟩, h⟩)
    · exact ⟨v, hv, Or.inl ⟨e, he, h⟩⟩
    · exact ⟨v, hv, Or.inr ⟨t, ht, h⟩⟩
  · rintro ⟨v, hv, ⟨e, he, h⟩ | ⟨t, ht, h⟩⟩
    · exact Or.inl ⟨e, ⟨v, hv, he⟩, h⟩
    · exact Or.inr ⟨t, ⟨v, hv, ht⟩, h⟩

end Versions

/-- The entry of the largest sequence number. -/
def newestOf : List Entry → Option Entry
  | [] => none
  | e :: rest =>
      match newestOf rest with
      | none => some e
      | some e' => if e.seqno < e'.seqno then some e' else some e

theorem newestOf_eq_none {l : List Entry} : newestOf l = none ↔ l = [] := by
  cases l with
  | nil => simp [newestOf]
  | cons e rest =>
      simp only [newestOf, reduceCtorEq, iff_false]
      cases newestOf rest with
      | none => simp
      | some e' => simp only []; split <;> simp

theorem newestOf_eq_some {l : List Entry} {e : Entry} (h : newestOf l = some e) :
    e ∈ l ∧ ∀ x ∈ l, x.seqno.toNat ≤ e.seqno.toNat := by
  induction l generalizing e with
  | nil => cases h
  | cons y rest ih =>
      rw [newestOf] at h
      cases hrest : newestOf rest with
      | none =>
          rw [hrest] at h
          obtain rfl := Option.some.inj h
          rw [newestOf_eq_none.1 hrest]
          simp
      | some e' =>
          rw [hrest] at h
          simp only [] at h
          obtain ⟨hmem, hmax⟩ := ih hrest
          by_cases hlt : y.seqno < e'.seqno
          · rw [if_pos hlt] at h
            obtain rfl := Option.some.inj h
            refine ⟨List.mem_cons_of_mem _ hmem, List.forall_mem_cons.2 ⟨?_, hmax⟩⟩
            exact (UInt64.lt_iff_toNat_lt.1 hlt).le
          · rw [if_neg hlt] at h
            obtain rfl := Option.some.inj h
            refine ⟨List.mem_cons_self, List.forall_mem_cons.2 ⟨le_rfl, fun x hx => ?_⟩⟩
            exact (hmax x hx).trans (UInt64.le_iff_toNat_le.1 (UInt64.not_lt.1 hlt))

namespace Versions

/-- The entries of `k` a snapshot sees. -/
def visible (v : Versions) (k : Bytes) (read : UInt64) : List Entry :=
  v.entries.filter fun e => decide (e.userKey = k ∧ e.seqno ≤ read)

/-- The largest number of a tombstone over `k` that a snapshot sees, or zero. -/
def maxCovering (v : Versions) (k : Bytes) (read : UInt64) : UInt64 :=
  v.rangeDels.foldl
    (fun n t => if t.Covers k ∧ t.seqno ≤ read ∧ n < t.seqno then t.seqno else n) 0

/-- A lookup: the newest entry the snapshot sees, unless it is a deletion or
covered by a newer tombstone. -/
def get (v : Versions) (k : Bytes) (read : UInt64) : Option Bytes :=
  match newestOf (v.visible k read) with
  | none => none
  | some e =>
      if e.type = .value ∧ ¬e.seqno < v.maxCovering k read then some e.value else none

variable {v : Versions} {k : Bytes} {read : UInt64}

theorem mem_visible {e : Entry} :
    e ∈ v.visible k read ↔ e ∈ v.entries ∧ e.userKey = k ∧ e.seqno.toNat ≤ read.toNat := by
  rw [visible, List.mem_filter, decide_eq_true_eq, UInt64.le_iff_toNat_le]

theorem foldl_maxCovering (l : List RangeTombstone) (n : UInt64) :
    let m := l.foldl
      (fun n t => if t.Covers k ∧ t.seqno ≤ read ∧ n < t.seqno then t.seqno else n) n
    n.toNat ≤ m.toNat ∧
      (∀ t ∈ l, t.Covers k → t.seqno.toNat ≤ read.toNat → t.seqno.toNat ≤ m.toNat) ∧
      (m = n ∨ ∃ t ∈ l, t.Covers k ∧ t.seqno.toNat ≤ read.toNat ∧ m = t.seqno) := by
  induction l generalizing n with
  | nil => simp
  | cons t l ih =>
      rw [List.foldl_cons]
      obtain ⟨hle, hall, hfrom⟩ := ih
        (if t.Covers k ∧ t.seqno ≤ read ∧ n < t.seqno then t.seqno else n)
      by_cases ht : t.Covers k ∧ t.seqno ≤ read ∧ n < t.seqno
      · rw [if_pos ht] at hle hall hfrom ⊢
        have hlt := UInt64.lt_iff_toNat_lt.1 ht.2.2
        refine ⟨by omega, List.forall_mem_cons.2 ⟨fun _ _ => hle, hall⟩, Or.inr ?_⟩
        rcases hfrom with heq | ⟨t', hmem, h⟩
        · exact ⟨t, List.mem_cons_self, ht.1, UInt64.le_iff_toNat_le.1 ht.2.1, heq⟩
        · exact ⟨t', List.mem_cons_of_mem _ hmem, h⟩
      · rw [if_neg ht] at hle hall hfrom ⊢
        refine ⟨hle, List.forall_mem_cons.2 ⟨fun hcov hread => ?_, hall⟩, ?_⟩
        · have hge : ¬n < t.seqno := fun hlt => ht ⟨hcov, UInt64.le_iff_toNat_le.2 hread, hlt⟩
          exact (UInt64.le_iff_toNat_le.1 (UInt64.not_lt.1 hge)).trans hle
        · exact hfrom.imp_right fun ⟨t', hmem, h⟩ => ⟨t', List.mem_cons_of_mem _ hmem, h⟩

theorem le_maxCovering {t : RangeTombstone} (ht : t ∈ v.rangeDels) (hcov : t.Covers k)
    (hread : t.seqno.toNat ≤ read.toNat) : t.seqno.toNat ≤ (v.maxCovering k read).toNat :=
  (foldl_maxCovering v.rangeDels 0).2.1 t ht hcov hread

/-- A number above zero is that of a tombstone. -/
theorem exists_maxCovering (h : 0 < (v.maxCovering k read).toNat) :
    ∃ t ∈ v.rangeDels, t.Covers k ∧ t.seqno.toNat ≤ read.toNat ∧
      v.maxCovering k read = t.seqno := by
  rcases (foldl_maxCovering v.rangeDels 0).2.2 with hzero | hsome
  · rw [maxCovering, hzero] at h
    simp at h
  · exact hsome

/-- The newest version a snapshot sees, where no two entries of `k` share a
number. -/
theorem get_eq_some_iff {value : Bytes}
    (huniq : ∀ e ∈ v.entries, ∀ e' ∈ v.entries, e.userKey = k → e'.userKey = k →
      e.seqno = e'.seqno → e = e') :
    v.get k read = some value ↔ ∃ e ∈ v.entries, e.userKey = k ∧ e.type = .value ∧
      e.value = value ∧ e.seqno.toNat ≤ read.toNat ∧
      ∀ n, v.Has k n → n ≤ read.toNat → n ≤ e.seqno.toNat := by
  constructor
  · intro h
    rw [get] at h
    cases hnew : newestOf (v.visible k read) with
    | none => simp [hnew] at h
    | some e =>
        rw [hnew] at h
        simp only [Option.ite_none_right_eq_some, Option.some.injEq] at h
        obtain ⟨⟨htype, hcov⟩, hvalue⟩ := h
        obtain ⟨hmem, hmax⟩ := newestOf_eq_some hnew
        obtain ⟨he, hkey, hread⟩ := mem_visible.1 hmem
        refine ⟨e, he, hkey, htype, hvalue, hread, ?_⟩
        rintro n (⟨x, hx, hxk, rfl⟩ | ⟨t, ht, htk, rfl⟩) hn
        · exact hmax x (mem_visible.2 ⟨hx, hxk, hn⟩)
        · have hle := le_maxCovering ht htk hn
          have := UInt64.le_iff_toNat_le.1 (UInt64.not_lt.1 hcov)
          omega
  · rintro ⟨e, he, hkey, htype, rfl, hread, hmax⟩
    have hvis := mem_visible.2 ⟨he, hkey, hread⟩
    rw [get]
    cases hnew : newestOf (v.visible k read) with
    | none => rw [newestOf_eq_none.1 hnew] at hvis; cases hvis
    | some e' =>
        obtain ⟨hmem', hmax'⟩ := newestOf_eq_some hnew
        obtain ⟨he', hkey', hread'⟩ := mem_visible.1 hmem'
        have hle := hmax' e hvis
        have hge := hmax _ (Or.inl ⟨e', he', hkey', rfl⟩) hread'
        obtain rfl := huniq e he e' he' hkey hkey' (UInt64.toNat_inj.1 (by omega))
        refine if_pos ⟨htype, fun hlt => ?_⟩
        have hnewer := UInt64.lt_iff_toNat_lt.1 hlt
        have hpos : 0 < (v.maxCovering k read).toNat := by omega
        obtain ⟨t, ht, htk, htread, heq⟩ := exists_maxCovering hpos
        have := hmax _ (Or.inr ⟨t, ht, htk, rfl⟩) htread
        rw [heq] at hnewer
        omega

end Versions

/-! ### Files and levels -/

/-- A table file: its metadata, its data blocks with their handles, its range
tombstones and its index. -/
structure SstFile where
  number : UInt64
  smallest : InternalKey
  largest : InternalKey
  largestSeqno : UInt64
  numRangeDeletions : UInt64
  /-- Whether a whole key may be in the file; absent without such a filter. -/
  filter : Option (Bytes → Bool)
  table : List (DataBlock × BlockHandle)
  rangeDels : List RangeTombstone := []
  index : Bytes := []
  /-- The bytes of the file and where its index starts. -/
  rep : TableRep := ⟨[], 0⟩

namespace SstFile

def blocks (f : SstFile) : List DataBlock := f.table.map Prod.fst

def rows (f : SstFile) : List Entry := tableRows f.blocks

def versions (f : SstFile) : Versions := ⟨f.rows, f.rangeDels⟩

/-- The filter rules the key out. -/
def excludes (f : SstFile) (k : Bytes) : Bool :=
  match f.filter with
  | none => false
  | some mayMatch => !mayMatch k

/-- What the metadata says about the contents. -/
structure WellFormed (f : SstFile) : Prop where
  sorted : (f.rows.map Entry.key).Pairwise (· < ·)
  smallest_le : ∀ e ∈ f.rows, f.smallest ≤ e.key
  le_largest : ∀ e ∈ f.rows, e.key ≤ f.largest
  smallest_le_largest : f.smallest ≤ f.largest
  smallest_le_start : ∀ t ∈ f.rangeDels, f.smallest ≤ ⟨t.start, t.seqno⟩
  stop_le_largest : ∀ t ∈ f.rangeDels, ⟨t.stop, kMaxSequenceNumber⟩ ≤ f.largest
  /-- The largest key is that of an entry or the end of a tombstone. -/
  largest_from : (∃ e ∈ f.rows, e.key = f.largest) ∨ f.largest.seqno = kMaxSequenceNumber
  seqno_le : ∀ k n, f.versions.Has k n → n ≤ f.largestSeqno.toNat
  counted : f.rangeDels ≠ [] → 0 < f.numRangeDeletions
  filtered : ∀ e ∈ f.rows, f.excludes e.userKey = false

theorem WellFormed.sortedByInternalKey {f : SstFile} (hf : f.WellFormed) :
    SortedByInternalKey f.rows := by
  refine (List.pairwise_map.1 hf.sorted).imp fun {a b} h => ?_
  exact (InternalKey.lt_iff.1 h).imp_right fun h => ⟨h.1, UInt64.le_iff_toNat_le.2 h.2.le⟩

/-- A file has versions of the user keys in its range only. -/
theorem WellFormed.userKey_mem {f : SstFile} (hf : f.WellFormed) {k : Bytes} {n : ℕ}
    (h : f.versions.Has k n) : f.smallest.userKey ≤ k ∧ k ≤ f.largest.userKey := by
  rcases h with ⟨e, he, rfl, -⟩ | ⟨t, ht, ⟨hstart, hstop⟩, -⟩
  · exact ⟨InternalKey.userKey_mono (hf.smallest_le e he),
      InternalKey.userKey_mono (hf.le_largest e he)⟩
  · exact ⟨(InternalKey.userKey_mono (hf.smallest_le_start t ht)).trans hstart,
      hstop.le.trans (InternalKey.userKey_mono (hf.stop_le_largest t ht))⟩

end SstFile

/-- The pinned version: the memtables from new to old, and the files of the
non-empty levels. -/
structure LsmState where
  mem : Versions
  imm : List Versions
  levels : List (List SstFile)

namespace LsmState

def level0 (s : LsmState) : List SstFile := s.levels.headD []

def files (s : LsmState) : List SstFile := s.levels.flatten

/-- The places of the tree from shallow to deep. -/
def places (s : LsmState) : List Versions :=
  (s.mem :: s.imm) ++ (s.level0.map SstFile.versions ++
    s.levels.tail.map fun files => .join (files.map SstFile.versions))

def versions (s : LsmState) : Versions := .join s.places

/-- `p` is shallower than `q`: whatever it has of a key is newer. -/
def Newer (p q : Versions) : Prop := ∀ k a b, p.Has k a → q.Has k b → b < a

/-- What the storage engine guarantees. -/
structure Shape (s : LsmState) : Prop where
  memtables : ∀ m ∈ s.mem :: s.imm, (m.entries.map Entry.key).Pairwise (· < ·)
  files : ∀ f ∈ s.files, f.WellFormed
  numbers : ∀ f ∈ s.files, ∀ g ∈ s.files, f.number = g.number → f = g
  disjoint : ∀ files ∈ s.levels.tail, files.Pairwise fun f g => f.largest < g.smallest
  newer : s.places.Pairwise Newer

theorem mem_files_of_level0 {s : LsmState} {f : SstFile} (h : f ∈ s.level0) : f ∈ s.files := by
  rw [files, List.mem_flatten]
  rw [level0] at h
  cases hlevels : s.levels with
  | nil => rw [hlevels] at h; cases h
  | cons l rest =>
      rw [hlevels] at h
      exact ⟨l, List.mem_cons_self, h⟩

theorem mem_files_of_level {s : LsmState} {f : SstFile} {files : List SstFile}
    (hfiles : files ∈ s.levels) (h : f ∈ files) : f ∈ s.files :=
  List.mem_flatten.2 ⟨files, hfiles, h⟩

/-- Each file is in one of the places. -/
theorem exists_place (s : LsmState) {f : SstFile} (hf : f ∈ s.files) :
    ∃ p ∈ s.places, ∀ k n, f.versions.Has k n → p.Has k n := by
  obtain ⟨files, hfiles, hmem⟩ := List.mem_flatten.1 hf
  cases hlevels : s.levels with
  | nil => rw [hlevels] at hfiles; cases hfiles
  | cons l rest =>
      rw [places, level0, hlevels]
      rw [hlevels] at hfiles
      rcases List.mem_cons.1 hfiles with rfl | hrest
      · exact ⟨f.versions, List.mem_append_right _ (List.mem_append_left _
          (List.mem_map_of_mem hmem)), fun _ _ h => h⟩
      · exact ⟨_, List.mem_append_right _ (List.mem_append_right _ (List.mem_map_of_mem hrest)),
          fun _ _ h => Versions.has_join.2 ⟨_, List.mem_map_of_mem hmem, h⟩⟩

/-! ### Versions across places -/

section Shape

variable {s : LsmState} (hs : s.Shape)
include hs

/-- What is taken from the files of a level one after another is sorted, if
it is within each of them. -/
theorem Shape.level_sorted {files : List SstFile} (hfiles : files ∈ s.levels.tail) {α : Type}
    {rowsOf : SstFile → List α} {key : α → InternalKey}
    (hsorted : ∀ f ∈ files, (rowsOf f).Pairwise fun a b => key a < key b)
    (hrows : ∀ f ∈ files, ∀ a ∈ rowsOf f, ∃ e ∈ f.rows, e.key = key a) :
    (files.flatMap rowsOf).Pairwise fun a b => key a < key b := by
  have hwf (f : SstFile) (hf : f ∈ files) : f.WellFormed :=
    hs.files f (mem_files_of_level (List.mem_of_mem_tail hfiles) hf)
  refine List.pairwise_flatMap.2 ⟨hsorted, ?_⟩
  refine (hs.disjoint files hfiles).imp_of_mem fun {f g} hf hg hlt a ha b hb => ?_
  obtain ⟨e, he, hae⟩ := hrows f hf a ha
  obtain ⟨e', he', hbe⟩ := hrows g hg b hb
  calc key a = e.key := hae.symm
    _ ≤ f.largest := (hwf f hf).le_largest e he
    _ < g.smallest := hlt
    _ ≤ e'.key := (hwf g hg).smallest_le e' he'
    _ = key b := hbe

theorem Shape.place_sorted {p : Versions} (hp : p ∈ s.places) :
    (p.entries.map Entry.key).Pairwise (· < ·) := by
  rcases List.mem_append.1 hp with hmem | hp
  · exact hs.memtables p hmem
  rcases List.mem_append.1 hp with hlevel0 | hlevel
  · obtain ⟨f, hf, rfl⟩ := List.mem_map.1 hlevel0
    exact (hs.files f (mem_files_of_level0 hf)).sorted
  · obtain ⟨files, hfiles, rfl⟩ := List.mem_map.1 hlevel
    show (((files.map SstFile.versions).flatMap Versions.entries).map Entry.key).Pairwise _
    rw [List.flatMap_map, List.pairwise_map]
    apply hs.level_sorted hfiles
    · intro f hf
      exact List.pairwise_map.1
        (hs.files f (mem_files_of_level (List.mem_of_mem_tail hfiles) hf)).sorted
    · exact fun f _ e he => ⟨e, he, rfl⟩

/-- No two entries of a tree have the same key and number. -/
theorem Shape.entry_unique {e e' : Entry} (he : e ∈ s.versions.entries)
    (he' : e' ∈ s.versions.entries) (hkey : e.key = e'.key) : e = e' := by
  have hnodup : (s.versions.entries.map Entry.key).Nodup := by
    show ((s.places.flatMap Versions.entries).map Entry.key).Nodup
    rw [List.map_flatMap, List.nodup_flatMap]
    refine ⟨fun p hp => (hs.place_sorted hp).imp fun h => h.ne, ?_⟩
    refine hs.newer.imp fun {p p'} hnewer key hp hp' => ?_
    obtain ⟨a, ha, rfl⟩ := List.mem_map.1 hp
    obtain ⟨b, hb, hab⟩ := List.mem_map.1 hp'
    obtain ⟨huser, hseqno⟩ := InternalKey.mk.inj hab
    have hlt := hnewer a.userKey a.seqno.toNat b.seqno.toNat (Or.inl ⟨a, ha, rfl, rfl⟩)
      (Or.inl ⟨b, hb, huser, rfl⟩)
    rw [hseqno] at hlt
    exact lt_irrefl _ hlt
  exact List.inj_on_of_nodup_map hnodup he he' hkey

/-- The answer of a lookup is the newest version the snapshot sees. -/
theorem Shape.get_eq_some_iff {k : Bytes} {read : UInt64} {value : Bytes} :
    s.versions.get k read = some value ↔ ∃ e ∈ s.versions.entries, e.userKey = k ∧
      e.type = .value ∧ e.value = value ∧ e.seqno.toNat ≤ read.toNat ∧
      ∀ n, s.versions.Has k n → n ≤ read.toNat → n ≤ e.seqno.toNat := by
  apply Versions.get_eq_some_iff
  intro e he e' he' hk hk' hseqno
  exact hs.entry_unique he he' (InternalKey.ext (hk.trans hk'.symm) hseqno)

end Shape

/-- The entries of the tree are those of its memtables and files. -/
theorem mem_versions_entries {s : LsmState} {e : Entry} : e ∈ s.versions.entries ↔
    (∃ m ∈ s.mem :: s.imm, e ∈ m.entries) ∨
      ∃ (level : ℕ) (files : List SstFile), s.levels[level]? = some files ∧
        ∃ f ∈ files, e ∈ f.rows := by
  show e ∈ s.places.flatMap Versions.entries ↔ _
  rw [places, List.flatMap_append, List.flatMap_append, List.mem_append, List.mem_append,
    List.mem_flatMap]
  refine or_congr_right ?_
  simp only [List.flatMap_map, List.mem_flatMap, Versions.join, SstFile.versions]
  cases hlevels : s.levels with
  | nil => simp [level0, hlevels]
  | cons l rest =>
      rw [level0, hlevels]
      constructor
      · rintro (⟨f, hf, he⟩ | ⟨files, hfiles, f, hf, he⟩)
        · exact ⟨0, l, rfl, f, hf, he⟩
        · obtain ⟨i, hi⟩ := List.mem_iff_getElem?.1 hfiles
          exact ⟨i + 1, files, hi, f, hf, he⟩
      · rintro ⟨_ | level, files, hlevel, f, hf, he⟩
        · obtain rfl : l = files := Option.some.inj hlevel
          exact Or.inl ⟨f, hf, he⟩
        · exact Or.inr ⟨files, List.mem_of_getElem? hlevel, f, hf, he⟩

end LsmState

/-! ### Writing to the active memtable -/

/-- The memtable is kept in the order of internal keys. -/
def insertEntry (e : Entry) (l : List Entry) : List Entry :=
  l.orderedInsert (fun a b => a.key ≤ b.key) e

def insertEntries (l writes : List Entry) : List Entry :=
  writes.foldl (fun l e => insertEntry e l) l

theorem insertEntries_perm (l writes : List Entry) :
    (insertEntries l writes).Perm (l ++ writes) := by
  induction writes generalizing l with
  | nil => simp [insertEntries]
  | cons e writes ih =>
      have hinsert : (insertEntry e l).Perm (e :: l) := List.perm_orderedInsert _ e l
      exact (ih _).trans ((hinsert.append_right writes).trans List.perm_middle.symm)

theorem insertEntries_sorted {l writes : List Entry}
    (hl : (l.map Entry.key).Pairwise (· < ·)) (hfresh : ((l ++ writes).map Entry.key).Nodup) :
    ((insertEntries l writes).map Entry.key).Pairwise (· < ·) := by
  have hle : (insertEntries l writes).Pairwise fun a b => a.key ≤ b.key := by
    have hl' : l.Pairwise fun a b => a.key ≤ b.key := (List.pairwise_map.1 hl).imp le_of_lt
    clear hl hfresh
    induction writes generalizing l with
    | nil => exact hl'
    | cons e writes ih => exact ih (hl'.orderedInsert e l)
  have hnodup : ((insertEntries l writes).map Entry.key).Nodup :=
    ((insertEntries_perm l writes).map Entry.key).nodup_iff.2 hfresh
  exact (List.pairwise_map.2 hle).imp₂ (fun _ _ => lt_of_le_of_ne) hnodup

theorem filter_insertEntry {p : Entry → Bool} {e : Entry} (hp : p e = false) (l : List Entry) :
    (insertEntry e l).filter p = l.filter p := by
  induction l with
  | nil => simp [insertEntry, hp]
  | cons x l ih =>
      simp only [insertEntry] at ih ⊢
      rw [List.orderedInsert_cons]
      split
      · rw [List.filter_cons_of_neg (by rw [hp]; decide)]
      · rw [List.filter_cons, List.filter_cons, ih]

/-- What is inserted is not seen through a filter it does not pass. -/
theorem filter_insertEntries {p : Entry → Bool} {writes : List Entry}
    (hp : ∀ e ∈ writes, p e = false) (l : List Entry) :
    (insertEntries l writes).filter p = l.filter p := by
  induction writes generalizing l with
  | nil => rfl
  | cons e writes ih =>
      rw [List.forall_mem_cons] at hp
      exact (ih hp.2 _).trans (filter_insertEntry hp.1 l)

/-- The tree with more in its active memtable. -/
def LsmState.written (s : LsmState) (writes : List Entry) : LsmState :=
  { s with mem := { s.mem with entries := insertEntries s.mem.entries writes } }

namespace LsmState

variable {s : LsmState} {read : UInt64} {writes : List Entry}
  (habove : ∀ e ∈ writes, read < e.seqno)
include habove

theorem visible_written (k : Bytes) :
    (s.written writes).mem.visible k read = s.mem.visible k read := by
  refine filter_insertEntries (fun e he => ?_) s.mem.entries
  have hnot : ¬e.seqno ≤ read := UInt64.not_le.2 (habove e he)
  simp [hnot]

/-- A lookup below the new entries finds what it found. -/
theorem get_written (k : Bytes) :
    (s.written writes).versions.get k read = s.versions.get k read := by
  have hvisible : (s.written writes).versions.visible k read = s.versions.visible k read := by
    simp only [LsmState.versions, LsmState.places, Versions.join, Versions.visible,
      List.cons_append, List.flatMap_cons, List.filter_append]
    congr 1
    exact visible_written habove k
  rw [Versions.get, Versions.get, hvisible]
  rfl

end LsmState

end BitLSM
