import BitLSM.Lib.Search
import BitLSM.Scan.LsmState
import BitLSM.Scan.TableRows

/-!
The shadow check.

A candidate is shadowed when a newer version of its key is visible at the
snapshot. Two parties look for one: the leaf, which sees the entry in front
of the candidate in its own file, and `mayHaveNewerVersion`, which probes the
memtables and the files above the candidate but not its own. Together they
find every newer entry, and every newer range tombstone outside the
candidate's own file.
-/

namespace BitLSM

open Wire TableScan

/-! ### The leaf's flag -/

namespace DataBlock

variable {b : DataBlock} {interval : ℕ}

/-- The flag of a filled slot, whatever the walk came from: not shadowed means
that the entry in front of the one read has another user key. -/
theorem hops_prev {n : ℕ} {w w' : BlockWalk} {e : Entry} (hpos : w.pos ≤ b.entries.length)
    (h : b.hops true n w = (w', true)) (he : b.entries[w'.pos]? = some e) :
    ∃ p prev, w'.pos = p + 1 ∧ b.entries[p]? = some prev ∧ prev.userKey = w'.prevUserKey := by
  obtain ⟨-, hend, -, hknown⟩ := hops_spec true n w hpos
  rw [h] at hend hknown
  obtain ⟨hlt, -⟩ := List.getElem?_eq_some_iff.1 he
  have hlast : w.pos + n < b.entries.length := by
    simp only [] at hend
    omega
  obtain ⟨hn, hprev⟩ := hknown hlast
  simp only [Bool.true_and, Bool.true_eq, decide_eq_true_eq] at hn
  obtain ⟨prev, hget, hkey⟩ := Option.map_eq_some_iff.1 (hprev rfl hn)
  refine ⟨w.pos + n - 1, prev, ?_, hget, hkey⟩
  simp only [] at hend
  omega

theorem pos_lt_of_seek {index pos : ℕ} (h : b.seekToRestartPoint index = some pos) :
    pos < b.entries.length := by
  by_cases hlt : index * b.restartInterval < b.entries.length
  · rw [b.seek_restart _ hlt] at h
    rwa [← Option.some.inj h]
  · rw [b.seek_past _ hlt] at h
    cases h

theorem moveTo_prev {index : ℕ} {w w' : BlockWalk} {e : Entry} (hpos : w.pos ≤ b.entries.length)
    (h : b.moveTo interval true w index = some (w', true)) (he : b.entries[w'.pos]? = some e) :
    ∃ p prev, w'.pos = p + 1 ∧ b.entries[p]? = some prev ∧ prev.userKey = w'.prevUserKey := by
  rw [moveTo] at h
  split at h
  · exact hops_prev hpos (Option.some.inj h) he
  · obtain ⟨pos, hseek, hhops⟩ := Option.map_eq_some_iff.1 h
    exact @hops_prev _ _ { w with checkpoint := index / interval, offset := 0, pos := _ } _ _
      (pos_lt_of_seek hseek).le hhops he

theorem moveTo_pos_le {track : Bool} {index : ℕ} {w w' : BlockWalk} {known : Bool}
    (hpos : w.pos ≤ b.entries.length) (h : b.moveTo interval track w index = some (w', known)) :
    w'.pos ≤ b.entries.length := by
  rw [moveTo] at h
  split at h
  · obtain ⟨-, hend, -⟩ := hops_spec track (index % interval - w.offset) w hpos
    rw [Option.some.inj h] at hend
    exact hend.trans_le (min_le_left _ _)
  · obtain ⟨pos, hseek, hhops⟩ := Option.map_eq_some_iff.1 h
    obtain ⟨-, hend, -⟩ := @hops_spec b track (index % interval)
      { w with checkpoint := index / interval, offset := 0, pos := _ } (pos_lt_of_seek hseek).le
    rw [hhops] at hend
    exact hend.trans_le (min_le_left _ _)

/-- Slots in front of the current one are not touched any more. -/
theorem fillSlots_frame {track : Bool} {indexes : List ℕ} {i : ℕ} {w : BlockWalk}
    {buf out : ScanBuffers} (h : b.fillSlots interval track i indexes w buf = some out) {j : ℕ}
    (hj : j < i) : out.slots[j]? = buf.slots[j]? ∧ out.shadowed[j]? = buf.shadowed[j]? := by
  induction indexes generalizing i w buf with
  | nil =>
      obtain rfl := Option.some.inj h
      exact ⟨rfl, rfl⟩
  | cons index rest ih =>
      rw [fillSlots] at h
      cases hmove : b.moveTo interval track w index with
      | none => simp [hmove] at h
      | some next =>
          obtain ⟨w', known⟩ := next
          rw [hmove] at h
          obtain ⟨hslots, hshadowed⟩ := ih h (by omega)
          rw [hslots, hshadowed, ScanBuffers.fill]
          have hne : i ≠ j := by omega
          cases b.entries[w'.pos]? <;> cases track <;> simp [List.getElem?_set_ne hne]

/-- A slot that is filled and not flagged holds an entry of the block whose
predecessor has another user key. -/
theorem fillSlots_flag {indexes : List ℕ} {i : ℕ} {w : BlockWalk} {buf out : ScanBuffers}
    (hpos : w.pos ≤ b.entries.length)
    (h : b.fillSlots interval true i indexes w buf = some out) {j : ℕ} (hj : j < indexes.length)
    {e : Entry} (hslot : out.slots[i + j]? = some (some e))
    (hflag : out.shadowed[i + j]? = some false) :
    ∃ p prev, b.entries[p]? = some prev ∧ b.entries[p + 1]? = some e ∧
      prev.userKey ≠ e.userKey := by
  induction indexes generalizing i j w buf with
  | nil => simp at hj
  | cons index rest ih =>
      rw [fillSlots] at h
      cases hmove : b.moveTo interval true w index with
      | none => simp [hmove] at h
      | some next =>
          obtain ⟨w', known⟩ := next
          rw [hmove] at h
          have hpos' := moveTo_pos_le hpos hmove
          cases j with
          | succ j =>
              have hadd : i + (j + 1) = i + 1 + j := by omega
              rw [hadd] at hslot hflag
              exact ih hpos' h (by simpa using hj) hslot hflag
          | zero =>
              -- the slot this step fills
              obtain ⟨hkeptSlot, hkeptFlag⟩ := fillSlots_frame h (Nat.lt_succ_self i)
              rw [Nat.add_zero] at hslot hflag
              rw [hkeptSlot, ScanBuffers.fill] at hslot
              rw [hkeptFlag, ScanBuffers.fill] at hflag
              cases he : b.entries[w'.pos]? with
              | none =>
                  rw [he] at hflag
                  simp [List.getElem?_set] at hflag
              | some x =>
                  rw [he] at hslot hflag
                  simp only [if_true, List.getElem?_set, Option.ite_none_right_eq_some,
                    Option.some.injEq] at hslot hflag
                  obtain ⟨-, rfl⟩ := hslot
                  obtain ⟨-, hclear⟩ := hflag
                  simp only [Bool.or_eq_false_iff, Bool.not_eq_false', beq_eq_false_iff_ne]
                    at hclear
                  obtain ⟨rfl, hne⟩ := hclear
                  obtain ⟨p, prev, hp, hprev, hkey⟩ := moveTo_prev hpos hmove he
                  exact ⟨p, prev, hprev, hp ▸ he, fun heq => hne (heq.symm.trans hkey)⟩

/-- `GetAllByIndexesFromDataBlock` hands out `e` and reports that its file has
no newer version of it. -/
def ReportsNoNewer (b : DataBlock) (interval : ℕ) (e : Entry) : Prop :=
  ∃ indexes buf out, ∃ i < indexes.length,
    b.getAllByIndexes interval true indexes buf = some out ∧ out.slots[i]? = some (some e) ∧
      out.shadowed[i]? = some false

theorem ReportsNoNewer.predecessor {e : Entry} (h : b.ReportsNoNewer interval e) :
    ∃ p prev, b.entries[p]? = some prev ∧ b.entries[p + 1]? = some e ∧
      prev.userKey ≠ e.userKey := by
  obtain ⟨indexes, buf, out, i, hi, hfill, hslot, hflag⟩ := h
  exact fillSlots_flag le_rfl hfill hi (by rwa [Nat.zero_add]) (by rwa [Nat.zero_add])

end DataBlock

/-! ### The checker -/

/-- The most table handles the checker keeps pinned. -/
def kMaxPinnedHandles : ℕ := 64

/-- The source level of candidates from a memtable. -/
def kMemtableSourceLevel : ℤ := -1

/-- The memtables' answer: the newest entry the snapshot sees, and the newest
tombstone over the key. -/
@[ext]
structure MemtableHit where
  seqno : Option UInt64
  maxCoveringTombstoneSeq : UInt64

/-- RocksDB's lookups, which the checker relies on: in a memtable, in the
immutable memtables from new to old, and for the file of a level whose key range
reaches a key first. -/
structure RocksReads where
  memGet : Versions → Bytes → UInt64 → MemtableHit
  immGet : List Versions → Bytes → UInt64 → MemtableHit
  findFile : List SstFile → InternalKey → ℕ
  memGet_seqno : ∀ m k read,
    (memGet m k read).seqno = (newestOf (m.visible k read)).map Entry.seqno
  memGet_covering : ∀ m k read, (memGet m k read).maxCoveringTombstoneSeq = m.maxCovering k read
  /-- The lookup ends at the first memtable with an entry of the key. -/
  immGet_found : ∀ m rest k read, (memGet m k read).seqno ≠ none →
    immGet (m :: rest) k read = memGet m k read
  immGet_seqno : ∀ m rest k read, (memGet m k read).seqno = none →
    (immGet (m :: rest) k read).seqno = (immGet rest k read).seqno
  immGet_covering : ∀ m rest k read, (memGet m k read).seqno = none →
    (immGet (m :: rest) k read).maxCoveringTombstoneSeq.toNat =
      max (memGet m k read).maxCoveringTombstoneSeq.toNat
        (immGet rest k read).maxCoveringTombstoneSeq.toNat
  lt_findFile : ∀ files key i (hi : i < files.length),
    files.Pairwise (fun f g => f.largest ≤ g.largest) →
      (i < findFile files key ↔ files[i].largest < key)

namespace RocksReads

def hitOf (m : Versions) (k : Bytes) (read : UInt64) : MemtableHit :=
  ⟨(newestOf (m.visible k read)).map Entry.seqno, m.maxCovering k read⟩

def firstHit (k : Bytes) (read : UInt64) : List Versions → MemtableHit
  | [] => ⟨none, 0⟩
  | m :: rest =>
      if (hitOf m k read).seqno ≠ none then hitOf m k read
      else
        ⟨(firstHit k read rest).seqno,
          if m.maxCovering k read < (firstHit k read rest).maxCoveringTombstoneSeq then
            (firstHit k read rest).maxCoveringTombstoneSeq
          else m.maxCovering k read⟩

def firstReaching (files : List SstFile) (key : InternalKey) : ℕ :=
  BinarySearch.search (fun i => (files[i]?.map fun f => decide (f.largest < key)).getD false)
    files.length

theorem lt_firstReaching {files : List SstFile} {key : InternalKey} {i : ℕ}
    (hi : i < files.length) (hsorted : files.Pairwise fun f g => f.largest ≤ g.largest) :
    i < firstReaching files key ↔ files[i].largest < key := by
  have hget {j : ℕ} (hj : j < files.length) :
      (files[j]?.map fun f => decide (f.largest < key)).getD false = true ↔
        files[j].largest < key := by
    rw [List.getElem?_eq_getElem hj, Option.map_some, Option.getD_some, decide_eq_true_eq]
  rw [firstReaching, BinarySearch.lt_search_iff _ hi, hget hi]
  intro i j hij hj h
  rcases hij.eq_or_lt with rfl | hlt
  · exact h
  · exact (hget (hlt.trans hj)).2
      ((List.pairwise_iff_getElem.1 hsorted i j _ hj hlt).trans_lt ((hget hj).1 h))

/-- Lookups as the laws describe them. -/
def standard : RocksReads where
  memGet := hitOf
  immGet ms k read := firstHit k read ms
  findFile := firstReaching
  memGet_seqno _ _ _ := rfl
  memGet_covering _ _ _ := rfl
  immGet_found _ _ _ _ h := if_pos h
  immGet_seqno _ _ _ _ h := by rw [firstHit, if_neg (not_not.2 h)]
  immGet_covering m rest k read h := by
    rw [firstHit, if_neg (not_not.2 h)]
    split
    · next hlt => exact (max_eq_right (UInt64.lt_iff_toNat_lt.1 hlt).le).symm
    · next hge => exact (max_eq_left (UInt64.le_iff_toNat_le.1 (UInt64.not_lt.1 hge))).symm
  lt_findFile _ _ _ hi hsorted := lt_firstReaching hi hsorted

end RocksReads

/-- A hit newer than the candidate, by an entry or by a tombstone. -/
def MemtableHit.newerThan (hit : MemtableHit) (cand : UInt64) : Bool :=
  decide (cand < hit.maxCoveringTombstoneSeq) ||
    match hit.seqno with
    | some seqno => decide (cand < seqno)
    | none => false

def memtablesHaveNewer (reads : RocksReads) (s : LsmState) (read : UInt64) (k : Bytes)
    (cand : UInt64) : Bool :=
  (reads.memGet s.mem k read).newerThan cand || (reads.immGet s.imm k read).newerThan cand

/-- The checker's state: the files it has a table handle of, and how many
tables it has asked for. -/
structure ShadowChecker where
  handles : List UInt64 := []
  opens : ℕ := 0

namespace ShadowChecker

variable (reads : RocksReads) (findTable : ℕ → UInt64 → Status)

/-- The file's filter excludes the key. A table that does not open proves
nothing. -/
def filterSaysNo (c : ShadowChecker) (f : SstFile) (k : Bytes) : Bool × ShadowChecker :=
  if f.number ∈ c.handles then (f.excludes k, c)
  else
    let handles := if kMaxPinnedHandles ≤ c.handles.length then [] else c.handles
    if findTable c.opens f.number ≠ .ok then (false, ⟨handles, c.opens + 1⟩)
    else (f.excludes k, ⟨f.number :: handles, c.opens + 1⟩)

/-- A file whose metadata cannot rule a newer version out. A range tombstone
counts without a look at the filter, which cannot see it. -/
def fileMayHave (c : ShadowChecker) (f : SstFile) (k : Bytes) : Bool × ShadowChecker :=
  if 0 < f.numRangeDeletions then (true, c)
  else
    let (no, c) := c.filterSaysNo findTable f k
    (!no, c)

variable (k : Bytes) (cand : UInt64) (srcFile : UInt64)

/-- The files of level 0 overlap freely, so each of them is asked. -/
def level0MayHave : ShadowChecker → List SstFile → Bool × ShadowChecker
  | c, [] => (false, c)
  | c, f :: rest =>
      if f.largestSeqno ≤ cand then level0MayHave c rest
      else if f.number = srcFile then level0MayHave c rest
      else if k < f.smallest.userKey ∨ f.largest.userKey < k then level0MayHave c rest
      else
        match c.fileMayHave findTable f k with
        | (true, c) => (true, c)
        | (false, c) => level0MayHave c rest

variable (read : UInt64)

/-- In each level below there is one file to ask. -/
def levelsMayHave : ShadowChecker → List (List SstFile) → Bool × ShadowChecker
  | c, [] => (false, c)
  | c, files :: rest =>
      match files[reads.findFile files ⟨k, read⟩]? with
      | none => levelsMayHave c rest
      | some f =>
          if k < f.smallest.userKey then levelsMayHave c rest
          else if f.largestSeqno ≤ cand then levelsMayHave c rest
          else if f.number = srcFile then levelsMayHave c rest
          else
            match c.fileMayHave findTable f k with
            | (true, c) => (true, c)
            | (false, c) => levelsMayHave c rest

/-- Memtables, level 0, and the levels down to the candidate's. -/
def mayHaveNewerVersion (s : LsmState) (srcLevel : ℤ) (c : ShadowChecker) :
    Bool × ShadowChecker :=
  if memtablesHaveNewer reads s read k cand then (true, c)
  else if srcLevel = kMemtableSourceLevel then (false, c)
  else
    match level0MayHave findTable k cand srcFile c s.level0 with
    | (true, c) => (true, c)
    | (false, c) =>
        levelsMayHave reads findTable k cand srcFile read c (s.levels.tail.take srcLevel.toNat)

end ShadowChecker

/-! ### What the memtables rule out -/

section Memtables

variable {reads : RocksReads} {k : Bytes} {read cand : UInt64}

theorem MemtableHit.not_newerThan {hit : MemtableHit} (h : hit.newerThan cand = false) :
    hit.maxCoveringTombstoneSeq.toNat ≤ cand.toNat ∧
      ∀ seqno, hit.seqno = some seqno → seqno.toNat ≤ cand.toNat := by
  rw [newerThan, Bool.or_eq_false_iff, decide_eq_false_iff_not, UInt64.not_lt,
    UInt64.le_iff_toNat_le] at h
  refine ⟨h.1, fun seqno hseqno => ?_⟩
  have hpoint := h.2
  rw [hseqno] at hpoint
  exact UInt64.le_iff_toNat_le.1 (UInt64.not_lt.1 (decide_eq_false_iff_not.1 hpoint))

/-- A memtable that is asked has nothing newer. -/
theorem RocksReads.memGet_spec {m : Versions} {n : ℕ} (hhas : m.Has k n) (hn : n ≤ read.toNat) :
    n ≤ (reads.memGet m k read).maxCoveringTombstoneSeq.toNat ∨
      ∃ seqno, (reads.memGet m k read).seqno = some seqno ∧ n ≤ seqno.toNat := by
  rcases hhas with ⟨e, he, hkey, rfl⟩ | ⟨t, ht, hcov, rfl⟩
  · right
    have hvis := Versions.mem_visible.2 ⟨he, hkey, hn⟩
    cases hnew : newestOf (m.visible k read) with
    | none => rw [newestOf_eq_none.1 hnew] at hvis; cases hvis
    | some x =>
        exact ⟨x.seqno, by rw [reads.memGet_seqno, hnew]; rfl, (newestOf_eq_some hnew).2 e hvis⟩
  · left
    rw [reads.memGet_covering]
    exact Versions.le_maxCovering ht hcov hn

theorem RocksReads.not_has_of_memGet {m : Versions} {n : ℕ}
    (h : (reads.memGet m k read).newerThan cand = false) (hhas : m.Has k n) (hn : n ≤ read.toNat) :
    n ≤ cand.toNat := by
  obtain ⟨hcov, hpoint⟩ := MemtableHit.not_newerThan h
  rcases reads.memGet_spec hhas hn with hle | ⟨seqno, hseqno, hle⟩
  · exact hle.trans hcov
  · exact hle.trans (hpoint seqno hseqno)

/-- The search may stop at a memtable: what it finds there is newer than
anything in the memtables behind it. -/
theorem RocksReads.not_has_of_immGet {imm : List Versions} (hnewer : imm.Pairwise LsmState.Newer)
    (h : (reads.immGet imm k read).newerThan cand = false) {m : Versions} (hm : m ∈ imm) {n : ℕ}
    (hhas : m.Has k n) (hn : n ≤ read.toNat) : n ≤ cand.toNat := by
  induction imm with
  | nil => cases hm
  | cons first rest ih =>
      obtain ⟨hfirst, hrest⟩ := List.pairwise_cons.1 hnewer
      cases hseqno : (reads.memGet first k read).seqno with
      | some seqno =>
          rw [reads.immGet_found _ _ _ _ (by rw [hseqno]; exact Option.some_ne_none seqno)] at h
          rcases List.mem_cons.1 hm with rfl | hm
          · exact reads.not_has_of_memGet h hhas hn
          · obtain ⟨x, hx, rfl⟩ := Option.map_eq_some_iff.1 ((reads.memGet_seqno ..).symm.trans hseqno)
            obtain ⟨hxmem, hxkey, -⟩ := Versions.mem_visible.1 (newestOf_eq_some hx).1
            have hlt := hfirst m hm k _ n (Or.inl ⟨x, hxmem, hxkey, rfl⟩) hhas
            exact hlt.le.trans ((MemtableHit.not_newerThan h).2 _ hseqno)
      | none =>
          obtain ⟨hcov, hpoint⟩ := MemtableHit.not_newerThan h
          rw [reads.immGet_covering _ _ _ _ hseqno, max_le_iff] at hcov
          rw [reads.immGet_seqno _ _ _ _ hseqno] at hpoint
          rcases List.mem_cons.1 hm with rfl | hm
          · rcases reads.memGet_spec hhas hn with hle | ⟨seqno, hsome, -⟩
            · exact hle.trans hcov.1
            · rw [hseqno] at hsome
              cases hsome
          · refine ih hrest ?_ hm
            rw [MemtableHit.newerThan, Bool.or_eq_false_iff, decide_eq_false_iff_not,
              UInt64.not_lt, UInt64.le_iff_toNat_le]
            refine ⟨hcov.2, ?_⟩
            cases holder : (reads.immGet rest k read).seqno with
            | none => rfl
            | some seqno =>
                exact decide_eq_false (UInt64.not_lt.2 (UInt64.le_iff_toNat_le.2
                  (hpoint seqno holder)))

end Memtables

/-! ### What the files rule out -/

namespace ShadowChecker

variable {findTable : ℕ → UInt64 → Status} {k : Bytes} {cand srcFile read : UInt64}

/-- A file that is asked and clears the key has no entry and no tombstone for
it. -/
theorem not_has_of_fileMayHave {c c' : ShadowChecker} {f : SstFile} (hf : f.WellFormed)
    (h : c.fileMayHave findTable f k = (false, c')) (n : ℕ) : ¬f.versions.Has k n := by
  rw [fileMayHave] at h
  split at h
  · cases h
  · next hdels =>
      have hexcludes : f.excludes k = true := by
        simp only [filterSaysNo] at h
        split at h
        · simpa using congrArg Prod.fst h
        · split at h
          · simpa using congrArg Prod.fst h
          · simpa using congrArg Prod.fst h
      rintro (⟨e, he, rfl, -⟩ | ⟨t, ht, -, -⟩)
      · rw [hf.filtered e he] at hexcludes
        cases hexcludes
      · exact hdels (hf.counted (List.ne_nil_of_mem ht))

/-- In level 0 every file but the source is cleared. -/
theorem not_has_of_level0 {c c' : ShadowChecker} {files : List SstFile}
    (hfiles : ∀ f ∈ files, f.WellFormed)
    (h : level0MayHave findTable k cand srcFile c files = (false, c')) {f : SstFile}
    (hf : f ∈ files)
    (hsrc : f.number ≠ srcFile) {n : ℕ} (hhas : f.versions.Has k n) : n ≤ cand.toNat := by
  induction files generalizing c with
  | nil => cases hf
  | cons g rest ih =>
      rw [List.forall_mem_cons] at hfiles
      rw [level0MayHave] at h
      rcases List.mem_cons.1 hf with rfl | hf
      · by_cases hle : f.largestSeqno ≤ cand
        · exact (hfiles.1.seqno_le k n hhas).trans (UInt64.le_iff_toNat_le.1 hle)
        · have hrange := hfiles.1.userKey_mem hhas
          rw [if_neg hle, if_neg hsrc,
            if_neg (not_or.2 ⟨not_lt.2 hrange.1, not_lt.2 hrange.2⟩)] at h
          split at h
          · cases h
          · next hmay => exact absurd hhas (not_has_of_fileMayHave hfiles.1 hmay n)
      · split at h
        · exact ih hfiles.2 h hf
        · split at h
          · exact ih hfiles.2 h hf
          · split at h
            · exact ih hfiles.2 h hf
            · split at h
              · cases h
              · exact ih hfiles.2 h hf

/-- The search finds the file of a version, or the file in front of it if that
one ends with a newer version of the same key. -/
theorem findFile_spec {reads : RocksReads} {files : List SstFile} (hfiles : ∀ f ∈ files, f.WellFormed)
    (hdisjoint : files.Pairwise fun f g => f.largest < g.smallest)
    (hread : read < kMaxSequenceNumber) {g : SstFile} (hg : g ∈ files) {n : ℕ}
    (hhas : g.versions.Has k n) (hn : n ≤ read.toNat) :
    ∃ f, files[reads.findFile files ⟨k, read⟩]? = some f ∧
      (f = g ∨ ∃ x ∈ f.rows, x.key = f.largest ∧ x.userKey = k ∧ n < x.seqno.toNat) := by
  have horder {i j : ℕ} (hij : i < j) (hj : j < files.length) :
      files[i].largest < files[j].smallest := List.pairwise_iff_getElem.1 hdisjoint i j _ hj hij
  have hsorted : files.Pairwise fun f g => f.largest ≤ g.largest :=
    hdisjoint.imp_of_mem fun _ hg h => h.le.trans (hfiles _ hg).smallest_le_largest
  have hfind {i : ℕ} (hi : i < files.length) := reads.lt_findFile files ⟨k, read⟩ i hi hsorted
  obtain ⟨j, hj, rfl⟩ := List.getElem_of_mem hg
  have hwf := hfiles _ (List.getElem_mem hj)
  -- the file reaches the search key
  have hreach : ¬files[j].largest < ⟨k, read⟩ := by
    rcases hhas with ⟨e, he, rfl, rfl⟩ | ⟨t, ht, ⟨-, hstop⟩, -⟩
    · refine not_lt.2 (le_trans ?_ (hwf.le_largest e he))
      exact InternalKey.le_iff.2 (Or.inr ⟨rfl, hn⟩)
    · refine not_lt.2 (le_trans ?_ (hwf.stop_le_largest t ht))
      exact InternalKey.le_iff.2 (Or.inl hstop)
  have hidx : reads.findFile files ⟨k, read⟩ ≤ j := not_lt.1 fun hgt => hreach ((hfind hj).1 hgt)
  have hi : reads.findFile files ⟨k, read⟩ < files.length := by omega
  refine ⟨_, List.getElem?_eq_getElem hi, ?_⟩
  rcases hidx.eq_or_lt with heq | hlt
  · exact Or.inl (by simp only [heq])
  -- the file found ends between the search key and the version
  have hge : (⟨k, read⟩ : InternalKey) ≤ files[reads.findFile files ⟨k, read⟩].largest :=
    not_lt.1 fun h => lt_irrefl _ ((hfind hi).2 h)
  obtain ⟨start, seqno, hstart, rfl, hsmallest⟩ : ∃ (start : Bytes) (seqno : UInt64),
      start ≤ k ∧ seqno.toNat = n ∧ files[j].smallest ≤ ⟨start, seqno⟩ := by
    rcases hhas with ⟨e, he, rfl, rfl⟩ | ⟨t, ht, ⟨hstart, -⟩, rfl⟩
    · exact ⟨e.userKey, e.seqno, le_rfl, rfl, hwf.smallest_le e he⟩
    · exact ⟨t.start, t.seqno, hstart, rfl, hwf.smallest_le_start t ht⟩
  have hless := (horder hlt hj).trans_le hsmallest
  have hkey : files[reads.findFile files ⟨k, read⟩].largest.userKey = k :=
    le_antisymm ((InternalKey.userKey_mono hless.le).trans hstart) (InternalKey.userKey_mono hge)
  have hseqno := ((InternalKey.le_iff.1 hge).resolve_left (not_lt.2 hkey.le)).2
  have hnewer := ((InternalKey.lt_iff.1 hless).resolve_left
    (not_lt.2 (hkey.symm ▸ hstart))).2
  rcases (hfiles _ (List.getElem_mem hi)).largest_from with ⟨x, hx, hxkey⟩ | hmax
  · refine Or.inr ⟨x, hx, hxkey, ?_, ?_⟩
    · rw [← hkey, ← hxkey]
      rfl
    · rw [← hxkey] at hnewer
      exact hnewer
  · rw [hmax] at hseqno
    exact absurd hseqno (not_le.2 (UInt64.lt_iff_toNat_lt.1 hread))

/-- The levels down to the candidate's are cleared, its own file apart. -/
theorem not_has_of_levels {c c' : ShadowChecker} {levels : List (List SstFile)}
    (hfiles : ∀ files ∈ levels, ∀ f ∈ files, f.WellFormed)
    (hdisjoint : ∀ files ∈ levels, files.Pairwise fun f g => f.largest < g.smallest)
    (hread : read < kMaxSequenceNumber)
    (hsource : ∀ files ∈ levels, ∀ f ∈ files, f.number = srcFile →
      ∃ e ∈ f.rows, e.key = ⟨k, cand⟩)
    (h : levelsMayHave reads findTable k cand srcFile read c levels = (false, c'))
    {files : List SstFile} (hlevel : files ∈ levels) {g : SstFile} (hg : g ∈ files)
    (hsrc : g.number ≠ srcFile) {n : ℕ} (hhas : g.versions.Has k n) (hn : n ≤ read.toNat) :
    n ≤ cand.toNat := by
  induction levels generalizing c with
  | nil => cases hlevel
  | cons first rest ih =>
      rw [List.forall_mem_cons] at hfiles hdisjoint hsource
      rw [levelsMayHave] at h
      rcases List.mem_cons.1 hlevel with rfl | hlevel
      · obtain ⟨f, hfind, hf⟩ := findFile_spec hfiles.1 hdisjoint.1 hread hg hhas hn
        have hmem := List.mem_of_getElem? hfind
        have hwf := hfiles.1 f hmem
        obtain ⟨m, hm, hnm⟩ : ∃ m, f.versions.Has k m ∧ n ≤ m := by
          rcases hf with rfl | ⟨x, hx, -, hxk, hlt⟩
          · exact ⟨n, hhas, le_rfl⟩
          · exact ⟨_, Or.inl ⟨x, hx, hxk, rfl⟩, hlt.le⟩
        by_contra hcand
        have hseqno : ¬f.largestSeqno ≤ cand := fun hle => hcand
          (hnm.trans ((hwf.seqno_le k m hm).trans (UInt64.le_iff_toNat_le.1 hle)))
        have hother : f.number ≠ srcFile := by
          intro heq
          rcases hf with rfl | ⟨x, hx, hlargest, hxk, hlt⟩
          · exact hsrc heq
          · -- the candidate would be behind the file's last key
            obtain ⟨e, he, hekey⟩ := hsource.1 f hmem heq
            have hle := hwf.le_largest e he
            rw [hekey, ← hlargest] at hle
            have hold := ((InternalKey.le_iff.1 hle).resolve_left (hxk ▸ lt_irrefl _)).2
            exact hcand (hlt.le.trans hold)
        rw [hfind] at h
        simp only [] at h
        rw [if_neg (not_lt.2 (hwf.userKey_mem hm).1), if_neg hseqno, if_neg hother] at h
        split at h
        · cases h
        · next hmay => exact not_has_of_fileMayHave hwf hmay m hm
      · split at h
        · exact ih hfiles.2 hdisjoint.2 hsource.2 h hlevel
        · split at h
          · exact ih hfiles.2 hdisjoint.2 hsource.2 h hlevel
          · split at h
            · exact ih hfiles.2 hdisjoint.2 hsource.2 h hlevel
            · split at h
              · exact ih hfiles.2 hdisjoint.2 hsource.2 h hlevel
              · split at h
                · cases h
                · exact ih hfiles.2 hdisjoint.2 hsource.2 h hlevel

end ShadowChecker

/-! ### Both parties together -/

/-- The entry is a candidate whose leaf reports nothing newer: it comes from a
memtable, or from a block of a file that hands it out with a clear flag. -/
inductive LsmState.Scanned (s : LsmState) (interval : ℕ) : Entry → ℤ → UInt64 → Prop
  | memtable {m : Versions} {e : Entry} : m ∈ s.mem :: s.imm → e ∈ m.entries →
      Scanned s interval e kMemtableSourceLevel 0
  | table {level : ℕ} {files : List SstFile} {f : SstFile} {b : DataBlock} {e : Entry} :
      s.levels[level]? = some files → f ∈ files → b ∈ f.blocks → b.ReportsNoNewer interval e →
      Scanned s interval e level f.number

/-- A tombstone in the candidate's own file that the snapshot sees and that is
newer than the candidate. -/
def LsmState.ShadowedInSource (s : LsmState) (read : UInt64) (e : Entry) (srcLevel : ℤ)
    (srcFile : UInt64) : Prop :=
  srcLevel ≠ kMemtableSourceLevel ∧ ∃ f ∈ s.files, f.number = srcFile ∧
    ∃ t ∈ f.rangeDels, t.Covers e.userKey ∧ e.seqno < t.seqno ∧ t.seqno ≤ read

/-- The leaf's report is about all entries of the file. -/
theorem DataBlock.ReportsNoNewer.le {f : SstFile} (hf : f.WellFormed) {b : DataBlock}
    (hb : b ∈ f.blocks) {interval : ℕ} {e : Entry} (h : b.ReportsNoNewer interval e) :
    e ∈ f.rows ∧ ∀ x ∈ f.rows, x.userKey = e.userKey → x.seqno.toNat ≤ e.seqno.toNat := by
  obtain ⟨p, prev, hprev, he, hne⟩ := h.predecessor
  obtain ⟨i, hi⟩ := List.mem_iff_getElem?.1 hb
  have hlt := (List.getElem?_eq_some_iff.1 he).1
  have hrow := (getElem?_tableRows hi hlt).trans he
  rw [← Nat.add_assoc] at hrow
  refine ⟨List.mem_of_getElem? hrow, fun x hx hkey => UInt64.le_iff_toNat_le.1 ?_⟩
  exact hf.sortedByInternalKey.no_newer ((getElem?_tableRows hi (by omega)).trans hprev) hrow hne
    x hx hkey

/-- What a clear report says: the entry is the newest of its file. -/
inductive LsmState.NewestInSource (s : LsmState) (e : Entry) : ℤ → UInt64 → Prop
  | memtable {m : Versions} : m ∈ s.mem :: s.imm → e ∈ m.entries →
      NewestInSource s e kMemtableSourceLevel 0
  | table {level : ℕ} {files : List SstFile} {f : SstFile} :
      s.levels[level]? = some files → f ∈ files → e ∈ f.rows →
      (∀ x ∈ f.rows, x.userKey = e.userKey → x.seqno.toNat ≤ e.seqno.toNat) →
      NewestInSource s e level f.number

section Sound

variable {s : LsmState} (hs : s.Shape)
include hs

theorem LsmState.Scanned.newest {interval : ℕ} {e : Entry} {srcLevel : ℤ} {srcFile : UInt64}
    (h : s.Scanned interval e srcLevel srcFile) : s.NewestInSource e srcLevel srcFile := by
  cases h with
  | memtable hm he => exact .memtable hm he
  | table hlevel hf hb hreport =>
      obtain ⟨he, hmax⟩ := hreport.le
        (hs.files _ (mem_files_of_level (List.mem_of_getElem? hlevel) hf)) hb
      exact .table hlevel hf he hmax

theorem LsmState.Shape.imm_newer : s.imm.Pairwise LsmState.Newer :=
  (List.pairwise_cons.1 (List.pairwise_append.1 hs.newer).1).2

/-- The memtables' part. -/
theorem LsmState.Shape.memtables_clear {reads : RocksReads} {k : Bytes} {read cand : UInt64}
    (h : memtablesHaveNewer reads s read k cand = false) {m : Versions} (hm : m ∈ s.mem :: s.imm)
    {n : ℕ} (hhas : m.Has k n) (hn : n ≤ read.toNat) : n ≤ cand.toNat := by
  rw [memtablesHaveNewer, Bool.or_eq_false_iff] at h
  rcases List.mem_cons.1 hm with rfl | hm
  · exact reads.not_has_of_memGet h.1 hhas hn
  · exact reads.not_has_of_immGet hs.imm_newer h.2 hm hhas hn

/-- The source file itself, which the checker does not ask. -/
theorem LsmState.Shape.source_clear {read : UInt64} {e : Entry} {level : ℕ} {f g : SstFile}
    (hf : f ∈ s.files) (hmax : ∀ x ∈ f.rows, x.userKey = e.userKey → x.seqno.toNat ≤ e.seqno.toNat)
    (hsource : ¬s.ShadowedInSource read e level f.number) (hg : g ∈ s.files)
    (hnumber : g.number = f.number) {n : ℕ} (hhas : g.versions.Has e.userKey n)
    (hn : n ≤ read.toNat) : n ≤ e.seqno.toNat := by
  obtain rfl := hs.numbers g hg f hf hnumber
  rcases hhas with ⟨x, hx, hkey, rfl⟩ | ⟨t, ht, hcov, rfl⟩
  · exact hmax x hx hkey
  · by_contra hlt
    refine hsource ⟨?_, g, hg, rfl, t, ht, hcov, UInt64.lt_iff_toNat_lt.2 (not_le.1 hlt),
      UInt64.le_iff_toNat_le.2 hn⟩
    rw [kMemtableSourceLevel]
    omega

/-- Nothing anywhere is newer, if neither party objects and the source file has
no newer tombstone. -/
theorem LsmState.Shape.nothing_newer {read : UInt64} (hread : read < kMaxSequenceNumber)
    {e : Entry} {srcLevel : ℤ} {srcFile : UInt64} (hnewest : s.NewestInSource e srcLevel srcFile)
    {reads : RocksReads} {findTable : ℕ → UInt64 → Status} {c c' : ShadowChecker}
    (hcheck : c.mayHaveNewerVersion reads findTable e.userKey e.seqno srcFile read s srcLevel =
      (false, c'))
    (hsource : ¬s.ShadowedInSource read e srcLevel srcFile) {p : Versions} (hp : p ∈ s.places)
    {n : ℕ} (hhas : p.Has e.userKey n) (hn : n ≤ read.toNat) : n ≤ e.seqno.toNat := by
  rw [ShadowChecker.mayHaveNewerVersion] at hcheck
  split at hcheck
  · cases hcheck
  next hmem =>
  rw [Bool.not_eq_true] at hmem
  obtain ⟨-, hbelow, hdeeper⟩ := List.pairwise_append.1 hs.newer
  rcases List.mem_append.1 hp with hm | hbelowMem
  · exact hs.memtables_clear hmem hm hhas hn
  cases hnewest with
  | @memtable m hm he =>
      -- files are deeper than any memtable
      exact (hdeeper m hm p hbelowMem e.userKey _ n (Or.inl ⟨e, he, rfl, rfl⟩) hhas).le
  | @table level files f hlevel hf he hmax =>
      have hself : f.versions.Has e.userKey e.seqno.toNat := Or.inl ⟨e, he, rfl, rfl⟩
      have hfile := mem_files_of_level (List.mem_of_getElem? hlevel) hf
      rw [if_neg (by rw [kMemtableSourceLevel]; omega)] at hcheck
      split at hcheck
      · cases hcheck
      next c₁ hlevel0 =>
      obtain ⟨hamong, hlevels, hunder⟩ := List.pairwise_append.1 hbelow
      rcases List.mem_append.1 hbelowMem with hp0 | hpl
      · obtain ⟨g, hg, rfl⟩ := List.mem_map.1 hp0
        by_cases hnumber : g.number = f.number
        · exact hs.source_clear hfile hmax hsource (mem_files_of_level0 hg) hnumber hhas hn
        · exact ShadowChecker.not_has_of_level0
            (fun f hf => hs.files f (mem_files_of_level0 hf)) hlevel0 hg hnumber hhas
      · obtain ⟨deep, hdeep, rfl⟩ := List.mem_map.1 hpl
        obtain ⟨v, hv, hhas'⟩ := Versions.has_join.1 hhas
        obtain ⟨g, hg, rfl⟩ := List.mem_map.1 hv
        have hfiles (files : List SstFile) (hmem : files ∈ s.levels.tail) (f : SstFile)
            (hf : f ∈ files) : f ∈ s.files := mem_files_of_level (List.mem_of_mem_tail hmem) hf
        by_cases hnumber : g.number = f.number
        · exact hs.source_clear hfile hmax hsource (hfiles deep hdeep g hg) hnumber hhas' hn
        obtain ⟨i, hi⟩ := List.mem_iff_getElem?.1 hdeep
        obtain _ | level := level
        · -- level 0 is above all others
          have hf0 : f ∈ s.level0 := by
            rw [level0, List.headD_eq_head?_getD, List.head?_eq_getElem?, hlevel]
            exact hf
          exact (hunder _ (List.mem_map_of_mem hf0) _ hpl e.userKey _ n hself hhas).le
        rw [← List.getElem?_tail] at hlevel
        rcases Nat.lt_or_ge level i with hlt | hge
        · -- deeper levels hold older versions
          have hnewer : Newer (.join (files.map SstFile.versions))
              (.join (deep.map SstFile.versions)) := by
            obtain ⟨hl, rfl⟩ := List.getElem?_eq_some_iff.1 hlevel
            obtain ⟨hi', rfl⟩ := List.getElem?_eq_some_iff.1 hi
            exact List.pairwise_iff_getElem.1 (List.pairwise_map.1 hlevels) level i hl hi' hlt
          exact (hnewer e.userKey _ n (Versions.has_join.2
            ⟨_, List.mem_map_of_mem hf, hself⟩) hhas).le
        · have htake : deep ∈ s.levels.tail.take (level + 1) :=
            List.mem_iff_getElem?.2 ⟨i, by rw [List.getElem?_take_of_lt (by omega), hi]⟩
          refine ShadowChecker.not_has_of_levels
            (fun files hmem f hf => hs.files f (hfiles files (List.mem_of_mem_take hmem) f hf))
            (fun files hmem => hs.disjoint files (List.mem_of_mem_take hmem)) hread
            (fun files hmem f' hf' heq => ⟨e, ?_, rfl⟩) hcheck htake hg hnumber hhas' hn
          rwa [hs.numbers f' (hfiles files (List.mem_of_mem_take hmem) f' hf') f hfile heq]

end Sound

/-- The two parties are sound exactly up to range tombstones in the
candidate's own file. -/
theorem shadowCheck_sound_iff {s : LsmState} (hs : s.Shape) {read : UInt64}
    (hread : read < kMaxSequenceNumber) {interval : ℕ} {e : Entry} {srcLevel : ℤ}
    {srcFile : UInt64} (hscan : s.Scanned interval e srcLevel srcFile)
    {reads : RocksReads} {findTable : ℕ → UInt64 → Status} {c c' : ShadowChecker}
    (hcheck : c.mayHaveNewerVersion reads findTable e.userKey e.seqno srcFile read s srcLevel =
      (false, c')) :
    (∀ p ∈ s.places, ∀ n, p.Has e.userKey n → ¬(e.seqno.toNat < n ∧ n ≤ read.toNat)) ↔
      ¬s.ShadowedInSource read e srcLevel srcFile := by
  constructor
  · rintro h ⟨-, f, hf, -, t, ht, hcov, hlt, hle⟩
    obtain ⟨p, hp, hsub⟩ := s.exists_place hf
    exact h p hp t.seqno.toNat (hsub _ _ (Or.inr ⟨t, ht, hcov, rfl⟩))
      ⟨UInt64.lt_iff_toNat_lt.1 hlt, UInt64.le_iff_toNat_le.1 hle⟩
  · rintro h p hp n hhas ⟨hlt, hle⟩
    exact absurd (hs.nothing_newer hread (hscan.newest hs) hcheck h hp hhas hle) (not_le.2 hlt)

/-- Two rows of one block. -/
def twoKeys : DataBlock where
  entries := [⟨[1], 3, .value, [10]⟩, ⟨[2], 5, .value, [20]⟩]
  restartInterval := 16
  interval_pos := Nat.succ_pos 15
  length_lt := by decide

/-- Their file, with a tombstone over the second row, which is newer than the
row if `deleted`. -/
def twoKeysFile (deleted : Bool) : SstFile where
  number := 7
  smallest := ⟨[1], 3⟩
  largest := ⟨[3], kMaxSequenceNumber⟩
  largestSeqno := 10
  numRangeDeletions := 1
  filter := some fun k => k == [1] || k == [2]
  table := [(twoKeys, (0, 40))]
  rangeDels := [⟨[2], [3], if deleted then 10 else 4⟩]

def twoKeysState (deleted : Bool) : LsmState where
  mem := ⟨[], []⟩
  imm := []
  levels := [[], [twoKeysFile deleted]]

theorem twoKeysFile_wellFormed (deleted : Bool) : (twoKeysFile deleted).WellFormed where
  sorted := by cases deleted <;> decide
  smallest_le := by cases deleted <;> decide
  le_largest := by cases deleted <;> decide
  smallest_le_largest := by cases deleted <;> decide
  smallest_le_start := by cases deleted <;> decide
  stop_le_largest := by cases deleted <;> decide
  largest_from := by cases deleted <;> decide
  seqno_le := by
    rintro k n (⟨e, he, -, rfl⟩ | ⟨t, ht, -, rfl⟩)
    · exact (show ∀ e ∈ (twoKeysFile deleted).rows, e.seqno.toNat ≤ 10 by
        cases deleted <;> decide) e he
    · exact (show ∀ t ∈ (twoKeysFile deleted).rangeDels, t.seqno.toNat ≤ 10 by
        cases deleted <;> decide) t ht
  counted := by cases deleted <;> decide
  filtered := by cases deleted <;> decide

theorem twoKeysState_shape (deleted : Bool) : (twoKeysState deleted).Shape where
  memtables := List.forall_mem_singleton.2 List.Pairwise.nil
  files := List.forall_mem_singleton.2 (twoKeysFile_wellFormed deleted)
  numbers := by
    intro f hf g hg _
    rw [List.mem_singleton.1 hf, List.mem_singleton.1 hg]
  disjoint := List.forall_mem_singleton.2 (List.pairwise_singleton _ _)
  newer := by
    refine List.pairwise_pair.2 fun k a b ha _ => ?_
    rcases ha with ⟨e, he, -⟩ | ⟨t, ht, -⟩
    · cases he
    · cases ht

/-- The second row is handed out with a clear flag. -/
theorem twoKeysState_scanned (deleted : Bool) :
    (twoKeysState deleted).Scanned 16 ⟨[2], 5, .value, [20]⟩ 1 7 := by
  have hblock : twoKeys ∈ (twoKeysFile deleted).blocks := List.mem_cons_self
  have hlevel : (twoKeysState deleted).levels[1]? = some [twoKeysFile deleted] := rfl
  refine .table hlevel List.mem_cons_self hblock ?_
  exact ⟨[1], {}, ⟨[some ⟨[2], 5, .value, [20]⟩], [false]⟩, 0, by decide, by rfl, rfl, rfl⟩

/-- A tombstone that is older than the row does not bother it. -/
theorem shadowCheck_sound_iff_twoKeys :
    (twoKeysState false).Scanned 16 ⟨[2], 5, .value, [20]⟩ 1 7 ∧
      ∀ p ∈ (twoKeysState false).places, ∀ n, p.Has [2] n → ¬(5 < n ∧ n ≤ 20) := by
  refine ⟨twoKeysState_scanned false, ?_⟩
  have hcheck : ({} : ShadowChecker).mayHaveNewerVersion .standard (fun _ _ => .ok) [2] 5 7 20
      (twoKeysState false) 1 = (false, {}) := by rfl
  refine (shadowCheck_sound_iff (twoKeysState_shape false) (by decide) (twoKeysState_scanned false)
    hcheck).2 ?_
  rintro ⟨-, f, hf, -, t, ht, -, hlt, -⟩
  rw [List.mem_singleton.1 hf] at ht
  rw [List.mem_singleton.1 ht] at hlt
  exact absurd hlt (by decide)

/-- A newer tombstone in the candidate's own file is seen by neither. -/
theorem shadowCheck_misses_tombstone : (twoKeysState true).Shape ∧
    (twoKeysState true).Scanned 16 ⟨[2], 5, .value, [20]⟩ 1 7 ∧
    ({} : ShadowChecker).mayHaveNewerVersion .standard (fun _ _ => .ok) [2] 5 7 20 (twoKeysState true) 1 =
      (false, {}) ∧
    ∃ p ∈ (twoKeysState true).places, p.Has [2] 10 := by
  refine ⟨twoKeysState_shape true, twoKeysState_scanned true, by rfl, ?_⟩
  have hfile : twoKeysFile true ∈ (twoKeysState true).files := List.mem_cons_self
  obtain ⟨p, hp, hsub⟩ := (twoKeysState true).exists_place hfile
  exact ⟨p, hp, hsub _ _ (Or.inr ⟨⟨[2], [3], 10⟩, List.mem_cons_self, by decide, rfl⟩)⟩

end BitLSM
