import BitLSM.CompiledQuery
import BitLSM.Lib.Cursor
import BitLSM.Lib.Search
import BitLSM.Scan.DataBlock

/-!
The scan of one table.

`TableScan` is what the iterator's constructor fixes: the prefix sums and
handles of the table's data blocks, the query bitmap and the row filters.
The constructor maps the bitmap's row ids to the blocks that hold them; the
iterator then goes through these blocks, reads the selected rows of each into
its buffers, compacts the rows that pass the filters to the front and hands
them out one by one.
-/

namespace BitLSM

/-- Offset and size of a block. -/
abbrev BlockHandle := UInt64 × UInt64

structure TableScan where
  dataEntriesCntPsum : List UInt32
  blockHandles : List BlockHandle
  /-- The configured `block_restart_interval`. -/
  interval : ℕ
  bitmap : Roaring
  /-- Without it every bitmap candidate passes. -/
  compiled : Option CompiledQuery
  /-- Whether the shadowed flags are kept. -/
  track : Bool
  readSeqno : UInt64
  /-- A data block of the file, or why it could not be read. -/
  readBlock : BlockHandle → Except Status DataBlock

/-- A block to visit: its position in the table, held in 32 bits, and its
handle. -/
structure TargetBlock where
  idx : UInt32
  handle : BlockHandle

/-- The iterator's state. -/
structure TableIter where
  status : Status := .ok
  /-- `cur_target_block_idx_ + 1`. -/
  visited : ℕ := 0
  /-- The bitmap's row ids from `bitmap_iter_` on. -/
  ids : List ℕ := []
  buffers : ScanBuffers := {}
  bufferIdx : ℕ := 0
  bufferCount : ℕ := 0
  valid : Bool := false
  /-- The blocks read so far, for the statements only. -/
  reads : List BlockHandle := []

namespace TableScan

/-! ### Target blocks -/

/-- `upper_bound` of a row id among the prefix sums from `start` on. -/
def upperBound (s : TableScan) (start id : ℕ) : ℕ :=
  start + BinarySearch.search
    (fun i => decide ((s.dataEntriesCntPsum.getD (start + i) 0).toNat ≤ id))
    (s.dataEntriesCntPsum.length - start)

/-- The loop over the row ids; `last` is the block added last and `start`
where the search begins. -/
def targetsFrom (s : TableScan) : List ℕ → Option ℕ → ℕ → Option (List TargetBlock)
  | [], _, _ => some []
  | id :: ids, last, start =>
      let block := s.upperBound start id
      if block < s.dataEntriesCntPsum.length then
        if last = some block then s.targetsFrom ids last start
        else do
          let handle ← s.blockHandles[block]?
          let rest ← s.targetsFrom ids (some block) block
          return ⟨UInt32.ofNat block, handle⟩ :: rest
      else s.targetsFrom ids last start

def targetBlocks (s : TableScan) : Option (List TargetBlock) :=
  s.targetsFrom s.bitmap.toUint32Array none 0

/-! ### One block -/

/-- The row ids below `stop`, as positions in the block that starts at
`start`, and the ids left. -/
def localIndexes (start stop : ℕ) : List ℕ → List ℕ × List ℕ
  | [] => ([], [])
  | id :: ids =>
      if stop ≤ id then ([], id :: ids)
      else
        let (indexes, rest) := localIndexes start stop ids
        (if start ≤ id then (id - start) :: indexes else indexes, rest)

/-- The row filters: a key that parses, the snapshot, deletions and the
query. -/
def rowPasses (s : TableScan) : Option Entry → Option Bool
  | none => some false
  | some e =>
      if s.readSeqno < e.seqno then some false
      else if e.type = .deletion ∨ e.type = .singleDeletion then some false
      else
        match s.compiled with
        | none => some true
        | some cq => cq.eval e.value

/-- Copy slot `i` to slot `cursor`. -/
def copySlot (s : TableScan) (buf : ScanBuffers) (i cursor : ℕ) : ScanBuffers where
  slots := buf.slots.set cursor (buf.slots.getD i none)
  shadowed :=
    if s.track then buf.shadowed.set cursor (buf.shadowed.getD i false) else buf.shadowed

/-- Two-pointer filtering of the slots from `i` on, `n` of them left. -/
def compact (s : TableScan) : ℕ → ℕ → ℕ → ScanBuffers → Option (ℕ × ScanBuffers)
  | 0, _, cursor, buf => some (cursor, buf)
  | n + 1, i, cursor, buf =>
      match s.rowPasses (buf.slots.getD i none) with
      | none => none
      | some false => s.compact n (i + 1) cursor buf
      | some true =>
          s.compact n (i + 1) (cursor + 1) (if i = cursor then buf else s.copySlot buf i cursor)

/-- The first row id of block `idx`, and the one behind its last. -/
def blockBounds (s : TableScan) (idx : ℕ) : Option (ℕ × ℕ) := do
  let start ← if idx = 0 then some 0 else s.dataEntriesCntPsum[idx - 1]?.map UInt32.toNat
  let stop ← s.dataEntriesCntPsum[idx]?
  return (start, stop.toNat)

/-- The loop over the target blocks that are left. The block counter is an
`int32_t`. -/
def loadNextBlock (s : TableScan) : List TargetBlock → TableIter → Option TableIter
  | [], it =>
      if it.visited < 2 ^ 31 then some { it with visited := it.visited + 1, valid := false }
      else none
  | target :: rest, it =>
      if it.visited < 2 ^ 31 then
        match s.blockBounds target.idx.toNat with
        | none => none
        | some (start, stop) =>
            let (indexes, ids) := localIndexes start stop it.ids
            let it := { it with visited := it.visited + 1, ids }
            if indexes = [] then s.loadNextBlock rest it
            else
              match s.readBlock target.handle with
              | .error status => some { it with status, bufferCount := 0, valid := false }
              | .ok block =>
                  match block.getAllByIndexes s.interval s.track indexes it.buffers with
                  | none => none
                  | some buf =>
                      -- the count goes through an `int32_t`
                      match s.compact (Int32.ofNat indexes.length).toNatClampNeg 0 0 buf with
                      | none => none
                      | some (count, buffers) =>
                          let it :=
                            { it with
                              buffers
                              bufferCount := count
                              reads := it.reads ++ [target.handle] }
                          if 0 < count then some { it with bufferIdx := 0, valid := true }
                          else s.loadNextBlock rest it
      else none

/-! ### The iterator -/

/-- A failure is sticky. -/
def seekToFirst (s : TableScan) (targets : List TargetBlock) (it : TableIter) : Option TableIter :=
  if it.status ≠ .ok then some { it with valid := false }
  else
    s.loadNextBlock targets
      { it with visited := 0, bufferIdx := 0, bufferCount := 0, ids := s.bitmap.toUint32Array }

def next (s : TableScan) (targets : List TargetBlock) (it : TableIter) : Option TableIter :=
  if it.bufferIdx + 1 < it.bufferCount then some { it with bufferIdx := it.bufferIdx + 1 }
  else
    s.loadNextBlock (targets.drop it.visited)
      { it with bufferIdx := it.bufferIdx + 1, valid := false }

/-- The current row with its `SourceHasNewerVersion`, which is there only
when the flags are kept. -/
def current (it : TableIter) : Option (Entry × Option Bool) :=
  if it.valid = true then
    (it.buffers.slots.getD it.bufferIdx none).map fun e => (e, it.buffers.shadowed[it.bufferIdx]?)
  else none

def cursor (s : TableScan) (targets : List TargetBlock) :
    Cursor TableIter (Entry × Option Bool) where
  head := current
  next := s.next targets

/-! ### Rows and blocks -/

/-- The rows in front of block `k`. -/
def rowsBefore (blocks : List DataBlock) (k : ℕ) : ℕ :=
  ((blocks.take k).map fun b => b.entries.length).sum

/-- All rows of the table. -/
def tableRows (blocks : List DataBlock) : List Entry := blocks.flatMap DataBlock.entries

section Rows

variable {blocks : List DataBlock} {b : DataBlock} {k : ℕ}

theorem rowsBefore_succ (hb : blocks[k]? = some b) :
    rowsBefore blocks (k + 1) = rowsBefore blocks k + b.entries.length := by
  rw [rowsBefore, List.take_add_one, hb]
  simp [rowsBefore]

theorem rowsBefore_le_succ (blocks : List DataBlock) (k : ℕ) :
    rowsBefore blocks k ≤ rowsBefore blocks (k + 1) := by
  cases hb : blocks[k]? with
  | none => rw [rowsBefore, rowsBefore, List.take_add_one, hb]; simp
  | some b => rw [rowsBefore_succ hb]; omega

theorem rowsBefore_mono (blocks : List DataBlock) : Monotone (rowsBefore blocks) :=
  monotone_nat_of_le_succ (rowsBefore_le_succ blocks)

theorem rowsBefore_length (blocks : List DataBlock) :
    rowsBefore blocks blocks.length = (tableRows blocks).length := by
  rw [rowsBefore, List.take_length, tableRows, List.length_flatMap]

theorem getElem?_tableRows (hb : blocks[k]? = some b) {j : ℕ} (hj : j < b.entries.length) :
    (tableRows blocks)[rowsBefore blocks k + j]? = b.entries[j]? := by
  obtain ⟨hk, hget⟩ := List.getElem?_eq_some_iff.1 hb
  have hsplit : tableRows blocks = tableRows (blocks.take k) ++
      (b.entries ++ tableRows (blocks.drop (k + 1))) := by
    conv_lhs => rw [← List.take_append_drop k blocks, ← List.cons_getElem_drop_succ (h := hk), hget]
    simp [tableRows]
  have hlen : (tableRows (blocks.take k)).length = rowsBefore blocks k := by
    rw [tableRows, List.length_flatMap, rowsBefore]
  rw [hsplit, List.getElem?_append_right (by omega), hlen, Nat.add_sub_cancel_left,
    List.getElem?_append_left hj]

end Rows

/-- Row `id` is in block `k`. -/
def InBlock (blocks : List DataBlock) (k id : ℕ) : Prop :=
  rowsBefore blocks k ≤ id ∧ id < rowsBefore blocks (k + 1)

theorem exists_inBlock {blocks : List DataBlock} {id : ℕ}
    (h : id < (tableRows blocks).length) : ∃ k < blocks.length, InBlock blocks k id := by
  rw [← rowsBefore_length] at h
  generalize blocks.length = n at h
  induction n with
  | zero => simp [rowsBefore] at h
  | succ n ih =>
      rcases Nat.lt_or_ge id (rowsBefore blocks n) with hlt | hge
      · obtain ⟨k, hk, hin⟩ := ih hlt
        exact ⟨k, by omega, hin⟩
      · exact ⟨n, by omega, hge, h⟩

/-- The calls a table builder makes for its blocks: each entry, and the handle
once the block is out. -/
def tableCalls (table : List (DataBlock × BlockHandle)) : List BuilderCall :=
  table.flatMap fun (b, handle) =>
    b.entries.map (fun e => .onKeyAdded e.userKey e.type e.value) ++
      [.addIndexEntry handle.1 handle.2]

/-- The scan is of the table made of `blocks`: the prefix sums are those the
builder recorded for them, and each handle reads its block. -/
structure Describes (s : TableScan) (blocks : List DataBlock) : Prop where
  psum : ∃ handles : List BlockHandle, handles.length = blocks.length ∧
    s.dataEntriesCntPsum =
      (tableLayout (tableCalls (blocks.zip handles))).2.map fun e => UInt32.ofNat e.psum
  handles : s.blockHandles.length = blocks.length
  reads : ∀ (k : ℕ) handle b, s.blockHandles[k]? = some handle → blocks[k]? = some b →
    s.readBlock handle = .ok b
  interval : ∀ b ∈ blocks, b.SeekableBy s.interval

theorem layoutStep_entries (entries : List Entry) (st : ℕ × List IndexEntry) :
    (entries.map fun e => BuilderCall.onKeyAdded e.userKey e.type e.value).foldl layoutStep st =
      (st.1 + entries.length, st.2) := by
  induction entries generalizing st with
  | nil => rfl
  | cons e entries ih =>
      rw [List.map_cons, List.foldl_cons, ih]
      simp only [layoutStep, List.length_cons, Prod.mk.injEq, and_true]
      omega

theorem rowsBefore_cons (b : DataBlock) (blocks : List DataBlock) (k : ℕ) :
    rowsBefore (b :: blocks) (k + 1) = b.entries.length + rowsBefore blocks k := by
  simp [rowsBefore]

/-- The prefix sums of the calls are the rows up to each block's end. -/
theorem psum_tableCalls {blocks : List DataBlock} {handles : List BlockHandle}
    (hlen : handles.length = blocks.length) (st : ℕ × List IndexEntry) :
    ((tableCalls (blocks.zip handles)).foldl layoutStep st).2.map IndexEntry.psum =
      st.2.map IndexEntry.psum ++
        (List.range blocks.length).map fun k => st.1 + rowsBefore blocks (k + 1) := by
  induction blocks generalizing handles st with
  | nil => simp [tableCalls]
  | cons b blocks ih =>
      obtain _ | ⟨handle, handles⟩ := handles
      · simp at hlen
      · rw [List.zip_cons_cons, tableCalls, List.flatMap_cons, List.foldl_append,
          List.foldl_append, layoutStep_entries]
        refine (ih (by simpa using hlen) _).trans ?_
        simp only [List.foldl_cons, List.foldl_nil, layoutStep, List.map_append, List.map_cons,
          List.map_nil, List.length_cons, List.range_succ_eq_map, List.append_assoc,
          List.map_map, rowsBefore_cons]
        simp [rowsBefore, Function.comp_def, Nat.add_assoc]

theorem psum_tableLayout {blocks : List DataBlock} {handles : List BlockHandle}
    (hlen : handles.length = blocks.length) :
    ((tableLayout (tableCalls (blocks.zip handles))).2.map fun e => UInt32.ofNat e.psum) =
      (List.range blocks.length).map fun k => UInt32.ofNat (rowsBefore blocks (k + 1)) := by
  have hnat := congrArg (List.map UInt32.ofNat) (psum_tableCalls hlen (0, []))
  rw [tableLayout]
  simpa [Function.comp_def] using hnat

theorem Describes.psum_eq {s : TableScan} {blocks : List DataBlock} (hs : s.Describes blocks) :
    s.dataEntriesCntPsum =
      (List.range blocks.length).map fun k => UInt32.ofNat (rowsBefore blocks (k + 1)) := by
  obtain ⟨handles, hlen, hpsum⟩ := hs.psum
  rw [hpsum, psum_tableLayout hlen]

section Targets

variable {s : TableScan} {blocks : List DataBlock} (hs : s.Describes blocks)
  (hrows : (tableRows blocks).length < 2 ^ 32)
include hs hrows

theorem toNat_psum {k : ℕ} (hk : k < blocks.length) :
    (s.dataEntriesCntPsum.getD k 0).toNat = rowsBefore blocks (k + 1) := by
  have hle := rowsBefore_mono blocks (show k + 1 ≤ blocks.length by omega)
  rw [rowsBefore_length] at hle
  rw [hs.psum_eq, List.getD_eq_getElem?_getD, List.getElem?_map, List.getElem?_range hk,
    Option.map_some, Option.getD_some, UInt32.toNat_ofNat', Nat.mod_eq_of_lt (by omega)]

/-- The search finds the block of a row. -/
theorem upperBound_eq {start k id : ℕ} (hk : k < blocks.length) (hin : InBlock blocks k id)
    (hstart : start ≤ k) : s.upperBound start id = k := by
  have hlen : s.dataEntriesCntPsum.length = blocks.length := by simp [hs.psum_eq]
  have hp (i : ℕ) (hi : i < blocks.length - start) :
      (decide ((s.dataEntriesCntPsum.getD (start + i) 0).toNat ≤ id) = true ↔ start + i < k) := by
    rw [decide_eq_true_eq, toNat_psum hs hrows (by omega)]
    constructor
    · intro hle
      by_contra hge
      have := rowsBefore_mono blocks (show k + 1 ≤ start + i + 1 by omega)
      have := hin.2
      omega
    · intro hlt
      exact le_trans (rowsBefore_mono blocks hlt) hin.1
  obtain ⟨hle, hiff⟩ := BinarySearch.search_spec (n := blocks.length - start)
    (p := fun i => decide ((s.dataEntriesCntPsum.getD (start + i) 0).toNat ≤ id))
    (fun i j hij hj h => (hp i (by omega)).2 (by have := (hp j hj).1 h; omega))
  have hsame (i : ℕ) (hi : i < blocks.length - start) :
      start + i < k ↔ i < BinarySearch.search
        (fun i => decide ((s.dataEntriesCntPsum.getD (start + i) 0).toNat ≤ id))
        (blocks.length - start) := (hp i hi).symm.trans (hiff i hi)
  rw [upperBound, hlen]
  generalize BinarySearch.search _ (blocks.length - start) = r at hle hsame ⊢
  have h₁ := hsame (k - start) (by omega)
  by_contra hne
  have h₂ := hsame r
  omega

theorem targetsFrom_same {ids post : List ℕ} {k : ℕ} (hk : k < blocks.length)
    (hin : ∀ id ∈ ids, InBlock blocks k id) :
    s.targetsFrom (ids ++ post) (some k) k = s.targetsFrom post (some k) k := by
  have hlen : s.dataEntriesCntPsum.length = blocks.length := by simp [hs.psum_eq]
  induction ids with
  | nil => rfl
  | cons id ids ih =>
      rw [List.forall_mem_cons] at hin
      rw [List.cons_append, targetsFrom, upperBound_eq hs hrows hk hin.1 le_rfl, hlen, if_pos hk,
        if_pos rfl]
      exact ih hin.2

theorem targetsFrom_group {id : ℕ} {ids post : List ℕ} {k start : ℕ} {last : Option ℕ}
    (hk : k < blocks.length) (hin : ∀ id' ∈ id :: ids, InBlock blocks k id') (hstart : start ≤ k)
    (hlast : last ≠ some k) :
    s.targetsFrom (id :: ids ++ post) last start = do
      let handle ← s.blockHandles[k]?
      let rest ← s.targetsFrom post (some k) k
      return ⟨UInt32.ofNat k, handle⟩ :: rest := by
  have hlen : s.dataEntriesCntPsum.length = blocks.length := by simp [hs.psum_eq]
  rw [List.forall_mem_cons] at hin
  rw [List.cons_append, targetsFrom, upperBound_eq hs hrows hk hin.1 hstart, hlen, if_pos hk,
    if_neg hlast, targetsFrom_same hs hrows hk hin.2]

end Targets

/-- The row ids taken apart block by block, with the targets that visit the
blocks. -/
inductive Groups (s : TableScan) (blocks : List DataBlock) : List ℕ → List TargetBlock → Prop
  | nil : Groups s blocks [] []
  | cons {k : ℕ} {b : DataBlock} {handle : BlockHandle} {pre post : List ℕ}
      {targets : List TargetBlock} :
      blocks[k]? = some b → s.blockHandles[k]? = some handle → pre ≠ [] →
      (∀ id ∈ pre, InBlock blocks k id) → (∀ id ∈ post, rowsBefore blocks (k + 1) ≤ id) →
      Groups s blocks post targets →
      Groups s blocks (pre ++ post) (⟨UInt32.ofNat k, handle⟩ :: targets)

theorem exists_split_at {l : List ℕ} (hsorted : l.Pairwise (· < ·)) (stop : ℕ) :
    ∃ pre post, l = pre ++ post ∧ (∀ x ∈ pre, x < stop) ∧ ∀ x ∈ post, stop ≤ x := by
  induction l with
  | nil => exact ⟨[], [], rfl, by simp, by simp⟩
  | cons x l ih =>
      rw [List.pairwise_cons] at hsorted
      rcases Nat.lt_or_ge x stop with hlt | hge
      · obtain ⟨pre, post, rfl, hpre, hpost⟩ := ih hsorted.2
        exact ⟨x :: pre, post, rfl, List.forall_mem_cons.2 ⟨hlt, hpre⟩, hpost⟩
      · refine ⟨[], x :: l, rfl, by simp, List.forall_mem_cons.2 ⟨hge, fun y hy => ?_⟩⟩
        exact hge.trans (hsorted.1 y hy).le

theorem exists_targets {s : TableScan} {blocks : List DataBlock} (hs : s.Describes blocks)
    (hrows : (tableRows blocks).length < 2 ^ 32) {ids : List ℕ} (hsorted : ids.Pairwise (· < ·))
    (hids : ∀ id ∈ ids, id < (tableRows blocks).length) {last : Option ℕ} {start : ℕ}
    (hstart : ∀ id ∈ ids, rowsBefore blocks start ≤ id)
    (hlast : ∀ k, last = some k → ∀ id ∈ ids, rowsBefore blocks (k + 1) ≤ id) :
    ∃ targets, s.targetsFrom ids last start = some targets ∧ s.Groups blocks ids targets := by
  induction hn : ids.length using Nat.strong_induction_on generalizing ids last start with
  | _ n ih =>
      cases ids with
      | nil => exact ⟨[], rfl, .nil⟩
      | cons id rest =>
          obtain ⟨k, hk, hin⟩ := exists_inBlock (hids id (by simp))
          rw [List.pairwise_cons] at hsorted
          obtain ⟨pre, post, rfl, hpre, hpost⟩ :=
            exists_split_at hsorted.2 (rowsBefore blocks (k + 1))
          have hgroup : ∀ id' ∈ id :: pre, InBlock blocks k id' := by
            refine List.forall_mem_cons.2 ⟨hin, fun id' hmem => ⟨?_, hpre id' hmem⟩⟩
            exact hin.1.trans (hsorted.1 id' (List.mem_append_left _ hmem)).le
          have hstartk : start ≤ k := by
            by_contra hlt
            have := rowsBefore_mono blocks (show k + 1 ≤ start by omega)
            have := hstart id (by simp)
            have := hin.2
            omega
          have hlastk : last ≠ some k := by
            intro heq
            have := hlast k heq id (by simp)
            have := hin.2
            omega
          obtain ⟨targets, htargets, hgroups⟩ := ih post.length
            (by rw [← hn, List.length_cons, List.length_append]; omega)
            (hsorted.2.sublist (List.sublist_append_right _ _))
            (fun id' hmem => hids id' (by simp [hmem]))
            (fun id' hmem => (rowsBefore_mono blocks k.le_succ).trans (hpost id' hmem))
            (fun k' hk' id' hmem => by
              obtain rfl : k = k' := Option.some.inj hk'
              exact hpost id' hmem) rfl
          obtain ⟨handle, hhandle⟩ : ∃ handle, s.blockHandles[k]? = some handle :=
            ⟨_, List.getElem?_eq_getElem (by rw [hs.handles]; exact hk)⟩
          refine ⟨⟨UInt32.ofNat k, handle⟩ :: targets, ?_, ?_⟩
          · rw [← List.cons_append, targetsFrom_group hs hrows hk hgroup hstartk hlastk, hhandle,
              htargets]
            rfl
          · rw [← List.cons_append]
            exact .cons (List.getElem?_eq_getElem hk) hhandle (by simp) hgroup hpost hgroups

end TableScan

end BitLSM
