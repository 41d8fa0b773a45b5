import BitLSM.Scan.TableIterator

/-!
What the scan of one table hands out.

One block is read, filtered and compacted in `block_loaded`; `load_yields`
follows the target blocks one after another, and `seekToFirst_yields` is the
whole scan: the visible rows at the bitmap's row ids, in order, each block
read once.
-/

namespace BitLSM

/-- A row whose predecessor has another user key is the newest version of
its own. -/
theorem SortedByInternalKey.no_newer {rows : List Entry} (h : SortedByInternalKey rows) {i : ℕ}
    {p e : Entry} (hp : rows[i]? = some p) (he : rows[i + 1]? = some e)
    (hne : p.userKey ≠ e.userKey) : ∀ x ∈ rows, x.userKey = e.userKey → x.seqno ≤ e.seqno := by
  have horder {i j : ℕ} {x y : Entry} (hx : rows[i]? = some x) (hy : rows[j]? = some y)
      (hij : i < j) : x.userKey < y.userKey ∨ x.userKey = y.userKey ∧ y.seqno ≤ x.seqno := by
    obtain ⟨hi, rfl⟩ := List.getElem?_eq_some_iff.1 hx
    obtain ⟨hj, rfl⟩ := List.getElem?_eq_some_iff.1 hy
    exact List.pairwise_iff_getElem.1 h i j hi hj hij
  have hless : p.userKey < e.userKey :=
    (horder hp he (Nat.lt_succ_self i)).resolve_right fun h => hne h.1
  intro x hx hkey
  obtain ⟨j, hj⟩ := List.mem_iff_getElem?.1 hx
  rcases Nat.lt_trichotomy j (i + 1) with hlt | rfl | hgt
  · have hle : x.userKey ≤ p.userKey := by
      rcases Nat.lt_or_ge j i with hlt' | hge
      · rcases horder hj hp hlt' with h | h
        · exact h.le
        · exact h.1.le
      · obtain rfl : j = i := by omega
        rw [Option.some.inj (hj.symm.trans hp)]
    exact absurd (hkey ▸ lt_of_le_of_lt hle hless) (lt_irrefl _)
  · exact Option.some.inj (hj.symm.trans he) ▸ UInt64.le_refl _
  · rcases horder he hj hgt with h | h
    · exact absurd (hkey ▸ h) (lt_irrefl _)
    · exact h.2

namespace TableScan

/-! ### One block -/

theorem localIndexes_eq {start stop : ℕ} {pre post : List ℕ}
    (hpre : ∀ id ∈ pre, start ≤ id ∧ id < stop) (hpost : ∀ id ∈ post, stop ≤ id) :
    localIndexes start stop (pre ++ post) = (pre.map (· - start), post) := by
  induction pre with
  | nil =>
      cases post with
      | nil => rfl
      | cons id post =>
          rw [List.nil_append, localIndexes, if_pos (hpost id (by simp))]
          rfl
  | cons id pre ih =>
      rw [List.forall_mem_cons] at hpre
      rw [List.cons_append, localIndexes, if_neg (by omega), ih hpre.2]
      simp [hpre.1.1]

/-- The loop keeps the kept rows in front, and what it has not looked at
where it was. -/
structure Compacted (s : TableScan) (buf : ScanBuffers) (keep : ℕ → Bool) (i cursor : ℕ)
    (buf' : ScanBuffers) : Prop where
  cursor_eq : cursor = ((List.range i).filter keep).length
  slots : buf'.slots.take cursor =
    ((List.range i).filter keep).map fun j => buf.slots.getD j none
  slots_left : buf'.slots.drop i = buf.slots.drop i
  shadowed : s.track = true → buf'.shadowed.take cursor =
    ((List.range i).filter keep).map fun j => buf.shadowed.getD j false
  shadowed_left : s.track = true → buf'.shadowed.drop i = buf.shadowed.drop i


section Compact

variable {α : Type} {l l' : List α} {x : α} {i : ℕ} {kept : List ℕ}

theorem set_getD_self (l : List α) (i : ℕ) (x : α) : l.set i (l.getD i x) = l := by
  rcases Nat.lt_or_ge i l.length with hlt | hge
  · rw [List.getD_eq_getElem _ _ hlt, List.set_getElem_self]
  · exact List.set_eq_of_length_le hge

theorem getD_of_drop_eq (h : l'.drop i = l.drop i) : l'.getD i x = l.getD i x := by
  have hget := congrArg (·[0]?) h
  simp only [List.getElem?_drop, Nat.add_zero] at hget
  rw [List.getD_eq_getElem?_getD, List.getD_eq_getElem?_getD, hget]

/-- Moving element `i` to the end of the kept ones. -/
theorem take_set_kept (hi : i < l.length) (hkept : kept.length ≤ i)
    (htake : l'.take kept.length = kept.map fun j => l.getD j x) (hdrop : l'.drop i = l.drop i) :
    (l'.set kept.length (l'.getD i x)).take (kept.length + 1) =
        (kept ++ [i]).map (fun j => l.getD j x) ∧
      (l'.set kept.length (l'.getD i x)).drop (i + 1) = l.drop (i + 1) := by
  have hlen : kept.length < l'.length := by
    have := congrArg List.length hdrop
    simp only [List.length_drop] at this
    omega
  constructor
  · rw [List.take_add_one, List.take_set_of_le le_rfl, htake, List.getElem?_set_self hlen,
      getD_of_drop_eq hdrop]
    simp
  · rw [List.drop_set_of_lt (by omega), ← List.drop_drop, hdrop, List.drop_drop]

end Compact

theorem copySlot_self (s : TableScan) (buf : ScanBuffers) (i : ℕ) : s.copySlot buf i i = buf := by
  rw [copySlot, set_getD_self, set_getD_self, ite_self]

theorem Compacted.skip {s : TableScan} {buf buf' : ScanBuffers} {keep : ℕ → Bool} {i cursor : ℕ}
    (h : s.Compacted buf keep i cursor buf') (hkeep : keep i = false) :
    s.Compacted buf keep (i + 1) cursor buf' := by
  have hfilter : (List.range (i + 1)).filter keep = (List.range i).filter keep := by
    simp [List.range_succ, hkeep]
  obtain ⟨hcursor, hslots, hleft, hshadow, hshadowLeft⟩ := h
  refine ⟨by rw [hfilter, hcursor], by rw [hfilter, hslots], ?_,
      fun ht => by rw [hfilter, hshadow ht],
    fun ht => ?_⟩
  · rw [← List.drop_drop, hleft, List.drop_drop]
  · rw [← List.drop_drop, hshadowLeft ht, List.drop_drop]

theorem Compacted.keep {s : TableScan} {buf buf' : ScanBuffers} {keep : ℕ → Bool} {i cursor : ℕ}
    (h : s.Compacted buf keep i cursor buf') (hkeep : keep i = true) (hi : i < buf.slots.length)
    (hishadow : s.track = true → i < buf.shadowed.length) :
    s.Compacted buf keep (i + 1) (cursor + 1) (s.copySlot buf' i cursor) := by
  have hfilter : (List.range (i + 1)).filter keep = (List.range i).filter keep ++ [i] := by
    simp [List.range_succ, hkeep]
  have hle : ((List.range i).filter keep).length ≤ i := by
    simpa using List.length_filter_le keep (List.range i)
  obtain ⟨rfl, hslots, hleft, hshadow, hshadowLeft⟩ := h
  obtain ⟨hslots', hleft'⟩ := take_set_kept hi hle hslots hleft
  refine ⟨by simp [hfilter], by rw [hfilter]; exact hslots', hleft', fun ht => ?_, fun ht => ?_⟩
  · rw [hfilter, copySlot, if_pos ht]
    exact (take_set_kept (hishadow ht) hle (hshadow ht) (hshadowLeft ht)).1
  · rw [copySlot, if_pos ht]
    exact (take_set_kept (hishadow ht) hle (hshadow ht) (hshadowLeft ht)).2

theorem compact_spec {s : TableScan} {buf buf' : ScanBuffers} {keep : ℕ → Bool} (n : ℕ)
    {i cursor : ℕ} (hpass : ∀ j < i + n, s.rowPasses (buf.slots.getD j none) = some (keep j))
    (hroom : i + n ≤ buf.slots.length) (hshadow : s.track = true → i + n ≤ buf.shadowed.length)
    (h : s.Compacted buf keep i cursor buf') :
    ∃ cursor' buf'', s.compact n i cursor buf' = some (cursor', buf'') ∧
      s.Compacted buf keep (i + n) cursor' buf'' := by
  induction n generalizing i cursor buf' with
  | zero => exact ⟨cursor, buf', rfl, h⟩
  | succ n ih =>
      have hrow : s.rowPasses (buf'.slots.getD i none) = some (keep i) := by
        rw [getD_of_drop_eq h.slots_left]
        exact hpass i (by omega)
      have hsum : i + (n + 1) = i + 1 + n := by omega
      rw [hsum] at hpass hroom hshadow ⊢
      rw [compact, hrow]
      cases hkeep : keep i with
      | false => exact ih hpass hroom hshadow (h.skip hkeep)
      | true =>
          have hcopy : (if i = cursor then buf' else s.copySlot buf' i cursor) =
              s.copySlot buf' i cursor := by
            split
            · next heq => rw [← heq, copySlot_self]
            · rfl
          simp only [hcopy]
          exact ih hpass hroom hshadow
            (h.keep hkeep (by omega) fun ht => by have := hshadow ht; omega)

section Selected

variable {α β : Type} {as : List α} {bs : List β} {ids : List ℕ} {f : ℕ → α} {g : ℕ → β}

theorem getD_of_take_eq (has : as.take ids.length = ids.map f) (x : α) {j : ℕ}
    (hj : j < ids.length) : as.getD j x = f (ids.getD j 0) := by
  have hget := congrArg (·[j]?) has
  simp only [List.getElem?_take, hj, if_true, List.getElem?_map,
    List.getElem?_eq_getElem hj, Option.map_some] at hget
  rw [List.getD_eq_getElem?_getD, hget, Option.getD_some, List.getD_eq_getElem _ _ hj]

/-- Kept positions of a buffer that was filled from `ids` are the kept `ids`. -/
theorem map_filter_range (p : α → Bool) (x : α) (y : β)
    (has : as.take ids.length = ids.map f) (hbs : bs.take ids.length = ids.map g) :
    ((List.range ids.length).filter fun j => p (as.getD j x)).map (fun j => bs.getD j y) =
      (ids.filter fun id => p (f id)).map g := by
  have hids : ids = (List.range ids.length).map fun j => ids.getD j 0 := by
    refine List.ext_getElem (by simp) fun j h₁ h₂ => ?_
    simp [List.getElem?_eq_getElem h₁]
  conv_rhs => rw [hids, List.filter_map, List.map_map]
  rw [List.filter_congr (q := (fun id => p (f id)) ∘ fun j => ids.getD j 0)]
  · refine List.map_congr_left fun j hj => getD_of_take_eq hbs y ?_
    exact List.mem_range.1 (List.mem_of_mem_filter hj)
  · intro j hj
    rw [getD_of_take_eq has x (List.mem_range.1 hj)]
    rfl

end Selected

/-- The row is emitted. -/
def shows (s : TableScan) (row : Option Entry) : Bool := s.rowPasses row == some true

/-- The compiled query can be evaluated on every row of the table that it is
asked about. -/
def Evaluates (s : TableScan) (blocks : List DataBlock) : Prop :=
  ∀ e ∈ tableRows blocks, (s.rowPasses (some e)).isSome = true

theorem rowPasses_eq {s : TableScan} {blocks : List DataBlock} (heval : s.Evaluates blocks)
    {row : Option Entry} (hrow : ∀ e, row = some e → e ∈ tableRows blocks) :
    s.rowPasses row = some (s.shows row) := by
  cases row with
  | none => rfl
  | some e =>
      obtain ⟨passes, hpasses⟩ := Option.isSome_iff_exists.1 (heval e (hrow e rfl))
      rw [shows, hpasses]
      cases passes <;> rfl

section Block

variable {s : TableScan} {blocks : List DataBlock} (hs : s.Describes blocks)
  (hrows : (tableRows blocks).length < 2 ^ 32)
include hs hrows

theorem blockBounds_eq {k : ℕ} (hk : k < blocks.length) :
    s.blockBounds k = some (rowsBefore blocks k, rowsBefore blocks (k + 1)) := by
  have hget (i : ℕ) (hi : i < blocks.length) :
      s.dataEntriesCntPsum[i]?.map UInt32.toNat = some (rowsBefore blocks (i + 1)) := by
    have hlen : i < s.dataEntriesCntPsum.length := by simpa [hs.psum_eq] using hi
    have := toNat_psum hs hrows hi
    rw [List.getD_eq_getElem _ _ hlen] at this
    rw [List.getElem?_eq_getElem hlen, Option.map_some, this]
  obtain ⟨stop, hstop, hstopNat⟩ := Option.map_eq_some_iff.1 (hget k hk)
  rw [blockBounds, hstop]
  cases k with
  | zero => simp [hstopNat, rowsBefore]
  | succ k => simp [hstopNat, hget k (by omega)]

end Block

theorem length_le_of_inBlock {blocks : List DataBlock} {b : DataBlock} {k : ℕ} {pre : List ℕ}
    (hb : blocks[k]? = some b) (hsorted : pre.Pairwise (· < ·))
    (hin : ∀ id ∈ pre, InBlock blocks k id) : pre.length ≤ b.entries.length := by
  have hnodup : pre.Nodup := hsorted.imp fun h => h.ne
  have hsub : pre ⊆ List.range' (rowsBefore blocks k) b.entries.length := by
    intro id hid
    obtain ⟨hle, hlt⟩ := hin id hid
    rw [rowsBefore_succ hb] at hlt
    exact List.mem_range'_1.2 ⟨hle, hlt⟩
  simpa using (hnodup.subperm hsub).length_le

/-- What one block leaves in the buffers. -/
structure BlockLoaded (s : TableScan) (blocks : List DataBlock) (k : ℕ) (b : DataBlock)
    (visible : List ℕ) (buffers : ScanBuffers) : Prop where
  slots : buffers.slots.take visible.length = visible.map fun id => (tableRows blocks)[id]?
  shadowed : s.track = true → buffers.shadowed.take visible.length =
    visible.map fun id => b.shadowOf s.interval (id - rowsBefore blocks k)

theorem block_loaded {s : TableScan} {blocks : List DataBlock} (hs : s.Describes blocks)
    (heval : s.Evaluates blocks) {k : ℕ} {b : DataBlock} {pre : List ℕ}
    (hb : blocks[k]? = some b) (hsorted : pre.Pairwise (· < ·))
    (hin : ∀ id ∈ pre, InBlock blocks k id) (buf : ScanBuffers) :
    ∃ filled buffers, b.getAllByIndexes s.interval s.track
          (pre.map (· - rowsBefore blocks k)) buf = some filled ∧
      s.compact (Int32.ofNat pre.length).toNatClampNeg 0 0 filled =
        some ((pre.filter fun id => s.shows (tableRows blocks)[id]?).length, buffers) ∧
      s.BlockLoaded blocks k b (pre.filter fun id => s.shows (tableRows blocks)[id]?)
        buffers := by
  have hmem := List.mem_of_getElem? hb
  have hinterval := hs.interval b hmem
  have hlocal : ∀ id ∈ pre, rowsBefore blocks k ≤ id ∧
      id - rowsBefore blocks k < b.entries.length := by
    intro id hid
    obtain ⟨hle, hlt⟩ := hin id hid
    rw [rowsBefore_succ hb] at hlt
    omega
  have hland (id : ℕ) (hid : id ∈ pre) : b.landing s.interval (id - rowsBefore blocks k) =
      id - rowsBefore blocks k := hinterval.landing_eq (hlocal id hid).2
  obtain ⟨filled, hfilled, hslots, hshadow⟩ := @DataBlock.getAllByIndexes_spec b s.interval s.track
    (pre.map (· - rowsBefore blocks k))
    (List.pairwise_map.2 (hsorted.imp_of_mem fun {i j} hi hj hlt => by
      have := hlocal i hi
      have := hlocal j hj
      omega))
    (List.forall_mem_map.2 fun id hid => (hlocal id hid).2) buf
    (List.forall_mem_map.2 fun id hid => by
      have := hland id hid
      rw [DataBlock.landing] at this
      have := (hlocal id hid).2
      omega)
    (Or.inl (List.forall_mem_map.2 fun id hid => by
      rw [hland id hid]
      exact (hlocal id hid).2))
  rw [List.length_map, List.map_map] at hslots hshadow
  have hslots' : filled.slots.take pre.length = pre.map fun id => (tableRows blocks)[id]? := by
    rw [hslots]
    refine List.map_congr_left fun id hid => ?_
    obtain ⟨hle, hlt⟩ := hlocal id hid
    rw [Function.comp_apply, hland id hid, ← getElem?_tableRows hb hlt, Nat.add_sub_cancel' hle]
  have hcount : (Int32.ofNat pre.length).toNatClampNeg = pre.length := by
    have := length_le_of_inBlock hb hsorted hin
    have := b.length_lt
    exact Int32.toNatClampNeg_ofNat_of_lt (by omega)
  have hroom : pre.length ≤ filled.slots.length := by
    have := congrArg List.length hslots'
    simp only [List.length_take, List.length_map] at this
    omega
  have hroomShadow (ht : s.track = true) : pre.length ≤ filled.shadowed.length := by
    have := congrArg List.length (hshadow ht)
    simp only [List.length_take, List.length_map] at this
    omega
  obtain ⟨cursor, buffers, hcompact, hdone⟩ := @compact_spec s filled filled
    (fun j => s.shows (filled.slots.getD j none)) pre.length 0 0
    (fun j hj => rowPasses_eq heval fun e he => by
      rw [getD_of_take_eq hslots' none (by omega)] at he
      exact List.mem_of_getElem? he)
    (by omega) (fun ht => by have := hroomShadow ht; omega)
    ⟨rfl, rfl, rfl, fun _ => rfl, fun _ => rfl⟩
  obtain ⟨hcursor, hkept, -, hkeptShadow, -⟩ := hdone
  rw [Nat.zero_add] at hcursor hkept hkeptShadow
  have hvisible := map_filter_range s.shows none none hslots' hslots'
  have hlen : cursor = (pre.filter fun id => s.shows (tableRows blocks)[id]?).length := by
    have := congrArg List.length hvisible
    simpa [hcursor] using this
  subst hlen
  refine ⟨filled, buffers, hfilled, by rw [hcount, hcompact], ?_, fun ht => ?_⟩
  · rw [hkept, hvisible]
  · rw [hkeptShadow ht]
    exact map_filter_range s.shows none false hslots' (hshadow ht)

/-! ### All blocks -/

/-- What is handed out for row `id`. -/
structure EmitsRow (s : TableScan) (blocks : List DataBlock) (id : ℕ)
    (out : Entry × Option Bool) : Prop where
  row : (tableRows blocks)[id]? = some out.1
  flag : s.track = true → ∃ k b, blocks[k]? = some b ∧ InBlock blocks k id ∧
    out.2 = some (b.shadowOf s.interval (id - rowsBefore blocks k))

/-- The rows in the buffer from `bufferIdx` on, and then those of the blocks
behind. -/
theorem buffer_yields {s : TableScan} {blocks : List DataBlock} {targets : List TargetBlock}
    {it rest final : TableIter} {visible : List ℕ} {rows : List (Entry × Option Bool)}
    (hvalid : it.valid = true) (hcount : it.bufferCount = visible.length)
    (hemit : ∀ (j : ℕ) id, visible[j]? = some id → ∃ e, it.buffers.slots.getD j none = some e ∧
      s.EmitsRow blocks id (e, it.buffers.shadowed[j]?))
    (hload : s.loadNextBlock (targets.drop it.visited)
      { it with bufferIdx := visible.length, valid := false } = some rest)
    (hrest : (s.cursor targets).Yields rest rows final) (n : ℕ) {i : ℕ}
    (hi : i + (n + 1) = visible.length) :
    ∃ front, List.Forall₂ (s.EmitsRow blocks) (visible.drop i) front ∧
      (s.cursor targets).Yields { it with bufferIdx := i } (front ++ rows) final := by
  have hhead (i : ℕ) (e : Entry) (he : it.buffers.slots.getD i none = some e) :
      (s.cursor targets).head { it with bufferIdx := i } = some (e, it.buffers.shadowed[i]?) := by
    show current _ = _
    rw [current, if_pos hvalid]
    simp only [he, Option.map_some]
  induction n generalizing i with
  | zero =>
      have hlt : i < visible.length := by omega
      obtain ⟨e, he, hrow⟩ := hemit i _ (List.getElem?_eq_getElem hlt)
      rw [List.drop_eq_getElem_cons hlt]
      refine ⟨[(e, it.buffers.shadowed[i]?)], .cons hrow (by simp [hi]),
        .more (hhead i e he) ?_ hrest⟩
      show s.next targets _ = _
      rw [next, if_neg (by show ¬i + 1 < it.bufferCount; omega), ← hload, ← hi]
  | succ n ih =>
      have hlt : i < visible.length := by omega
      obtain ⟨e, he, hrow⟩ := hemit i _ (List.getElem?_eq_getElem hlt)
      rw [List.drop_eq_getElem_cons hlt]
      obtain ⟨front, hfront, hyields⟩ := @ih (i + 1) (by omega)
      refine ⟨(e, it.buffers.shadowed[i]?) :: front, .cons hrow hfront,
        .more (hhead i e he) ?_ hyields⟩
      show s.next targets _ = _
      rw [next, if_pos (by show i + 1 < it.bufferCount; omega)]

theorem le_rowsBefore {blocks : List DataBlock} (hfull : ∀ b ∈ blocks, b.entries ≠ []) {k : ℕ}
    (hk : k ≤ blocks.length) : k ≤ rowsBefore blocks k := by
  induction k with
  | zero => omega
  | succ k ih =>
      have hb : blocks[k]? = some _ := List.getElem?_eq_getElem hk
      have hpos := List.length_pos_iff.2 (hfull _ (List.mem_of_getElem? hb))
      rw [rowsBefore_succ hb]
      have := ih (by omega)
      omega

/-- The iterator once a block is in the buffers. -/
def TableIter.loaded (it : TableIter) (handle : BlockHandle) (ids : List ℕ) (count : ℕ)
    (buffers : ScanBuffers) : TableIter :=
  { it with
    visited := it.visited + 1
    ids
    buffers
    bufferCount := count
    reads := it.reads ++ [handle] }

theorem loadNextBlock_cons {s : TableScan} {it : TableIter} {target : TargetBlock}
    {rest : List TargetBlock} {start stop count : ℕ} {indexes ids : List ℕ} {b : DataBlock}
    {filled buffers : ScanBuffers} (hvisited : it.visited < 2 ^ 31)
    (hbounds : s.blockBounds target.idx.toNat = some (start, stop))
    (hlocal : localIndexes start stop it.ids = (indexes, ids)) (hne : indexes ≠ [])
    (hread : s.readBlock target.handle = .ok b)
    (hfilled : b.getAllByIndexes s.interval s.track indexes it.buffers = some filled)
    (hcompact : s.compact (Int32.ofNat indexes.length).toNatClampNeg 0 0 filled =
      some (count, buffers)) :
    s.loadNextBlock (target :: rest) it =
      if 0 < count then
        some { TableIter.loaded it target.handle ids count buffers with
            bufferIdx := 0, valid := true }
      else s.loadNextBlock rest (TableIter.loaded it target.handle ids count buffers) := by
  rw [loadNextBlock, if_pos hvisited, hbounds]
  simp only [hlocal, if_neg hne, hread, hfilled, hcompact, TableIter.loaded]

theorem BlockLoaded.emitsRow {s : TableScan} {blocks : List DataBlock} {k : ℕ} {b : DataBlock}
    {visible : List ℕ} {buffers : ScanBuffers} (h : s.BlockLoaded blocks k b visible buffers)
    (hb : blocks[k]? = some b) (hin : ∀ id ∈ visible, InBlock blocks k id) {j id : ℕ}
    (hj : visible[j]? = some id) :
    ∃ e, buffers.slots.getD j none = some e ∧ s.EmitsRow blocks id (e, buffers.shadowed[j]?) := by
  obtain ⟨hlt, hget⟩ := List.getElem?_eq_some_iff.1 hj
  have hin' := hin id (List.mem_of_getElem? hj)
  have hrow : id < (tableRows blocks).length := by
    have hk := (List.getElem?_eq_some_iff.1 hb).1
    have := rowsBefore_mono blocks (show k + 1 ≤ blocks.length by omega)
    rw [rowsBefore_length] at this
    exact lt_of_lt_of_le hin'.2 this
  refine ⟨(tableRows blocks)[id], ?_, List.getElem?_eq_getElem hrow, fun ht => ?_⟩
  · rw [getD_of_take_eq h.slots none hlt, List.getD_eq_getElem _ _ hlt, hget,
      List.getElem?_eq_getElem hrow]
  · refine ⟨k, b, hb, hin', ?_⟩
    have hflag := congrArg (·[j]?) (h.shadowed ht)
    simpa only [List.getElem?_take, hlt, if_true, List.getElem?_map, hj, Option.map_some]
      using hflag

theorem load_yields {s : TableScan} {blocks : List DataBlock} (hs : s.Describes blocks)
    (hrows : (tableRows blocks).length < 2 ^ 32) (hfull : ∀ b ∈ blocks, b.entries ≠ [])
    (heval : s.Evaluates blocks) {targets ts : List TargetBlock} {ids : List ℕ}
    (hgroups : s.Groups blocks ids ts) (hsorted : ids.Pairwise (· < ·)) {it : TableIter}
    (hids : it.ids = ids) (hdrop : targets.drop it.visited = ts)
    (hcount : it.visited + ts.length < 2 ^ 31) :
    ∃ it' rows final, s.loadNextBlock ts it = some it' ∧
      (s.cursor targets).Yields it' rows final ∧
      List.Forall₂ (s.EmitsRow blocks) (ids.filter fun id => s.shows (tableRows blocks)[id]?) rows ∧
      final.status = it.status ∧ final.reads = it.reads ++ ts.map TargetBlock.handle := by
  induction hgroups generalizing it with
  | nil =>
      refine ⟨{ it with visited := it.visited + 1, valid := false }, [], _, ?_, .done rfl, .nil,
        rfl, by simp⟩
      rw [loadNextBlock, if_pos (by simpa using hcount)]
  | @cons k b handle pre post ts hb hhandle hne hin hpost _ ih =>
      obtain ⟨hk, -⟩ := List.getElem?_eq_some_iff.1 hb
      rw [List.length_cons] at hcount
      rw [List.pairwise_append] at hsorted
      have hidx : (UInt32.ofNat k).toNat = k := by
        have hle := le_rowsBefore hfull hk.le
        have := rowsBefore_mono blocks hk.le
        rw [rowsBefore_length] at this
        rw [UInt32.toNat_ofNat', Nat.mod_eq_of_lt (by omega)]
      have hlocal : localIndexes (rowsBefore blocks k) (rowsBefore blocks (k + 1)) it.ids =
          (pre.map (· - rowsBefore blocks k), post) := by
        rw [hids]
        exact localIndexes_eq hin hpost
      obtain ⟨filled, buffers, hfilled, hcompact, hloaded⟩ :=
        block_loaded hs heval hb hsorted.1 hin it.buffers
      have hload := @loadNextBlock_cons s it ⟨UInt32.ofNat k, handle⟩ ts
        (rowsBefore blocks k) (rowsBefore blocks (k + 1)) _ _ post b filled buffers (by omega)
        (by rw [hidx]; exact blockBounds_eq hs hrows hk) hlocal (by simpa using hne)
        (hs.reads k handle b hhandle hb) hfilled (by rw [List.length_map]; exact hcompact)
      rw [hload, List.filter_append]
      have hdrop' : targets.drop (it.visited + 1) = ts := by
        rw [← List.drop_drop, hdrop, List.drop_one, List.tail_cons]
      have hvisibleIn : ∀ id ∈ pre.filter fun id => s.shows (tableRows blocks)[id]?,
          InBlock blocks k id := fun id hid => hin id (List.mem_of_mem_filter hid)
      generalize pre.filter (fun id => s.shows (tableRows blocks)[id]?) = visible
        at hloaded hvisibleIn ⊢
      by_cases hvisible : 0 < visible.length
      · -- the iterator stops on this block; the blocks behind are loaded by `next`
        obtain ⟨it', rows, final, hrest, hyields, hemits, hstatus, hreads⟩ := @ih hsorted.2.1
          { TableIter.loaded it handle post visible.length buffers with
            bufferIdx := visible.length, valid := false } rfl hdrop'
          (by show it.visited + 1 + ts.length < _; omega)
        obtain ⟨front, hfront, hall⟩ := @buffer_yields s blocks targets
          { TableIter.loaded it handle post visible.length buffers with
              bufferIdx := 0, valid := true }
          it' final visible rows rfl rfl (fun j id hj => hloaded.emitsRow hb hvisibleIn hj)
          (by
            show s.loadNextBlock (targets.drop (it.visited + 1)) _ = _
            rw [hdrop']
            exact hrest)
          hyields (visible.length - 1) 0 (by omega)
        refine ⟨_, front ++ rows, final, if_pos hvisible, hall, ?_, hstatus, ?_⟩
        · exact List.rel_append hfront hemits
        · rw [hreads, List.map_cons]
          simp [TableIter.loaded]
      · obtain rfl : visible = [] := List.length_eq_zero_iff.1 (by omega)
        obtain ⟨it', rows, final, hrest, hyields, hemits, hstatus, hreads⟩ := @ih hsorted.2.1
          (TableIter.loaded it handle post 0 buffers) rfl hdrop'
          (by show it.visited + 1 + ts.length < _; omega)
        refine ⟨it', rows, final, by rw [if_neg hvisible]; exact hrest, hyields, hemits,
            hstatus, ?_⟩
        rw [hreads, List.map_cons]
        simp [TableIter.loaded]

/-! ### The whole scan -/

instance decidableInBlock (blocks : List DataBlock) (k id : ℕ) : Decidable (InBlock blocks k id) :=
  inferInstanceAs (Decidable (_ ∧ _))

/-- The blocks that hold one of the rows, in file order. -/
def blocksHolding (blocks : List DataBlock) (ids : List ℕ) : List ℕ :=
  (List.range blocks.length).filter fun k => ∃ id ∈ ids, InBlock blocks k id

theorem Groups.handles_eq {s : TableScan} {blocks : List DataBlock} {ids : List ℕ}
    {ts : List TargetBlock} (h : s.Groups blocks ids ts) {m n : ℕ} (hmn : m + n = blocks.length)
    (hids : ∀ id ∈ ids, rowsBefore blocks m ≤ id) :
    ts.map TargetBlock.handle =
      ((List.range' m n).filter fun k => ∃ id ∈ ids, InBlock blocks k id).filterMap
        fun k => s.blockHandles[k]? := by
  induction h generalizing m n with
  | nil => simp
  | @cons k b handle pre post ts hb hhandle hne hin hpost _ ih =>
      obtain ⟨hk, -⟩ := List.getElem?_eq_some_iff.1 hb
      obtain ⟨id, hid⟩ := List.exists_mem_of_ne_nil pre hne
      have hmk : m ≤ k := by
        by_contra hlt
        have := rowsBefore_mono blocks (show k + 1 ≤ m by omega)
        have := hids id (by simp [hid])
        have := (hin id hid).2
        omega
      have hrange : List.range' m n =
          List.range' m (k - m) ++ k :: List.range' (k + 1) (blocks.length - (k + 1)) := by
        have hsucc : List.range' k (blocks.length - (k + 1) + 1) =
            k :: List.range' (k + 1) (blocks.length - (k + 1)) := List.range'_succ
        have happend := @List.range'_append_1 m (k - m) (blocks.length - (k + 1) + 1)
        rw [show m + (k - m) = k by omega] at happend
        rw [← hsucc, happend]
        congr 1
        omega
      have hbefore : ((List.range' m (k - m)).filter
          fun j => ∃ id ∈ pre ++ post, InBlock blocks j id) = [] := by
        rw [List.filter_eq_nil_iff]
        intro j hj
        obtain ⟨-, hjk⟩ := List.mem_range'_1.1 hj
        rw [decide_eq_true_eq]
        rintro ⟨id', hmem, hin'⟩
        have hmono := rowsBefore_mono blocks (show j + 1 ≤ k by omega)
        have hle : rowsBefore blocks k ≤ id' := by
          rcases List.mem_append.1 hmem with hpre | hmem
          · exact (hin id' hpre).1
          · exact (rowsBefore_le_succ blocks k).trans (hpost id' hmem)
        have := hin'.2
        omega
      have hafter : ((List.range' (k + 1) (blocks.length - (k + 1))).filter
            fun j => ∃ id ∈ pre ++ post, InBlock blocks j id) =
          (List.range' (k + 1) (blocks.length - (k + 1))).filter
            fun j => ∃ id ∈ post, InBlock blocks j id := by
        refine List.filter_congr fun j hj => decide_eq_decide.2 ?_
        obtain ⟨hkj, -⟩ := List.mem_range'_1.1 hj
        constructor
        · rintro ⟨id', hmem, hin'⟩
          refine ⟨id', (List.mem_append.1 hmem).resolve_left fun hpre => ?_, hin'⟩
          have hmono := rowsBefore_mono blocks hkj
          have := (hin id' hpre).2
          have := hin'.1
          omega
        · rintro ⟨id', hmem, hin'⟩
          exact ⟨id', List.mem_append_right _ hmem, hin'⟩
      have hself : (∃ id ∈ pre ++ post, InBlock blocks k id) := ⟨id, by simp [hid], hin id hid⟩
      rw [hrange, List.filter_append, hbefore, List.nil_append,
        List.filter_cons_of_pos (by simpa using hself), hafter, List.filterMap_cons_some hhandle,
        List.map_cons, ih (show k + 1 + (blocks.length - (k + 1)) = _ by omega) hpost]

/-- The predecessor that was seen is in the same block, so it is the row in
front. -/
theorem predecessor_of_shadowOf {blocks : List DataBlock} {interval k id : ℕ} {b : DataBlock}
    {e : Entry} (hb : blocks[k]? = some b) (hinterval : b.SeekableBy interval)
    (hin : InBlock blocks k id) (he : (tableRows blocks)[id]? = some e)
    (hflag : b.shadowOf interval (id - rowsBefore blocks k) = false) :
    ∃ i p, (tableRows blocks)[i]? = some p ∧ (tableRows blocks)[i + 1]? = some e ∧
      p.userKey ≠ e.userKey := by
  have hland : b.landing interval (id - rowsBefore blocks k) = id - rowsBefore blocks k := by
    obtain ⟨hle, hlt⟩ := hin
    rw [rowsBefore_succ hb] at hlt
    exact hinterval.landing_eq (by omega)
  obtain ⟨hpos, p, e', hp, he', hne⟩ := DataBlock.exists_of_shadowOf hflag
  rw [hland] at hp he'
  have hfirst : 0 < id - rowsBefore blocks k := by
    have := Nat.mod_le (id - rowsBefore blocks k) interval
    omega
  have hlt := (List.getElem?_eq_some_iff.1 he').1
  have hself := getElem?_tableRows hb hlt
  rw [show rowsBefore blocks k + (id - rowsBefore blocks k) = id by omega, he, he'] at hself
  refine ⟨id - 1, p, ?_, ?_, Option.some.inj hself ▸ hne⟩
  · rw [← hp, ← getElem?_tableRows hb (by omega)]
    congr 1
    omega
  · rw [Nat.sub_add_cancel (by omega), he]

theorem EmitsRow.predecessor {s : TableScan} {blocks : List DataBlock} (hs : s.Describes blocks)
    (ht : s.track = true) {id : ℕ} {out : Entry × Option Bool} (h : s.EmitsRow blocks id out)
    (hflag : out.2 = some false) :
    ∃ i p, (tableRows blocks)[i]? = some p ∧ (tableRows blocks)[i + 1]? = some out.1 ∧
      p.userKey ≠ out.1.userKey := by
  obtain ⟨k, b, hb, hin, hout⟩ := h.flag ht
  exact predecessor_of_shadowOf hb (hs.interval b (List.mem_of_getElem? hb)) hin h.row
    (Option.some.inj (hout.symm.trans hflag))

/-- What the scan is for: rows of the snapshot that are not deleted and that
the query accepts. -/
def visible (s : TableScan) (e : Entry) : Bool :=
  decide (e.seqno ≤ s.readSeqno) && decide (e.type ≠ .deletion) &&
    decide (e.type ≠ .singleDeletion) && s.compiled.all fun cq => cq.eval e.value == some true

theorem shows_some (s : TableScan) (e : Entry) : s.shows (some e) = s.visible e := by
  rw [shows, rowPasses, visible]
  by_cases hseqno : s.readSeqno < e.seqno
  · have hle : ¬e.seqno ≤ s.readSeqno := UInt64.not_le.2 hseqno
    simp [hseqno, hle]
  · have hle : e.seqno ≤ s.readSeqno := UInt64.not_lt.1 hseqno
    cases htype : e.type <;> cases hcq : s.compiled <;> simp [hseqno, hle]

/-- A whole scan, from `it` to its end in `final`. -/
structure ScansTable (s : TableScan) (blocks : List DataBlock) (it : TableIter)
    (rows : List (Entry × Option Bool)) (final : TableIter) : Prop where
  /-- The visible rows at the bitmap's row ids, in ascending order. -/
  rows_eq : rows.map Prod.fst =
    (s.bitmap.toUint32Array.filterMap fun id => (tableRows blocks)[id]?).filter s.visible
  /-- Each block that holds one of the rows is read once, in file order. -/
  reads : final.reads = it.reads ++
    (blocksHolding blocks s.bitmap.toUint32Array).filterMap fun k => s.blockHandles[k]?
  status : final.status = .ok
  notShadowed : s.track = true → SortedByInternalKey (tableRows blocks) →
    ∀ row ∈ rows, row.2 = some false →
      ∀ e ∈ tableRows blocks, e.userKey = row.1.userKey → e.seqno ≤ row.1.seqno

theorem rows_of_emits {s : TableScan} {blocks : List DataBlock} {ids : List ℕ}
    {rows : List (Entry × Option Bool)} (hids : ∀ id ∈ ids, id < (tableRows blocks).length)
    (h : List.Forall₂ (s.EmitsRow blocks)
      (ids.filter fun id => s.shows (tableRows blocks)[id]?) rows) :
    rows.map Prod.fst = (ids.filterMap fun id => (tableRows blocks)[id]?).filter s.visible := by
  induction ids generalizing rows with
  | nil => cases h; rfl
  | cons id ids ih =>
      rw [List.forall_mem_cons] at hids
      have hrow := List.getElem?_eq_getElem hids.1
      rw [List.filterMap_cons_some hrow]
      have hshows : s.shows (tableRows blocks)[id]? = s.visible (tableRows blocks)[id] := by
        rw [hrow, shows_some]
      cases hvisible : s.visible (tableRows blocks)[id] with
      | false =>
          rw [List.filter_cons_of_neg (by rw [hshows, hvisible]; decide)] at h
          rw [List.filter_cons_of_neg (by rw [hvisible]; decide), ih hids.2 h]
      | true =>
          rw [List.filter_cons_of_pos (by rw [hshows, hvisible])] at h
          cases h with
          | cons hrow' hrest =>
              rw [List.filter_cons_of_pos hvisible, List.map_cons, ih hids.2 hrest,
                ← Option.some.inj (hrow'.row.symm.trans hrow)]

section Seek

variable {s : TableScan} {blocks : List DataBlock} (hs : s.Describes blocks)
  (hrows : (tableRows blocks).length < 2 ^ 32) (hfull : ∀ b ∈ blocks, b.entries ≠ [])
  (heval : s.Evaluates blocks) (hbitmap : ∀ id ∈ s.bitmap, id < (tableRows blocks).length)
  (hcount : (blocksHolding blocks s.bitmap.toUint32Array).length < 2 ^ 31)
include hs hrows hfull heval hbitmap hcount

theorem seek_emits : ∃ targets, s.targetBlocks = some targets ∧
    ∀ it : TableIter, it.status = .ok → ∃ it' rows final, s.seekToFirst targets it = some it' ∧
      (s.cursor targets).Yields it' rows final ∧
      List.Forall₂ (s.EmitsRow blocks)
        (s.bitmap.toUint32Array.filter fun id => s.shows (tableRows blocks)[id]?) rows ∧
      final.status = .ok ∧ final.reads = it.reads ++
        (blocksHolding blocks s.bitmap.toUint32Array).filterMap fun k => s.blockHandles[k]? := by
  have hids : ∀ id ∈ s.bitmap.toUint32Array, id < (tableRows blocks).length := fun id hid =>
    hbitmap id (Roaring.mem_toUint32Array.1 hid)
  have hsorted := s.bitmap.pairwise_toUint32Array
  obtain ⟨targets, htargets, hgroups⟩ := @exists_targets s blocks hs hrows _ hsorted hids none 0
    (fun id _ => Nat.zero_le id) (by simp)
  have hhandles := hgroups.handles_eq (Nat.zero_add _) fun id _ => Nat.zero_le id
  rw [← List.range_eq_range'] at hhandles
  have hlen : targets.length < 2 ^ 31 := by
    have := congrArg List.length hhandles
    rw [List.length_map] at this
    rw [this]
    exact lt_of_le_of_lt (List.length_filterMap_le _ _) hcount
  refine ⟨targets, htargets, fun it hok => ?_⟩
  obtain ⟨it', rows, final, hload, hyields, hemits, hstatus, hreads⟩ :=
    @load_yields s blocks hs hrows hfull heval targets targets _ hgroups hsorted
      { it with visited := 0, bufferIdx := 0, bufferCount := 0, ids := s.bitmap.toUint32Array }
      rfl rfl (by simpa using hlen)
  refine ⟨it', rows, final, ?_, hyields, hemits, hstatus.trans hok, ?_⟩
  · rw [seekToFirst, if_neg (not_not.2 hok), hload]
  · rw [hreads, hhandles]
    rfl

theorem seekToFirst_yields : ∃ targets, s.targetBlocks = some targets ∧
    ∀ it : TableIter, it.status = .ok → ∃ it' rows final, s.seekToFirst targets it = some it' ∧
      (s.cursor targets).Yields it' rows final ∧ s.ScansTable blocks it rows final := by
  have hids : ∀ id ∈ s.bitmap.toUint32Array, id < (tableRows blocks).length := fun id hid =>
    hbitmap id (Roaring.mem_toUint32Array.1 hid)
  obtain ⟨targets, htargets, hscan⟩ := seek_emits hs hrows hfull heval hbitmap hcount
  refine ⟨targets, htargets, fun it hok => ?_⟩
  obtain ⟨it', rows, final, hseek, hyields, hemits, hstatus, hreads⟩ := hscan it hok
  refine ⟨it', rows, final, hseek, hyields, rows_of_emits hids hemits, hreads, hstatus, ?_⟩
  intro ht hfile row hrow hflag
  obtain ⟨j, hj, rfl⟩ := List.getElem_of_mem hrow
  have hemit := hemits.get (hemits.length_eq.symm ▸ hj) hj
  obtain ⟨i, p, hp, he, hne⟩ := EmitsRow.predecessor hs ht hemit hflag
  exact hfile.no_newer hp he hne

end Seek

/-- The block behind `DataBlock.fourRows`. -/
def twoRows : DataBlock where
  entries := [⟨[3], 5, .deletion, []⟩, ⟨[4], 2, .value, [14]⟩]
  restartInterval := 2
  interval_pos := Nat.two_pos
  length_lt := by decide

def twoBlockScan : TableScan where
  dataEntriesCntPsum := [4, 6]
  blockHandles := [(0, 40), (40, 20)]
  interval := 2
  bitmap := {1, 2, 4, 5}
  compiled := none
  track := true
  readSeqno := 8
  readBlock handle := .ok (if handle = (0, 40) then DataBlock.fourRows else twoRows)

theorem twoBlockScan_describes : twoBlockScan.Describes [DataBlock.fourRows, twoRows] where
  psum := ⟨[(0, 40), (40, 20)], rfl, rfl⟩
  handles := rfl
  reads k handle b hhandle hb := by
    obtain _ | _ | k := k
    · cases hhandle
      cases hb
      rfl
    · cases hhandle
      cases hb
      rfl
    · simp at hb
  interval := List.forall_mem_cons.2 ⟨Or.inl rfl, List.forall_mem_singleton.2 (Or.inl rfl)⟩

theorem seekToFirst_yields_twoBlocks : ∃ targets it' rows final,
    twoBlockScan.targetBlocks = some targets ∧ twoBlockScan.seekToFirst targets {} = some it' ∧
      (twoBlockScan.cursor targets).Yields it' rows final ∧ rows.map Prod.fst =
        [⟨[1], 4, .value, [11]⟩, ⟨[2], 7, .value, [12]⟩, ⟨[4], 2, .value, [14]⟩] := by
  obtain ⟨targets, htargets, hscan⟩ := seekToFirst_yields twoBlockScan_describes (by decide)
    (by decide) (by unfold Evaluates; decide) (by decide) (by decide)
  obtain ⟨it', rows, final, hseek, hyields, htable⟩ := hscan {} rfl
  exact ⟨targets, it', rows, final, htargets, hseek, hyields, htable.rows_eq.trans (by decide)⟩

/-! ### More than `2 ^ 32` rows -/

section Wrapped

def numberedRow (i : ℕ) : Entry := ⟨Wire.beBytes 8 i, 1, .value, []⟩

variable {n : ℕ} (hn : n < 2 ^ 30)

/-- Rows `k * n` up to `(k + 1) * n` of a numbered table. -/
def numberedBlock (k : ℕ) : DataBlock where
  entries := (List.range n).map fun j => numberedRow (k * n + j)
  restartInterval := 16
  interval_pos := by decide
  length_lt := by simpa using hn

def numberedBlocks : List DataBlock := (List.range 16).map (numberedBlock hn)

/-- Only row `15 * n + 3` is selected. -/
def numberedScan : TableScan where
  dataEntriesCntPsum := (List.range 16).map fun k => UInt32.ofNat ((k + 1) * n)
  blockHandles := (List.range 16).map fun k => (UInt64.ofNat k, 1)
  interval := 16
  bitmap := {15 * n + 3}
  compiled := none
  track := true
  readSeqno := 1
  readBlock handle := .ok (numberedBlock hn handle.1.toNat)

theorem rowsBefore_numbered {k : ℕ} (hk : k ≤ 16) :
    rowsBefore (numberedBlocks hn) k = k * n := by
  have htake : (numberedBlocks hn).take k = (List.range k).map (numberedBlock hn) := by
    rw [numberedBlocks, ← List.map_take, List.take_range, min_eq_left hk]
  rw [rowsBefore, htake, List.map_map]
  simp [Function.comp_def, numberedBlock]

theorem numberedScan_describes : (numberedScan hn).Describes (numberedBlocks hn) where
  psum := by
    refine ⟨(List.range 16).map fun k => (UInt64.ofNat k, 1), by simp [numberedBlocks], ?_⟩
    have hlen : (numberedBlocks hn).length = 16 := by simp [numberedBlocks]
    rw [psum_tableLayout (by simp [hlen]), hlen]
    refine List.map_congr_left fun k hk => ?_
    rw [rowsBefore_numbered hn (List.mem_range.1 hk)]
  handles := by simp [numberedScan, numberedBlocks]
  reads k handle b hhandle hb := by
    have hk : k < 16 := by
      simpa [numberedBlocks] using (List.getElem?_eq_some_iff.1 hb).1
    rw [numberedBlocks, List.getElem?_map, List.getElem?_range hk] at hb
    rw [numberedScan, List.getElem?_map, List.getElem?_range hk] at hhandle
    cases hb
    cases hhandle
    show Except.ok (numberedBlock hn (UInt64.ofNat k).toNat) = _
    rw [UInt64.toNat_ofNat', Nat.mod_eq_of_lt (by omega)]
  interval := by simp [numberedBlocks, numberedBlock, numberedScan, DataBlock.SeekableBy]

theorem tableRows_numbered :
    tableRows (numberedBlocks hn) = (List.range (16 * n)).map numberedRow := by
  have h (m : ℕ) : tableRows ((List.range m).map (numberedBlock hn)) =
      (List.range (m * n)).map numberedRow := by
    induction m with
    | zero => simp [tableRows]
    | succ m ih =>
        rw [List.range_succ, List.map_append, tableRows, List.flatMap_append, ← tableRows, ih,
          Nat.add_mul, Nat.one_mul, List.range_add, List.map_append]
        simp [numberedBlock, Function.comp_def]
  exact h 16

theorem sorted_numbered : SortedByInternalKey (tableRows (numberedBlocks hn)) := by
  rw [tableRows_numbered, SortedByInternalKey, List.pairwise_map]
  refine List.pairwise_lt_range.imp_of_mem fun {i j} _ hj hij => Or.inl ?_
  have hj := List.mem_range.1 hj
  exact Wire.beBytes_lt_of_lt (by omega) hij

theorem toUint32Array_singleton (x : ℕ) : Roaring.toUint32Array {x} = [x] := by
  rw [Roaring.toUint32Array, Finset.sup_singleton, id_eq, List.range_succ, List.filter_append]
  have hnone : (List.range x).filter (fun j => j ∈ ({x} : Roaring)) = [] := by
    rw [List.filter_eq_nil_iff]
    intro j hj
    have := List.mem_range.1 hj
    simp
    omega
  rw [hnone]
  simp

/-- The last prefix sum is `2 ^ 32` and wraps to zero, so no block is found for
the last rows. -/
theorem targetBlocks_numbered (h : n = 2 ^ 28) : (numberedScan hn).targetBlocks = some [] := by
  have hend : (numberedScan hn).upperBound 0 (15 * n + 3) = 16 := by
    show 0 + BinarySearch.search (fun i =>
      decide ((((List.range 16).map fun k => UInt32.ofNat ((k + 1) * n)).getD (0 + i) 0).toNat ≤
        15 * n + 3)) 16 = 16
    rw [h]
    decide
  have hids : (numberedScan hn).bitmap.toUint32Array = [15 * n + 3] := toUint32Array_singleton _
  rw [targetBlocks, hids, targetsFrom, hend, if_neg (by simp [numberedScan])]
  rfl

end Wrapped

theorem seekToFirst_misses_row : ∃ (s : TableScan) (blocks : List DataBlock), s.Describes blocks ∧
    (∀ b ∈ blocks, b.entries ≠ []) ∧ SortedByInternalKey (tableRows blocks) ∧
    s.Evaluates blocks ∧ (∀ id ∈ s.bitmap, id < (tableRows blocks).length) ∧
    (∃ id ∈ s.bitmap, ∃ e, (tableRows blocks)[id]? = some e ∧ s.visible e = true) ∧
    s.targetBlocks = some [] ∧
    ∀ it, ∃ it', s.seekToFirst [] it = some it' ∧ (s.cursor []).Yields it' [] it' := by
  obtain ⟨n, hsize⟩ : ∃ n, n = 2 ^ 28 := ⟨_, rfl⟩
  have hn : n < 2 ^ 30 := by omega
  have hlen : (tableRows (numberedBlocks hn)).length = 16 * n := by
    rw [tableRows_numbered, List.length_map, List.length_range]
  refine ⟨numberedScan hn, numberedBlocks hn, numberedScan_describes hn, ?_, sorted_numbered hn,
    ?_, ?_, ?_, targetBlocks_numbered hn hsize, ?_⟩
  · intro b hb
    obtain ⟨k, -, rfl⟩ := List.mem_map.1 hb
    have hpos : n ≠ 0 := by omega
    simpa [numberedBlock] using hpos
  · intro e _
    rw [rowPasses]
    split
    · rfl
    · split <;> rfl
  · intro id hid
    rw [hlen, Finset.mem_singleton.1 hid]
    omega
  · refine ⟨15 * n + 3, Finset.mem_singleton_self _, numberedRow (15 * n + 3), ?_, ?_⟩
    · rw [tableRows_numbered, List.getElem?_map, List.getElem?_range (by omega), Option.map_some]
    · rw [visible]
      rfl
  · intro it
    by_cases hok : it.status = .ok
    · exact ⟨_, by rw [seekToFirst, if_neg (not_not.2 hok)]; rfl, .done rfl⟩
    · exact ⟨_, by rw [seekToFirst, if_pos hok], .done rfl⟩

end TableScan

end BitLSM
