import BitLSM.Builder.Build

/-!
Rows of a data block by position.

A block is a run of entries with a restart point at every
`restartInterval`-th of them; the iterator can be put on a restart point and
moved forward from there. `getAllByIndexesFromDataBlock` turns a position
into a restart point and a number of hops with the interval configured when
the table is opened, which need not be the one the block was written with.
`landing` is the entry it then reads.
-/

namespace BitLSM

open Wire

/-- An entry of a table: its internal key taken apart, and its value. -/
structure Entry where
  userKey : Bytes
  seqno : UInt64
  type : ValueType
  value : Bytes
  deriving DecidableEq, Repr

/-- Internal-key order: by user key, and the versions of a key from new to
old. -/
def SortedByInternalKey (rows : List Entry) : Prop :=
  rows.Pairwise fun a b => a.userKey < b.userKey ∨ a.userKey = b.userKey ∧ b.seqno ≤ a.seqno

/-- A data block as it was written. Offsets inside a block are 32 bits and an
entry takes four bytes at least, so there are fewer than `2 ^ 30` of them. -/
structure DataBlock where
  entries : List Entry
  restartInterval : ℕ
  interval_pos : 0 < restartInterval
  length_lt : entries.length < 2 ^ 30
  /-- Where RocksDB's iterator stands after a seek to a restart point. -/
  seekToRestartPoint : ℕ → Option ℕ := fun index =>
    if index * restartInterval < entries.length then some (index * restartInterval) else none
  seek_restart : ∀ index, index * restartInterval < entries.length →
    seekToRestartPoint index = some (index * restartInterval) := by exact fun _ h => if_pos h
  /-- Past the last restart point the iterator reads the block's trailer. -/
  seek_past : ∀ index, ¬index * restartInterval < entries.length →
    seekToRestartPoint index = none := by exact fun _ h => if_neg h

/-- Where the walk over a block stands. Position `entries.length` is the
iterator after the last entry. -/
structure BlockWalk where
  checkpoint : ℕ
  offset : ℕ
  pos : ℕ
  prevUserKey : Bytes

/-- No restart point is in use yet. -/
def BlockWalk.start (b : DataBlock) : BlockWalk := ⟨2 ^ 32 - 1, 0, b.entries.length, []⟩

namespace DataBlock

/-- The hops to the target offset, `n` of them left, and whether the target's
predecessor was seen. -/
def hops (b : DataBlock) (track : Bool) : ℕ → BlockWalk → BlockWalk × Bool
  | 0, w => (w, false)
  | n + 1, w =>
      match b.entries[w.pos]? with
      | none => (w, false)
      | some e =>
          let w' : BlockWalk := { w with offset := w.offset + 1, pos := w.pos + 1 }
          -- the last hop before the target
          if n = 0 then
            if track then ({ w' with prevUserKey := e.userKey }, true) else (w', false)
          else b.hops track n w'

/-- Move to the entry at position `index` of the block. -/
def moveTo (b : DataBlock) (interval : ℕ) (track : Bool) (w : BlockWalk) (index : ℕ) :
    Option (BlockWalk × Bool) :=
  if w.checkpoint = index / interval then
    some (b.hops track (index % interval - w.offset) w)
  else
    (b.seekToRestartPoint (index / interval)).map fun pos =>
      b.hops track (index % interval) { w with checkpoint := index / interval, offset := 0, pos }

end DataBlock

/-- The iterator's buffers, kept from block to block. An empty key slot is
`none`. -/
structure ScanBuffers where
  slots : List (Option Entry) := []
  shadowed : List Bool := []

/-- Grow a buffer to `n` slots; it never shrinks. -/
def growTo {α : Type} (x : α) (n : ℕ) (l : List α) : List α := l ++ List.replicate (n - l.length) x

/-- Fill slot `i` from where the walk stands. An entry is not shadowed only
when its predecessor was seen and has another user key; past the block's end
the slot keeps what it held. -/
def ScanBuffers.fill (buf : ScanBuffers) (b : DataBlock) (track : Bool) (i : ℕ)
    (w : BlockWalk) (prevKnown : Bool) : ScanBuffers :=
  match b.entries[w.pos]? with
  | some e =>
      { slots := buf.slots.set i (some e)
        shadowed :=
          if track then buf.shadowed.set i (!prevKnown || e.userKey == w.prevUserKey)
          else buf.shadowed }
  | none => { buf with shadowed := if track then buf.shadowed.set i true else buf.shadowed }

namespace DataBlock

/-- The loop over the positions, from slot `i` on. -/
def fillSlots (b : DataBlock) (interval : ℕ) (track : Bool) :
    ℕ → List ℕ → BlockWalk → ScanBuffers → Option ScanBuffers
  | _, [], _, buf => some buf
  | i, index :: rest, w, buf =>
      match b.moveTo interval track w index with
      | none => none
      | some (w', prevKnown) =>
          b.fillSlots interval track (i + 1) rest w' (buf.fill b track i w' prevKnown)

def getAllByIndexes (b : DataBlock) (interval : ℕ) (track : Bool) (indexes : List ℕ)
    (buf : ScanBuffers) : Option ScanBuffers :=
  b.fillSlots interval track 0 indexes (BlockWalk.start b)
    { slots := growTo none indexes.length buf.slots
      shadowed := if track then growTo false indexes.length buf.shadowed else buf.shadowed }

/-! ### Where a position lands -/

/-- The entry that is read for `index`. -/
def landing (b : DataBlock) (interval index : ℕ) : ℕ :=
  index / interval * b.restartInterval + index % interval

section Walk

variable {b : DataBlock} {interval : ℕ} (track : Bool)

theorem hops_spec (n : ℕ) (w : BlockWalk) (hpos : w.pos ≤ b.entries.length) :
    (b.hops track n w).1.checkpoint = w.checkpoint ∧
    (b.hops track n w).1.pos = min b.entries.length (w.pos + n) ∧
    (b.hops track n w).1.offset + w.pos = w.offset + (b.hops track n w).1.pos ∧
    (w.pos + n < b.entries.length → (b.hops track n w).2 = (track && decide (0 < n)) ∧
      (track = true → 0 < n → b.entries[w.pos + n - 1]?.map Entry.userKey =
        some (b.hops track n w).1.prevUserKey)) := by
  induction n generalizing w with
  | zero => simp [hops, hpos]
  | succ n ih =>
      cases he : b.entries[w.pos]? with
      | none =>
          rw [List.getElem?_eq_none_iff] at he
          have heq : b.hops track (n + 1) w = (w, false) := by
            rw [hops, List.getElem?_eq_none he]
          rw [heq]
          refine ⟨rfl, ?_, rfl, fun hlt => ?_⟩
          · show w.pos = _
            omega
          · omega
      | some e =>
          obtain ⟨hlt, -⟩ := List.getElem?_eq_some_iff.1 he
          by_cases hn : n = 0
          · subst hn
            cases track with
            | true =>
                simp only [hops, he, if_true]
                refine ⟨trivial, by omega, by omega, fun hlast => ⟨rfl, fun _ _ => ?_⟩⟩
                rw [Nat.zero_add, Nat.add_sub_cancel, he]
                rfl
            | false =>
                simp only [hops, he, if_true, Bool.false_eq_true, if_false]
                exact ⟨trivial, by omega, by omega, fun _ => ⟨rfl, fun h => by cases h⟩⟩
          · have heq : b.hops track (n + 1) w =
                b.hops track n { w with offset := w.offset + 1, pos := w.pos + 1 } := by
              rw [hops, he]
              simp only [hn, if_false]
            rw [heq]
            obtain ⟨hc, hp, ho, hk⟩ :=
              ih { w with offset := w.offset + 1, pos := w.pos + 1 } (by simp only []; omega)
            simp only [] at hc hp ho hk
            refine ⟨hc, by omega, by omega, fun hlast => ?_⟩
            obtain ⟨hknown, hprev⟩ := hk (by omega)
            refine ⟨?_, fun ht _ => ?_⟩
            · rw [hknown]
              simp [Nat.pos_of_ne_zero hn]
            · rw [← hprev ht (Nat.pos_of_ne_zero hn)]
              congr 2
              omega

/-- The walk stands where `index` was read, or at the end of the block when
that is beyond it. -/
structure LandedAt (b : DataBlock) (interval index : ℕ) (w : BlockWalk) : Prop where
  checkpoint : w.checkpoint = index / interval
  restart_lt : index / interval * b.restartInterval < b.entries.length
  pos : w.pos = min b.entries.length (b.landing interval index)
  offset : w.pos = index / interval * b.restartInterval + w.offset

/-- The walk is at its start, or stands at a position before `index`. -/
def ReadyFor (b : DataBlock) (interval index : ℕ) (w : BlockWalk) : Prop :=
  w = BlockWalk.start b ∨ ∃ index' < index, b.LandedAt interval index' w

/-- What was seen of the predecessor on the way to `index`. -/
def SawPrev (b : DataBlock) (interval index : ℕ) (track : Bool) (w : BlockWalk) (known : Bool) :
    Prop :=
  b.landing interval index < b.entries.length →
    known = (track && decide (index % interval ≠ 0)) ∧
      (track = true → index % interval ≠ 0 →
        b.entries[b.landing interval index - 1]?.map Entry.userKey = some w.prevUserKey)

theorem moveTo_spec {w : BlockWalk} {index : ℕ} (hindex : index < b.entries.length)
    (hready : b.ReadyFor interval index w) :
    (b.moveTo interval track w index = none ∧
        b.entries.length ≤ index / interval * b.restartInterval) ∨
      ∃ w' known, b.moveTo interval track w index = some (w', known) ∧
        b.LandedAt interval index w' ∧ b.SawPrev interval index track w' known := by
  have hsentinel : 2 ^ 32 - 1 ≠ index / interval := by
    have := Nat.div_le_self index interval
    have := b.length_lt
    omega
  by_cases hsame : w.checkpoint = index / interval
  · -- a position behind the last one read, from the same restart point
    obtain ⟨index', hlt, hland⟩ : ∃ index' < index, b.LandedAt interval index' w := by
      rcases hready with rfl | h
      · exact absurd hsame hsentinel
      · exact h
    have hdiv : index' / interval = index / interval := hland.checkpoint.symm.trans hsame
    have hmod : index' % interval < index % interval := by
      have h₁ := Nat.div_add_mod index' interval
      have h₂ := Nat.div_add_mod index interval
      rw [hdiv] at h₁
      omega
    have hpos := hland.pos
    have hoff := hland.offset
    have hrestart := hland.restart_lt
    rw [landing, hdiv] at hpos
    rw [hdiv] at hoff hrestart
    have hle : w.offset ≤ index' % interval := by omega
    obtain ⟨hc, hp, ho, hk⟩ := hops_spec (b := b) track
      (index % interval - w.offset) w (by omega)
    refine Or.inr ⟨_, _, by rw [moveTo, if_pos hsame], ⟨hc.trans hsame, hrestart, ?_, ?_⟩, ?_⟩
    · rw [hp, landing]
      omega
    · omega
    · intro hlast
      have hsum : w.pos + (index % interval - w.offset) = b.landing interval index := by
        rw [landing]
        omega
      rw [hsum] at hk
      obtain ⟨hknown, hprev⟩ := hk hlast
      refine ⟨?_, fun ht hne => hprev ht (by omega)⟩
      rw [hknown]
      congr 1
      rw [decide_eq_decide]
      omega
  · by_cases hrestart : index / interval * b.restartInterval < b.entries.length
    · obtain ⟨hc, hp, ho, hk⟩ := hops_spec (b := b) track (index % interval)
        { w with
          checkpoint := index / interval
          offset := 0
          pos := index / interval * b.restartInterval } hrestart.le
      refine Or.inr ⟨_, _, by rw [moveTo, if_neg hsame, b.seek_restart _ hrestart]; rfl,
        ⟨hc, hrestart, hp, ?_⟩, ?_⟩
      · simp only [] at ho
        omega
      · intro hlast
        obtain ⟨hknown, hprev⟩ := hk hlast
        refine ⟨?_, fun ht hne => hprev ht (Nat.pos_of_ne_zero hne)⟩
        rw [hknown]
        simp [Nat.pos_iff_ne_zero]
    · refine Or.inl ⟨?_, by omega⟩
      rw [moveTo, if_neg hsame, b.seek_past _ hrestart]
      rfl

/-- The flag of the entry read for `index`. -/
def shadowOf (b : DataBlock) (interval index : ℕ) : Bool :=
  match b.entries[b.landing interval index]? with
  | none => true
  | some e => index % interval = 0 ||
      some e.userKey == b.entries[b.landing interval index - 1]?.map Entry.userKey

theorem LandedAt.getElem? {w : BlockWalk} {index : ℕ} (h : b.LandedAt interval index w) :
    b.entries[w.pos]? = b.entries[b.landing interval index]? := by
  rcases Nat.lt_or_ge (b.landing interval index) b.entries.length with hlt | hge
  · rw [h.pos, min_eq_right hlt.le]
  · rw [h.pos, min_eq_left hge, List.getElem?_eq_none le_rfl, List.getElem?_eq_none hge]

variable {track}

theorem LandedAt.fill {w : BlockWalk} {index i : ℕ} {known : Bool} {buf : ScanBuffers}
    (h : b.LandedAt interval index w) (hprev : b.SawPrev interval index track w known)
    (hslot : b.landing interval index < b.entries.length ∨ buf.slots[i]? = some none) :
    (buf.fill b track i w known).slots =
        buf.slots.set i (b.entries[b.landing interval index]?) ∧
      (buf.fill b track i w known).shadowed =
        if track then buf.shadowed.set i (b.shadowOf interval index) else buf.shadowed := by
  rw [ScanBuffers.fill, h.getElem?, shadowOf]
  cases he : b.entries[b.landing interval index]? with
  | none =>
      refine ⟨?_, rfl⟩
      have hnone : buf.slots[i]? = some none := by
        rw [List.getElem?_eq_none_iff] at he
        exact hslot.resolve_left (by omega)
      obtain ⟨hlt, hget⟩ := List.getElem?_eq_some_iff.1 hnone
      have hself := List.set_getElem_self hlt
      rw [hget] at hself
      exact hself.symm
  | some e =>
      refine ⟨rfl, ?_⟩
      obtain ⟨hlt, -⟩ := List.getElem?_eq_some_iff.1 he
      cases track with
      | false => rfl
      | true =>
          obtain ⟨rfl, hkey⟩ := hprev hlt
          by_cases hmod : index % interval = 0
          · simp [hmod]
          · rw [hkey rfl hmod]
            simp [hmod]

/-- Not shadowed: the entry in front of the one read has another user key. -/
theorem exists_of_shadowOf {index : ℕ} (h : b.shadowOf interval index = false) :
    0 < index % interval ∧ ∃ p e, b.entries[b.landing interval index - 1]? = some p ∧
      b.entries[b.landing interval index]? = some e ∧ p.userKey ≠ e.userKey := by
  rw [shadowOf] at h
  cases he : b.entries[b.landing interval index]? with
  | none => simp [he] at h
  | some e =>
      obtain ⟨hlt, -⟩ := List.getElem?_eq_some_iff.1 he
      have hprev : b.entries[b.landing interval index - 1]? = some _ :=
        List.getElem?_eq_getElem (by omega)
      rw [he, hprev] at h
      simp only [Option.map_some, Bool.or_eq_false_iff, decide_eq_false_iff_not,
          beq_eq_false_iff_ne,
        ne_eq, Option.some.injEq] at h
      exact ⟨Nat.pos_of_ne_zero h.1, _, e, hprev, rfl, fun heq => h.2 heq.symm⟩

/-- A run of slots overwritten one after another. -/
theorem take_set_append {α : Type} {l : List α} {i : ℕ} (hi : i < l.length) (x : α) (ys : List α)
    (n : ℕ) :
    (l.set i x).take (i + 1) ++ ys ++ (l.set i x).drop (i + 1 + n) =
      l.take i ++ x :: ys ++ l.drop (i + (n + 1)) := by
  have hset : l.set i x = l.take i ++ [x] ++ l.drop (i + 1) := by
    rw [List.set_eq_take_append_cons_drop, if_pos hi]
    simp
  have hlen : (l.take i ++ [x]).length = i + 1 := by
    rw [List.length_append, List.length_take_of_le hi.le, List.length_singleton]
  rw [hset, List.take_left' hlen, ← List.drop_drop, List.drop_left' hlen, List.drop_drop,
    Nat.add_assoc, Nat.add_comm 1 n]
  simp

theorem fillSlots_spec {indexes : List ℕ} {i : ℕ} {w : BlockWalk} {buf : ScanBuffers}
    (hsorted : indexes.Pairwise (· < ·)) (hindexes : ∀ index ∈ indexes, index < b.entries.length)
    (hready : ∀ index ∈ indexes, b.ReadyFor interval index w)
    (hrestart : ∀ index ∈ indexes, index / interval * b.restartInterval < b.entries.length)
    (hslots : ∀ (j : ℕ) index, indexes[j]? = some index →
      b.landing interval index < b.entries.length ∨ buf.slots[i + j]? = some none)
    (hroom : i + indexes.length ≤ buf.slots.length)
    (hshadow : track = true → i + indexes.length ≤ buf.shadowed.length) :
    ∃ out, b.fillSlots interval track i indexes w buf = some out ∧
      out.slots = buf.slots.take i ++ indexes.map
          (fun index => b.entries[b.landing interval index]?)
        ++ buf.slots.drop (i + indexes.length) ∧
      out.shadowed = if track then buf.shadowed.take i ++ indexes.map (b.shadowOf interval) ++
        buf.shadowed.drop (i + indexes.length) else buf.shadowed := by
  induction indexes generalizing i w buf with
  | nil =>
      refine ⟨buf, rfl, by simp, ?_⟩
      split <;> simp
  | cons index rest ih =>
      rw [List.pairwise_cons] at hsorted
      rw [List.forall_mem_cons] at hindexes hready hrestart
      rw [List.length_cons] at hroom hshadow ⊢
      obtain ⟨w', known, hmove, hland, hprev⟩ :=
        (moveTo_spec track hindexes.1 hready.1).resolve_left fun h => by omega
      obtain ⟨hfill, hfillShadow⟩ := hland.fill hprev (hslots 0 index rfl)
      rw [fillSlots, hmove]
      simp only []
      generalize buf.fill b track i w' known = buf' at hfill hfillShadow
      obtain ⟨out, hout, hslots', hshadow'⟩ := @ih (i + 1) w' buf' hsorted.2
        hindexes.2 (fun index' h => Or.inr ⟨index, hsorted.1 index' h, hland⟩) hrestart.2
        (fun j index' h => by
          rcases hslots (j + 1) index' h with hlt | hnone
          · exact Or.inl hlt
          · right
            rw [hfill, List.getElem?_set_ne (by omega), ← hnone]
            congr 1
            omega)
        (by rw [hfill, List.length_set]; omega)
        (fun ht => by
          subst ht
          have := hshadow rfl
          rw [hfillShadow, if_pos rfl, List.length_set]
          omega)
      refine ⟨out, hout, ?_, ?_⟩
      · rw [hslots', hfill, List.map_cons]
        exact take_set_append (by omega) _ _ _
      · rw [hshadow', hfillShadow]
        split
        · next ht =>
            rw [List.map_cons]
            exact take_set_append (by have := hshadow ht; omega) _ _ _
        · rfl

theorem fillSlots_eq_none {indexes : List ℕ} {i : ℕ} {w : BlockWalk} {buf : ScanBuffers}
    (hsorted : indexes.Pairwise (· < ·)) (hindexes : ∀ index ∈ indexes, index < b.entries.length)
    (hready : ∀ index ∈ indexes, b.ReadyFor interval index w)
    (h : ∃ index ∈ indexes, b.entries.length ≤ index / interval * b.restartInterval) :
    b.fillSlots interval track i indexes w buf = none := by
  induction indexes generalizing i w buf with
  | nil => simp at h
  | cons index rest ih =>
      rw [List.pairwise_cons] at hsorted
      rw [List.forall_mem_cons] at hindexes hready
      rw [fillSlots]
      rcases moveTo_spec track hindexes.1 hready.1 with
        ⟨hmove, -⟩ | ⟨w', known, hmove, hland, -⟩
      · rw [hmove]
      · rw [hmove]
        refine ih hsorted.2 hindexes.2
          (fun index' h' => Or.inr ⟨index, hsorted.1 index' h', hland⟩) ?_
        obtain ⟨index', hmem, hge⟩ := h
        rcases List.mem_cons.1 hmem with rfl | hmem
        · have := hland.restart_lt
          omega
        · exact ⟨index', hmem, hge⟩

end Walk

/-! ### Reading by position -/

theorem length_growTo {α : Type} (x : α) (n : ℕ) (l : List α) :
    (growTo x n l).length = max n l.length := by
  rw [growTo, List.length_append, List.length_replicate]
  omega

section Read

variable {b : DataBlock} {interval : ℕ} (track : Bool) {indexes : List ℕ}
  (hsorted : indexes.Pairwise (· < ·)) (hindexes : ∀ index ∈ indexes, index < b.entries.length)
include hsorted hindexes

/-- The slots that are read, when every position lands inside the block or in
an empty slot. -/
theorem getAllByIndexes_spec (buf : ScanBuffers)
    (hrestart : ∀ index ∈ indexes, index / interval * b.restartInterval < b.entries.length)
    (hslots : (∀ index ∈ indexes, b.landing interval index < b.entries.length) ∨ buf.slots = []) :
    ∃ out, b.getAllByIndexes interval track indexes buf = some out ∧
      out.slots.take indexes.length =
        indexes.map (fun index => b.entries[b.landing interval index]?) ∧
      (track = true → out.shadowed.take indexes.length = indexes.map (b.shadowOf interval)) := by
  obtain ⟨out, hout, houtSlots, houtShadow⟩ := @fillSlots_spec b interval track indexes 0
    (BlockWalk.start b)
    { slots := growTo none indexes.length buf.slots
      shadowed := if track then growTo false indexes.length buf.shadowed else buf.shadowed }
    hsorted hindexes (fun _ _ => Or.inl rfl) hrestart
    (fun j index h => by
      rcases hslots with hlt | hnil
      · exact Or.inl (hlt index (List.mem_of_getElem? h))
      · right
        obtain ⟨hj, -⟩ := List.getElem?_eq_some_iff.1 h
        simp [hnil, growTo, hj])
    (by simp only [length_growTo]; omega)
    (fun ht => by
      subst ht
      simp only [if_true, length_growTo]
      omega)
  refine ⟨out, hout, ?_, fun ht => ?_⟩
  · rw [houtSlots, List.take_zero, List.nil_append, List.take_left' (List.length_map _)]
  · subst ht
    rw [houtShadow, if_pos rfl, List.take_zero, List.nil_append,
      List.take_left' (List.length_map _)]

theorem getAllByIndexes_eq_none {buf : ScanBuffers}
    (h : ∃ index ∈ indexes, b.entries.length ≤ index / interval * b.restartInterval) :
    b.getAllByIndexes interval track indexes buf = none :=
  fillSlots_eq_none hsorted hindexes (fun _ _ => Or.inl rfl) h

end Read

/-- Slot `j` holds the entry at the `j`-th position, and is flagged not
shadowed only when the entry in front of it has another user key. -/
structure ReadsExactly (b : DataBlock) (track : Bool) (indexes : List ℕ) (out : ScanBuffers) :
    Prop where
  rows : ∀ (j : ℕ) index, indexes[j]? = some index →
    ∃ e, b.entries[index]? = some e ∧ out.slots[j]? = some (some e)
  notShadowed : track = true → ∀ (j : ℕ) index, indexes[j]? = some index →
    out.shadowed[j]? = some false → ∃ p e, 0 < index ∧ b.entries[index - 1]? = some p ∧
      b.entries[index]? = some e ∧ p.userKey ≠ e.userKey

theorem landing_eq_iff {b : DataBlock} {interval index : ℕ} :
    b.landing interval index = index ↔
      index / interval = 0 ∨ b.restartInterval = interval := by
  have hdiv := Nat.div_add_mod index interval
  rw [landing, Nat.mul_comm _ b.restartInterval]
  constructor
  · intro h
    rcases Nat.eq_zero_or_pos (index / interval) with hzero | hpos
    · exact Or.inl hzero
    · right
      exact Nat.eq_of_mul_eq_mul_right hpos (by omega)
  · rintro (hzero | heq)
    · rw [hzero] at hdiv ⊢
      omega
    · rw [heq]
      omega

/-- Every entry is found from its restart point: the block was written with the
configured interval, or it has no more entries than that. -/
def SeekableBy (b : DataBlock) (interval : ℕ) : Prop :=
  b.restartInterval = interval ∨ b.entries.length ≤ interval

theorem SeekableBy.landing_eq {b : DataBlock} {interval index : ℕ} (h : b.SeekableBy interval)
    (hindex : index < b.entries.length) : b.landing interval index = index :=
  landing_eq_iff.2 (h.symm.imp_left fun hle => Nat.div_eq_of_lt (hindex.trans_le hle))

theorem getAllByIndexes_exact_iff {b : DataBlock} {interval : ℕ} {indexes : List ℕ} (track : Bool)
    (hnodup : b.entries.Nodup) (hinterval : 0 < interval) (hsorted : indexes.Pairwise (· < ·))
    (hindexes : ∀ index ∈ indexes, index < b.entries.length) :
    (∀ buf, ∃ out, b.getAllByIndexes interval track indexes buf = some out ∧
        b.ReadsExactly track indexes out) ↔
      b.restartInterval = interval ∨ ∀ index ∈ indexes, index < interval := by
  have hland : (∀ index ∈ indexes, b.landing interval index = index) ↔
      b.restartInterval = interval ∨ ∀ index ∈ indexes, index < interval := by
    simp only [landing_eq_iff, Nat.div_eq_zero_iff, hinterval.ne', false_or]
    constructor
    · intro h
      by_cases heq : b.restartInterval = interval
      · exact Or.inl heq
      · exact Or.inr fun index hmem => (h index hmem).resolve_right heq
    · rintro (heq | hlt) index hmem
      · exact Or.inr heq
      · exact Or.inl (hlt index hmem)
  rw [← hland]
  constructor
  · intro h index hmem
    -- a fresh buffer: what is not read stays empty
    obtain ⟨out, hout, hexact⟩ := h {}
    have hrestart : ∀ index ∈ indexes, index / interval * b.restartInterval < b.entries.length := by
      intro index' hmem'
      by_contra hge
      rw [getAllByIndexes_eq_none track hsorted hindexes ⟨index', hmem', by omega⟩] at hout
      cases hout
    obtain ⟨out', hout', hslots, -⟩ :=
      getAllByIndexes_spec track hsorted hindexes {} hrestart (Or.inr rfl)
    obtain rfl : out' = out := Option.some.inj (hout'.symm.trans hout)
    obtain ⟨j, hj⟩ := List.mem_iff_getElem?.1 hmem
    obtain ⟨e, he, hslot⟩ := hexact.rows j index hj
    obtain ⟨hlt, -⟩ := List.getElem?_eq_some_iff.1 hj
    have hread := congrArg (·[j]?) hslots
    simp only [List.getElem?_take, hlt, if_true, hslot, List.getElem?_map, hj, Option.map_some,
      Option.some.injEq] at hread
    obtain ⟨hlt₁, hget₁⟩ := List.getElem?_eq_some_iff.1 hread.symm
    obtain ⟨hlt₂, hget₂⟩ := List.getElem?_eq_some_iff.1 he
    exact (hnodup.getElem_inj_iff).1 (hget₁.trans hget₂.symm)
  · intro h buf
    have hlt : ∀ index ∈ indexes, b.landing interval index < b.entries.length := fun index
        hmem => by
      rw [h index hmem]
      exact hindexes index hmem
    obtain ⟨out, hout, hslots, hshadow⟩ := getAllByIndexes_spec track hsorted hindexes buf
      (fun index hmem => lt_of_le_of_lt (Nat.le_add_right _ _) (hlt index hmem)) (Or.inl hlt)
    refine ⟨out, hout, fun j index hj => ?_, fun ht j index hj hflag => ?_⟩
    · have hmem := List.mem_of_getElem? hj
      obtain ⟨hj', -⟩ := List.getElem?_eq_some_iff.1 hj
      have hread := congrArg (·[j]?) hslots
      simp only [List.getElem?_take, hj', if_true, List.getElem?_map, hj, Option.map_some,
        h index hmem, List.getElem?_eq_getElem (hindexes index hmem)] at hread
      exact ⟨_, List.getElem?_eq_getElem (hindexes index hmem), hread⟩
    · have hmem := List.mem_of_getElem? hj
      obtain ⟨hj', -⟩ := List.getElem?_eq_some_iff.1 hj
      have hread := congrArg (·[j]?) (hshadow ht)
      simp only [List.getElem?_take, hj', if_true, List.getElem?_map, hj, Option.map_some, hflag,
        Option.some.injEq] at hread
      obtain ⟨hpos, p, e, hp, he, hne⟩ := exists_of_shadowOf hread.symm
      rw [h index hmem] at hp he
      have := Nat.mod_le index interval
      exact ⟨p, e, by omega, hp, he, hne⟩

/-- Four rows, with a restart point at every second. -/
def fourRows : DataBlock where
  entries := [⟨[1], 9, .value, [10]⟩, ⟨[1], 4, .value, [11]⟩, ⟨[2], 7, .value, [12]⟩,
    ⟨[3], 8, .value, [13]⟩]
  restartInterval := 2
  interval_pos := by decide
  length_lt := by decide

theorem getAllByIndexes_exact_iff_fourRows :
    fourRows.restartInterval = 2 ∧
      ∀ buf, ∃ out, fourRows.getAllByIndexes 2 true [1, 2, 3] buf = some out ∧
        fourRows.ReadsExactly true [1, 2, 3] out :=
  ⟨rfl, (getAllByIndexes_exact_iff true (by decide) (by decide) (by decide) (by decide)).2
    (Or.inl rfl)⟩

/-- The block opened with an interval of one: for its second row the third is
returned. -/
theorem getAllByIndexes_other_row :
    fourRows.restartInterval = 2 ∧ fourRows.entries[1]? = some ⟨[1], 4, .value, [11]⟩ ∧
      (fourRows.getAllByIndexes 1 true [1] {}).map ScanBuffers.slots =
        some [some ⟨[2], 7, .value, [12]⟩] :=
  ⟨rfl, rfl, by decide⟩

end DataBlock

end BitLSM
