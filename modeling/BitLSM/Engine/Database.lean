import BitLSM.Lib.Transition
import BitLSM.Scan.TableLeaf
import BitLSM.Write

/-!
The store under writes.

Every record of a write takes the next sequence number and goes into the
active memtable. In between the store may rearrange the tree, by flushes and
compactions, as long as it answers as before. `Inv` holds in every state that
is reached this way: it is what a scan asks of the tree.
-/

namespace BitLSM

open Wire

/-! ### One more entry -/

namespace LsmState

variable {s : LsmState} {e : Entry}

theorem mem_entries_written {x : Entry} :
    x ∈ (s.written [e]).versions.entries ↔ x = e ∨ x ∈ s.versions.entries := by
  show x ∈ insertEntries s.mem.entries [e] ++ s.places.tail.flatMap Versions.entries ↔
    x = e ∨ x ∈ s.mem.entries ++ s.places.tail.flatMap Versions.entries
  rw [List.mem_append, List.mem_append, (insertEntries_perm _ _).mem_iff, List.mem_append,
    List.mem_singleton, or_comm (a := x ∈ s.mem.entries), or_assoc]

theorem has_written {k : Bytes} {n : ℕ} : (s.written [e]).versions.Has k n ↔
    (e.userKey = k ∧ e.seqno.toNat = n) ∨ s.versions.Has k n := by
  have hdels : (s.written [e]).versions.rangeDels = s.versions.rangeDels := rfl
  simp only [Versions.Has, mem_entries_written, hdels]
  constructor
  · rintro (⟨x, rfl | hx, h⟩ | h)
    · exact Or.inl h
    · exact Or.inr (Or.inl ⟨x, hx, h⟩)
    · exact Or.inr (Or.inr h)
  · rintro (h | ⟨x, hx, h⟩ | h)
    · exact Or.inl ⟨e, Or.inl rfl, h⟩
    · exact Or.inl ⟨x, Or.inr hx, h⟩
    · exact Or.inr h

variable (hs : s.Shape) (hnew : ∀ k n, s.versions.Has k n → n < e.seqno.toNat)
include hs hnew

/-- An entry above all others keeps the shape. -/
theorem Shape.written : (s.written [e]).Shape where
  memtables := by
    refine List.forall_mem_cons.2 ⟨insertEntries_sorted (hs.memtables _ List.mem_cons_self) ?_,
      fun m hm => hs.memtables m (List.mem_cons_of_mem _ hm)⟩
    rw [List.map_append, List.nodup_append]
    refine ⟨(hs.memtables _ List.mem_cons_self).imp fun h => h.ne, List.nodup_singleton _, ?_⟩
    rintro _ hold _ hmem rfl
    obtain ⟨x, hx, hkey⟩ := List.mem_map.1 hold
    obtain rfl := List.mem_singleton.1 hmem
    have hlt := hnew x.userKey x.seqno.toNat
      (Versions.has_join.2 ⟨s.mem, List.mem_cons_self, Or.inl ⟨x, hx, rfl, rfl⟩⟩)
    have hseqno : x.seqno = e.seqno := congrArg InternalKey.seqno hkey
    exact lt_irrefl _ (hseqno ▸ hlt)
  files := hs.files
  numbers := hs.numbers
  disjoint := hs.disjoint
  newer := by
    obtain ⟨hmem, htail⟩ := List.pairwise_cons.1 hs.newer
    refine List.pairwise_cons.2 ⟨fun p hp k a b ha hb => ?_, htail⟩
    have hb' : s.versions.Has k b := Versions.has_join.2 ⟨p, List.mem_cons_of_mem _ hp, hb⟩
    rcases ha with ⟨x, hx, rfl, rfl⟩ | ha
    · rcases List.mem_append.1 ((insertEntries_perm _ _).mem_iff.1 hx) with hx | hx
      · exact hmem p hp _ _ _ (Or.inl ⟨x, hx, rfl, rfl⟩) hb
      · obtain rfl := List.mem_singleton.1 hx
        exact hnew _ b hb'
    · exact hmem p hp k a b (Or.inr ha) hb

/-- A lookup that sees the new entry finds it under its key, and otherwise
what was there. -/
theorem Shape.get_written_newest {last : UInt64}
    (hlast : ∀ k n, s.versions.Has k n → n ≤ last.toNat) (k : Bytes) :
    (s.written [e]).versions.get k e.seqno =
      if k = e.userKey then (if e.type = .value then some e.value else none)
      else s.versions.get k last := by
  refine Option.ext fun value => ?_
  rw [(hs.written hnew).get_eq_some_iff]
  have hbelow : ∀ n, s.versions.Has k n → n ≤ e.seqno.toNat := fun n h => (hnew k n h).le
  split
  · next hk =>
      subst hk
      rw [Option.ite_none_right_eq_some, Option.some.injEq]
      constructor
      · rintro ⟨x, hx, hkey, htype, rfl, -, hmax⟩
        have hge := hmax _ (has_written.2 (Or.inl ⟨rfl, rfl⟩)) le_rfl
        rcases mem_entries_written.1 hx with rfl | hx
        · exact ⟨htype, rfl⟩
        · have hlt := hnew x.userKey x.seqno.toNat (Or.inl ⟨x, hx, rfl, rfl⟩)
          omega
      · rintro ⟨htype, rfl⟩
        refine ⟨e, mem_entries_written.2 (Or.inl rfl), rfl, htype, rfl, le_rfl, fun n h _ => ?_⟩
        rcases has_written.1 h with ⟨-, rfl⟩ | h
        · exact le_rfl
        · exact hbelow n h
  · next hk =>
      rw [hs.get_eq_some_iff]
      have hhas (n : ℕ) : (s.written [e]).versions.Has k n ↔ s.versions.Has k n := by
        rw [has_written]
        exact or_iff_right fun h => hk h.1.symm
      constructor
      · rintro ⟨x, hx, rfl, htype, rfl, -, hmax⟩
        have hx' := (mem_entries_written.1 hx).resolve_left fun h => hk (congrArg Entry.userKey h)
        refine ⟨x, hx', rfl, htype, rfl, hlast _ _ (Or.inl ⟨x, hx', rfl, rfl⟩), fun n h _ => ?_⟩
        exact hmax n ((hhas n).2 h) (hbelow n h)
      · rintro ⟨x, hx, rfl, htype, rfl, -, hmax⟩
        refine ⟨x, mem_entries_written.2 (Or.inr hx), rfl, htype, rfl,
          hbelow _ (Or.inl ⟨x, hx, rfl, rfl⟩), fun n h _ => ?_⟩
        exact hmax n ((hhas n).1 h) (hlast _ _ ((hhas n).1 h))

end LsmState

/-! ### The store -/

structure Database where
  tree : LsmState
  lastSequence : UInt64

/-- A record of a write: the row for a key, or its deletion. -/
structure WriteRecord where
  key : Bytes
  value : Option Bytes
  deriving DecidableEq, Repr

def WriteRecord.entry (r : WriteRecord) (seqno : UInt64) : Entry :=
  match r.value with
  | some value => ⟨r.key, seqno, .value, value⟩
  | none => ⟨r.key, seqno, .deletion, []⟩

theorem WriteRecord.userKey_entry (r : WriteRecord) (seqno : UInt64) :
    (r.entry seqno).userKey = r.key := by
  rw [WriteRecord.entry]
  split <;> rfl

theorem WriteRecord.seqno_entry (r : WriteRecord) (seqno : UInt64) :
    (r.entry seqno).seqno = seqno := by
  rw [WriteRecord.entry]
  split <;> rfl

namespace Database

def empty : Database := ⟨⟨⟨[], []⟩, [], []⟩, 0⟩

/-- One record; `none` when the sequence numbers are used up. -/
def writeRecord (r : WriteRecord) (db : Database) : Option Database :=
  if db.lastSequence + 1 < kMaxSequenceNumber then
    some ⟨db.tree.written [r.entry (db.lastSequence + 1)], db.lastSequence + 1⟩
  else none

def write (db : Database) (batch : List WriteRecord) : Option Database :=
  Transition.run writeRecord db batch

/-- What becomes of the rows a write hands to the store. -/
def writeRows (db : Database) (outcome : Option WriteOutcome) : Option (Database × Status) :=
  outcome.bind fun
    | .error status => some (db, status)
    | .ok rows => (db.write (rows.map fun row => ⟨row.1, some row.2⟩)).map fun db => (db, .ok)

def put (db : Database) (cf : Option BitLSMOptions) (pk : Bytes) (attrs : List AttrView)
    (payload prev : Bytes) : Option (Database × Status) :=
  db.writeRows (BitLSM.put cf pk attrs payload prev)

def putBatch (db : Database) (cf : Option BitLSMOptions) (pks : List Bytes)
    (attrsList : List (List AttrView)) (payloads : List Bytes) : Option (Database × Status) :=
  db.writeRows (BitLSM.putBatch cf pks attrsList payloads)

def delete (db : Database) (cf : Option BitLSMOptions) (key : Bytes) : Option (Database × Status) :=
  match cf with
  | none => some (db, .invalidArgument "null column family")
  | some _ => (db.write [⟨key, none⟩]).map fun db => (db, .ok)

/-- The answer of the store to a lookup now. -/
def get (db : Database) (k : Bytes) : Option Bytes := db.tree.versions.get k db.lastSequence

/-- What holds of the store between operations. Nothing in it deletes a range
of keys. -/
structure Inv (table : TableOptions) (o : BitLSMOptions) (db : Database) : Prop where
  shape : db.tree.Shape
  built : ∀ f ∈ db.tree.files, ∃ rho, f.Built table o rho
  numbers_le : ∀ k n, db.tree.versions.Has k n → n ≤ db.lastSequence.toNat
  last_lt : db.lastSequence < kMaxSequenceNumber
  no_rangeDels : ∀ f ∈ db.tree.files, f.rangeDels = []

/-- The store moved on: what was written before is answered as before. -/
structure Extends (db db' : Database) : Prop where
  last_le : db.lastSequence ≤ db'.lastSequence
  older : ∀ read, read ≤ db.lastSequence → ∀ k,
    db'.tree.versions.get k read = db.tree.versions.get k read

variable {table : TableOptions} {o : BitLSMOptions} {db db' : Database}

theorem Extends.refl (db : Database) : db.Extends db :=
  ⟨UInt64.le_refl _, fun _ _ _ => rfl⟩

theorem Extends.trans {db₁ db₂ db₃ : Database} (h : db₁.Extends db₂) (h' : db₂.Extends db₃) :
    db₁.Extends db₃ where
  last_le := UInt64.le_trans h.last_le h'.last_le
  older read hread k :=
    (h'.older read (UInt64.le_trans hread h.last_le) k).trans (h.older read hread k)

theorem empty_inv : Inv table o empty where
  shape :=
    { memtables := List.forall_mem_singleton.2 List.Pairwise.nil
      files := List.forall_mem_nil _
      numbers := List.forall_mem_nil _
      disjoint := List.forall_mem_nil _
      newer := List.pairwise_singleton _ _ }
  built := List.forall_mem_nil _
  numbers_le := by
    rintro k n (⟨e, he, -⟩ | ⟨t, ht, -⟩)
    · cases he
    · cases ht
  last_lt := by decide
  no_rangeDels := List.forall_mem_nil _

theorem toNat_succ_of_lt {n : UInt64} (h : n < kMaxSequenceNumber) :
    (n + 1).toNat = n.toNat + 1 := by
  have hlt := UInt64.lt_iff_toNat_lt.1 h
  rw [UInt64.toNat_add]
  show (n.toNat + 1) % 2 ^ 64 = _
  rw [show kMaxSequenceNumber.toNat = 72057594037927935 from rfl] at hlt
  omega

/-- One record: the invariant stays, and one key has a new answer. -/
theorem Inv.writeRecord (h : Inv table o db) {r : WriteRecord}
    (hwrite : writeRecord r db = some db') :
    Inv table o db' ∧ db.Extends db' ∧
      ∀ k, db'.get k = if k = r.key then r.value else db.get k := by
  rw [Database.writeRecord, Option.ite_none_right_eq_some, Option.some.injEq] at hwrite
  obtain ⟨hlt, rfl⟩ := hwrite
  have hsucc := toNat_succ_of_lt h.last_lt
  have hnew : ∀ k n, db.tree.versions.Has k n →
      n < (r.entry (db.lastSequence + 1)).seqno.toNat := by
    intro k n hhas
    rw [WriteRecord.seqno_entry, hsucc]
    exact Nat.lt_succ_of_le (h.numbers_le k n hhas)
  refine ⟨⟨h.shape.written hnew, h.built, fun k n hhas => ?_, hlt, h.no_rangeDels⟩,
    ⟨UInt64.le_iff_toNat_le.2 (by rw [hsucc]; omega), fun read hread k => ?_⟩, fun k => ?_⟩
  · rcases LsmState.has_written.1 hhas with ⟨-, rfl⟩ | hhas
    · rw [WriteRecord.seqno_entry]
    · exact (h.numbers_le k n hhas).trans (by rw [hsucc]; omega)
  · refine LsmState.get_written (List.forall_mem_singleton.2 ?_) k
    rw [WriteRecord.seqno_entry, UInt64.lt_iff_toNat_lt, hsucc]
    exact Nat.lt_succ_of_le (UInt64.le_iff_toNat_le.1 hread)
  · have hget := h.shape.get_written_newest hnew h.numbers_le k
    rw [WriteRecord.seqno_entry, WriteRecord.userKey_entry] at hget
    refine hget.trans ?_
    congr 1
    rw [WriteRecord.entry]
    split
    · next hvalue => rw [hvalue]; rfl
    · next hvalue => rw [hvalue]; rfl

/-- What is answered for a key after a write. -/
def answerAfter (k : Bytes) : Option Bytes → List WriteRecord → Option Bytes :=
  List.foldl fun found r => if k = r.key then r.value else found

theorem Inv.write (h : Inv table o db) {batch : List WriteRecord}
    (hwrite : db.write batch = some db') :
    Inv table o db' ∧ db.Extends db' ∧ ∀ k, db'.get k = answerAfter k (db.get k) batch := by
  induction batch generalizing db with
  | nil =>
      obtain rfl : db = db' := Option.some.inj hwrite
      exact ⟨h, .refl db, fun _ => rfl⟩
  | cons r batch ih =>
      rw [Database.write, Transition.run_cons] at hwrite
      obtain ⟨mid, hmid, hrest⟩ := Option.bind_eq_some_iff.1 hwrite
      obtain ⟨hinv, hext, hget⟩ := h.writeRecord hmid
      obtain ⟨hinv', hext', hget'⟩ := ih hinv hrest
      refine ⟨hinv', hext.trans hext', fun k => (hget' k).trans ?_⟩
      rw [hget k]
      rfl

/-- Writes to other column families take sequence numbers too. -/
theorem Inv.advance (h : Inv table o db) {last : UInt64} (hle : db.lastSequence ≤ last)
    (hlt : last < kMaxSequenceNumber) :
    Inv table o { db with lastSequence := last } ∧
      ∀ k, db.tree.versions.get k last = db.get k := by
  have hle' := UInt64.le_iff_toNat_le.1 hle
  have hnumbers (k : Bytes) (n : ℕ) (hhas : db.tree.versions.Has k n) : n ≤ last.toNat :=
    (h.numbers_le k n hhas).trans hle'
  refine ⟨⟨h.shape, h.built, hnumbers, hlt, h.no_rangeDels⟩, fun k => Option.ext fun value => ?_⟩
  rw [get, h.shape.get_eq_some_iff, h.shape.get_eq_some_iff]
  constructor
  · rintro ⟨e, he, rfl, htype, rfl, -, hmax⟩
    exact ⟨e, he, rfl, htype, rfl, h.numbers_le _ _ (Or.inl ⟨e, he, rfl, rfl⟩),
      fun n hhas _ => hmax n hhas (hnumbers _ n hhas)⟩
  · rintro ⟨e, he, rfl, htype, rfl, hread, hmax⟩
    exact ⟨e, he, rfl, htype, rfl, hread.trans hle',
      fun n hhas _ => hmax n hhas (h.numbers_le _ n hhas)⟩

end Database

end BitLSM
