import BitLSM.Lib.Probing
import BitLSM.Runtime

/-!
Interning the values of an equality attribute.

Each distinct value is stored once in an arena and rows keep its dense id.
The lookup table is a power of two of slots probed linearly; a slot holds
the value's hash and its id plus one, zero marking a free slot. `Interned`
ties a buffer to the sequence of values interned so far, for any hash
function.
-/

namespace BitLSM

open Wire Probing

structure ValueRef where
  offset : UInt32
  len : UInt32
  deriving DecidableEq, Repr

structure EqualityAttrBuf where
  arena : Bytes := []
  valueById : List ValueRef := []
  countById : List UInt32 := []
  rowIds : List UInt32 := []
  slotHash : List UInt64 := List.replicate 1024 0
  slotId : List UInt32 := List.replicate 1024 0
  used : ℕ := 0

namespace EqualityAttrBuf

def valueOf (b : EqualityAttrBuf) (id : ℕ) : Bytes :=
  let v := b.valueById.getD id ⟨0, 0⟩
  slice b.arena v.offset.toNat v.len.toNat

/-- Step to the following slot; `n` is a power of two. -/
def nextSlot (n i : ℕ) : ℕ := (i + 1) &&& (n - 1)

def homeSlot (n : ℕ) (h : UInt64) : ℕ := h.toNat &&& (n - 1)

/-- Put a value's hash and id into the first free slot on its path. -/
def placeSlot (slots : List UInt64 × List UInt32) (h : UInt64) (slotValue : UInt32) :
    Option (List UInt64 × List UInt32) := do
  let n := slots.2.length
  let idx ← walk (nextSlot n) (fun i => if slots.2.getD i 0 = 0 then some i else none) n
    (homeSlot n h)
  return (slots.1.set idx h, slots.2.set idx slotValue)

/-- Move every taken slot into a table of twice the size. -/
def grow (b : EqualityAttrBuf) : Option EqualityAttrBuf := do
  let n := b.slotId.length * 2
  let (slotHash, slotId) ← (b.slotHash.zip b.slotId).foldlM
    (fun slots (h, id) => if id = 0 then some slots else placeSlot slots h id)
    (List.replicate n 0, List.replicate n 0)
  return { b with slotHash, slotId }

/-- Where a lookup ends. -/
inductive Probe where
  | found (id : UInt32)
  | free (idx : ℕ)

def probeSlot (b : EqualityAttrBuf) (h : UInt64) (value : Bytes) (idx : ℕ) : Option Probe :=
  let id := b.slotId.getD idx 0
  if id = 0 then some (.free idx)
  else if b.slotHash.getD idx 0 = h ∧ b.valueOf (id - 1).toNat = value then some (.found (id - 1))
  else none

/-- `none` would be a lookup that never ends. -/
def intern (hash : Bytes → UInt64) (b : EqualityAttrBuf) (value : Bytes) :
    Option EqualityAttrBuf := do
  let h := hash value
  let n := b.slotId.length
  match ← walk (nextSlot n) (b.probeSlot h value) n (homeSlot n h) with
  | .found id => return { b with
      countById := b.countById.modify id.toNat (· + 1)
      rowIds := b.rowIds ++ [id] }
  | .free idx =>
      let id := UInt32.ofNat b.valueById.length
      let b' := { b with
        valueById := b.valueById ++ [⟨UInt32.ofNat b.arena.length, UInt32.ofNat value.length⟩]
        arena := b.arena ++ value
        countById := b.countById ++ [1]
        rowIds := b.rowIds ++ [id]
        slotHash := b.slotHash.set idx h
        slotId := b.slotId.set idx (id + 1)
        used := b.used + 1 }
      if b'.slotId.length * 7 ≤ b'.used * 10 then b'.grow else return b'

def internAll (hash : Bytes → UInt64) (vs : List Bytes) : Option EqualityAttrBuf :=
  vs.foldlM (intern hash) {}

end EqualityAttrBuf

/-! ### The table -/

/-- The distinct values, in the order of their first occurrence. -/
def distinctValues (vs : List Bytes) : List Bytes :=
  vs.foldl (fun d v => if v ∈ d then d else d ++ [v]) []

theorem distinctValues_concat (vs : List Bytes) (v : Bytes) :
    distinctValues (vs ++ [v]) =
      if v ∈ distinctValues vs then distinctValues vs else distinctValues vs ++ [v] := by
  rw [distinctValues, List.foldl_append]
  rfl

theorem mem_distinctValues {vs : List Bytes} {v : Bytes} : v ∈ distinctValues vs ↔ v ∈ vs := by
  induction vs using List.reverseRecOn with
  | nil => simp [distinctValues]
  | append_singleton vs w ih =>
      rw [distinctValues_concat]
      split
      · next hw =>
          rw [ih, List.mem_append, List.mem_singleton]
          exact ⟨Or.inl, fun h => h.elim id fun hv => ih.1 (hv ▸ hw)⟩
      · simp [ih]

theorem nodup_distinctValues (vs : List Bytes) : (distinctValues vs).Nodup := by
  induction vs using List.reverseRecOn with
  | nil => simp [distinctValues]
  | append_singleton vs w ih =>
      rw [distinctValues_concat]
      split
      · exact ih
      · next hw => exact ih.append (List.nodup_singleton w) (by simpa using hw)

theorem length_distinctValues_le (vs : List Bytes) : (distinctValues vs).length ≤ vs.length := by
  induction vs using List.reverseRecOn with
  | nil => simp [distinctValues]
  | append_singleton vs w ih =>
      rw [distinctValues_concat]
      split
      · simp only [List.length_append, List.length_singleton]
        omega
      · simp only [List.length_append, List.length_singleton]
        omega

/-- All but 257 byte strings have two bytes and more. -/
theorem two_mul_length_le {d : List Bytes} (hd : d.Nodup) :
    2 * d.length ≤ d.flatten.length + 514 := by
  have hshort : (d.filter fun v => decide (v.length ≤ 1)).length ≤ 257 := by
    have hsub : d.filter (fun v => decide (v.length ≤ 1)) ⊆
        [] :: (List.range 256).map fun k => [UInt8.ofNat k] := by
      intro v hv
      have hlen : v.length ≤ 1 := of_decide_eq_true (List.mem_filter.1 hv).2
      rcases v with _ | ⟨x, _ | ⟨y, v⟩⟩
      · exact List.mem_cons_self
      · refine List.mem_cons_of_mem _ (List.mem_map.2 ⟨x.toNat, ?_, by simp⟩)
        exact List.mem_range.2 x.toNat_lt
      · simp at hlen
    have hle := (List.subperm_of_subset (hd.filter _) hsub).length_le
    rwa [List.length_cons, List.length_map, List.length_range] at hle
  have hsum : ∀ l : List Bytes, 2 * l.length ≤
      l.flatten.length + 2 * (l.filter fun v => decide (v.length ≤ 1)).length := by
    intro l
    induction l with
    | nil => simp
    | cons v l ih =>
        rw [List.flatten_cons, List.length_append, List.length_cons]
        by_cases hv : v.length ≤ 1
        · rw [List.filter_cons_of_pos (by simpa using hv), List.length_cons]
          omega
        · rw [List.filter_cons_of_neg (by simpa using hv)]
          omega
  have := hsum d
  omega

/-- Distinct values run out of bytes before they run out of ids. -/
theorem length_lt_of_bytes {d : List Bytes} (hd : d.Nodup) (hbytes : d.flatten.length < 2 ^ 32) :
    d.length + 1 < 2 ^ 32 := by
  have := two_mul_length_le hd
  omega

namespace EqualityAttrBuf

/-- The id in a slot. -/
def slotContent (slotId : List UInt32) (s : ℕ) : Option ℕ :=
  if slotId.getD s 0 = 0 then none else some ((slotId.getD s 0).toNat - 1)

theorem slotContent_isSome {slotId : List UInt32} {s : ℕ} :
    (slotContent slotId s).isSome = true ↔ slotId.getD s 0 ≠ 0 := by
  unfold slotContent
  split <;> simp_all

theorem slotContent_eq_some {slotId : List UInt32} {s x : ℕ} :
    slotContent slotId s = some x ↔ (slotId.getD s 0).toNat = x + 1 := by
  have hzero : slotId.getD s 0 = 0 ↔ (slotId.getD s 0).toNat = 0 := by
    rw [← UInt32.toNat_inj]
    rfl
  unfold slotContent
  split
  · next h =>
      rw [hzero] at h
      rw [h]
      exact ⟨nofun, fun hx => by omega⟩
  · next h =>
      rw [hzero] at h
      rw [Option.some.injEq]
      omega

theorem slotContent_set {slotId : List UInt32} {idx : ℕ} {v : UInt32} {x : ℕ}
    (hidx : idx < slotId.length) (hv : v.toNat = x + 1) :
    slotContent (slotId.set idx v) = Function.update (slotContent slotId) idx (some x) := by
  funext s
  by_cases hs : s = idx
  · subst hs
    rw [Function.update_self, slotContent_eq_some, List.getD_eq_getElem?_getD,
      List.getElem?_set_self hidx]
    exact hv
  · rw [Function.update_of_ne hs]
    unfold slotContent
    rw [List.getD_eq_getElem?_getD, List.getElem?_set_ne (Ne.symm hs),
      ← List.getD_eq_getElem?_getD]

theorem nextSlot_eq {n k : ℕ} (hn : n = 2 ^ k) (i : ℕ) : nextSlot n i = (i + 1) % n := by
  rw [nextSlot, hn, Nat.and_two_pow_sub_one_eq_mod]

theorem homeSlot_eq {n k : ℕ} (hn : n = 2 ^ k) (h : UInt64) : homeSlot n h = h.toNat % n := by
  rw [homeSlot, hn, Nat.and_two_pow_sub_one_eq_mod]

/-- A slot array that places the ids in `present`, each under the hash of
its value. -/
structure Slots (hash : Bytes → UInt64) (d : List Bytes) (present : ℕ → Prop)
    (slots : List UInt64 × List UInt32) : Prop where
  pow : ∃ k, slots.2.length = 2 ^ k
  length_eq : slots.1.length = slots.2.length
  mem : ∀ x, present x ↔ ∃ s < slots.2.length, slotContent slots.2 s = some x
  hash_eq : ∀ s < slots.2.length, ∀ x, slotContent slots.2 s = some x →
    slots.1.getD s 0 = hash (d.getD x [])
  placed : Placed slots.2.length
    (fun x => homeSlot slots.2.length (hash (d.getD x []))) (slotContent slots.2)

theorem Slots.homeSlot_lt {hash : Bytes → UInt64} {d : List Bytes} {present : ℕ → Prop}
    {slots : List UInt64 × List UInt32} (hs : Slots hash d present slots) (h : UInt64) :
    homeSlot slots.2.length h < slots.2.length := by
  obtain ⟨k, hk⟩ := hs.pow
  rw [homeSlot_eq hk]
  exact Nat.mod_lt _ (by rw [hk]; exact Nat.two_pow_pos k)

theorem Slots.nextSlot_eq {hash : Bytes → UInt64} {d : List Bytes} {present : ℕ → Prop}
    {slots : List UInt64 × List UInt32} (hs : Slots hash d present slots) :
    ∀ i < slots.2.length, nextSlot slots.2.length i = (i + 1) % slots.2.length := by
  obtain ⟨k, hk⟩ := hs.pow
  exact fun i _ => EqualityAttrBuf.nextSlot_eq hk i

/-- Fewer ids than slots leave a free slot on every path. -/
theorem Slots.exists_free {hash : Bytes → UInt64} {d : List Bytes} {present : ℕ → Prop}
    {slots : List UInt64 × List UInt32} (hs : Slots hash d present slots) {m : ℕ}
    (hm : m < slots.2.length) (hlt : ∀ x, present x → x < m) (h : ℕ) :
    ∃ s < slots.2.length, slots.2.getD s 0 = 0 ∧
      Reach slots.2.length (fun t => (slotContent slots.2 t).isSome = true) h s := by
  have hfree : ∃ s < slots.2.length, slotContent slots.2 s = none :=
    hs.placed.exists_free hm fun s hsn x hx => hlt x ((hs.mem x).2 ⟨s, hsn, hx⟩)
  obtain ⟨s, hsn, hnot, hreach⟩ :=
    @exists_first_free _ (fun t => (slotContent slots.2 t).isSome = true) h (by
      obtain ⟨s, hsn, hnone⟩ := hfree
      exact ⟨s, hsn, by simp [hnone]⟩)
  rw [slotContent_isSome, not_not] at hnot
  exact ⟨s, hsn, hnot, hreach⟩

/-- Filling a free slot at the end of its path adds the id. -/
theorem Slots.set {hash : Bytes → UInt64} {d : List Bytes} {present : ℕ → Prop}
    {slots : List UInt64 × List UInt32} (hs : Slots hash d present slots) {x idx : ℕ}
    {v : UInt32} (hnew : ¬present x) (hv : v.toNat = x + 1) (hidx : idx < slots.2.length)
    (hfree : slots.2.getD idx 0 = 0)
    (hreach : Reach slots.2.length (fun t => (slotContent slots.2 t).isSome = true)
      (homeSlot slots.2.length (hash (d.getD x []))) idx) :
    Slots hash d (fun y => present y ∨ y = x)
      (slots.1.set idx (hash (d.getD x [])), slots.2.set idx v) := by
  have hcontent := slotContent_set hidx hv
  have hnone : slotContent slots.2 idx = none := by rw [slotContent, if_pos hfree]
  refine ⟨?_, ?_, fun y => ?_, fun s hsn y hy => ?_, ?_⟩
  · simpa using hs.pow
  · simpa using hs.length_eq
  · rw [hs.mem y, hcontent, List.length_set]
    constructor
    · rintro (⟨s, hsn, hy⟩ | rfl)
      · have hne : s ≠ idx := by
          rintro rfl
          rw [hnone] at hy
          cases hy
        exact ⟨s, hsn, by rw [Function.update_of_ne hne]; exact hy⟩
      · exact ⟨idx, hidx, by rw [Function.update_self]⟩
    · rintro ⟨s, hsn, hy⟩
      by_cases hs' : s = idx
      · rw [hs', Function.update_self] at hy
        exact Or.inr (Option.some.inj hy).symm
      · rw [Function.update_of_ne hs'] at hy
        exact Or.inl ⟨s, hsn, hy⟩
  · rw [List.length_set] at hsn
    rw [hcontent] at hy
    by_cases hs' : s = idx
    · rw [hs', Function.update_self] at hy
      obtain rfl := Option.some.inj hy
      rw [hs', List.getD_eq_getElem?_getD, List.getElem?_set_self
          (by rw [hs.length_eq]; exact hidx)]
      rfl
    · rw [Function.update_of_ne hs'] at hy
      rw [List.getD_eq_getElem?_getD, List.getElem?_set_ne (Ne.symm hs'),
        ← List.getD_eq_getElem?_getD]
      exact hs.hash_eq s hsn y hy
  · simp only [List.length_set, hcontent]
    exact hs.placed.insert (fun t ht hx => hnew ((hs.mem x).2 ⟨t, ht, hx⟩)) hnone hreach

/-- `placeSlot` adds an id that is not there yet. -/
theorem Slots.placeSlot {hash : Bytes → UInt64} {d : List Bytes} {present : ℕ → Prop}
    {slots : List UInt64 × List UInt32} (hs : Slots hash d present slots) {x m : ℕ}
    {v : UInt32} (hnew : ¬present x) (hv : v.toNat = x + 1) (hm : m < slots.2.length)
    (hlt : ∀ y, present y → y < m) :
    ∃ slots', EqualityAttrBuf.placeSlot slots (hash (d.getD x [])) v = some slots' ∧
      slots'.2.length = slots.2.length ∧ Slots hash d (fun y => present y ∨ y = x) slots' := by
  obtain ⟨idx, hidx, hfree, hreach⟩ := hs.exists_free hm hlt
    (homeSlot slots.2.length (hash (d.getD x [])))
  have hwalk : walk (nextSlot slots.2.length)
      (fun i => if slots.2.getD i 0 = 0 then some i else none) slots.2.length
      (homeSlot slots.2.length (hash (d.getD x []))) = some idx := by
    refine walk_reach hs.nextSlot_eq (hs.homeSlot_lt _) (Nat.le_refl _) hreach (if_pos hfree) ?_
    intro t _ ht
    exact Or.inl (if_neg (slotContent_isSome.1 ht))
  refine ⟨_, by rw [EqualityAttrBuf.placeSlot, hwalk]; rfl, by simp, ?_⟩
  exact hs.set hnew hv hidx hfree hreach

theorem Slots.congr {hash : Bytes → UInt64} {d : List Bytes} {present present' : ℕ → Prop}
    {slots : List UInt64 × List UInt32} (hs : Slots hash d present slots)
    (h : ∀ x, present' x ↔ present x) : Slots hash d present' slots :=
  ⟨hs.pow, hs.length_eq, fun x => (h x).trans (hs.mem x), hs.hash_eq, hs.placed⟩

theorem slotContent_replicate (n : ℕ) : slotContent (List.replicate n 0) = fun _ => none := by
  funext s
  have hzero : (List.replicate n (0 : UInt32)).getD s 0 = 0 := by
    rw [List.getD_eq_getElem?_getD, List.getElem?_replicate]
    split <;> rfl
  rw [slotContent, if_pos hzero]

theorem slots_empty (hash : Bytes → UInt64) (d : List Bytes) (k : ℕ) :
    Slots hash d (fun _ => False) (List.replicate (2 ^ k) 0, List.replicate (2 ^ k) 0) := by
  refine ⟨⟨k, by simp⟩, by simp, fun x => ?_, fun s _ x hx => ?_, ?_⟩
  · simp [slotContent_replicate]
  · simp [slotContent_replicate] at hx
  · rw [slotContent_replicate]
    exact placed_empty _ _

/-- Moving the slots from position `done.length` on. -/
theorem Slots.foldlM_grow {hash : Bytes → UInt64} {d : List Bytes} {present : ℕ → Prop}
    {b : EqualityAttrBuf} (hs : Slots hash d present (b.slotHash, b.slotId)) {m : ℕ}
    (hlt : ∀ y, present y → y < m) (rest : List (UInt64 × UInt32)) :
    ∀ (done : List (UInt64 × UInt32)) (slots : List UInt64 × List UInt32),
      done ++ rest = b.slotHash.zip b.slotId → m < slots.2.length →
      Slots hash d (fun y => ∃ s < done.length, slotContent b.slotId s = some y) slots →
      ∃ slots', rest.foldlM (fun slots (h, id) =>
          if id = 0 then some slots else EqualityAttrBuf.placeSlot slots h id) slots = some slots' ∧
        slots'.2.length = slots.2.length ∧ Slots hash d present slots' := by
  have hlen : (b.slotHash.zip b.slotId).length = b.slotId.length := by
    simp [hs.length_eq]
  induction rest with
  | nil =>
      intro done slots hsplit _ hdone
      rw [List.append_nil] at hsplit
      refine ⟨slots, rfl, rfl, hdone.congr fun x => ?_⟩
      rw [hsplit, hlen]
      exact hs.mem x
  | cons e rest ih =>
      intro done slots hsplit hm hdone
      obtain ⟨h, id⟩ := e
      have hi : done.length < b.slotId.length := by
        rw [← hlen, ← hsplit]
        simp
      have hget : (b.slotHash.zip b.slotId)[done.length]? = some (h, id) := by
        rw [← hsplit]
        simp
      rw [List.getElem?_zip_eq_some] at hget
      have hid : b.slotId.getD done.length 0 = id := by
        rw [List.getD_eq_getElem?_getD, hget.2]
        rfl
      have hh : b.slotHash.getD done.length 0 = h := by
        rw [List.getD_eq_getElem?_getD, hget.1]
        rfl
      have hsplit' : (done ++ [(h, id)]) ++ rest = b.slotHash.zip b.slotId := by
        simpa using hsplit
      -- the ids moved after this slot are those before it and its own
      have hsucc (y : ℕ) : (∃ s < (done ++ [(h, id)]).length, slotContent b.slotId s = some y) ↔
          (∃ s < done.length, slotContent b.slotId s = some y) ∨
            slotContent b.slotId done.length = some y := by
        rw [List.length_append, List.length_singleton]
        constructor
        · rintro ⟨s, hs', hy⟩
          rcases Nat.lt_succ_iff_lt_or_eq.1 hs' with hlt | rfl
          · exact Or.inl ⟨s, hlt, hy⟩
          · exact Or.inr hy
        · rintro (⟨s, hs', hy⟩ | hy)
          · exact ⟨s, by omega, hy⟩
          · exact ⟨done.length, by omega, hy⟩
      rw [List.foldlM_cons]
      by_cases hz : id = 0
      · have hnone : slotContent b.slotId done.length = none := by
          rw [slotContent, hid, if_pos hz]
        simp only [hz, if_true]
        refine ih (done ++ [(h, id)]) slots hsplit' hm (hdone.congr fun y => ?_)
        rw [hsucc, hnone]
        simp
      · have hpos : id.toNat ≠ 0 := fun h0 => hz (UInt32.toNat_inj.1 h0)
        have hx : slotContent b.slotId done.length = some (id.toNat - 1) := by
          rw [slotContent, hid, if_neg hz]
        have hhash : h = hash (d.getD (id.toNat - 1) []) := by
          rw [← hh]
          exact hs.hash_eq done.length hi _ hx
        have hnew : ¬∃ s < done.length, slotContent b.slotId s = some (id.toNat - 1) := by
          rintro ⟨s, hs', hy⟩
          have := hs.placed.unique s (lt_trans hs' hi) done.length hi _ hy hx
          omega
        obtain ⟨slots', hplace, hlen', hslots'⟩ := hdone.placeSlot hnew
          (v := id) (by omega) hm fun y hy => by
            obtain ⟨s, hs', hy⟩ := hy
            exact hlt y ((hs.mem y).2 ⟨s, lt_trans hs' hi, hy⟩)
        simp only [hz, if_false]
        rw [hhash, hplace]
        obtain ⟨slots'', hfold, hlen'', hslots''⟩ := ih (done ++ [(h, id)]) slots' hsplit'
          (by omega) (hslots'.congr fun y => by
            rw [hsucc, hx, Option.some.injEq, eq_comm])
        exact ⟨slots'', hfold, by omega, hslots''⟩

/-- Growing keeps every id, in a table of twice the size. -/
theorem Slots.grow {hash : Bytes → UInt64} {d : List Bytes} {present : ℕ → Prop}
    {b : EqualityAttrBuf} (hs : Slots hash d present (b.slotHash, b.slotId)) {m : ℕ}
    (hm : m < b.slotId.length) (hlt : ∀ y, present y → y < m) :
    ∃ slots : List UInt64 × List UInt32,
      b.grow = some { b with slotHash := slots.1, slotId := slots.2 } ∧
      slots.2.length = b.slotId.length * 2 ∧ Slots hash d present slots := by
  obtain ⟨k, hk⟩ := hs.pow
  have hn : b.slotId.length * 2 = 2 ^ (k + 1) := by
    rw [pow_succ]
    exact congrArg (· * 2) hk
  obtain ⟨slots, hfold, hlen, hslots⟩ := hs.foldlM_grow hlt (b.slotHash.zip b.slotId) []
    (List.replicate (b.slotId.length * 2) 0, List.replicate (b.slotId.length * 2) 0) rfl
    (by simp; omega) (by
      rw [hn]
      exact (slots_empty hash d (k + 1)).congr (by simp))
  refine ⟨slots, ?_, by simpa using hlen, hslots⟩
  rw [EqualityAttrBuf.grow, hfold]
  rfl

/-- Ids keep their slots when values are added behind theirs. -/
theorem Slots.congr_values {hash : Bytes → UInt64} {d d' : List Bytes} {present : ℕ → Prop}
    {slots : List UInt64 × List UInt32} (hs : Slots hash d present slots)
    (h : ∀ x, present x → d'.getD x [] = d.getD x []) : Slots hash d' present slots := by
  have hitem : ∀ s < slots.2.length, ∀ x, slotContent slots.2 s = some x →
      d'.getD x [] = d.getD x [] := fun s hsn x hx => h x ((hs.mem x).2 ⟨s, hsn, hx⟩)
  refine ⟨hs.pow, hs.length_eq, hs.mem, fun s hsn x hx => ?_,
    hs.placed.congr_home fun s hsn x hx => ?_⟩
  · rw [hitem s hsn x hx]
    exact hs.hash_eq s hsn x hx
  · rw [hitem s hsn x hx]

/-! ### Interned sequences -/

/-- The buffer after interning `vs`. -/
structure Interned (hash : Bytes → UInt64) (vs : List Bytes) (b : EqualityAttrBuf) : Prop where
  arena : b.arena = (distinctValues vs).flatten
  length_values : b.valueById.length = (distinctValues vs).length
  values : ∀ (i : ℕ) (v : Bytes), (distinctValues vs)[i]? = some v →
    ∃ ref : ValueRef, b.valueById[i]? = some ref ∧
    HasAt b.arena ref.offset.toNat v ∧ ref.len.toNat = v.length
  counts : b.countById = (distinctValues vs).map fun v => UInt32.ofNat (vs.count v)
  rowIds : b.rowIds = vs.map fun v => UInt32.ofNat ((distinctValues vs).idxOf v)
  used : b.used = (distinctValues vs).length
  room : 1024 ≤ b.slotId.length
  load : (distinctValues vs).length * 10 < b.slotId.length * 7
  slots : Slots hash (distinctValues vs) (· < (distinctValues vs).length)
    (b.slotHash, b.slotId)

section Interned

variable {hash : Bytes → UInt64} {vs : List Bytes} {b : EqualityAttrBuf}

theorem interned_nil (hash : Bytes → UInt64) : Interned hash [] {} := by
  have hslots : ({} : EqualityAttrBuf).slotId.length = 1024 := List.length_replicate
  refine ⟨rfl, rfl, by simp [distinctValues], rfl, rfl, rfl, hslots.ge, ?_, ?_⟩
  · rw [hslots]
    decide
  · exact (slots_empty hash [] 10).congr (by simp [distinctValues])

theorem Interned.valueOf_eq (h : Interned hash vs b) {i : ℕ} {v : Bytes}
    (hv : (distinctValues vs)[i]? = some v) : b.valueOf i = v := by
  obtain ⟨ref, href, hat, hlen⟩ := h.values i v hv
  have hget : b.valueById.getD i ⟨0, 0⟩ = ref := by
    rw [List.getD_eq_getElem?_getD, href]
    rfl
  rw [valueOf, hget, hlen]
  exact hat.slice_eq

theorem Interned.map_valueOf (h : Interned hash vs b) :
    (List.range b.valueById.length).map b.valueOf = distinctValues vs := by
  refine List.ext_getElem? fun i => ?_
  rw [h.length_values, List.getElem?_map]
  cases hi : (distinctValues vs)[i]? with
  | none =>
      rw [List.getElem?_eq_none_iff] at hi
      rw [List.getElem?_eq_none (by simpa using hi)]
      rfl
  | some v =>
      rw [List.getElem?_range (List.getElem?_eq_some_iff.1 hi).1, Option.map_some,
        h.valueOf_eq hi]

/-- A taken slot answers a lookup of its own value. -/
theorem Interned.probeSlot_taken (h : Interned hash vs b) {s x : ℕ} (hs : s < b.slotId.length)
    (hx : slotContent b.slotId s = some x) (v : Bytes) :
    ∃ w, (distinctValues vs)[x]? = some w ∧ b.probeSlot (hash v) v s =
      if w = v then some (.found (UInt32.ofNat x)) else none := by
  have hid := slotContent_eq_some.1 hx
  have htaken : b.slotId.getD s 0 ≠ 0 := slotContent_isSome.1 (by rw [hx]; rfl)
  have hbound := (b.slotId.getD s 0).toNat_lt
  have hone : b.slotId.getD s 0 - 1 = UInt32.ofNat x := by
    rw [← UInt32.toNat_inj, UInt32.toNat_sub_of_le, hid, UInt32.toNat_ofNat']
    · show x + 1 - 1 = _
      omega
    · rw [UInt32.le_iff_toNat_le]
      show 1 ≤ _
      omega
  have hnat : (UInt32.ofNat x).toNat = x := by
    rw [UInt32.toNat_ofNat']
    omega
  have hget := List.getElem?_eq_getElem ((h.slots.mem x).2 ⟨s, hs, hx⟩)
  have hhash : b.slotHash.getD s 0 = hash _ := h.slots.hash_eq s hs x hx
  rw [@List.getD_eq_getElem?_getD _ (distinctValues vs), hget, Option.getD_some] at hhash
  refine ⟨_, hget, ?_⟩
  rw [probeSlot]
  simp only [htaken, if_false, hone, hnat, h.valueOf_eq hget, hhash]
  congr 1
  exact propext ⟨And.right, fun heq => ⟨by rw [heq], heq⟩⟩

/-- A value interned before is found under its id. -/
theorem Interned.walk_found (h : Interned hash vs b) {v : Bytes} (hv : v ∈ distinctValues vs) :
    walk (nextSlot b.slotId.length) (b.probeSlot (hash v) v) b.slotId.length
      (homeSlot b.slotId.length (hash v)) =
        some (.found (UInt32.ofNat ((distinctValues vs).idxOf v))) := by
  have hlt := List.idxOf_lt_length_of_mem hv
  have hget : (distinctValues vs)[(distinctValues vs).idxOf v]? = some v := by
    rw [List.getElem?_eq_getElem hlt, List.getElem_idxOf]
  have hgetD : (distinctValues vs).getD ((distinctValues vs).idxOf v) [] = v := by
    rw [List.getD_eq_getElem?_getD, hget]
    rfl
  obtain ⟨s, hs, hcontent⟩ := (h.slots.mem _).1 hlt
  have hreach := h.slots.placed.reach s hs _ hcontent
  rw [hgetD] at hreach
  have hpath : ∀ t < b.slotId.length, (slotContent b.slotId t).isSome = true →
      b.probeSlot (hash v) v t = none ∨ b.probeSlot (hash v) v t =
        some (.found (UInt32.ofNat ((distinctValues vs).idxOf v))) := by
    intro t ht htaken
    obtain ⟨x, hx⟩ := Option.isSome_iff_exists.1 htaken
    obtain ⟨w, hw, hprobe⟩ := h.probeSlot_taken ht hx v
    rw [hprobe]
    split
    · next hwv =>
        -- no other id has this value
        rw [hwv, ← hget] at hw
        rw [(List.getElem?_inj ((h.slots.mem x).2 ⟨t, ht, hx⟩) (nodup_distinctValues vs)).1 hw]
        exact Or.inr rfl
    · exact Or.inl rfl
  obtain ⟨w, hw, hprobe⟩ := h.probeSlot_taken hs hcontent v
  rw [hget, Option.some.injEq] at hw
  rw [if_pos hw.symm] at hprobe
  exact walk_reach h.slots.nextSlot_eq (h.slots.homeSlot_lt _) (Nat.le_refl _) hreach hprobe hpath

/-- A new value leads to a free slot. -/
theorem Interned.walk_free (h : Interned hash vs b) {v : Bytes} (hv : v ∉ distinctValues vs) :
    ∃ idx < b.slotId.length, b.slotId.getD idx 0 = 0 ∧
      Reach b.slotId.length (fun t => (slotContent b.slotId t).isSome = true)
        (homeSlot b.slotId.length (hash v)) idx ∧
      walk (nextSlot b.slotId.length) (b.probeSlot (hash v) v) b.slotId.length
        (homeSlot b.slotId.length (hash v)) = some (.free idx) := by
  have hload := h.load
  obtain ⟨idx, hidx, hfree, hreach⟩ := h.slots.exists_free
    (m := (distinctValues vs).length) (show _ < b.slotId.length by omega) (fun _ hx => hx)
    (homeSlot b.slotId.length (hash v))
  refine ⟨idx, hidx, hfree, hreach, walk_reach h.slots.nextSlot_eq (h.slots.homeSlot_lt _)
    (Nat.le_refl _) hreach (by rw [probeSlot]; exact if_pos hfree) fun t ht htaken => ?_⟩
  obtain ⟨x, hx⟩ := Option.isSome_iff_exists.1 htaken
  obtain ⟨w, hw, hprobe⟩ := h.probeSlot_taken ht hx v
  have hne : w ≠ v := by
    rintro rfl
    exact hv (List.mem_of_getElem? hw)
  rw [if_neg hne] at hprobe
  exact Or.inl hprobe

/-- Interning a value again adds a row and counts it. -/
theorem Interned.intern_again (h : Interned hash vs b) {v : Bytes}
    (hv : v ∈ distinctValues vs) (hcount : (distinctValues vs).length < 2 ^ 32) :
    ∃ b', intern hash b v = some b' ∧ Interned hash (vs ++ [v]) b' := by
  have hd : distinctValues (vs ++ [v]) = distinctValues vs := by
    rw [distinctValues_concat, if_pos hv]
  have hlt := List.idxOf_lt_length_of_mem hv
  have hnat : (UInt32.ofNat ((distinctValues vs).idxOf v)).toNat = (distinctValues vs).idxOf v := by
    rw [UInt32.toNat_ofNat']
    omega
  have hget : (distinctValues vs)[(distinctValues vs).idxOf v]? = some v := by
    rw [List.getElem?_eq_getElem hlt, List.getElem_idxOf]
  refine ⟨_, by rw [intern, h.walk_found hv]; rfl, ?_⟩
  refine ⟨by rw [hd]; exact h.arena, by rw [hd]; exact h.length_values,
    by rw [hd]; exact h.values, ?_, ?_, by rw [hd]; exact h.used, h.room,
    by rw [hd]; exact h.load, by rw [hd]; exact h.slots⟩
  · show b.countById.modify _ _ = _
    rw [hd, hnat, h.counts]
    refine List.ext_getElem? fun i => ?_
    rw [List.getElem?_modify, List.getElem?_map, List.getElem?_map]
    cases hi : (distinctValues vs)[i]? with
    | none => rfl
    | some w =>
        have hw : (distinctValues vs).idxOf v = i ↔ w = v := by
          constructor
          · rintro rfl
            rw [hget, Option.some.injEq] at hi
            exact hi.symm
          · rintro rfl
            exact ((List.getElem?_inj (List.getElem?_eq_some_iff.1 hi).1
              (nodup_distinctValues vs)).1 (hi.trans hget.symm)).symm
        rw [Option.map_some, Option.map_eq_map, Option.map_some, Option.map_some,
          List.count_append]
        by_cases hwv : w = v
        · rw [if_pos (hw.2 hwv), hwv]
          simp
        · rw [if_neg (mt hw.1 hwv)]
          simp [Ne.symm hwv]
  · show b.rowIds ++ _ = _
    rw [hd, h.rowIds]
    simp

/-- Interning a new value gives it the next id. -/
theorem Interned.intern_new (h : Interned hash vs b) {v : Bytes}
    (hv : v ∉ distinctValues vs) (hcount : (distinctValues vs).length + 1 < 2 ^ 32)
    (hbytes : (distinctValues vs ++ [v]).flatten.length < 2 ^ 32) :
    ∃ b', intern hash b v = some b' ∧ Interned hash (vs ++ [v]) b' := by
  have hd : distinctValues (vs ++ [v]) = distinctValues vs ++ [v] := by
    rw [distinctValues_concat, if_neg hv]
  have hmem : ∀ w ∈ vs, w ∈ distinctValues vs := fun w hw => mem_distinctValues.2 hw
  obtain ⟨idx, hidx, hfree, hreach, hwalk⟩ := h.walk_free hv
  set b' : EqualityAttrBuf := { b with
    valueById := b.valueById ++ [⟨UInt32.ofNat b.arena.length, UInt32.ofNat v.length⟩]
    arena := b.arena ++ v
    countById := b.countById ++ [1]
    rowIds := b.rowIds ++ [UInt32.ofNat b.valueById.length]
    slotHash := b.slotHash.set idx (hash v)
    slotId := b.slotId.set idx (UInt32.ofNat b.valueById.length + 1)
    used := b.used + 1 } with hb'
  have hintern : intern hash b v =
      if b'.slotId.length * 7 ≤ b'.used * 10 then b'.grow else some b' := by
    rw [intern, hwalk]
    rfl
  have hlast : (distinctValues vs ++ [v]).getD (distinctValues vs).length [] = v := by
    rw [List.getD_eq_getElem?_getD, List.getElem?_concat_length]
    rfl
  have hslots : Slots hash (distinctValues vs ++ [v]) (· < (distinctValues vs ++ [v]).length)
      (b'.slotHash, b'.slotId) := by
    have hkeep : ∀ x < (distinctValues vs).length,
        (distinctValues vs ++ [v]).getD x [] = (distinctValues vs).getD x [] := fun x hx => by
      rw [List.getD_eq_getElem?_getD, List.getElem?_append_left hx, ← List.getD_eq_getElem?_getD]
    have hset := (h.slots.congr_values hkeep).set (x := (distinctValues vs).length)
      (v := UInt32.ofNat b.valueById.length + 1) (Nat.lt_irrefl _)
      (by
        rw [h.length_values, UInt32.toNat_add, UInt32.toNat_ofNat']
        show (_ + 1) % _ = _
        omega) hidx hfree (by rw [hlast]; exact hreach)
    rw [hlast] at hset
    exact hset.congr fun x => by
      rw [List.length_append, List.length_singleton]
      omega
  have hvalues : ∀ (i : ℕ) (w : Bytes), (distinctValues vs ++ [v])[i]? = some w →
      ∃ ref : ValueRef, b'.valueById[i]? = some ref ∧ HasAt b'.arena ref.offset.toNat w ∧
        ref.len.toNat = w.length := by
    intro i w hw
    rcases Nat.lt_trichotomy i (distinctValues vs).length with hi | hi | hi
    · rw [List.getElem?_append_left hi] at hw
      obtain ⟨ref, href, hat, hlen⟩ := h.values i w hw
      refine ⟨ref, ?_, hat.append _, hlen⟩
      show (b.valueById ++ _)[i]? = _
      rw [List.getElem?_append_left (by rw [h.length_values]; exact hi), href]
    · rw [hi, List.getElem?_concat_length, Option.some.injEq] at hw
      subst hw
      rw [List.flatten_append, List.length_append, ← h.arena] at hbytes
      have hv' : v.length < 2 ^ 32 := by
        have : ([v] : List Bytes).flatten.length = v.length := by simp
        omega
      refine ⟨⟨UInt32.ofNat b.arena.length, UInt32.ofNat v.length⟩, ?_, ?_, ?_⟩
      · show (b.valueById ++ _)[i]? = _
        rw [hi, ← h.length_values, List.getElem?_concat_length]
      · rw [UInt32.toNat_ofNat', Nat.mod_eq_of_lt (by omega)]
        simpa using HasAt.intro b.arena v []
      · rw [UInt32.toNat_ofNat', Nat.mod_eq_of_lt hv']
    · rw [List.getElem?_eq_none (by simp; omega)] at hw
      cases hw
  have hcounts : b'.countById =
      (distinctValues vs ++ [v]).map fun w => UInt32.ofNat ((vs ++ [v]).count w) := by
    show b.countById ++ [1] = _
    rw [List.map_append, h.counts]
    congr 1
    · refine List.map_congr_left fun w hw => ?_
      have hwv : v ≠ w := by
        rintro rfl
        exact hv hw
      simp [List.count_append, hwv]
    · have hzero : vs.count v = 0 := List.count_eq_zero.2 (mt (hmem v) hv)
      simp [List.count_append, hzero]
  have hids : b'.rowIds =
      (vs ++ [v]).map fun w => UInt32.ofNat ((distinctValues vs ++ [v]).idxOf w) := by
    show b.rowIds ++ [_] = _
    rw [List.map_append, h.rowIds]
    congr 1
    · exact List.map_congr_left fun w hw => by rw [List.idxOf_append_of_mem (hmem w hw)]
    · rw [List.map_singleton, List.idxOf_append_of_notMem hv, h.length_values]
      simp
  have hinterned : ∀ sl : List UInt64 × List UInt32, 1024 ≤ sl.2.length →
      (distinctValues vs ++ [v]).length * 10 < sl.2.length * 7 →
      Slots hash (distinctValues vs ++ [v]) (· < (distinctValues vs ++ [v]).length) sl →
      Interned hash (vs ++ [v]) { b' with slotHash := sl.1, slotId := sl.2 } := by
    intro sl hroom hload hsl
    rw [← hd] at hload hsl hvalues
    refine ⟨?_, ?_, hvalues, hd ▸ hcounts, hd ▸ hids, ?_, hroom, hload, hsl⟩
    · simp [hb', hd, h.arena]
    · simp [hb', hd, h.length_values]
    · simp [hb', hd, h.used]
  have hload := h.load
  have hroom := h.room
  have hused : b'.used = (distinctValues vs ++ [v]).length := by simp [hb', h.used]
  have hn : b'.slotId.length = b.slotId.length := by simp [hb']
  have hlen : (distinctValues vs ++ [v]).length = (distinctValues vs).length + 1 := by simp
  rw [hintern, hused]
  split
  · next hfull =>
      obtain ⟨sl, hgrow, hsl, hslots'⟩ := hslots.grow (m := (distinctValues vs ++ [v]).length)
        (by omega) (fun _ hx => hx)
      exact ⟨_, hgrow, hinterned sl (by omega) (by omega) hslots'⟩
  · exact ⟨b', rfl, hinterned (b'.slotHash, b'.slotId) (hroom.trans_eq hn.symm)
      (Nat.lt_of_not_le ‹_›) hslots⟩

theorem Interned.intern (h : Interned hash vs b) (v : Bytes)
    (hbytes : (distinctValues (vs ++ [v])).flatten.length < 2 ^ 32) :
    ∃ b', EqualityAttrBuf.intern hash b v = some b' ∧ Interned hash (vs ++ [v]) b' := by
  have hcount := length_lt_of_bytes (nodup_distinctValues _) hbytes
  rw [distinctValues_concat] at hbytes hcount
  by_cases hv : v ∈ distinctValues vs
  · rw [if_pos hv] at hcount
    exact h.intern_again hv (by omega)
  · rw [if_neg hv] at hbytes hcount
    rw [List.length_append, List.length_singleton] at hcount
    exact h.intern_new hv (by omega) hbytes

theorem Interned.length_rowIds (h : Interned hash vs b) : b.rowIds.length = vs.length := by
  rw [h.rowIds, List.length_map]

/-- A row's id is the place of its value among the distinct values. -/
theorem Interned.rowId_eq (h : Interned hash vs b) (hcount : (distinctValues vs).length < 2 ^ 32)
    {k : ℕ} {v : Bytes} (hk : vs[k]? = some v) :
    ∃ id, b.rowIds[k]? = some id ∧ id.toNat = (distinctValues vs).idxOf v ∧
      (distinctValues vs)[id.toNat]? = some v := by
  have hv : v ∈ distinctValues vs := mem_distinctValues.2 (List.mem_of_getElem? hk)
  have hlt := List.idxOf_lt_length_of_mem hv
  have hnat : (UInt32.ofNat ((distinctValues vs).idxOf v)).toNat = (distinctValues vs).idxOf v := by
    rw [UInt32.toNat_ofNat']
    omega
  refine ⟨_, by rw [h.rowIds, List.getElem?_map, hk, Option.map_some], hnat, ?_⟩
  rw [hnat, List.getElem?_eq_getElem hlt, List.getElem_idxOf]

end Interned

/-! ### Interning a sequence -/

theorem toFinset_distinctValues (vs : List Bytes) : (distinctValues vs).toFinset = vs.toFinset := by
  ext v
  rw [List.mem_toFinset, List.mem_toFinset, mem_distinctValues]

theorem length_distinctValues (vs : List Bytes) :
    (distinctValues vs).length = vs.toFinset.card := by
  rw [← toFinset_distinctValues, List.toFinset_card_of_nodup (nodup_distinctValues vs)]

/-- Values keep their place when more are interned. -/
theorem distinctValues_append (vs ws : List Bytes) :
    ∃ more, distinctValues (vs ++ ws) = distinctValues vs ++ more := by
  induction ws using List.reverseRecOn with
  | nil => exact ⟨[], by simp⟩
  | append_singleton ws w ih =>
      obtain ⟨more, hmore⟩ := ih
      rw [← List.append_assoc, distinctValues_concat, hmore]
      split
      · exact ⟨more, rfl⟩
      · exact ⟨more ++ [w], List.append_assoc ..⟩

theorem internAll_interned (hash : Bytes → UInt64) {vs : List Bytes}
    (hbytes : (distinctValues vs).flatten.length < 2 ^ 32) :
    ∃ b, internAll hash vs = some b ∧ Interned hash vs b := by
  induction vs using List.reverseRecOn with
  | nil => exact ⟨{}, rfl, interned_nil hash⟩
  | append_singleton vs v ih =>
      have hbefore : (distinctValues vs).flatten.length < 2 ^ 32 := by
        obtain ⟨more, hmore⟩ := distinctValues_append vs [v]
        rw [hmore, List.flatten_append, List.length_append] at hbytes
        omega
      obtain ⟨b, hb, hinterned⟩ := ih hbefore
      obtain ⟨b', hintern, hinterned'⟩ := hinterned.intern v hbytes
      refine ⟨b', ?_, hinterned'⟩
      rw [internAll] at hb ⊢
      rw [List.foldlM_append, hb]
      simpa using hintern

/-- Interning gives every string its own id, in the order of their first
occurrence and without gaps, for any hash function. A count is the number of
occurrences modulo `2 ^ 32`. -/
theorem internAll_faithful (hash : Bytes → UInt64) (vs : List Bytes)
    (hbytes : (distinctValues vs).flatten.length < 2 ^ 32) :
    ∃ b, internAll hash vs = some b ∧ b.rowIds.length = vs.length ∧
      (∀ (k : ℕ) v, vs[k]? = some v → ∃ id, b.rowIds[k]? = some id ∧ b.valueOf id.toNat = v ∧
        ∃ n, b.countById[id.toNat]? = some n ∧ n.toNat = vs.count v % 2 ^ 32) ∧
      (∀ k < vs.length, ∀ l < vs.length, b.rowIds[k]? = b.rowIds[l]? ↔ vs[k]? = vs[l]?) ∧
      b.valueById.length = vs.toFinset.card ∧
      (∀ (k : ℕ) v, vs[k]? = some v → v ∉ vs.take k →
        b.rowIds[k]?.map UInt32.toNat = some (vs.take k).toFinset.card) ∧
      ∃ s < b.slotId.length, b.slotId.getD s 0 = 0 := by
  obtain ⟨b, hb, h⟩ := internAll_interned hash hbytes
  have hcount := length_lt_of_bytes (nodup_distinctValues vs) hbytes
  have hid {k : ℕ} {v : Bytes} (hk : vs[k]? = some v) := h.rowId_eq (by omega) hk
  refine ⟨b, hb, h.length_rowIds, fun k v hk => ?_, fun k hk l hl => ?_,
    by rw [h.length_values, length_distinctValues], fun k v hk hnew => ?_, ?_⟩
  · obtain ⟨id, hrow, -, hget⟩ := hid hk
    refine ⟨id, hrow, h.valueOf_eq hget, _, by rw [h.counts, List.getElem?_map, hget]; rfl, ?_⟩
    rw [UInt32.toNat_ofNat']
  · obtain ⟨id, hrow, hidx, hget⟩ := hid (List.getElem?_eq_getElem hk)
    obtain ⟨id', hrow', hidx', hget'⟩ := hid (List.getElem?_eq_getElem hl)
    rw [hrow, hrow', List.getElem?_eq_getElem hk, List.getElem?_eq_getElem hl, Option.some.injEq,
      Option.some.injEq]
    constructor
    · rintro rfl
      exact Option.some.inj (hget.symm.trans hget')
    · intro heq
      rw [← UInt32.toNat_inj, hidx, hidx', heq]
  · obtain ⟨id, hrow, hidx, -⟩ := hid hk
    -- the distinct values of the first `k` rows come first, then `v`
    obtain ⟨hlt, rfl⟩ := List.getElem?_eq_some_iff.1 hk
    obtain ⟨more, hmore⟩ := distinctValues_append (vs.take (k + 1)) (vs.drop (k + 1))
    have hnew' : vs[k] ∉ distinctValues (vs.take k) := mt mem_distinctValues.1 hnew
    rw [List.take_append_drop, ← List.take_append_getElem hlt, distinctValues_concat,
      if_neg hnew'] at hmore
    rw [hrow, Option.map_some, hidx, hmore, List.append_assoc, List.idxOf_append_of_notMem hnew',
      List.singleton_append, List.idxOf_cons_self, length_distinctValues, Nat.add_zero]
  · have hload := h.load
    obtain ⟨s, hs, hfree, -⟩ := h.slots.exists_free (show (distinctValues vs).length <
      b.slotId.length by omega) (fun _ hx => hx) 0
    exact ⟨s, hs, hfree⟩

theorem internAll_faithful_collisions : ∃ b,
    (distinctValues [[7], [8], [7]]).flatten.length < 2 ^ 32 ∧
    internAll (fun _ => 0) [[7], [8], [7]] = some b ∧
    b.rowIds[0]? = b.rowIds[2]? ∧ b.rowIds[0]? ≠ b.rowIds[1]? := by
  obtain ⟨b, hb, -, -, hsame, -⟩ := internAll_faithful (fun _ => 0) [[7], [8], [7]] (by decide)
  exact ⟨b, by decide, hb, (hsame 0 (by decide) 2 (by decide)).2 rfl,
    fun h => absurd ((hsame 0 (by decide) 1 (by decide)).1 h) (by decide)⟩

theorem distinctValues_replicate (n : ℕ) (v : Bytes) :
    distinctValues (List.replicate (n + 1) v) = [v] := by
  induction n with
  | zero => simp [distinctValues]
  | succ n ih => rw [List.replicate_succ', distinctValues_concat, ih, if_pos (by simp)]

/-- The count of a string that occurs `2 ^ 32` times is 0. -/
theorem countById_wraps : ∃ vs b, (distinctValues vs).flatten.length < 2 ^ 32 ∧
    internAll (fun _ => 0) vs = some b ∧ vs.count [] = 2 ^ 32 ∧ b.countById = [0] := by
  obtain ⟨n, hn⟩ : ∃ n, n + 1 = 2 ^ 32 := ⟨2 ^ 32 - 1, by decide⟩
  have hdistinct := distinctValues_replicate n []
  obtain ⟨b, hb, h⟩ := internAll_interned (fun _ => 0)
    (show (distinctValues (List.replicate (n + 1) [])).flatten.length < 2 ^ 32 by
      rw [hdistinct]
      decide)
  refine ⟨_, b, by rw [hdistinct]; decide, hb, by rw [List.count_replicate_self, hn], ?_⟩
  rw [h.counts, hdistinct, List.map_singleton, List.count_replicate_self, hn]
  decide

end EqualityAttrBuf

end BitLSM
