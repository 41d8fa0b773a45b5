import Mathlib.Data.Finset.Lattice.Fold
import Mathlib.Data.List.Sort
import Mathlib.Order.Lattice.Nat
import BitLSM.Lib.Bytes
import BitLSM.Lib.Binary64

/-!
What the index takes from its surroundings.

The hash function, the order `std::sort` leaves equal elements in, the
rounding of double arithmetic, the memory behind a string and the bytes of a
frozen bitmap are not decided by the repository. They are parameters here, with the documented
behaviour that the index relies on as fields.
-/

namespace BitLSM

open Wire

/-- A set of row ids; Roaring's operations are the exact set operations. -/
abbrev Roaring := Finset ℕ

/-- The members in ascending order. -/
def Roaring.toUint32Array (r : Roaring) : List ℕ :=
  (List.range (r.sup id + 1)).filter fun j => j ∈ r

/-- What `std::sort` requires of its comparison. -/
structure StrictWeak {α : Type} (lt : α → α → Bool) : Prop where
  irrefl : ∀ a, lt a a = false
  trans : ∀ a b c, lt a b = true → lt b c = true → lt a c = true
  negTrans : ∀ a b c, lt a c = true → lt a b = true ∨ lt b c = true

/-- `std::sort`: a rearrangement, ascending, with equal elements in any order. -/
structure StdSort where
  run : {α : Type} → (α → α → Bool) → List α → List α
  perm : ∀ {α : Type} (lt : α → α → Bool) (l : List α), (run lt l).Perm l
  sorted : ∀ {α : Type} (lt : α → α → Bool) (l : List α), StrictWeak lt →
    (run lt l).Pairwise fun a b => lt b a = false

/-- Double arithmetic and conversions, with any rounding. A conversion whose
value does not fit has an unspecified result. -/
structure Fpu where
  ofNat : ℕ → Binary64
  div : Binary64 → Binary64 → Binary64
  sub : Binary64 → Binary64 → Binary64
  abs : Binary64 → Binary64
  toUInt32 : Binary64 → UInt32

/-- `writeFrozen` and `frozenView`. A set of 32-bit ids has at most 65536 frozen
containers of 8 KiB, less than `2 ^ 32` bytes. -/
structure FrozenCodec where
  freeze : Roaring → Bytes
  view : Bytes → Roaring
  view_freeze : ∀ r, view (freeze r) = r
  freeze_pos : ∀ r, 0 < (freeze r).length
  freeze_lt : ∀ r, (∀ j ∈ r, j < 2 ^ 32) → (freeze r).length < 2 ^ 32

/-- The memory behind a `std::string`. -/
structure StdString where
  /-- The capacity of a string of `m` bytes after `resize(n)`. -/
  capacity : ℕ → ℕ → ℕ
  le_capacity : ∀ m n, n ≤ capacity m n

structure Runtime where
  hash : Bytes → UInt64
  sort : StdSort
  fpu : Fpu
  string : StdString
  frozen : FrozenCodec

section Key

variable {α β : Type} [LinearOrder β] {f : α → β} {lt : α → α → Bool}

/-- Comparing by a key in a linear order. -/
theorem strictWeak_key (hlt : ∀ a b, lt a b = true ↔ f a < f b) : StrictWeak lt where
  irrefl a := by
    rw [← Bool.not_eq_true, hlt]
    exact lt_irrefl _
  trans a b c := by
    rw [hlt, hlt, hlt]
    exact lt_trans
  negTrans a b c := by
    rw [hlt, hlt, hlt]
    exact fun h => (lt_or_ge (f a) (f b)).imp_right fun hge => lt_of_le_of_lt hge h

theorem StdSort.pairwise_key (s : StdSort) (hlt : ∀ a b, lt a b = true ↔ f a < f b)
    (l : List α) : ((s.run lt l).map f).Pairwise (· ≤ ·) := by
  rw [List.pairwise_map]
  refine (s.sorted _ l (strictWeak_key hlt)).imp fun {a b} h => ?_
  rw [← Bool.not_eq_true, hlt] at h
  exact not_lt.1 h

end Key

theorem Roaring.mem_toUint32Array {r : Roaring} {j : ℕ} : j ∈ r.toUint32Array ↔ j ∈ r := by
  rw [toUint32Array, List.mem_filter, List.mem_range, decide_eq_true_eq]
  refine ⟨And.right, fun h => ⟨?_, h⟩⟩
  have hle := Finset.le_sup (f := id) h
  simp only [id_eq] at hle
  omega

theorem Roaring.pairwise_toUint32Array (r : Roaring) : r.toUint32Array.Pairwise (· < ·) :=
  List.Pairwise.filter _ List.pairwise_lt_range

/-! ### One runtime

Sorting by insertion, arithmetic that cuts results off towards zero, and the
frozen form of bitmaps of at most one row. It is enough to run the index
on small tables. -/

def StdSort.insertion : StdSort where
  run lt l := l.insertionSort fun a b => lt b a = false
  perm lt l := List.perm_insertionSort _ l
  sorted lt l h := by
    have htotal : Std.Total fun a b => lt b a = false := ⟨fun a b => by
      by_contra hboth
      rw [not_or, Bool.not_eq_false, Bool.not_eq_false] at hboth
      have := h.trans a b a hboth.2 hboth.1
      rw [h.irrefl a] at this
      cases this⟩
    have htrans : IsTrans _ fun a b => lt b a = false := ⟨fun a b c hab hbc => by
      by_contra hac
      rw [Bool.not_eq_false] at hac
      rcases h.negTrans c b a hac with hcb | hba
      · rw [hbc] at hcb
        cases hcb
      · rw [hab] at hba
        cases hba⟩
    exact List.pairwise_insertionSort _ l

/-- The greatest binary64 with at most this magnitude, as long as it is finite. -/
def Binary64.ofMagnitude (n : ℕ) : Binary64 :=
  if n < 2 ^ 52 then ⟨BitVec.ofNat 64 n⟩
  else
    let e := n.log2 - 52
    ⟨BitVec.ofNat 64 ((e + 1) * 2 ^ 52 + (n / 2 ^ e - 2 ^ 52))⟩

def Fpu.truncating : Fpu where
  ofNat n := Binary64.ofMagnitude (n * 2 ^ 1074)
  div x y := Binary64.ofMagnitude (x.magnitude * 2 ^ 1074 / y.magnitude)
  sub x y :=
    let d := Binary64.ofMagnitude (x.scaled - y.scaled).natAbs
    if x.scaled < y.scaled then ⟨d.bits ||| BitVec.ofNat 64 (2 ^ 63)⟩ else d
  abs x := ⟨BitVec.ofNat 64 (x.bits.toNat % 2 ^ 63)⟩
  toUInt32 x := UInt32.ofNat (x.magnitude / 2 ^ 1074)

/-- The frozen form of no rows and of one row below 65536; other sets are
longer, with two bits in a byte. -/
def FrozenCodec.oneRow : FrozenCodec where
  freeze r :=
    if r = ∅ then [0xC6, 0x35, 0, 0]
    else if r = {r.sup id} ∧ r.sup id < 256 ^ 2 then
      leBytes 2 (r.sup id) ++ [0, 0, 0, 0, 2, 0xC6, 0xB5, 0, 0]
    else List.replicate 12 0xFF ++ (List.range (r.sup id / 2 + 1)).map fun k =>
      (if 2 * k ∈ r then 1 else 0) + if 2 * k + 1 ∈ r then 2 else 0
  view b :=
    if b.length = 4 then ∅
    else if b.length = 11 then {leVal (b.take 2)}
    else (Finset.range (2 * (b.length - 12))).filter fun j =>
      ((b.drop 12).getD (j / 2) 0).toNat.testBit (j % 2) = true
  view_freeze r := by
    by_cases hempty : r = ∅
    · simp [hempty]
    · rw [if_neg hempty]
      by_cases hone : r = {r.sup id} ∧ r.sup id < 256 ^ 2
      · rw [if_pos hone, if_neg (by simp), if_pos (by simp),
          List.take_left' (length_leBytes 2 _), leVal_leBytes, Nat.mod_eq_of_lt hone.2]
        exact hone.1.symm
      · rw [if_neg hone, if_neg (by simp), if_neg (by simp),
          List.drop_left' List.length_replicate, List.length_append, List.length_replicate,
          Nat.add_sub_cancel_left, List.length_map, List.length_range]
        ext j
        rw [Finset.mem_filter, Finset.mem_range]
        have hbit (hj : j / 2 < r.sup id / 2 + 1) :
            (((List.range (r.sup id / 2 + 1)).map fun k =>
              ((if 2 * k ∈ r then 1 else 0) + if 2 * k + 1 ∈ r then 2 else 0 : UInt8)).getD
                (j / 2) 0).toNat.testBit (j % 2) = true ↔ j ∈ r := by
          rw [List.getD_eq_getElem?_getD, List.getElem?_map, List.getElem?_range hj,
            Option.map_some, Option.getD_some]
          rcases Nat.mod_two_eq_zero_or_one j with hmod | hmod
          · rw [hmod, show 2 * (j / 2) = j by omega]
            by_cases hself : j ∈ r <;> by_cases hnext : j + 1 ∈ r <;>
              simp only [hself, hnext, if_true, if_false] <;> decide
          · rw [hmod, show 2 * (j / 2) + 1 = j by omega]
            by_cases hself : j ∈ r <;> by_cases hprev : 2 * (j / 2) ∈ r <;>
              simp only [hself, hprev, if_true, if_false] <;> decide
        constructor
        · rintro ⟨hj, htrue⟩
          exact (hbit (by omega)).1 htrue
        · intro hmem
          have hle : j ≤ r.sup id := Finset.le_sup (f := id) hmem
          exact ⟨by omega, (hbit (by omega)).2 hmem⟩
  freeze_pos r := by
    split
    · simp
    · split <;> simp
  freeze_lt r hr := by
    have hsup : r.sup id < 2 ^ 32 := (Finset.sup_lt_iff (by decide)).2 hr
    split
    · simp
    · split
      · simp
      · rw [List.length_append, List.length_replicate, List.length_map, List.length_range]
        omega

def Runtime.oneRow : Runtime where
  hash v := UInt64.ofNat v.length
  sort := .insertion
  fpu := .truncating
  string := ⟨fun m n => 2 * max m n, fun m n => by omega⟩
  frozen := .oneRow

end BitLSM
