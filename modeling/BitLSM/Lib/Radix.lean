import Mathlib.Algebra.Order.Ring.Nat
import Mathlib.Data.List.Lex
import Mathlib.Tactic.Ring

/-!
Numbers written in a base, the most significant digit first.

The value of a digit list is what the loop `acc = acc * b + d` computes. Lists
of one length whose digits are below the base are ordered by their values as
they are lexicographically.
-/

namespace Radix

theorem cons_le_cons_iff {α : Type*} [LinearOrder α] {a b : α} {l m : List α} :
    a :: l ≤ b :: m ↔ a < b ∨ a = b ∧ l ≤ m := by
  rw [le_iff_lt_or_eq, List.cons_lt_cons_iff, List.cons_eq_cons, le_iff_lt_or_eq]
  tauto

/-- The number the digits write in base `b`. -/
def value (b : ℕ) (ds : List ℕ) : ℕ := ds.foldl (fun acc d => acc * b + d) 0

theorem foldl_eq (b : ℕ) (ds : List ℕ) (acc : ℕ) :
    ds.foldl (fun acc d => acc * b + d) acc = acc * b ^ ds.length + value b ds := by
  induction ds generalizing acc with
  | nil => simp [value]
  | cons d ds ih =>
      have hd := ih (0 * b + d)
      simp only [value, List.foldl_cons, List.length_cons] at hd ⊢
      rw [ih, hd, value]
      ring

@[simp] theorem value_nil (b : ℕ) : value b [] = 0 := rfl

theorem value_cons (b d : ℕ) (ds : List ℕ) :
    value b (d :: ds) = d * b ^ ds.length + value b ds := by
  have h := foldl_eq b ds (0 * b + d)
  rw [value, List.foldl_cons, h, Nat.zero_mul, Nat.zero_add]

theorem value_append (b : ℕ) (ds es : List ℕ) :
    value b (ds ++ es) = value b ds * b ^ es.length + value b es := by
  rw [value, List.foldl_append, foldl_eq]
  rfl

theorem value_concat (b : ℕ) (ds : List ℕ) (d : ℕ) :
    value b (ds ++ [d]) = value b ds * b + d := by
  rw [value_append, List.length_singleton, Nat.pow_one, value_cons]
  simp

theorem value_replicate_zero (b n : ℕ) : value b (List.replicate n 0) = 0 := by
  induction n with
  | zero => rfl
  | succ n ih => rw [List.replicate_succ, value_cons, ih, Nat.zero_mul]

theorem value_lt {b : ℕ} {ds : List ℕ} (h : ∀ d ∈ ds, d < b) : value b ds < b ^ ds.length := by
  induction ds with
  | nil => simp
  | cons d ds ih =>
      have hd : d + 1 ≤ b := h d List.mem_cons_self
      have hds := ih fun e he => h e (List.mem_cons_of_mem d he)
      calc value b (d :: ds) = d * b ^ ds.length + value b ds := value_cons b d ds
        _ < d * b ^ ds.length + b ^ ds.length := Nat.add_lt_add_left hds _
        _ = (d + 1) * b ^ ds.length := by ring
        _ ≤ b * b ^ ds.length := Nat.mul_le_mul_right _ hd
        _ = b ^ (d :: ds).length := by rw [List.length_cons, Nat.pow_succ']

theorem value_eq_zero_iff {b : ℕ} (hb : 0 < b) {ds : List ℕ} :
    value b ds = 0 ↔ ∀ d ∈ ds, d = 0 := by
  induction ds with
  | nil => simp [value]
  | cons d ds ih => simp [value_cons, ih, hb.ne']

/-- The greatest number of a length has the greatest digits. -/
theorem value_add_one_iff {b : ℕ} {ds : List ℕ} (h : ∀ d ∈ ds, d < b) :
    value b ds + 1 = b ^ ds.length ↔ ∀ d ∈ ds, d + 1 = b := by
  induction ds with
  | nil => simp [value]
  | cons d ds ih =>
      have hd : d + 1 ≤ b := h d List.mem_cons_self
      have hrest := value_lt fun e he => h e (List.mem_cons_of_mem d he)
      rw [List.forall_mem_cons, ← ih fun e he => h e (List.mem_cons_of_mem d he), value_cons,
        List.length_cons, Nat.pow_succ']
      constructor
      · intro hvalue
        have hlast : b * b ^ ds.length ≤ (d + 1) * b ^ ds.length := by
          rw [Nat.succ_mul]
          omega
        obtain rfl : d + 1 = b := le_antisymm hd (Nat.le_of_mul_le_mul_right hlast (by omega))
        refine ⟨rfl, ?_⟩
        rw [Nat.succ_mul] at hvalue
        omega
      · rintro ⟨rfl, hvalue⟩
        rw [Nat.succ_mul]
        omega

/-- The lexicographically smaller list is the smaller number. -/
theorem value_lt_value {b : ℕ} {ds es : List ℕ} (hlen : ds.length = es.length)
    (hds : ∀ d ∈ ds, d < b) (h : ds < es) : value b ds < value b es := by
  induction ds generalizing es with
  | nil =>
      obtain rfl : es = [] := List.length_eq_zero_iff.1 hlen.symm
      exact absurd h (lt_irrefl _)
  | cons d ds ih =>
      cases es with
      | nil => simp at hlen
      | cons e es =>
          have hlen' : ds.length = es.length := Nat.succ.inj hlen
          have hds' : ∀ c ∈ ds, c < b := fun c hc => hds c (List.mem_cons_of_mem d hc)
          rw [value_cons, value_cons, hlen']
          rcases List.cons_lt_cons_iff.1 h with hde | ⟨rfl, htail⟩
          · -- the first digit outweighs whatever follows
            have hrest := value_lt hds'
            rw [hlen'] at hrest
            calc d * b ^ es.length + value b ds < (d + 1) * b ^ es.length := by
                  rw [Nat.succ_mul]
                  exact Nat.add_lt_add_left hrest _
              _ ≤ e * b ^ es.length := Nat.mul_le_mul_right _ hde
              _ ≤ e * b ^ es.length + value b es := Nat.le_add_right _ _
          · exact Nat.add_lt_add_left (ih hlen' hds' htail) _

theorem value_le_value_iff {b : ℕ} {ds es : List ℕ} (hlen : ds.length = es.length)
    (hds : ∀ d ∈ ds, d < b) (hes : ∀ e ∈ es, e < b) : value b ds ≤ value b es ↔ ds ≤ es := by
  constructor
  · intro h
    by_contra hlt
    exact absurd (value_lt_value hlen.symm hes (not_le.1 hlt)) (not_lt.2 h)
  · intro h
    rcases h.lt_or_eq with hlt | rfl
    · exact (value_lt_value hlen hds hlt).le
    · exact le_rfl

end Radix
