import Mathlib.Data.List.Basic

/-!
Forward cursors and what they yield.

A cursor state stands on an element, or on none when it is exhausted, and
can be moved on. `Yields s xs t` is a whole scan from `s`: the elements `xs`
come up one after another and the cursor is exhausted in `t`. A scan proof
says how a state relates to the elements still to come, and follows them.
-/

/-- A state type with a current element and a move. The move is `none` where
the program is undefined. -/
structure Cursor (σ α : Type*) where
  head : σ → Option α
  next : σ → Option σ

namespace Cursor

variable {σ α : Type*} {c : Cursor σ α}

inductive Yields (c : Cursor σ α) : σ → List α → σ → Prop
  | done {s : σ} : c.head s = none → Yields c s [] s
  | more {s t u : σ} {x : α} {xs : List α} :
      c.head s = some x → c.next s = some t → Yields c t xs u → Yields c s (x :: xs) u

/-- The elements from `s` on and the state behind them, in at most `n` looks. -/
def collect (c : Cursor σ α) : ℕ → σ → Option (List α × σ)
  | 0, _ => none
  | n + 1, s =>
      match c.head s with
      | none => some ([], s)
      | some x => (c.next s).bind fun t => (c.collect n t).map fun (xs, u) => (x :: xs, u)

theorem yields_of_collect {n : ℕ} {s t : σ} {xs : List α} (h : c.collect n s = some (xs, t)) :
    c.Yields s xs t := by
  induction n generalizing s xs with
  | zero => cases h
  | succ n ih =>
      rw [collect] at h
      cases hhead : c.head s with
      | none =>
          rw [hhead] at h
          obtain ⟨rfl, rfl⟩ := Prod.mk.inj (Option.some.inj h)
          exact .done hhead
      | some x =>
          rw [hhead] at h
          obtain ⟨mid, hnext, h⟩ := Option.bind_eq_some_iff.1 h
          obtain ⟨⟨rest, u⟩, hrest, heq⟩ := Option.map_eq_some_iff.1 h
          obtain ⟨rfl, rfl⟩ := Prod.mk.inj heq
          exact .more hhead hnext (ih hrest)

theorem collect_of_yields {n : ℕ} {s t : σ} {xs : List α} (h : c.Yields s xs t)
    (hn : xs.length < n) : c.collect n s = some (xs, t) := by
  induction h generalizing n with
  | done hhead =>
      obtain ⟨n, rfl⟩ := Nat.exists_eq_add_of_lt hn
      rw [List.length_nil, Nat.zero_add, collect, hhead]
  | more hhead hnext _ ih =>
      rw [List.length_cons] at hn
      obtain ⟨n, rfl⟩ := Nat.exists_eq_add_one_of_ne_zero (Nat.ne_zero_of_lt hn)
      rw [collect, hhead]
      simp only [hnext, Option.bind_some, ih (Nat.lt_of_succ_lt_succ hn), Option.map_some]

end Cursor
