import Mathlib.Data.List.Forall2
import BitLSM.Lib.Transition

/-!
Two runs in lockstep.

`Option.Rel R` says that two computations are both undefined or both end in
related states. What relates each step relates whole runs.
-/

namespace Lockstep

variable {α β γ δ : Type*}

section Rel

variable {R : α → β → Prop} {S : γ → δ → Prop} {x : Option α} {y : Option β}

theorem rel_refl {R : α → α → Prop} (h : ∀ a, R a a) (x : Option α) : Option.Rel R x x := by
  cases x with
  | none => exact .none
  | some a => exact .some (h a)

theorem rel_bind {f : α → Option γ} {g : β → Option δ} (h : Option.Rel R x y)
    (hfg : ∀ a b, R a b → Option.Rel S (f a) (g b)) : Option.Rel S (x.bind f) (y.bind g) := by
  cases h with
  | none => exact .none
  | some hab => exact hfg _ _ hab

theorem rel_map {f : α → γ} {g : β → δ} (h : Option.Rel R x y)
    (hfg : ∀ a b, R a b → S (f a) (g b)) : Option.Rel S (x.map f) (y.map g) := by
  cases h with
  | none => exact .none
  | some hab => exact .some (hfg _ _ hab)

theorem bind_eq {f : α → Option γ} {g : β → Option γ} (h : Option.Rel R x y)
    (hfg : ∀ a b, R a b → f a = g b) : x.bind f = y.bind g := by
  cases h with
  | none => rfl
  | some hab => exact hfg _ _ hab

theorem map_eq {f : α → γ} {g : β → γ} (h : Option.Rel R x y)
    (hfg : ∀ a b, R a b → f a = g b) : x.map f = y.map g := by
  cases h with
  | none => rfl
  | some hab => exact congrArg some (hfg _ _ hab)

/-- Two computations with the same outcome. -/
theorem rel_of_common {P : α → γ → Prop} {Q : β → γ → Prop} {z : Option γ}
    (hx : Option.Rel P x z) (hy : Option.Rel Q y z) (h : ∀ a b c, P a c → Q b c → R a b) :
    Option.Rel R x y := by
  cases hx with
  | none => cases hy; exact .none
  | some hac =>
      cases hy with
      | some hbc => exact .some (h _ _ _ hac hbc)

end Rel

theorem getElem?_rel {R : α → β → Prop} {l : List α} {l' : List β} (h : List.Forall₂ R l l')
    (i : ℕ) : Option.Rel R l[i]? l'[i]? := by
  induction h generalizing i with
  | nil => exact .none
  | cons hab _ ih =>
      cases i with
      | zero => exact .some hab
      | succ i => exact ih i

theorem set_forall₂ {R : α → β → Prop} {l : List α} {l' : List β} (h : List.Forall₂ R l l')
    {a : α} {b : β} (hab : R a b) (i : ℕ) : List.Forall₂ R (l.set i a) (l'.set i b) := by
  induction h generalizing i with
  | nil => exact .nil
  | cons hfirst hrest ih =>
      cases i with
      | zero => exact .cons hab hrest
      | succ i => exact .cons hfirst (ih i)

/-- Whole runs. -/
theorem run_rel {σ τ : Type*} {R : σ → τ → Prop} {step : α → σ → Option σ}
    {step' : α → τ → Option τ} (hstep : ∀ a s t, R s t → Option.Rel R (step a s) (step' a t))
    {s : σ} {t : τ} (h : R s t) (actions : List α) :
    Option.Rel R (Transition.run step s actions) (Transition.run step' t actions) := by
  induction actions generalizing s t with
  | nil => exact .some h
  | cons a actions ih =>
      rw [Transition.run_cons, Transition.run_cons]
      exact rel_bind (hstep a s t h) fun s' t' h' => ih h'

end Lockstep
