import Mathlib.Data.List.Basic

/-!
Runs of a system that takes one action after another.

An action maps a state to the next one, or to `none` where it cannot be
taken. What holds at the start and is kept by every action holds in every
state a run reaches.
-/

namespace Transition

variable {σ α : Type*}

/-- The state after the actions, in order. -/
def run (step : α → σ → Option σ) (s : σ) (actions : List α) : Option σ :=
  actions.foldlM (fun s a => step a s) s

variable {step : α → σ → Option σ}

theorem run_cons {s : σ} {a : α} {actions : List α} :
    run step s (a :: actions) = (step a s).bind fun s => run step s actions := rfl

theorem run_append {s : σ} {first second : List α} :
    run step s (first ++ second) = (run step s first).bind fun s => run step s second :=
  List.foldlM_append

/-- Induction along a run, for what depends on the actions still to come. -/
theorem run_induction {P : List α → σ → Prop}
    (hstep : ∀ a actions s s', P (a :: actions) s → step a s = some s' → P actions s') {s s' : σ}
    {actions : List α} (h : P actions s) (hrun : run step s actions = some s') : P [] s' := by
  induction actions generalizing s with
  | nil =>
      obtain rfl : s = s' := Option.some.inj hrun
      exact h
  | cons a actions ih =>
      rw [run_cons] at hrun
      obtain ⟨mid, hmid, hrest⟩ := Option.bind_eq_some_iff.1 hrun
      exact ih (hstep a actions s mid h hmid) hrest

/-- The invariant rule. -/
theorem invariant {P : σ → Prop} (hstep : ∀ a s s', P s → step a s = some s' → P s') {s s' : σ}
    {actions : List α} (h : P s) (hrun : run step s actions = some s') : P s' :=
  run_induction (P := fun _ => P) (fun a _ s s' => hstep a s s') h hrun

end Transition
