import BitLSM.Lib.Cursor

/-!
Cursors that may stop early.

A cursor over something that can fail has a status: exhausted with a good
status means the end, exhausted with a bad one means that elements are
missing. `Delivers s xs` says that the cursor brings up `xs` one after
another from `s` on, and that it may stop on the way only with a bad status
and only if failures are possible at all. `inv` holds at every state up to
there, so that the cursor can be put back from any of them.
-/

namespace Cursor

variable {σ α β : Type*}

/-- `shows y x` reads the element `x` off what the cursor stands on. -/
inductive Delivers (c : Cursor σ α) (ok : σ → Prop) (shows : α → β → Prop) (inv : σ → Prop)
    (faulty : Prop) : σ → List β → Prop
  | done {s : σ} : inv s → c.head s = none → ok s → Delivers c ok shows inv faulty s []
  | failed {s : σ} {xs : List β} : c.head s = none → ¬ok s → faulty →
      Delivers c ok shows inv faulty s xs
  | more {s t : σ} {y : α} {x : β} {xs : List β} : inv s → c.head s = some y → shows y x → ok s →
      c.next s = some t → Delivers c ok shows inv faulty t xs →
      Delivers c ok shows inv faulty s (x :: xs)

namespace Delivers

variable {c : Cursor σ α} {ok : σ → Prop} {shows : α → β → Prop} {inv : σ → Prop} {faulty : Prop}
  {s : σ} {xs : List β}

theorem inv_of_ok (h : c.Delivers ok shows inv faulty s xs) (hok : ok s) : inv s := by
  cases h with
  | done hs | more hs => exact hs
  | failed _ hfailed => exact absurd hok hfailed

/-- The three cases, by what the cursor says of itself. -/
theorem cases_head (h : c.Delivers ok shows inv faulty s xs) :
    (c.head s = none ∧ ok s ∧ xs = []) ∨ (c.head s = none ∧ ¬ok s ∧ faulty) ∨
      ∃ y x rest t, c.head s = some y ∧ shows y x ∧ ok s ∧ c.next s = some t ∧ xs = x :: rest ∧
        c.Delivers ok shows inv faulty t rest := by
  cases h with
  | done _ hhead hok => exact Or.inl ⟨hhead, hok, rfl⟩
  | failed hhead hok hfaulty => exact Or.inr (Or.inl ⟨hhead, hok, hfaulty⟩)
  | more _ hhead hshows hok hnext hrest =>
      exact Or.inr (Or.inr ⟨_, _, _, _, hhead, hshows, hok, hnext, rfl, hrest⟩)

/-- A cursor that moves inside another one's states as `c` does delivers the
same there. -/
theorem map {τ : Type*} {c' : Cursor τ α} {ok' inv' : τ → Prop} {f : σ → τ}
    (hhead : ∀ s, c'.head (f s) = c.head s) (hnext : ∀ s, c'.next (f s) = (c.next s).map f)
    (hok : ∀ s, ok' (f s) ↔ ok s) (hinv : ∀ s, inv s → inv' (f s))
    (h : c.Delivers ok shows inv faulty s xs) : c'.Delivers ok' shows inv' faulty (f s) xs := by
  induction h with
  | @done s hs hend hgood => exact .done (hinv s hs) ((hhead s).trans hend) ((hok s).2 hgood)
  | @failed s _ hend hbad hfaulty =>
      exact .failed ((hhead s).trans hend) (mt (hok s).1 hbad) hfaulty
  | @more s t y x xs hs hhere hshows hgood hmove _ ih =>
      exact .more (hinv s hs) ((hhead s).trans hhere) hshows ((hok s).2 hgood)
        ((hnext s).trans (congrArg (Option.map f) hmove)) ih

end Delivers

end Cursor
