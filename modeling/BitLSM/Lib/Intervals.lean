import Mathlib.Data.List.Induction
import Mathlib.Tactic.Common

/-!
Lists of closed intervals of positions.

`absorb` adds an interval to a list in ascending order, and joins it with the
last one when they overlap or touch. `cut` takes the positions of an interval
that a test keeps, as maximal intervals. Both leave the intervals apart: at
least one position lies between any two.
-/

namespace Intervals

/-- Position `i` is in one of the intervals. -/
def Covers (ivs : List (ℕ × ℕ)) (i : ℕ) : Prop := ∃ iv ∈ ivs, iv.1 ≤ i ∧ i ≤ iv.2

/-- No interval is empty, and each ends before the position in front of the next. -/
structure Apart (ivs : List (ℕ × ℕ)) : Prop where
  proper : ∀ iv ∈ ivs, iv.1 ≤ iv.2
  separated : ivs.Pairwise fun a b => a.2 + 1 < b.1

@[simp] theorem not_covers_nil (i : ℕ) : ¬Covers [] i := by
  rintro ⟨iv, hiv, -⟩
  cases hiv

theorem covers_append {xs ys : List (ℕ × ℕ)} {i : ℕ} :
    Covers (xs ++ ys) i ↔ Covers xs i ∨ Covers ys i := by
  simp only [Covers, List.mem_append, or_and_right, exists_or]

theorem covers_singleton {iv : ℕ × ℕ} {i : ℕ} : Covers [iv] i ↔ iv.1 ≤ i ∧ i ≤ iv.2 := by
  simp only [Covers, List.mem_singleton, exists_eq_left]

theorem covers_cons {iv : ℕ × ℕ} {ivs : List (ℕ × ℕ)} {i : ℕ} :
    Covers (iv :: ivs) i ↔ (iv.1 ≤ i ∧ i ≤ iv.2) ∨ Covers ivs i := by
  rw [← List.singleton_append, covers_append, covers_singleton]

theorem apart_nil : Apart [] := ⟨by simp, List.Pairwise.nil⟩

theorem Apart.append {xs ys : List (ℕ × ℕ)} (hx : Apart xs) (hy : Apart ys)
    (h : ∀ a ∈ xs, ∀ b ∈ ys, a.2 + 1 < b.1) : Apart (xs ++ ys) := by
  refine ⟨fun iv hiv => ?_, List.pairwise_append.2 ⟨hx.separated, hy.separated, h⟩⟩
  rcases List.mem_append.1 hiv with hmem | hmem
  · exact hx.proper iv hmem
  · exact hy.proper iv hmem

theorem apart_singleton {iv : ℕ × ℕ} (h : iv.1 ≤ iv.2) : Apart [iv] :=
  ⟨by simpa using h, List.pairwise_singleton _ _⟩

/-! ### Joining -/

/-- Join `s` with the last interval, or add it behind. -/
def absorb (ivs : List (ℕ × ℕ)) (s : ℕ × ℕ) : List (ℕ × ℕ) :=
  match ivs.getLast? with
  | none => [s]
  | some back =>
      if s.1 ≤ back.2 + 1 then ivs.dropLast ++ [(back.1, max back.2 s.2)] else ivs ++ [s]

@[simp] theorem absorb_nil (s : ℕ × ℕ) : absorb [] s = [s] := rfl

theorem absorb_concat (ivs : List (ℕ × ℕ)) (back s : ℕ × ℕ) :
    absorb (ivs ++ [back]) s =
      if s.1 ≤ back.2 + 1 then ivs ++ [(back.1, max back.2 s.2)] else ivs ++ [back] ++ [s] := by
  rw [absorb, List.getLast?_concat, List.dropLast_concat]

/-- What the intervals are after the selections `sels`. -/
structure Joined (sels ivs : List (ℕ × ℕ)) : Prop where
  apart : Apart ivs
  starts : ∀ iv ∈ ivs, ∃ s ∈ sels, iv.1 = s.1
  covers : ∀ i, Covers ivs i ↔ Covers sels i

theorem Joined.absorb {sels ivs : List (ℕ × ℕ)} {s : ℕ × ℕ} (h : Joined sels ivs)
    (hs : s.1 ≤ s.2) (hlast : ∀ x ∈ sels, x.1 ≤ s.1) :
    Joined (sels ++ [s]) (absorb ivs s) := by
  have hstart (iv : ℕ × ℕ) (hiv : iv ∈ ivs) : iv.1 ≤ s.1 := by
    obtain ⟨x, hx, heq⟩ := h.starts iv hiv
    exact heq ▸ hlast x hx
  have hold (iv : ℕ × ℕ) (hiv : iv ∈ ivs) : ∃ x ∈ sels ++ [s], iv.1 = x.1 := by
    obtain ⟨x, hx, heq⟩ := h.starts iv hiv
    exact ⟨x, List.mem_append_left _ hx, heq⟩
  rcases List.eq_nil_or_concat ivs with rfl | ⟨front, back, rfl⟩
  · refine ⟨apart_singleton hs, fun iv hiv => ⟨s, by simp, by rw [List.mem_singleton.1 hiv]⟩,
      fun i => ?_⟩
    rw [absorb_nil, covers_append, ← h.covers]
    simp
  · rw [List.concat_eq_append] at h hstart hold ⊢
    have hback : back ∈ front ++ [back] := by simp
    have hbackStart := hstart back hback
    obtain ⟨hproper, hsep⟩ := h.apart
    rw [List.pairwise_append] at hsep
    have hfront : Apart front :=
      ⟨fun iv hiv => hproper iv (List.mem_append_left _ hiv), hsep.1⟩
    rw [absorb_concat]
    split
    · next htouch =>
        -- the last interval grows; it keeps its start
        refine ⟨hfront.append (apart_singleton ?_) fun a ha b hb => ?_, fun iv hiv => ?_,
          fun i => ?_⟩
        · have := hproper back hback
          simp only
          omega
        · rw [List.mem_singleton.1 hb]
          exact hsep.2.2 a ha back (by simp)
        · rcases List.mem_append.1 hiv with hmem | hmem
          · exact hold iv (List.mem_append_left _ hmem)
          · rw [List.mem_singleton.1 hmem]
            exact hold back hback
        · rw [covers_append, covers_append, covers_singleton, covers_singleton, ← h.covers,
            covers_append, covers_singleton, or_assoc]
          have hgrow : back.1 ≤ i ∧ i ≤ max back.2 s.2 ↔
              (back.1 ≤ i ∧ i ≤ back.2) ∨ s.1 ≤ i ∧ i ≤ s.2 := by
            have := hproper back hback
            omega
          rw [hgrow]
    · next hgap =>
        refine ⟨h.apart.append (apart_singleton hs) fun a ha b hb => ?_, fun iv hiv => ?_,
          fun i => ?_⟩
        · rw [List.mem_singleton.1 hb]
          rcases List.mem_append.1 ha with hmem | hmem
          · have := hsep.2.2 a hmem back (by simp)
            have := hproper back hback
            omega
          · rw [List.mem_singleton.1 hmem]
            omega
        · rcases List.mem_append.1 hiv with hmem | hmem
          · exact hold iv hmem
          · exact ⟨s, by simp, by rw [List.mem_singleton.1 hmem]⟩
        · rw [covers_append, h.covers, covers_append]

/-- All of them, in the order of their starts. -/
theorem joined_foldl {sels : List (ℕ × ℕ)} (hproper : ∀ s ∈ sels, s.1 ≤ s.2)
    (hsorted : sels.Pairwise fun a b => a.1 ≤ b.1) : Joined sels (sels.foldl absorb []) := by
  induction sels using List.reverseRecOn with
  | nil => exact ⟨apart_nil, by simp, fun i => Iff.rfl⟩
  | append_singleton sels s ih =>
      rw [List.pairwise_append] at hsorted
      rw [List.foldl_append, List.foldl_cons, List.foldl_nil]
      exact (ih (fun x hx => hproper x (List.mem_append_left _ hx)) hsorted.1).absorb
        (hproper s (by simp)) fun x hx => hsorted.2.2 x hx s (by simp)

/-! ### Cutting -/

/-- The maximal intervals of positions `i .. i + n - 1` that `keep` keeps, with
one open since `start`. -/
def cut (keep : ℕ → Bool) : Option ℕ → ℕ → ℕ → List (ℕ × ℕ)
  | none, _, 0 => []
  | some start, i, 0 => [(start, i - 1)]
  | none, i, n + 1 => if keep i then cut keep (some i) (i + 1) n else cut keep none (i + 1) n
  | some start, i, n + 1 =>
      if keep i then cut keep (some start) (i + 1) n
      else (start, i - 1) :: cut keep none (i + 1) n

/-- What `cut` takes out of `lo .. hi - 1`. -/
structure Cut (keep : ℕ → Bool) (lo hi : ℕ) (ivs : List (ℕ × ℕ)) : Prop where
  apart : Apart ivs
  inside : ∀ iv ∈ ivs, lo ≤ iv.1 ∧ iv.2 < hi
  covers : ∀ j, Covers ivs j ↔ (lo ≤ j ∧ j < hi) ∧ keep j = true

theorem cut_spec {keep : ℕ → Bool} {start : Option ℕ} {i : ℕ}
    (hstart : ∀ s, start = some s → s < i)
    (hopen : ∀ j, start.getD i ≤ j → j < i → keep j = true) (n : ℕ) :
    Cut keep (start.getD i) (i + n) (cut keep start i n) := by
  induction n generalizing start i with
  | zero =>
      cases start with
      | none =>
          simp only [Option.getD_none]
          refine ⟨apart_nil, by simp [cut], fun j => ?_⟩
          exact ⟨fun hj => absurd hj (not_covers_nil j), fun hj => by omega⟩
      | some s =>
          have hs := hstart s rfl
          simp only [Option.getD_some] at hopen ⊢
          refine ⟨apart_singleton (by simp only; omega), fun iv hiv => ?_, fun j => ?_⟩
          · rw [List.mem_singleton.1 hiv]
            simp only
            omega
          · rw [cut, covers_singleton]
            simp only
            refine ⟨fun hj => ⟨by omega, hopen j hj.1 (by omega)⟩, fun hj => by omega⟩
  | succ n ih =>
      have hassoc : i + (n + 1) = i + 1 + n := by omega
      rw [hassoc]
      by_cases hkeep : keep i = true
      · -- the open interval goes on, or one opens here
        have hgo : cut keep start i (n + 1) = cut keep (some (start.getD i)) (i + 1) n := by
          cases start <;> simp [cut, hkeep]
        have hle : start.getD i ≤ i := by
          cases start with
          | none => exact Nat.le_refl i
          | some s => exact Nat.le_of_lt (hstart s rfl)
        rw [hgo]
        refine @ih (some (start.getD i)) (i + 1) (fun s hs => ?_) fun j hj hji => ?_
        · rw [← Option.some.inj hs]
          omega
        · rcases Nat.lt_succ_iff_lt_or_eq.1 hji with hlt | rfl
          · exact hopen j hj hlt
          · exact hkeep
      · have hrest := @ih none (i + 1) (by simp) fun j hj hji => absurd hji (by
          simp only [Option.getD_none] at hj
          omega)
        simp only [Option.getD_none] at hrest
        cases start with
        | none =>
            rw [cut, if_neg hkeep]
            refine ⟨hrest.apart, fun iv hiv => ?_, fun j => ?_⟩
            · have := hrest.inside iv hiv
              simp only [Option.getD_none]
              omega
            · rw [hrest.covers]
              simp only [Option.getD_none]
              refine ⟨fun hj => ⟨by omega, hj.2⟩, fun hj => ⟨⟨?_, hj.1.2⟩, hj.2⟩⟩
              have hne : j ≠ i := by
                rintro rfl
                exact hkeep hj.2
              omega
        | some s =>
            have hs := hstart s rfl
            rw [cut, if_neg hkeep]
            simp only [Option.getD_some] at hopen ⊢
            refine ⟨?_, fun iv hiv => ?_, fun j => ?_⟩
            · rw [← List.singleton_append]
              refine (apart_singleton (by simp only; omega)).append hrest.apart fun a ha b hb => ?_
              rw [List.mem_singleton.1 ha]
              have := hrest.inside b hb
              simp only
              omega
            · rcases List.mem_cons.1 hiv with rfl | hmem
              · simp only
                omega
              · have := hrest.inside iv hmem
                omega
            · rw [covers_cons, hrest.covers]
              simp only
              constructor
              · rintro (hj | hj)
                · exact ⟨by omega, hopen j hj.1 (by omega)⟩
                · exact ⟨by omega, hj.2⟩
              · intro hj
                have hne : j ≠ i := by
                  rintro rfl
                  exact hkeep hj.2
                rcases Nat.lt_or_gt_of_ne hne with hlt | hgt
                · exact Or.inl (by omega)
                · exact Or.inr ⟨by omega, hj.2⟩

/-- The kept positions of every interval of a list. -/
def cutAll (keep : ℕ → Bool) (ivs : List (ℕ × ℕ)) : List (ℕ × ℕ) :=
  ivs.flatMap fun iv => cut keep none iv.1 (iv.2 + 1 - iv.1)

theorem cut_interval {keep : ℕ → Bool} {iv : ℕ × ℕ} (h : iv.1 ≤ iv.2) :
    Cut keep iv.1 (iv.2 + 1) (cut keep none iv.1 (iv.2 + 1 - iv.1)) := by
  have hcut := @cut_spec keep none iv.1 (by simp) (fun j hj hji => absurd hji (by
    simp only [Option.getD_none] at hj
    omega)) (iv.2 + 1 - iv.1)
  rwa [Option.getD_none, show iv.1 + (iv.2 + 1 - iv.1) = iv.2 + 1 by omega] at hcut

theorem cutAll_spec {keep : ℕ → Bool} {ivs : List (ℕ × ℕ)} (h : Apart ivs) :
    Apart (cutAll keep ivs) ∧
      ∀ i, Covers (cutAll keep ivs) i ↔ Covers ivs i ∧ keep i = true := by
  induction ivs with
  | nil => exact ⟨apart_nil, fun i => by simp [cutAll]⟩
  | cons iv ivs ih =>
      obtain ⟨hproper, hsep⟩ := h
      rw [List.forall_mem_cons] at hproper
      rw [List.pairwise_cons] at hsep
      obtain ⟨hapart, hcovers⟩ := ih ⟨hproper.2, hsep.2⟩
      have hcut := @cut_interval keep iv hproper.1
      have hcons : cutAll keep (iv :: ivs) =
          cut keep none iv.1 (iv.2 + 1 - iv.1) ++ cutAll keep ivs := rfl
      rw [hcons]
      refine ⟨hcut.apart.append hapart fun a ha b hb => ?_, fun i => ?_⟩
      · -- `b` is a part of a later interval
        obtain ⟨later, hlater, hb⟩ := List.mem_flatMap.1 hb
        have hin := (@cut_interval keep later (hproper.2 later hlater)).inside b hb
        have := hcut.inside a ha
        have := hsep.1 later hlater
        omega
      · rw [covers_append, hcut.covers, hcovers, covers_cons, Nat.lt_succ_iff, or_and_right]

end Intervals
