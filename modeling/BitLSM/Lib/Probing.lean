import Mathlib.Data.Fintype.Card
import Mathlib.Logic.Function.Basic
import Mathlib.Tactic.Common

/-!
Open addressing with linear probing.

A table has `n` slots, and `content s` is the item in slot `s`. An item is
looked for from its home slot on, one slot after the other, wrapping at the
end, until it or a free slot turns up. `Placed` says that every item can be
found that way: all slots between its home and its place are taken. Filling
the first free slot on an item's path keeps it so.
-/

namespace Probing

variable {ι β : Type*}

/-- Visit slots from `i` on until `stop` answers. -/
def walk (next : ℕ → ℕ) (stop : ℕ → Option β) : ℕ → ℕ → Option β
  | 0, _ => none
  | fuel + 1, i =>
      match stop i with
      | some r => some r
      | none => walk next stop fuel (next i)

section Walk

variable {n : ℕ} {next : ℕ → ℕ} {stop : ℕ → Option β}

theorem walk_eq_some_of_first (hnext : ∀ i < n, next i = (i + 1) % n) {fuel i d : ℕ} {r : β}
    (hi : i < n) (hd : d < fuel) (hskip : ∀ e < d, stop ((i + e) % n) = none)
    (hstop : stop ((i + d) % n) = some r) : walk next stop fuel i = some r := by
  induction fuel generalizing i d with
  | zero => omega
  | succ fuel ih =>
      cases d with
      | zero =>
          rw [Nat.add_zero, Nat.mod_eq_of_lt hi] at hstop
          rw [walk, hstop]
      | succ d =>
          have hfirst := hskip 0 (by omega)
          rw [Nat.add_zero, Nat.mod_eq_of_lt hi] at hfirst
          -- one step on, every offset is one smaller
          have hshift (e : ℕ) : ((i + 1) % n + e) % n = (i + (e + 1)) % n := by
            rw [Nat.mod_add_mod]
            congr 1
            omega
          rw [walk, hfirst, hnext i hi]
          refine ih (d := d) (Nat.mod_lt _ (by omega)) (by omega) (fun e he => ?_) ?_
          · rw [hshift]
            exact hskip (e + 1) (by omega)
          · rw [hshift]
            exact hstop

end Walk

/-- `s` is on the path from `h`, and every slot before it is taken. -/
def Reach (n : ℕ) (taken : ℕ → Prop) (h s : ℕ) : Prop :=
  ∃ d < n, (h + d) % n = s ∧ ∀ e < d, taken ((h + e) % n)

theorem Reach.mono {n : ℕ} {taken taken' : ℕ → Prop} {h s : ℕ} (hr : Reach n taken h s)
    (hsub : ∀ t, taken t → taken' t) : Reach n taken' h s := by
  obtain ⟨d, hd, hs, htaken⟩ := hr
  exact ⟨d, hd, hs, fun e he => hsub _ (htaken e he)⟩

/-- A walk from `h` answers at `s`, when `s` is the end of a path of taken
slots none of which gives another answer. -/
theorem walk_reach {n fuel h s : ℕ} {next : ℕ → ℕ} {stop : ℕ → Option β} {taken : ℕ → Prop}
    {r : β} (hnext : ∀ i < n, next i = (i + 1) % n) (hh : h < n) (hfuel : n ≤ fuel)
    (hr : Reach n taken h s) (hs : stop s = some r)
    (hpath : ∀ t < n, taken t → stop t = none ∨ stop t = some r) :
    walk next stop fuel h = some r := by
  classical
  obtain ⟨d, hd, rfl, htaken⟩ := hr
  have hex : ∃ e, stop ((h + e) % n) = some r := ⟨d, hs⟩
  have hle : Nat.find hex ≤ d := Nat.find_min' hex hs
  refine walk_eq_some_of_first hnext hh (d := Nat.find hex) (by omega) (fun e he => ?_)
    (Nat.find_spec hex)
  rcases hpath _ (Nat.mod_lt _ (by omega)) (htaken e (by omega)) with hnone | hsome
  · exact hnone
  · exact absurd hsome (Nat.find_min hex he)

/-- A table with a free slot has a first free slot on every path. -/
theorem exists_first_free {n : ℕ} {taken : ℕ → Prop} (h : ℕ)
    (hfree : ∃ s < n, ¬taken s) : ∃ s < n, ¬taken s ∧ Reach n taken h s := by
  classical
  obtain ⟨s, hs, hfree⟩ := hfree
  have hn : 0 < n := by omega
  -- some offset from `h` leads to `s`
  have hoff : ∃ d, d < n ∧ ¬taken ((h + d) % n) := by
    refine ⟨(s + (n - h % n)) % n, Nat.mod_lt _ hn, ?_⟩
    have hmod := Nat.mod_lt h hn
    have heq : (h + (s + (n - h % n)) % n) % n = s := by
      rw [Nat.add_mod, Nat.mod_mod, ← Nat.add_mod]
      have hdiv := Nat.div_add_mod h n
      have hsum : h + (s + (n - h % n)) = s + n * (h / n + 1) := by
        rw [Nat.mul_add, Nat.mul_one]
        omega
      rw [hsum, Nat.add_mul_mod_self_left, Nat.mod_eq_of_lt hs]
    rwa [heq]
  refine ⟨(h + Nat.find hoff) % n, Nat.mod_lt _ hn, (Nat.find_spec hoff).2,
    Nat.find hoff, (Nat.find_spec hoff).1, rfl, fun e he => ?_⟩
  by_contra hne
  exact Nat.find_min hoff he ⟨lt_trans he (Nat.find_spec hoff).1, hne⟩

/-- Every item can be found from its home slot, in one place only. -/
structure Placed (n : ℕ) (home : ι → ℕ) (content : ℕ → Option ι) : Prop where
  reach : ∀ s < n, ∀ x, content s = some x →
    Reach n (fun t => (content t).isSome = true) (home x) s
  unique : ∀ s < n, ∀ t < n, ∀ x, content s = some x → content t = some x → s = t

theorem placed_empty (n : ℕ) (home : ι → ℕ) : Placed n home fun _ => none :=
  ⟨by simp, by simp⟩

/-- Only the homes of the items in the table matter. -/
theorem Placed.congr_home {n : ℕ} {home home' : ι → ℕ} {content : ℕ → Option ι}
    (hp : Placed n home content)
    (h : ∀ s < n, ∀ x, content s = some x → home' x = home x) : Placed n home' content :=
  ⟨fun s hs x hx => by rw [h s hs x hx]; exact hp.reach s hs x hx, hp.unique⟩

/-- Filling the first free slot on the path of a new item. -/
theorem Placed.insert {n : ℕ} {home : ι → ℕ} {content : ℕ → Option ι}
    (hp : Placed n home content) {x : ι} {s : ℕ} (hnew : ∀ t < n, content t ≠ some x)
    (hfree : content s = none)
    (hreach : Reach n (fun t => (content t).isSome = true) (home x) s) :
    Placed n home (Function.update content s (some x)) := by
  have hsub : ∀ t, (content t).isSome = true →
      (Function.update content s (some x) t).isSome = true := by
    intro t ht
    by_cases hts : t = s
    · simp [hts]
    · rwa [Function.update_of_ne hts]
  refine ⟨fun t ht y hy => ?_, fun t ht u hu y hty huy => ?_⟩
  · by_cases hts : t = s
    · subst hts
      rw [Function.update_self] at hy
      obtain rfl := Option.some.inj hy
      exact hreach.mono hsub
    · rw [Function.update_of_ne hts] at hy
      exact (hp.reach t ht y hy).mono hsub
  · by_cases hts : t = s <;> by_cases hus : u = s
    · rw [hts, hus]
    · rw [hts, Function.update_self] at hty
      obtain rfl := Option.some.inj hty
      rw [Function.update_of_ne hus] at huy
      exact absurd huy (hnew u hu)
    · rw [hus, Function.update_self] at huy
      obtain rfl := Option.some.inj huy
      rw [Function.update_of_ne hts] at hty
      exact absurd hty (hnew t ht)
    · rw [Function.update_of_ne hts] at hty
      rw [Function.update_of_ne hus] at huy
      exact hp.unique t ht u hu y hty huy

/-- A table of `n` slots that holds fewer than `n` different items has a
free slot. -/
theorem Placed.exists_free {n m : ℕ} {home : ℕ → ℕ} {content : ℕ → Option ℕ}
    (hp : Placed n home content) (hm : m < n)
    (hitems : ∀ s < n, ∀ x, content s = some x → x < m) : ∃ s < n, content s = none := by
  by_contra hfull
  simp only [not_exists, not_and] at hfull
  have hsome : ∀ s : Fin n, ∃ x : Fin m, content s = some x.val := by
    intro s
    obtain ⟨x, hx⟩ := Option.ne_none_iff_exists'.1 (hfull s s.isLt)
    exact ⟨⟨x, hitems s s.isLt x hx⟩, hx⟩
  choose f hf using hsome
  have hinj : Function.Injective f := by
    intro s t hst
    apply Fin.ext
    exact hp.unique s s.isLt t t.isLt (f s) (hf s) (by rw [hst]; exact hf t)
  have hcard := Fintype.card_le_of_injective f hinj
  simp only [Fintype.card_fin] at hcard
  omega

end Probing
