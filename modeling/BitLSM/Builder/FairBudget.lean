import Mathlib.Data.Nat.ModEq
import Mathlib.Data.Nat.Prime.Basic
import Mathlib.Algebra.Order.BigOperators.Group.List
import BitLSM.RowEncode
import BitLSM.Rounding
import BitLSM.Builder.Build

/-!
The division of the bin budget.

Every attribute starts with one bin, and further bins go one by one to the
attribute that gains most, which is the one with the fewest bins: the gain
`1 / (b * (b + 1))` falls with `b`. An attribute that has a bin for each of
its values leaves the queue. The product is taken in 32 bits, so the gain
falls up to 65535 bins only.
-/

namespace BitLSM

namespace Budget

variable {fpu : Fpu}

/-! ### Gains -/

/-- Two reciprocals are different doubles where two multiples of `2 ^ (-52)` are between
them. -/
theorem div_lt_div (hfpu : fpu.Rounds) {p q : ℕ} (hp : 0 < p) (hq : 0 < q) (hq' : q < 2 ^ 53)
    (hgap : (2 ^ 52 / q + 2) * p ≤ 2 ^ 52) :
    fpu.div (fpu.ofNat 1) (fpu.ofNat q) < fpu.div (fpu.ofNat 1) (fpu.ofNat p) := by
  obtain ⟨m, hm⟩ : ∃ m, m = 2 ^ 52 / q + 1 := ⟨_, rfl⟩
  have hmq : 2 ^ 52 ≤ m * q := by
    rw [hm, Nat.add_mul, Nat.one_mul]
    exact (Nat.lt_div_mul_add hq).le
  have hmp : (m + 1) * p ≤ 2 ^ 52 := by rwa [hm]
  have hm53 : m + 1 < 2 ^ 53 := by
    have := Nat.le_mul_of_pos_right (m + 1) hp
    omega
  have hp' : p < 2 ^ 53 := by
    have : p ≤ (m + 1) * p := Nat.le_mul_of_pos_left p (Nat.succ_pos m)
    omega
  obtain ⟨hnan, hbelow⟩ := @ofMagnitude_mul m 1022 (by omega) (by decide)
  obtain ⟨hnan', habove⟩ := @ofMagnitude_mul (m + 1) 1022 hm53 (by decide)
  have hpow : (2 : ℕ) ^ 1074 = 2 ^ 52 * 2 ^ 1022 := by rw [← Nat.pow_add]
  obtain ⟨u, hu, hupos⟩ : ∃ u : ℕ, u = 2 ^ 1022 ∧ 0 < u := ⟨_, rfl, by positivity⟩
  have hle := hfpu.div_le 1 q _ (by decide) hq hq' hnan (by
    rw [hbelow]
    have : 2 ^ 52 * u ≤ m * u * q := by
      calc 2 ^ 52 * u ≤ m * q * u := Nat.mul_le_mul_right u hmq
        _ = m * u * q := by rw [Nat.mul_assoc, Nat.mul_comm q u, Nat.mul_assoc]
    rw [hu, ← hpow] at this
    exact_mod_cast (Nat.one_mul _).le.trans this)
  have hge := hfpu.le_div 1 p _ (by decide) hp hp' hnan' (by
    rw [habove]
    have : (m + 1) * u * p ≤ 2 ^ 52 * u := by
      calc (m + 1) * u * p = (m + 1) * p * u := by
            rw [Nat.mul_assoc, Nat.mul_comm u p, Nat.mul_assoc]
        _ ≤ 2 ^ 52 * u := Nat.mul_le_mul_right u hmp
    rw [hu, ← hpow] at this
    exact_mod_cast this.trans (Nat.one_mul _).ge)
  refine ⟨hle.1, hge.2.1, lt_of_le_of_lt hle.2.2 (lt_of_lt_of_le ?_ hge.2.2)⟩
  rw [hbelow, habove, ← hu]
  exact_mod_cast Nat.mul_lt_mul_of_pos_right (Nat.lt_succ_self m) hupos

/-- A reciprocal is a number. -/
theorem div_isNaN (hfpu : fpu.Rounds) {p : ℕ} (hp : 0 < p) (hp' : p < 2 ^ 53) :
    (fpu.div (fpu.ofNat 1) (fpu.ofNat p)).isNaN = false := by
  obtain ⟨hnan, hzero⟩ := @ofMagnitude_mul 0 0 (by decide) (by decide)
  refine (hfpu.le_div 1 p _ (by decide) hp hp' hnan ?_).2.1
  rw [hzero]
  simp only [Nat.zero_mul, Nat.cast_zero, Int.zero_mul]
  positivity

theorem product_lt {b : ℕ} (hb : b ≤ 65535) : b * (b + 1) < 2 ^ 32 := by
  calc b * (b + 1) ≤ 65535 * 65536 := Nat.mul_le_mul hb (Nat.succ_le_succ hb)
    _ < 2 ^ 32 := by decide

theorem gain_lt_succ (hfpu : fpu.Rounds) {b : ℕ} (hb : 1 ≤ b) (hb' : b + 1 ≤ 65535) :
    gain fpu (b + 1) < gain fpu b := by
  have hq := product_lt hb'
  have hbq : b * ((b + 1) * (b + 1 + 1)) ≤ 2 ^ 52 := by
    calc b * ((b + 1) * (b + 1 + 1)) ≤ 2 ^ 16 * 2 ^ 32 := Nat.mul_le_mul (by omega) hq.le
      _ ≤ 2 ^ 52 := by decide
  rw [gain, gain, Nat.mod_eq_of_lt hq, Nat.mod_eq_of_lt (product_lt (by omega))]
  refine div_lt_div hfpu (by positivity) (by positivity) (by omega) ?_
  -- both products share the factor `b + 1`, and `b * (b + 1) * (b + 2)` is a multiple of both
  refine Nat.le_of_mul_le_mul_right ?_ (Nat.succ_pos (b + 1))
  have hfloor := Nat.div_mul_le_self (2 ^ 52) ((b + 1) * (b + 1 + 1))
  generalize 2 ^ 52 / ((b + 1) * (b + 1 + 1)) = k at hfloor ⊢
  calc (k + 2) * (b * (b + 1)) * (b + 1 + 1)
      = b * (k * ((b + 1) * (b + 1 + 1))) + 2 * (b * ((b + 1) * (b + 1 + 1))) := by ring
    _ ≤ b * 2 ^ 52 + 2 * 2 ^ 52 := Nat.add_le_add (Nat.mul_le_mul_left b hfloor)
        (Nat.mul_le_mul_left 2 hbq)
    _ = 2 ^ 52 * (b + 1 + 1) := by ring

/-- Up to 65535 bins, a further bin gains less. -/
theorem gain_lt (hfpu : fpu.Rounds) {b c : ℕ} (hb : 1 ≤ b) (hbc : b < c) (hc : c ≤ 65535) :
    gain fpu c < gain fpu b := by
  induction c, hbc using Nat.le_induction with
  | base => exact gain_lt_succ hfpu hb hc
  | succ c hbc ih =>
      obtain ⟨-, hnan, hlt⟩ := ih (by omega)
      obtain ⟨hnan', -, hlt'⟩ := gain_lt_succ hfpu (b := c) (by omega) hc
      exact ⟨hnan', hnan, hlt'.trans hlt⟩

/-- The product of 65536 bins wraps. -/
theorem gain_wraps (hfpu : fpu.Rounds) : gain fpu 65535 < gain fpu 65536 :=
  div_lt_div hfpu (by decide) (by decide) (by decide) (by decide)

theorem product_mod_pos {b : ℕ} (hb : 1 ≤ b) (hb' : b < 2 ^ 31) : 0 < b * (b + 1) % 2 ^ 32 := by
  by_contra hzero
  have hdvd : 2 ^ 32 ∣ b * (b + 1) := Nat.dvd_of_mod_eq_zero (Nat.eq_zero_of_not_pos hzero)
  -- one of the two factors is odd, so the other one has all the twos
  rcases Nat.even_or_odd b with heven | hodd
  · have hcop : Nat.Coprime (2 ^ 32) (b + 1) :=
      (Nat.coprime_two_left.2 heven.add_one).pow_left 32
    exact absurd (Nat.le_of_dvd (by omega) (hcop.dvd_of_dvd_mul_right hdvd)) (by omega)
  · have hcop : Nat.Coprime (2 ^ 32) b := (Nat.coprime_two_left.2 hodd).pow_left 32
    exact absurd (Nat.le_of_dvd (by omega) (hcop.dvd_of_dvd_mul_left hdvd)) (by omega)

theorem gain_isNaN (hfpu : fpu.Rounds) {b : ℕ} (hb : 1 ≤ b) (hb' : b < 2 ^ 31) :
    (gain fpu b).isNaN = false :=
  div_isNaN hfpu (product_mod_pos hb hb') (lt_trans (Nat.mod_lt _ (by decide)) (by decide))

/-! ### The queue -/

/-- The place of an entry in the queue: greater gains first, then greater attributes. -/
def key (e : Binary64 × ℕ) : ℤᵒᵈ ×ₗ ℕᵒᵈ :=
  toLex (OrderDual.toDual e.1.scaled, OrderDual.toDual e.2)

theorem before_iff_key {x y : Binary64 × ℕ} (hx : x.1.isNaN = false) (hy : y.1.isNaN = false) :
    before x y = true ↔ key x < key y := by
  rw [before, decide_eq_true_iff, key, key, Prod.Lex.toLex_lt_toLex, Binary64.lt_iff,
    Binary64.lt_iff]
  simp only [hx, hy, true_and, OrderDual.toDual_lt_toDual, EmbeddingLike.apply_eq_iff_eq]
  omega

/-- No entry of the queue gains more than the one that is taken, and one that gains
as much has a smaller attribute. -/
theorem takeTop_gain {pq rest : List (Binary64 × ℕ)} {top : Binary64 × ℕ}
    (hnan : ∀ e ∈ pq, e.1.isNaN = false) (htop : takeTop before pq = some (top, rest)) :
    ∀ e ∈ rest, ¬top.1 < e.1 ∧ (e.1 = top.1 → e.2 ≤ top.2) := by
  intro e he
  have hkey : ∀ a ∈ pq, ∀ b ∈ pq, before a b = true ↔ key a < key b := fun a ha b hb =>
    before_iff_key (hnan a ha) (hnan b hb)
  have hle : ¬key e < key top := not_lt.2 (takeTop_le hkey htop e he)
  rw [key, key, Prod.Lex.toLex_lt_toLex, not_or] at hle
  refine ⟨fun hlt => hle.1 hlt.2.2, fun heq => not_lt.1 fun hlt => hle.2 ⟨?_, hlt⟩⟩
  rw [heq]

/-! ### The counts between two iterations -/

/-- What holds of the counts, the budget and the queue. -/
structure Ok (fpu : Fpu) (cardinality : List ℕ) (target : ℤ) (s : Budget) : Prop where
  length : s.bitmapNums.length = cardinality.length
  total : s.bitmapNums.sum + s.remaining = target
  pos : ∀ i < cardinality.length, 1 ≤ s.bitmapNums.getD i 0
  capped : ∀ i < cardinality.length, s.bitmapNums.getD i 0 ≤ max 1 (cardinality.getD i 0)
  entries : ∀ e ∈ s.pq, e.2 < cardinality.length ∧ e.1 = gain fpu (s.bitmapNums.getD e.2 0)
  nodup : (s.pq.map Prod.snd).Nodup
  queued : ∀ i < cardinality.length, s.bitmapNums.getD i 0 < cardinality.getD i 0 →
    i ∈ s.pq.map Prod.snd

theorem getD_extend {s : Budget} {idx : ℕ} (hidx : idx < s.bitmapNums.length)
    (rest : List (Binary64 × ℕ)) (i : ℕ) :
    (s.extend fpu idx rest).bitmapNums.getD i 0 =
      s.bitmapNums.getD i 0 + if i = idx then 1 else 0 := by
  simp only [extend, List.getD_eq_getElem?_getD, List.getElem?_set]
  by_cases h : idx = i
  · subst h
    simp [hidx]
  · simp [h, Ne.symm h]

theorem sum_set_succ {l : List ℕ} {idx : ℕ} (hidx : idx < l.length) :
    (l.set idx (l.getD idx 0 + 1)).sum = l.sum + 1 := by
  induction l generalizing idx with
  | nil => exact absurd hidx (by simp)
  | cons a l ih =>
      cases idx with
      | zero =>
          simp
          omega
      | succ idx =>
          have hrest : (l.set idx (l.getD idx 0 + 1)).sum = l.sum + 1 := ih (by simpa using hidx)
          simp only [List.set_cons_succ, List.getD_cons_succ, List.sum_cons, hrest]
          omega

variable {cardinality : List ℕ} {target : ℤ} {s : Budget} {g : Binary64} {idx : ℕ}
  {rest : List (Binary64 × ℕ)}

/-- A full attribute leaves the queue. -/
theorem Ok.drop (h : Ok fpu cardinality target s)
    (htop : takeTop before s.pq = some ((g, idx), rest))
    (hcard : cardinality.getD idx 0 ≤ s.bitmapNums.getD idx 0) :
    Ok fpu cardinality target { s with pq := rest } := by
  have hperm := takeTop_perm htop
  have hnodup := (hperm.map Prod.snd).nodup_iff.1 h.nodup
  refine ⟨h.length, h.total, h.pos, h.capped, fun e he => ?_, hnodup.of_cons, fun i hi hlt => ?_⟩
  · exact h.entries e (hperm.mem_iff.2 (List.mem_cons_of_mem _ he))
  · rcases List.mem_cons.1 ((hperm.map Prod.snd).mem_iff.1 (h.queued i hi hlt)) with rfl | hmem
    · exact absurd hcard (Nat.not_le_of_lt hlt)
    · exact hmem

/-- The attribute on top of the queue gets a bin and is queued again. -/
theorem Ok.extend (h : Ok fpu cardinality target s)
    (htop : takeTop before s.pq = some ((g, idx), rest))
    (hcard : s.bitmapNums.getD idx 0 < cardinality.getD idx 0) :
    Ok fpu cardinality target (s.extend fpu idx rest) := by
  have hperm := takeTop_perm htop
  have hnodup := (hperm.map Prod.snd).nodup_iff.1 h.nodup
  have hidx : idx < s.bitmapNums.length := by
    rw [h.length]
    exact (h.entries (g, idx) (hperm.mem_iff.2 (List.mem_cons_self ..))).1
  have hsum : (s.extend fpu idx rest).bitmapNums.sum = s.bitmapNums.sum + 1 := sum_set_succ hidx
  refine ⟨List.length_set.trans h.length, ?_, fun i hi => ?_, fun i hi => ?_, fun e he => ?_,
    hnodup, fun i hi hlt => ?_⟩
  · have := h.total
    rw [hsum]
    simp only [Budget.extend]
    omega
  · rw [getD_extend hidx]
    have := h.pos i hi
    omega
  · rw [getD_extend hidx]
    have := h.capped i hi
    split
    · next heq =>
        subst heq
        omega
    · exact this
  · rcases List.mem_cons.1 he with rfl | he
    · refine ⟨h.length ▸ hidx, ?_⟩
      rw [getD_extend hidx, if_pos rfl]
    · obtain ⟨hlt, hgain⟩ := h.entries e (hperm.mem_iff.2 (List.mem_cons_of_mem _ he))
      have hmem : e.2 ∈ rest.map Prod.snd := List.mem_map_of_mem he
      have hne : e.2 ≠ idx := fun heq => (List.nodup_cons.1 hnodup).1 (heq ▸ hmem)
      exact ⟨hlt, by rw [getD_extend hidx, if_neg hne, Nat.add_zero, hgain]⟩
  · rcases eq_or_ne i idx with rfl | hne
    · exact List.mem_cons_self ..
    · rw [getD_extend hidx, if_neg hne] at hlt
      exact (hperm.map Prod.snd).mem_iff.1 (h.queued i hi hlt)

/-- The loop ends with the budget or with the queue. -/
theorem loop_stops (fuel : ℕ) (hfuel : s.remaining.toNat + s.pq.length ≤ fuel) :
    (loop fpu cardinality fuel s).remaining ≤ 0 ∨ (loop fpu cardinality fuel s).pq = [] := by
  induction fuel generalizing s with
  | zero =>
      rw [loop]
      exact Or.inr (List.eq_nil_of_length_eq_zero (by omega))
  | succ fuel ih =>
      rw [loop]
      split
      · next hrem =>
          split
          · next htop =>
              right
              by_contra hne
              obtain ⟨x, rest, htop', -⟩ := @takeTop_eq_some _ before _ hne
              exact absurd (htop.symm.trans htop') (by simp)
          · next idx rest htop =>
              have hlen := (takeTop_perm htop).length_eq
              rw [List.length_cons] at hlen
              simp only []
              -- an iteration shortens the queue or spends from the budget
              split
              · exact ih (by simp only []; omega)
              · exact ih (by simp only [List.length_cons]; omega)
      · next hrem => exact Or.inl (not_lt.1 hrem)

/-! ### Fairness -/

/-- No attribute is two bins ahead of one that could use a further bin. -/
def Fair (cardinality nums : List ℕ) : Prop :=
  ∀ i < cardinality.length, ∀ j < cardinality.length,
    nums.getD j 0 + 2 ≤ nums.getD i 0 → cardinality.getD j 0 ≤ nums.getD j 0

/-- All bins of the attributes up to 65535, and the 65536th of those behind `i`, which
the queue hands out before that of `i`. -/
def fillBelow (cardinality : List ℕ) (i : ℕ) : ℕ :=
  ((List.range cardinality.length).map fun k =>
    min (max 1 (cardinality.getD k 0)) (if i < k then 65536 else 65535)).sum

/-- No attribute gets past 65536 bins while one before it has use for its 65536th. -/
def BelowWrap (target : ℤ) (cardinality : List ℕ) : Prop :=
  ∀ i < cardinality.length, ∀ j < i, 65536 < cardinality.getD i 0 → 65536 ≤ cardinality.getD j 0 →
    target ≤ fillBelow cardinality i + 1

/-- The 65536th bins are handed out from the last attribute on. -/
def Ordered (cardinality nums : List ℕ) : Prop :=
  ∀ i j, i < j → j < cardinality.length → 65536 ≤ nums.getD i 0 → 65536 ≤ cardinality.getD j 0 →
    65536 ≤ nums.getD j 0

theorem sum_lt_sum_of_getD {l l' : List ℕ} (hlen : l.length = l'.length)
    (hle : ∀ i < l.length, l.getD i 0 ≤ l'.getD i 0) {k : ℕ} (hk : k < l.length)
    (hlt : l.getD k 0 < l'.getD k 0) : l.sum < l'.sum := by
  have hmap : ∀ m : List ℕ, m = (List.range m.length).map fun i => m.getD i 0 := fun m =>
    List.ext_getElem (by simp) fun i h _ => by simp [h]
  rw [hmap l, hmap l', ← hlen]
  exact List.sum_lt_sum _ _ (fun i hi => hle i (List.mem_range.1 hi))
    ⟨k, List.mem_range.2 hk, hlt⟩

theorem getD_map_of_lt (f : ℕ → ℕ) {l : List ℕ} {i : ℕ} (hi : i < l.length) :
    (l.map f).getD i 0 = f (l.getD i 0) := by
  simp [hi]

theorem Ok.getD_le (h : Ok fpu cardinality target s) {i : ℕ} (hi : i < cardinality.length) :
    s.bitmapNums.getD i 0 ≤ s.bitmapNums.sum := by
  rw [← h.length] at hi
  rw [List.getD_eq_getElem _ _ hi]
  exact List.le_sum_of_mem (List.getElem_mem hi)

theorem Ok.notNaN (hfpu : fpu.Rounds) (h : Ok fpu cardinality target s) (htarget : target < 2 ^ 31)
    (hrem : 0 < s.remaining) : ∀ e ∈ s.pq, e.1.isNaN = false := by
  intro e he
  obtain ⟨hlt, hgain⟩ := h.entries e he
  have hle := h.getD_le hlt
  have htotal := h.total
  rw [hgain]
  exact gain_isNaN hfpu (h.pos _ hlt) (by omega)

/-- While the products do not wrap, no attribute that could use a bin has fewer bins
than the one on top of the queue, or as many and a greater index. -/
theorem Ok.top_first (hfpu : fpu.Rounds) (h : Ok fpu cardinality target s)
    (htarget : target < 2 ^ 31) (hrem : 0 < s.remaining)
    (htop : takeTop before s.pq = some ((g, idx), rest))
    (hsmall : s.bitmapNums.getD idx 0 ≤ 65535) {j : ℕ} (hj : j < cardinality.length) (hne : j ≠ idx)
    (hlt : s.bitmapNums.getD j 0 < cardinality.getD j 0) :
    s.bitmapNums.getD idx 0 ≤ s.bitmapNums.getD j 0 ∧
      (s.bitmapNums.getD j 0 = s.bitmapNums.getD idx 0 → j < idx) := by
  have hperm := takeTop_perm htop
  have hg := (h.entries (g, idx) (hperm.mem_iff.2 (List.mem_cons_self ..))).2
  simp only [] at hg
  have hmem := h.queued j hj hlt
  rw [(hperm.map Prod.snd).mem_iff, List.map_cons, List.mem_cons, or_iff_right hne] at hmem
  obtain ⟨e, he, rfl⟩ := List.mem_map.1 hmem
  obtain ⟨hnot, htie⟩ := takeTop_gain (h.notNaN hfpu htarget hrem) htop e he
  have hgain := (h.entries e (hperm.mem_iff.2 (List.mem_cons_of_mem _ he))).2
  rw [hgain, hg] at hnot htie
  refine ⟨?_, fun heq => lt_of_le_of_ne (htie (by rw [heq])) hne⟩
  by_contra hlead
  exact hnot (gain_lt hfpu (h.pos _ hj) (by omega) hsmall)

theorem Ordered.extend (hfpu : fpu.Rounds) (h : Ok fpu cardinality target s)
    (hord : Ordered cardinality s.bitmapNums) (htarget : target < 2 ^ 31) (hrem : 0 < s.remaining)
    (htop : takeTop before s.pq = some ((g, idx), rest)) :
    Ordered cardinality (s.extend fpu idx rest).bitmapNums := by
  have hidx : idx < s.bitmapNums.length := by
    rw [h.length]
    exact (h.entries (g, idx) ((takeTop_perm htop).mem_iff.2 (List.mem_cons_self ..))).1
  intro i j hij hj hi hcard
  rw [getD_extend hidx] at hi ⊢
  by_contra hlt
  by_cases hold : 65536 ≤ s.bitmapNums.getD i 0
  · have := hord i j hij hj hold hcard
    omega
  · -- only the attribute on top comes to 65536 bins, and `j` would have been before it
    obtain rfl : i = idx := by
      by_contra hne
      rw [if_neg hne] at hi
      omega
    rw [if_pos rfl] at hi
    rw [if_neg (by omega)] at hlt
    obtain ⟨hle, htie⟩ := h.top_first hfpu htarget hrem htop (by omega) hj (by omega) (by omega)
    have := htie (by omega)
    omega

/-- An attribute with 65536 bins, when all others have 65535 or all they can use: more
bins are handed out than `fillBelow` counts. -/
theorem Ok.fillBelow_lt (h : Ok fpu cardinality target s) (hord : Ordered cardinality s.bitmapNums)
    {i : ℕ} (hi : i < cardinality.length) (hwrapped : 65536 ≤ s.bitmapNums.getD i 0)
    (hfilled : ∀ k < cardinality.length, s.bitmapNums.getD k 0 < cardinality.getD k 0 →
      65535 ≤ s.bitmapNums.getD k 0) : fillBelow cardinality i < s.bitmapNums.sum := by
  refine sum_lt_sum_of_getD (by simp [h.length]) (fun k hk => ?_) (k := i) (by simpa using hi) ?_
  · have hk : k < cardinality.length := by simpa using hk
    have hpos := h.pos k hk
    have hfill := hfilled k hk
    have hlater := hord i k
    simp only [List.getD_eq_getElem?_getD, List.getElem?_map, List.getElem?_range hk,
      Option.map_some, Option.getD_some] at *
    split
    · omega
    · omega
  · simp only [List.getD_eq_getElem?_getD, List.getElem?_map, List.getElem?_range hi,
      Option.map_some, Option.getD_some] at *
    rw [if_neg (by omega)]
    omega

/-- The attribute on top of the queue has the fewest bins of those that could use one. -/
theorem Ok.top_le (hfpu : fpu.Rounds) (h : Ok fpu cardinality target s)
    (hfair : Fair cardinality s.bitmapNums) (hord : Ordered cardinality s.bitmapNums)
    (htarget : target < 2 ^ 31) (hwrap : BelowWrap target cardinality) (hrem : 0 < s.remaining)
    (htop : takeTop before s.pq = some ((g, idx), rest))
    (hcard : s.bitmapNums.getD idx 0 < cardinality.getD idx 0) {j : ℕ}
    (hj : j < cardinality.length) (hlt : s.bitmapNums.getD j 0 < cardinality.getD j 0) :
    s.bitmapNums.getD idx 0 ≤ s.bitmapNums.getD j 0 := by
  have hidx := (h.entries (g, idx) ((takeTop_perm htop).mem_iff.2 (List.mem_cons_self ..))).1
  simp only [] at hidx
  by_contra hlead
  have hne : j ≠ idx := by
    rintro rfl
    exact hlead le_rfl
  have hnear : ∀ k < cardinality.length, s.bitmapNums.getD k 0 < cardinality.getD k 0 →
      s.bitmapNums.getD idx 0 ≤ s.bitmapNums.getD k 0 + 1 := by
    intro k hk hopen
    by_contra hfar
    exact absurd (hfair idx hidx k hk (by omega)) (by omega)
  by_cases hsmall : s.bitmapNums.getD idx 0 ≤ 65535
  · exact hlead (h.top_first hfpu htarget hrem htop hsmall hj hne hlt).1
  · -- every attribute has 65535 bins or all it can use, so the budget is spent
    have hnearj := hnear j hj hlt
    have htotal := h.total
    have hspent {i : ℕ} (hi : i < cardinality.length) (hwrapped : 65536 ≤ s.bitmapNums.getD i 0) :=
      h.fillBelow_lt hord hi hwrapped fun k hk hopen => by
        have := hnear k hk hopen
        omega
    rcases Nat.lt_or_ge j idx with hji | hij
    · have hbound := hwrap idx hidx j hji (by omega) (by omega)
      have := hspent hidx (by omega)
      omega
    · -- `j` got its 65536th bin before `idx`
      have hij : idx < j := by omega
      have hwrapped := hord idx j hij hj (by omega) (by omega)
      have hbound := hwrap j hj idx hij (by omega) (by omega)
      have := hspent hj hwrapped
      omega

theorem Fair.extend (hfpu : fpu.Rounds) (h : Ok fpu cardinality target s)
    (hfair : Fair cardinality s.bitmapNums) (hord : Ordered cardinality s.bitmapNums)
    (htarget : target < 2 ^ 31) (hwrap : BelowWrap target cardinality) (hrem : 0 < s.remaining)
    (htop : takeTop before s.pq = some ((g, idx), rest))
    (hcard : s.bitmapNums.getD idx 0 < cardinality.getD idx 0) :
    Fair cardinality (s.extend fpu idx rest).bitmapNums := by
  have hidx : idx < s.bitmapNums.length := by
    rw [h.length]
    exact (h.entries (g, idx) ((takeTop_perm htop).mem_iff.2 (List.mem_cons_self ..))).1
  intro i hi j hj hahead
  rw [getD_extend hidx, getD_extend hidx] at hahead
  rw [getD_extend hidx]
  by_contra hopen
  have hlt : s.bitmapNums.getD j 0 < cardinality.getD j 0 := by omega
  have hle := h.top_le hfpu hfair hord htarget hwrap hrem htop hcard hj hlt
  have hold : ¬s.bitmapNums.getD j 0 + 2 ≤ s.bitmapNums.getD i 0 := fun hahead =>
    absurd (hfair i hi j hj hahead) (by omega)
  split at hahead
  · split at hahead
    · omega
    · omega
  · split at hahead
    · next heq =>
        subst heq
        omega
    · omega

/-- The state the loop starts in. -/
theorem Ok.start (target : UInt32) (cardinality : List ℕ) :
    Ok fpu cardinality target.toInt32.toInt {
      bitmapNums := List.replicate cardinality.length 1
      remaining := target.toInt32.toInt - cardinality.length
      pq := (List.range cardinality.length).map fun i => (gain fpu 1, i) } := by
  have hone : ∀ i < cardinality.length, (List.replicate cardinality.length 1).getD i 0 = 1 :=
    fun i hi => by simp [hi]
  have hsnd : ((List.range cardinality.length).map fun i => (gain fpu 1, i)).map Prod.snd =
      List.range cardinality.length := by
    rw [List.map_map]
    exact List.map_id _
  refine ⟨by simp, by simp, fun i hi => (hone i hi).ge, fun i hi => ?_, fun e he => ?_, ?_,
    fun i hi _ => ?_⟩
  · rw [hone i hi]
    exact le_max_left ..
  · obtain ⟨i, hi, rfl⟩ := List.mem_map.1 he
    have hi := List.mem_range.1 hi
    exact ⟨hi, by rw [hone i hi]⟩
  · rw [hsnd]
    exact List.nodup_range
  · rw [hsnd]
    exact List.mem_range.2 hi

/-- Counts that sum up to the number of values leave no value without a bin. -/
theorem Ok.full (h : Ok fpu cardinality target s)
    (hcovers : (cardinality.map (max 1)).sum ≤ s.bitmapNums.sum) :
    ∀ j < cardinality.length, cardinality.getD j 0 ≤ s.bitmapNums.getD j 0 := by
  intro j hj
  by_contra hopen
  refine absurd (sum_lt_sum_of_getD (by rw [h.length, List.length_map]) (fun k hk => ?_)
    (k := j) (by rwa [h.length]) ?_) (not_lt.2 hcovers)
  · rw [h.length] at hk
    rw [getD_map_of_lt _ hk]
    exact h.capped k hk
  · rw [getD_map_of_lt _ hj]
    exact lt_of_lt_of_le (not_le.1 hopen) (le_max_right ..)

/-! ### The allocation -/

/-- The state the loop of `allocate` ends in. -/
def final (fpu : Fpu) (target : UInt32) (cardinality : List ℕ) : Budget :=
  loop fpu cardinality (target.toNat + cardinality.length) {
    bitmapNums := List.replicate cardinality.length 1
    remaining := target.toInt32.toInt - cardinality.length
    pq := (List.range cardinality.length).map fun i => (gain fpu 1, i) }

theorem toInt_toInt32 (target : UInt32) :
    target.toInt32.toInt = if target.toNat < 2 ^ 31 then (target.toNat : ℤ)
      else target.toNat - 2 ^ 32 := by
  have h := toInt_toInt32_ofNat (r := target.toNat) target.toNat_lt
  rwa [UInt32.ofNat_toNat] at h

theorem final_ok (fpu : Fpu) (target : UInt32) (cardinality : List ℕ) :
    Ok fpu cardinality target.toInt32.toInt (final fpu target cardinality) :=
  loop_keeps (fun _ _ _ _ h htop hcard => h.drop htop hcard)
    (fun _ _ _ _ h _ htop hcard => h.extend htop hcard) _ (Ok.start target cardinality)

theorem final_stops (fpu : Fpu) (target : UInt32) (cardinality : List ℕ) :
    (final fpu target cardinality).remaining ≤ 0 ∨ (final fpu target cardinality).pq = [] := by
  refine loop_stops _ ?_
  have htarget := target.toNat_lt
  simp only [List.length_map, List.length_range, toInt_toInt32]
  split
  · omega
  · omega

theorem final_fair (hfpu : fpu.Rounds) {target : UInt32} {cardinality : List ℕ}
    (hwrap : BelowWrap target.toInt32.toInt cardinality) :
    Fair cardinality (final fpu target cardinality).bitmapNums := by
  have htarget := Int32.toInt_lt target.toInt32
  -- the invariants of the counts go along, and give what a fair step needs
  refine (loop_keeps (P := fun s => Ok fpu cardinality target.toInt32.toInt s ∧
    Ordered cardinality s.bitmapNums ∧ Fair cardinality s.bitmapNums)
    (fun s _ _ _ h htop hcard => ⟨h.1.drop htop hcard, h.2⟩)
    (fun s _ _ _ h hrem htop hcard => ⟨h.1.extend htop hcard,
      h.2.1.extend hfpu h.1 htarget hrem htop,
      h.2.2.extend hfpu h.1 h.2.1 htarget hwrap hrem htop hcard⟩) _
    ⟨Ok.start target cardinality, fun i j hij hj hi => ?_, fun i hi j hj hahead => ?_⟩).2.2
  · simp only [List.getD_eq_getElem?_getD, List.getElem?_replicate, hij.trans hj, if_pos,
      Option.getD_some] at hi
    omega
  · simp only [List.getD_eq_getElem?_getD, List.getElem?_replicate, hi, hj, if_pos,
      Option.getD_some] at hahead
    omega

/-- The counts overrun the budget only by the first bin of each attribute. -/
theorem sum_final_le (fpu : Fpu) (target : UInt32) (cardinality : List ℕ) :
    ((final fpu target cardinality).bitmapNums.sum : ℤ) ≤
      max (cardinality.length : ℤ) target.toInt32.toInt := by
  have hrem : min 0 (target.toInt32.toInt - cardinality.length) ≤
      (final fpu target cardinality).remaining := by
    refine loop_keeps (P := fun s => min 0 (target.toInt32.toInt - cardinality.length) ≤
      s.remaining) (fun s _ _ _ h _ _ => h) (fun s _ _ _ _ hpos _ _ => ?_) _ (min_le_right ..)
    simp only [Budget.extend]
    omega
  have htotal := (final_ok fpu target cardinality).total
  omega

/-- Every attribute has a bin and none more than it has values, the budget
holds and is used as far as the values go; and, below the wrap of the product
or with a bin for every value, an attribute that is two bins behind another
one has all the bins it can use. -/
theorem allocate_fair (hfpu : fpu.Rounds) (target : UInt32) (htarget : target.toNat < 2 ^ 31)
    (cardinality : List ℕ) :
    (allocate fpu target cardinality).length = cardinality.length ∧
    (∀ i < cardinality.length, 1 ≤ (allocate fpu target cardinality).getD i 0 ∧
      (allocate fpu target cardinality).getD i 0 ≤ max 1 (cardinality.getD i 0)) ∧
    (allocate fpu target cardinality).sum ≤ max cardinality.length target.toNat ∧
    (target.toNat ≤ (allocate fpu target cardinality).sum ∨ ∀ i < cardinality.length,
      cardinality.getD i 0 ≤ (allocate fpu target cardinality).getD i 0) ∧
    ((cardinality.map (max 1)).sum ≤ target.toNat ∨ BelowWrap target.toNat cardinality →
      Fair cardinality (allocate fpu target cardinality)) := by
  have hok := final_ok fpu target cardinality
  have hsum := sum_final_le fpu target cardinality
  have hint : target.toInt32.toInt = target.toNat := by rw [toInt_toInt32, if_pos htarget]
  have hused : target.toNat ≤ (final fpu target cardinality).bitmapNums.sum ∨
      ∀ i < cardinality.length,
        cardinality.getD i 0 ≤ (final fpu target cardinality).bitmapNums.getD i 0 := by
    rcases final_stops fpu target cardinality with hspent | hempty
    · have htotal := hok.total
      left
      omega
    · right
      intro i hi
      by_contra hopen
      simpa [hempty] using hok.queued i hi (not_le.1 hopen)
  rw [show allocate fpu target cardinality = (final fpu target cardinality).bitmapNums from rfl]
  refine ⟨hok.length, fun i hi => ⟨hok.pos i hi, hok.capped i hi⟩, by omega, hused, fun hwhen => ?_⟩
  rcases hwhen with hcovers | hwrap
  · intro i hi j hj _
    rcases hused with hspent | hfull
    · exact hok.full (hcovers.trans hspent) j hj
    · exact hfull j hj
  · exact final_fair hfpu (by rwa [hint])

/-- The last attribute with 65536 values gets them all before the first one passes 65536. -/
theorem allocate_fair_sameLevel :
    (131072 : UInt32).toNat < 2 ^ 31 ∧ BelowWrap 131072 [70000, 65536] ∧
      Fair [70000, 65536] (allocate Fpu.truncating 131072 [70000, 65536]) := by
  have hwrap : BelowWrap 131072 [70000, 65536] := by
    intro i hi j hj hmany
    rcases i with _ | _ | i
    · omega
    · exact absurd hmany (by decide)
    · exact absurd hi (by simp)
  exact ⟨by decide, hwrap, (allocate_fair Fpu.truncating_rounds 131072 (by decide)
    [70000, 65536]).2.2.2.2 (Or.inr hwrap)⟩

/-! ### Two attributes with many values -/

/-- Two attributes with `k` bins each. -/
def level (fpu : Fpu) (k : ℕ) (remaining : ℤ) : Budget where
  bitmapNums := [k, k]
  remaining := remaining
  pq := [(gain fpu k, 0), (gain fpu k, 1)]

theorem before_same (g : Binary64) : before (g, 1) (g, 0) = true := by
  rw [before, decide_eq_true_iff]
  exact Or.inr ⟨fun h => lt_irrefl _ h.2.2, Nat.zero_lt_one⟩

theorem before_of_lt {g g' : Binary64} (h : g' < g) (i j : ℕ) :
    before (g, i) (g', j) = true ∧ before (g', j) (g, i) = false := by
  have hnot : ¬g < g' := fun h' => lt_asymm h.2.2 h'.2.2
  simp [before, h, hnot]

theorem loop_level_half {c k fuel : ℕ} {remaining : ℤ} (hrem : 0 < remaining) (hc : k < c) :
    loop fpu [c, c] (fuel + 1) (level fpu k remaining) =
      loop fpu [c, c] fuel ⟨[k, k + 1], remaining - 1,
          [(gain fpu (k + 1), 1), (gain fpu k, 0)]⟩ := by
  rw [loop]
  simp [level, takeTop, before_same, hrem, hc]

/-- Both get a bin as long as a bin gains less than the last one. -/
theorem loop_level (hfpu : fpu.Rounds) {c k fuel : ℕ} {remaining : ℤ} (hk : 1 ≤ k)
    (hk' : k + 1 ≤ 65535) (hrem : 2 ≤ remaining) (hc : k < c) :
    loop fpu [c, c] (fuel + 2) (level fpu k remaining) =
      loop fpu [c, c] fuel (level fpu (k + 1) (remaining - 2)) := by
  rw [loop_level_half (by omega) hc, loop]
  have hrem' : 1 < remaining := by omega
  have hsub : remaining - 1 - 1 = remaining - 2 := by omega
  simp [level, takeTop, (before_of_lt (gain_lt_succ hfpu hk hk') 0 1).1, hrem', hsub,
    Nat.not_le_of_lt hc]

theorem loop_levels (hfpu : fpu.Rounds) {c m : ℕ} (fuel : ℕ) {remaining : ℤ} (hm : m + 1 ≤ 65535)
    (hrem : 2 * m ≤ remaining) (hc : m < c) :
    loop fpu [c, c] (fuel + 2 * m) (level fpu 1 remaining) =
      loop fpu [c, c] fuel (level fpu (m + 1) (remaining - 2 * m)) := by
  induction m generalizing fuel with
  | zero => simp
  | succ m ih =>
      rw [show fuel + 2 * (m + 1) = fuel + 2 + 2 * m by omega, ih (fuel + 2) (by omega) (by omega)
        (by omega), loop_level hfpu (by omega) hm (by omega) hc]
      congr 2
      push_cast
      omega

theorem allocate_pair (fpu : Fpu) (target : UInt32) (c : ℕ) :
    allocate fpu target [c, c] = (loop fpu [c, c] (target.toNat + 2)
      (level fpu 1 (target.toInt32.toInt - 2))).bitmapNums := rfl

/-- The gain of a bin more than 65536 is that of a bin more than a few: one attribute gets
both of the last two bins. -/
theorem allocate_unfair :
    allocate Fpu.truncating 131072 [70000, 70000] = [65535, 65537] ∧
      ¬Fair [70000, 70000] [65535, 65537] := by
  refine ⟨?_, fun h => ?_⟩
  · have hfuel : (131072 : UInt32).toNat + 2 = 6 + 2 * 65534 := by decide
    have hrem : (131072 : UInt32).toInt32.toInt - 2 = 131070 := by decide
    rw [allocate_pair, hfuel, hrem,
      loop_levels Fpu.truncating_rounds 6 (by decide) (by decide) (by decide),
      loop_level_half (by decide) (by decide), loop]
    have hwraps := (before_of_lt (gain_wraps Fpu.truncating_rounds) 1 0).2
    simp [takeTop, hwraps, loop]
  · exact absurd (h 1 (by decide) 0 (by decide) (by decide)) (by decide)

end Budget

end BitLSM
