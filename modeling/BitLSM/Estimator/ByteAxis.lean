import BitLSM.Lib.Bytes
import BitLSM.Lib.Radix

/-!
The coordinate axis of a range attribute.

`ByteAxis.fit` turns byte strings between a least and a greatest one into
coordinates of 64 bits. Their common bytes are skipped, and as many of the
following bytes as fit are the digits of a number, in the base spanned by the
bytes that the fitted boundaries use. A byte outside that span is clamped into
it, and a missing byte is the least digit. The arithmetic is that of `uint64_t`
and wraps.
-/

namespace BitLSM

open Wire

def satAdd (a b : UInt64) : UInt64 :=
  if 0xFFFFFFFFFFFFFFFF - b < a then 0xFFFFFFFFFFFFFFFF else a + b

theorem toNat_satAdd (a b : UInt64) :
    (satAdd a b).toNat = min (a.toNat + b.toNat) (2 ^ 64 - 1) := by
  have ha := a.toNat_lt
  have hb := b.toNat_lt
  have hle : b ≤ 0xFFFFFFFFFFFFFFFF := by
    rw [UInt64.le_iff_toNat_le]
    exact Nat.le_of_lt_succ hb
  have hroom : ((0xFFFFFFFFFFFFFFFF : UInt64) - b).toNat = 2 ^ 64 - 1 - b.toNat :=
    UInt64.toNat_sub_of_le _ _ hle
  unfold satAdd
  split
  · rename_i h
    rw [UInt64.lt_iff_toNat_lt, hroom] at h
    rw [show (0xFFFFFFFFFFFFFFFF : UInt64).toNat = 2 ^ 64 - 1 from rfl]
    omega
  · rename_i h
    rw [UInt64.lt_iff_toNat_lt, hroom] at h
    rw [UInt64.toNat_add]
    omega

def commonPrefixLength : Bytes → Bytes → ℕ
  | a :: as, b :: bs => if a = b then commonPrefixLength as bs + 1 else 0
  | _, _ => 0

structure ByteAxis where
  /-- The bytes all strings between the bounds begin with. -/
  prefixBytes : Bytes
  loChar : UInt8
  radix : UInt32
  /-- Length of the window. -/
  digits : ℕ
  /-- Window of the least string. -/
  base : UInt64 := 0
  /-- Window of the greatest string, minus `base`. -/
  span : UInt64 := 0
  /-- One value step. -/
  unit : UInt64 := 1
  deriving DecidableEq, Repr

namespace ByteAxis

/-! ### Windows and coordinates -/

/-- A byte as a digit. -/
def clamp (axis : ByteAxis) (c : UInt8) : UInt32 :=
  if c ≤ axis.loChar then 0
  else
    let d := c.toUInt32 - axis.loChar.toUInt32
    if d < axis.radix - 1 then d else axis.radix - 1

def digitAt (axis : ByteAxis) (s : Bytes) (i : ℕ) : UInt32 :=
  match s[axis.prefixBytes.length + i]? with
  | none => 0
  | some c => axis.clamp c

/-- The accumulator of `Window` after `n` turns of its loop. -/
def windowAfter (axis : ByteAxis) (s : Bytes) : ℕ → UInt64
  | 0 => 0
  | n + 1 => axis.windowAfter s n * axis.radix.toUInt64 + (axis.digitAt s n).toUInt64

def window (axis : ByteAxis) (s : Bytes) : UInt64 := axis.windowAfter s axis.digits

/-- `End()`. -/
def endRel (axis : ByteAxis) : UInt64 := satAdd axis.span axis.unit

/-- `Rel` of a string with the axis' prefix. -/
def relWindow (axis : ByteAxis) (w : UInt64) : UInt64 :=
  if w < axis.base then 0
  else if axis.span < w - axis.base then axis.endRel
  else w - axis.base

def rel (axis : ByteAxis) (s : Bytes) : UInt64 :=
  let c := Bytes.compare (s.take axis.prefixBytes.length) axis.prefixBytes
  if c < 0 then 0 else if 0 < c then axis.endRel else axis.relWindow (axis.window s)

/-! ### Fitting -/

/-- The loop that counts digits, on 128 bits. `none` when the fuel runs out. -/
def countDigits (radix : UInt32) : ℕ → ℕ → ℕ → Option ℕ
  | 0, _, _ => none
  | fuel + 1, p, digits =>
      if p * radix.toNat % 2 ^ 128 ≤ 2 ^ 64 then
        countDigits radix fuel (p * radix.toNat % 2 ^ 128) (digits + 1)
      else some digits

/-- The loop that computes the unit. -/
def unitAfter (radix : UInt32) : ℕ → UInt64
  | 0 => 1
  | n + 1 => unitAfter radix n * radix.toUInt64

def fitRadix (loChar hiChar : UInt8) : UInt32 :=
  let r := hiChar.toUInt32 - loChar.toUInt32 + 1
  if r < 2 then 2 else r

/-- The second half of `Fit`: a step in the last real digit of the shortest
boundary is one value step, the digits past it are padding. -/
def fitEnds (axis : ByteAxis) (lo hi : Bytes) (k shortest : ℕ) : ByteAxis :=
  let pad := if shortest < k + axis.digits then k + axis.digits - shortest else 0
  { axis with
    base := axis.window lo
    span := axis.window hi - axis.window lo
    unit := unitAfter axis.radix (min pad (axis.digits - 1)) }

def fit (lo hi : Bytes) (loChar hiChar : UInt8) (shortest : ℕ) : Option ByteAxis := do
  let k := commonPrefixLength lo hi
  let radix := fitRadix loChar hiChar
  let digits ← countDigits radix 65 1 0
  return fitEnds { prefixBytes := lo.take k, loChar, radix, digits } lo hi k shortest

/-! ### Digits without wrap -/

/-- What `fit` makes of a radix and a number of digits. -/
structure Sized (axis : ByteAxis) : Prop where
  two_le : 2 ≤ axis.radix.toNat
  le_256 : axis.radix.toNat ≤ 256
  pow_le : axis.radix.toNat ^ axis.digits ≤ 2 ^ 64
  lt_pow : 2 ^ 64 < axis.radix.toNat ^ (axis.digits + 1)

/-- The digits of a string's window. -/
def windowDigits (axis : ByteAxis) (s : Bytes) : List ℕ :=
  (List.range axis.digits).map fun i => (axis.digitAt s i).toNat

@[simp] theorem length_windowDigits (axis : ByteAxis) (s : Bytes) :
    (axis.windowDigits s).length = axis.digits := by
  simp [windowDigits]

theorem toNat_clamp {axis : ByteAxis} (h : axis.Sized) (c : UInt8) :
    (axis.clamp c).toNat = min (c.toNat - axis.loChar.toNat) (axis.radix.toNat - 1) := by
  have htwo := h.two_le
  have hpred : (axis.radix - 1).toNat = axis.radix.toNat - 1 := by
    apply UInt32.toNat_sub_of_le
    rw [UInt32.le_iff_toNat_le]
    exact (by decide : (1 : UInt32).toNat ≤ 2).trans htwo
  unfold clamp
  split
  · rename_i hle
    rw [UInt8.le_iff_toNat_le] at hle
    rw [Nat.sub_eq_zero_of_le hle, Nat.zero_min]
    rfl
  · rename_i hgt
    rw [UInt8.le_iff_toNat_le, not_le] at hgt
    have hdiff : (c.toUInt32 - axis.loChar.toUInt32).toNat = c.toNat - axis.loChar.toNat := by
      rw [UInt32.toNat_sub_of_le, UInt8.toNat_toUInt32, UInt8.toNat_toUInt32]
      rw [UInt32.le_iff_toNat_le, UInt8.toNat_toUInt32, UInt8.toNat_toUInt32]
      exact hgt.le
    simp only [UInt32.lt_iff_toNat_lt, hdiff, hpred]
    split
    · omega
    · omega

theorem digitAt_lt {axis : ByteAxis} (h : axis.Sized) (s : Bytes) (i : ℕ) :
    (axis.digitAt s i).toNat < axis.radix.toNat := by
  have htwo := h.two_le
  unfold digitAt
  split
  · exact (by decide : (0 : UInt32).toNat < 2).trans_le htwo
  · rw [toNat_clamp h]
    omega

theorem windowDigits_lt {axis : ByteAxis} (h : axis.Sized) (s : Bytes) :
    ∀ d ∈ axis.windowDigits s, d < axis.radix.toNat := by
  intro d hd
  obtain ⟨i, -, rfl⟩ := List.mem_map.1 hd
  exact digitAt_lt h s i

/-- No turn of the loop wraps. -/
theorem toNat_windowAfter {axis : ByteAxis} (h : axis.Sized) (s : Bytes) {n : ℕ}
    (hn : n ≤ axis.digits) :
    (axis.windowAfter s n).toNat =
        Radix.value axis.radix.toNat ((axis.windowDigits s).take n) ∧
      (axis.windowAfter s n).toNat < axis.radix.toNat ^ n := by
  have hdigits : (axis.windowDigits s).take n =
      (List.range n).map fun i => (axis.digitAt s i).toNat := by
    rw [windowDigits, ← List.map_take, List.take_range, Nat.min_eq_left hn]
  have hvalue : (axis.windowAfter s n).toNat = Radix.value axis.radix.toNat
      ((List.range n).map fun i => (axis.digitAt s i).toNat) := by
    clear hdigits
    induction n with
    | zero => rfl
    | succ n ih =>
        have hlt := @Radix.value_lt axis.radix.toNat
          ((List.range (n + 1)).map fun i => (axis.digitAt s i).toNat) (by
            intro d hd
            obtain ⟨i, -, rfl⟩ := List.mem_map.1 hd
            exact digitAt_lt h s i)
        have hpow : axis.radix.toNat ^ (n + 1) ≤ 2 ^ 64 :=
          (Nat.pow_le_pow_right (by have := h.two_le; omega) hn).trans h.pow_le
        rw [List.length_map, List.length_range] at hlt
        rw [List.range_succ, List.map_append, List.map_singleton, Radix.value_concat] at hlt ⊢
        rw [windowAfter, UInt64.toNat_add, UInt64.toNat_mul, UInt32.toNat_toUInt64,
          UInt32.toNat_toUInt64, ih (by omega), Nat.mod_add_mod]
        exact Nat.mod_eq_of_lt (hlt.trans_le hpow)
  rw [hdigits, hvalue]
  refine ⟨rfl, ?_⟩
  have hlt := @Radix.value_lt axis.radix.toNat
    ((List.range n).map fun i => (axis.digitAt s i).toNat) (by
      intro d hd
      obtain ⟨i, -, rfl⟩ := List.mem_map.1 hd
      exact digitAt_lt h s i)
  simpa using hlt

theorem toNat_window {axis : ByteAxis} (h : axis.Sized) (s : Bytes) :
    (axis.window s).toNat = Radix.value axis.radix.toNat (axis.windowDigits s) := by
  have hvalue := (toNat_windowAfter h s le_rfl).1
  rwa [List.take_of_length_le (length_windowDigits axis s).le] at hvalue

/-- Windows are ordered as their digits are. -/
theorem window_le_iff {axis : ByteAxis} (h : axis.Sized) {s t : Bytes} :
    axis.window s ≤ axis.window t ↔ axis.windowDigits s ≤ axis.windowDigits t := by
  rw [UInt64.le_iff_toNat_le, toNat_window h, toNat_window h]
  exact Radix.value_le_value_iff (by simp) (windowDigits_lt h s) (windowDigits_lt h t)

/-! ### What follows the common bytes -/

/-- `n` digits of what follows the prefix. -/
def readDigits (axis : ByteAxis) : ℕ → Bytes → List ℕ
  | 0, _ => []
  | n + 1, [] => 0 :: axis.readDigits n []
  | n + 1, c :: s => (axis.clamp c).toNat :: axis.readDigits n s

theorem windowDigits_append (axis : ByteAxis) (s : Bytes) :
    axis.windowDigits (axis.prefixBytes ++ s) = axis.readDigits axis.digits s := by
  have hread (n : ℕ) (s : Bytes) : axis.readDigits n s =
      (List.range n).map fun i => (s[i]?.elim 0 axis.clamp).toNat := by
    induction n generalizing s with
    | zero => rfl
    | succ n ih =>
        rw [List.range_succ_eq_map, List.map_cons, List.map_map]
        cases s with
        | nil =>
            rw [readDigits, ih]
            simp [Function.comp_def]
        | cons c s =>
            rw [readDigits, ih]
            simp [Function.comp_def]
  rw [hread, windowDigits]
  apply List.map_congr_left
  intro i _
  rw [digitAt, List.getElem?_append_right (Nat.le_add_right _ _), Nat.add_sub_cancel_left]
  cases s[i]? with
  | none => rfl
  | some c => rfl

@[simp] theorem length_readDigits (axis : ByteAxis) (n : ℕ) (s : Bytes) :
    (axis.readDigits n s).length = n := by
  induction n generalizing s with
  | zero => rfl
  | succ n ih => cases s <;> rw [readDigits, List.length_cons, ih]

theorem readDigits_nil (axis : ByteAxis) (n : ℕ) :
    axis.readDigits n [] = List.replicate n 0 := by
  induction n with
  | zero => rfl
  | succ n ih => rw [readDigits, ih, List.replicate_succ]

theorem readDigits_add (axis : ByteAxis) (m n : ℕ) (s : Bytes) :
    axis.readDigits (m + n) s = axis.readDigits m s ++ axis.readDigits n (s.drop m) := by
  induction m generalizing s with
  | zero => rw [Nat.zero_add, List.drop_zero, readDigits, List.nil_append]
  | succ m ih =>
      rw [Nat.add_right_comm]
      cases s with
      | nil => rw [readDigits, readDigits, ih, List.drop_nil, List.drop_nil, List.cons_append]
      | cons c s => rw [readDigits, readDigits, ih, List.drop_succ_cons, List.cons_append]

theorem readDigits_nil_le (axis : ByteAxis) (n : ℕ) (s : Bytes) :
    axis.readDigits n [] ≤ axis.readDigits n s := by
  induction n generalizing s with
  | zero => exact le_rfl
  | succ n ih =>
      cases s with
      | nil => exact le_rfl
      | cons c s =>
          simp only [readDigits]
          rw [Radix.cons_le_cons_iff]
          rcases Nat.eq_zero_or_pos (axis.clamp c).toNat with hzero | hpos
          · exact Or.inr ⟨hzero.symm, ih s⟩
          · exact Or.inl hpos

/-- A byte that is its own digit. -/
def InRange (axis : ByteAxis) (c : UInt8) : Prop :=
  axis.loChar.toNat ≤ c.toNat ∧ c.toNat < axis.loChar.toNat + axis.radix.toNat

instance (axis : ByteAxis) (c : UInt8) : Decidable (axis.InRange c) :=
  inferInstanceAs (Decidable (_ ∧ _))

theorem toNat_clamp_of_inRange {axis : ByteAxis} (h : axis.Sized) {c : UInt8}
    (hc : axis.InRange c) : (axis.clamp c).toNat = c.toNat - axis.loChar.toNat := by
  obtain ⟨hlo, hhi⟩ := hc
  rw [toNat_clamp h]
  omega

theorem clamp_lt_of_inRange {axis : ByteAxis} (h : axis.Sized) {c d : UInt8} (hcd : c < d)
    (hc : axis.InRange c) (hd : axis.InRange d) :
    (axis.clamp c).toNat < (axis.clamp d).toNat := by
  rw [toNat_clamp_of_inRange h hc, toNat_clamp_of_inRange h hd]
  rw [UInt8.lt_iff_toNat_lt] at hcd
  have hlo := hc.1
  omega

/-- The digits keep the order of two strings if those of the first bytes in which
the strings differ do. -/
theorem readDigits_le {axis : ByteAxis} {n : ℕ} {s t : Bytes} (hst : s ≤ t)
    (hfirst : commonPrefixLength s t < n → ∀ c ∈ s[commonPrefixLength s t]?,
      ∀ d ∈ t[commonPrefixLength s t]?, c < d → (axis.clamp c).toNat < (axis.clamp d).toNat) :
    axis.readDigits n s ≤ axis.readDigits n t := by
  induction n generalizing s t with
  | zero => exact le_rfl
  | succ n ih =>
      cases s with
      | nil => exact axis.readDigits_nil_le _ t
      | cons c s =>
          cases t with
          | nil => exact absurd hst (List.nil_lt_cons c s).not_ge
          | cons d t =>
              simp only [readDigits]
              rw [Radix.cons_le_cons_iff]
              rcases Radix.cons_le_cons_iff.1 hst with hcd | ⟨rfl, htail⟩
              · rw [commonPrefixLength, if_neg hcd.ne] at hfirst
                exact Or.inl (hfirst n.succ_pos c rfl d rfl hcd)
              · rw [commonPrefixLength, if_pos rfl] at hfirst
                exact Or.inr ⟨rfl, ih htail fun hlt => hfirst (Nat.succ_lt_succ hlt)⟩

end ByteAxis

/-- Between two strings with common first bytes, all strings begin with them. -/
theorem exists_append_of_between {p x y s : Bytes} (hlo : p ++ x ≤ s) (hhi : s ≤ p ++ y) :
    ∃ r, s = p ++ r ∧ x ≤ r ∧ r ≤ y := by
  induction p generalizing s with
  | nil => exact ⟨s, rfl, hlo, hhi⟩
  | cons c p ih =>
      cases s with
      | nil => exact absurd hlo (List.nil_lt_cons c (p ++ x)).not_ge
      | cons d s =>
          rw [List.cons_append, Radix.cons_le_cons_iff] at hlo hhi
          rcases hlo with hlt | ⟨rfl, htail⟩
          · rcases hhi with hgt | ⟨rfl, -⟩
            · exact absurd hlt hgt.asymm
            · exact absurd hlt (lt_irrefl _)
          · have htail' := (hhi.resolve_left (lt_irrefl _)).2
            obtain ⟨r, rfl, hr⟩ := ih htail htail'
            exact ⟨r, rfl, hr⟩

theorem take_commonPrefixLength (a b : Bytes) :
    b.take (commonPrefixLength a b) = a.take (commonPrefixLength a b) := by
  induction a generalizing b with
  | nil => simp [commonPrefixLength]
  | cons x a ih =>
      cases b with
      | nil => simp [commonPrefixLength]
      | cons y b =>
          simp only [commonPrefixLength]
          split
          · rename_i hxy
            rw [List.take_succ_cons, List.take_succ_cons, ih, hxy]
          · rfl

theorem commonPrefixLength_append (a b c : Bytes) :
    commonPrefixLength (a ++ b) (a ++ c) = a.length + commonPrefixLength b c := by
  induction a with
  | nil => simp
  | cons x a ih =>
      simp only [List.cons_append, commonPrefixLength, if_true, ih, List.length_cons]
      omega

theorem commonPrefixLength_le (a b : Bytes) : commonPrefixLength a b ≤ a.length := by
  induction a generalizing b with
  | nil => simp [commonPrefixLength]
  | cons x a ih =>
      cases b with
      | nil => simp [commonPrefixLength]
      | cons y b =>
          simp only [commonPrefixLength]
          split
          · exact Nat.succ_le_succ (ih b)
          · exact Nat.zero_le _

namespace ByteAxis

/-! ### What `Fit` returns -/

theorem toNat_fitRadix {loChar hiChar : UInt8} (h : loChar ≤ hiChar) :
    (fitRadix loChar hiChar).toNat = max 2 (hiChar.toNat - loChar.toNat + 1) := by
  have hhi := hiChar.toNat_lt
  rw [UInt8.le_iff_toNat_le] at h
  have hdiff : (hiChar.toUInt32 - loChar.toUInt32).toNat = hiChar.toNat - loChar.toNat := by
    rw [UInt32.toNat_sub_of_le, UInt8.toNat_toUInt32, UInt8.toNat_toUInt32]
    rw [UInt32.le_iff_toNat_le, UInt8.toNat_toUInt32, UInt8.toNat_toUInt32]
    exact h
  have hsum : (hiChar.toUInt32 - loChar.toUInt32 + 1).toNat =
      hiChar.toNat - loChar.toNat + 1 := by
    rw [UInt32.toNat_add, hdiff, show (1 : UInt32).toNat = 1 from rfl]
    omega
  simp only [fitRadix, UInt32.lt_iff_toNat_lt, hsum, show (2 : UInt32).toNat = 2 from rfl]
  split
  · rw [show (2 : UInt32).toNat = 2 from rfl]
    omega
  · rw [hsum]
    omega

/-- The loop ends, at the greatest power that fits in 64 bits. -/
theorem countDigits_spec {radix : UInt32} (htwo : 2 ≤ radix.toNat) (hle : radix.toNat ≤ 256)
    {fuel d : ℕ} (hd : radix.toNat ^ d ≤ 2 ^ 64) (hfuel : 65 ≤ fuel + d) :
    ∃ digits, countDigits radix fuel (radix.toNat ^ d) d = some digits ∧
      radix.toNat ^ digits ≤ 2 ^ 64 ∧ 2 ^ 64 < radix.toNat ^ (digits + 1) := by
  induction fuel generalizing d with
  | zero =>
      have hsmall : 2 ^ d ≤ 2 ^ 64 := (Nat.pow_le_pow_left htwo d).trans hd
      have := (Nat.pow_le_pow_iff_right (by decide : 1 < 2)).1 hsmall
      omega
  | succ fuel ih =>
      have hmul : radix.toNat ^ d * radix.toNat = radix.toNat ^ (d + 1) := (Nat.pow_succ ..).symm
      have hfits : radix.toNat ^ (d + 1) < 2 ^ 128 := by
        calc radix.toNat ^ (d + 1) = radix.toNat ^ d * radix.toNat := hmul.symm
          _ ≤ 2 ^ 64 * 256 := Nat.mul_le_mul hd hle
          _ < 2 ^ 128 := by decide
      simp only [countDigits, hmul, Nat.mod_eq_of_lt hfits]
      split
      · rename_i hnext
        exact ih hnext (by omega)
      · rename_i hstop
        exact ⟨d, rfl, hd, not_le.1 hstop⟩

theorem Sized.eight_le {axis : ByteAxis} (h : axis.Sized) : 8 ≤ axis.digits := by
  by_contra hlt
  have hpow : axis.radix.toNat ^ (axis.digits + 1) ≤ 256 ^ 8 :=
    (Nat.pow_le_pow_left h.le_256 _).trans (Nat.pow_le_pow_right (by decide) (by omega))
  have hgt := h.lt_pow
  have heq : (256 : ℕ) ^ 8 = 2 ^ 64 := by decide
  omega

theorem toNat_unitAfter {axis : ByteAxis} (h : axis.Sized) {n : ℕ} (hn : n < axis.digits) :
    (unitAfter axis.radix n).toNat = axis.radix.toNat ^ n := by
  induction n with
  | zero => rfl
  | succ n ih =>
      have hlt : axis.radix.toNat ^ (n + 1) < 2 ^ 64 :=
        (Nat.pow_lt_pow_right (by have := h.two_le; omega) hn).trans_le h.pow_le
      rw [unitAfter, UInt64.toNat_mul, ih (by omega), UInt32.toNat_toUInt64, ← Nat.pow_succ]
      exact Nat.mod_eq_of_lt hlt

/-- The window does not depend on where the coordinates begin and end. -/
theorem window_congr {a b : ByteAxis} (hcommon : a.prefixBytes = b.prefixBytes)
    (hlo : a.loChar = b.loChar) (hradix : a.radix = b.radix) (hdigits : a.digits = b.digits)
    (s : Bytes) : a.window s = b.window s := by
  have hdigit (i : ℕ) : a.digitAt s i = b.digitAt s i := by
    simp only [digitAt, clamp, hcommon, hlo, hradix]
  have hafter (n : ℕ) : a.windowAfter s n = b.windowAfter s n := by
    induction n with
    | zero => rfl
    | succ n ih => rw [windowAfter, windowAfter, ih, hradix, hdigit]
  rw [window, window, hdigits, hafter]

theorem window_fitEnds (axis : ByteAxis) (lo hi : Bytes) (k shortest : ℕ) (s : Bytes) :
    (axis.fitEnds lo hi k shortest).window s = axis.window s :=
  window_congr (a := axis.fitEnds lo hi k shortest) (b := axis) rfl rfl rfl rfl s

theorem toNat_unit_fitEnds {axis : ByteAxis} (h : axis.Sized) (lo hi : Bytes) (k shortest : ℕ) :
    (axis.fitEnds lo hi k shortest).unit.toNat =
      axis.radix.toNat ^ min (k + axis.digits - shortest) (axis.digits - 1) := by
  have hpad : (if shortest < k + axis.digits then k + axis.digits - shortest else 0) =
      k + axis.digits - shortest := by
    split <;> omega
  have height := h.eight_le
  simp only [fitEnds, hpad]
  exact toNat_unitAfter h (by omega)

/-- The axis that `fit` returns. -/
structure IsFit (lo hi : Bytes) (loChar hiChar : UInt8) (shortest : ℕ) (axis : ByteAxis) :
    Prop where
  sized : axis.Sized
  prefixBytes_eq : axis.prefixBytes = lo.take (commonPrefixLength lo hi)
  loChar_eq : axis.loChar = loChar
  radix_eq : axis.radix = fitRadix loChar hiChar
  base_eq : axis.base = axis.window lo
  span_eq : axis.span = axis.window hi - axis.window lo
  unit_eq : axis.unit.toNat = axis.radix.toNat ^
    min (commonPrefixLength lo hi + axis.digits - shortest) (axis.digits - 1)

theorem fit_isFit (lo hi : Bytes) {loChar hiChar : UInt8} (shortest : ℕ)
    (hchars : loChar ≤ hiChar) :
    ∃ axis, fit lo hi loChar hiChar shortest = some axis ∧
      IsFit lo hi loChar hiChar shortest axis := by
  have hradix := toNat_fitRadix hchars
  have hlt := hiChar.toNat_lt
  obtain ⟨digits, hcount, hpow, hnext⟩ := @countDigits_spec (fitRadix loChar hiChar)
    (by omega) (by omega) 65 0 (by rw [Nat.pow_zero]; decide) (by decide)
  rw [Nat.pow_zero] at hcount
  let axis : ByteAxis :=
    ⟨lo.take (commonPrefixLength lo hi), loChar, fitRadix loChar hiChar, digits, 0, 0, 1⟩
  have hfit : fit lo hi loChar hiChar shortest =
      some (axis.fitEnds lo hi (commonPrefixLength lo hi) shortest) := by
    simp only [fit, hcount, Option.bind_eq_bind, Option.bind_some, Option.pure_def, axis]
  have htwo : 2 ≤ (fitRadix loChar hiChar).toNat := by omega
  have hsized : axis.Sized := ⟨htwo, by simp only [axis]; omega, hpow, hnext⟩
  refine ⟨_, hfit, ⟨htwo, hsized.le_256, hpow, hnext⟩, rfl, rfl, rfl, ?_, ?_,
    toNat_unit_fitEnds hsized lo hi _ shortest⟩
  · rw [window_fitEnds]
    rfl
  · rw [window_fitEnds, window_fitEnds]
    rfl

end ByteAxis

/-! ### The axis of a family of histograms -/

/-- The histogram of one file: bin `i` covers the strings from boundary `i` up
to the next one, and the last bin also its upper end. -/
structure RangeAttrHistogram where
  boundaries : List Bytes
  counts : List UInt64
  /-- Exact distinct values. -/
  distinct : UInt64 := 0
  length_boundaries : boundaries.length = counts.length + 1
  sorted : boundaries.Pairwise (· ≤ ·)

namespace RangeAttrHistogram

theorem ne_nil (h : RangeAttrHistogram) : h.boundaries ≠ [] := by
  intro hnil
  have hlen := h.length_boundaries
  simp [hnil] at hlen

/-- `boundaries[0]`. -/
def first (h : RangeAttrHistogram) : Bytes := h.boundaries.head h.ne_nil

/-- `boundaries.back()`. -/
def last (h : RangeAttrHistogram) : Bytes := h.boundaries.getLast h.ne_nil

theorem first_mem (h : RangeAttrHistogram) : h.first ∈ h.boundaries := List.head_mem h.ne_nil

theorem last_mem (h : RangeAttrHistogram) : h.last ∈ h.boundaries := List.getLast_mem h.ne_nil

theorem first_le (h : RangeAttrHistogram) {b : Bytes} (hb : b ∈ h.boundaries) : h.first ≤ b := by
  have hsorted := h.sorted
  rw [← List.cons_head_tail h.ne_nil, List.pairwise_cons] at hsorted
  rw [← List.cons_head_tail h.ne_nil, List.mem_cons] at hb
  rcases hb with rfl | hb
  · exact le_rfl
  · exact hsorted.1 b hb

theorem le_last (h : RangeAttrHistogram) {b : Bytes} (hb : b ∈ h.boundaries) : b ≤ h.last := by
  have hsorted := h.sorted
  rw [← List.dropLast_append_getLast h.ne_nil, List.pairwise_append] at hsorted
  rw [← List.dropLast_append_getLast h.ne_nil, List.mem_append, List.mem_singleton] at hb
  rcases hb with hb | rfl
  · exact hsorted.2.2 b hb _ (List.mem_singleton_self _)
  · exact le_rfl

end RangeAttrHistogram

/-- The least first and the greatest last boundary; `none` before the first
histogram. -/
def globalBounds (hists : List RangeAttrHistogram) : Option (Bytes × Bytes) :=
  hists.foldl (fun acc h =>
    match acc with
    | none => some (h.first, h.last)
    | some (lo, hi) => some (if h.first < lo then h.first else lo, if hi < h.last
        then h.last else hi))
    none

/-- The least and the greatest of some bytes, from 255 and 0 on. -/
def charRange (bytes : Bytes) : UInt8 × UInt8 :=
  bytes.foldl (fun r c => (if c < r.1 then c else r.1, if r.2 < c then c else r.2)) (255, 0)

/-- All boundaries. -/
def allBoundaries (hists : List RangeAttrHistogram) : List Bytes :=
  hists.flatMap (·.boundaries)

/-- The bytes past the first `k` of all boundaries. -/
def usedBytes (k : ℕ) (hists : List RangeAttrHistogram) : Bytes :=
  (allBoundaries hists).flatMap (·.drop k)

/-- Without a byte past the prefix the range is that of a zero byte. -/
def fitChars (k : ℕ) (hists : List RangeAttrHistogram) : UInt8 × UInt8 :=
  let r := charRange (usedBytes k hists)
  if r.2 < r.1 then (0, 0) else r

def shortestBoundary (hists : List RangeAttrHistogram) : ℕ :=
  (allBoundaries hists).foldl (fun shortest v => min shortest v.length) (2 ^ 64 - 1)

/-- The bounds and the axis that `Rebuild` computes. -/
def rebuildAxis (hists : List RangeAttrHistogram) : Option (Bytes × Bytes × ByteAxis) := do
  let (lo, hi) ← globalBounds hists
  let chars := fitChars (commonPrefixLength lo hi) hists
  let axis ← ByteAxis.fit lo hi chars.1 chars.2 (shortestBoundary hists)
  return (lo, hi, axis)

theorem mem_allBoundaries {hists : List RangeAttrHistogram} {b : Bytes} :
    b ∈ allBoundaries hists ↔ ∃ h ∈ hists, b ∈ h.boundaries :=
  List.mem_flatMap

/-- The bounds enclose all boundaries and are two of them. -/
theorem globalBounds_spec {hists : List RangeAttrHistogram} (hne : hists ≠ []) :
    ∃ lo hi, globalBounds hists = some (lo, hi) ∧ lo ∈ allBoundaries hists ∧
      hi ∈ allBoundaries hists ∧ ∀ b ∈ allBoundaries hists, lo ≤ b ∧ b ≤ hi := by
  have hrun (hists : List RangeAttrHistogram) : hists = [] ∧ globalBounds hists = none ∨
      ∃ lo hi, globalBounds hists = some (lo, hi) ∧ lo ∈ allBoundaries hists ∧
        hi ∈ allBoundaries hists ∧ ∀ b ∈ allBoundaries hists, lo ≤ b ∧ b ≤ hi := by
    induction hists using List.reverseRecOn with
    | nil => exact Or.inl ⟨rfl, rfl⟩
    | append_singleton hists h ih =>
        right
        have hall : allBoundaries (hists ++ [h]) = allBoundaries hists ++ h.boundaries := by
          simp [allBoundaries]
        simp only [globalBounds, List.foldl_append, List.foldl_cons, List.foldl_nil, hall,
          List.mem_append]
        rcases ih with ⟨rfl, hnone⟩ | ⟨lo, hi, hsome, hlo, hhi, hbetween⟩
        · refine ⟨h.first, h.last, rfl, Or.inr h.first_mem, Or.inr h.last_mem, ?_⟩
          rintro b (hb | hb)
          · simp [allBoundaries] at hb
          · exact ⟨h.first_le hb, h.le_last hb⟩
        · rw [globalBounds] at hsome
          rw [hsome]
          refine ⟨_, _, rfl, ?_, ?_, ?_⟩
          · split
            · exact Or.inr h.first_mem
            · exact Or.inl hlo
          · split
            · exact Or.inr h.last_mem
            · exact Or.inl hhi
          · have hfirst : (if h.first < lo then h.first else lo) ≤ lo ∧
                (if h.first < lo then h.first else lo) ≤ h.first := by
              split
              · rename_i hlt
                exact ⟨hlt.le, le_rfl⟩
              · rename_i hge
                exact ⟨le_rfl, not_lt.1 hge⟩
            have hlast : hi ≤ (if hi < h.last then h.last else hi) ∧
                h.last ≤ (if hi < h.last then h.last else hi) := by
              split
              · rename_i hlt
                exact ⟨hlt.le, le_rfl⟩
              · rename_i hge
                exact ⟨le_rfl, not_lt.1 hge⟩
            rintro b (hb | hb)
            · exact ⟨hfirst.1.trans (hbetween b hb).1, (hbetween b hb).2.trans hlast.1⟩
            · exact ⟨hfirst.2.trans (h.first_le hb), (h.le_last hb).trans hlast.2⟩
  exact (hrun hists).resolve_left fun h => hne h.1

/-- The range encloses all bytes and, if there are any, ends at two of them. -/
theorem charRange_spec (bytes : Bytes) :
    (∀ c ∈ bytes, (charRange bytes).1 ≤ c ∧ c ≤ (charRange bytes).2) ∧
      ((charRange bytes).1 ∈ bytes ∨ (charRange bytes).1 = 255) ∧
      ((charRange bytes).2 ∈ bytes ∨ (charRange bytes).2 = 0) := by
  induction bytes using List.reverseRecOn with
  | nil => exact ⟨by simp, Or.inr rfl, Or.inr rfl⟩
  | append_singleton bytes c ih =>
      obtain ⟨hall, hlo, hhi⟩ := ih
      have hstep : charRange (bytes ++ [c]) =
          (if c < (charRange bytes).1 then c else (charRange bytes).1,
            if (charRange bytes).2 < c then c else (charRange bytes).2) := by
        rw [charRange, List.foldl_append]
        rfl
      rw [hstep]
      simp only [List.mem_append, List.mem_singleton]
      refine ⟨?_, ?_, ?_⟩
      · rintro b (hb | rfl)
        · obtain ⟨h1, h2⟩ := hall b hb
          constructor
          · split
            · rename_i hlt
              exact hlt.le.trans h1
            · exact h1
          · split
            · rename_i hlt
              exact h2.trans hlt.le
            · exact h2
        · constructor
          · split
            · exact le_rfl
            · rename_i hge
              exact not_lt.1 hge
          · split
            · exact le_rfl
            · rename_i hge
              exact not_lt.1 hge
      · split
        · exact Or.inl (Or.inr rfl)
        · exact hlo.imp_left Or.inl
      · split
        · exact Or.inl (Or.inr rfl)
        · exact hhi.imp_left Or.inl

theorem fitChars_le (k : ℕ) (hists : List RangeAttrHistogram) :
    (fitChars k hists).1 ≤ (fitChars k hists).2 := by
  by_cases h : (charRange (usedBytes k hists)).2 < (charRange (usedBytes k hists)).1
  · simp only [fitChars, h, if_true]
    exact le_rfl
  · simp only [fitChars, h, if_false]
    exact not_lt.1 h

theorem fitChars_eq {k : ℕ} {hists : List RangeAttrHistogram} {c : UInt8}
    (hc : c ∈ usedBytes k hists) : fitChars k hists = charRange (usedBytes k hists) := by
  obtain ⟨h1, h2⟩ := (charRange_spec (usedBytes k hists)).1 c hc
  rw [fitChars, if_neg (not_lt.2 (h1.trans h2))]

/-- An axis as `Rebuild` fits it to the boundaries. -/
structure AxisOf (hists : List RangeAttrHistogram) (lo hi : Bytes) (axis : ByteAxis) : Prop where
  lo_mem : lo ∈ allBoundaries hists
  hi_mem : hi ∈ allBoundaries hists
  between : ∀ b ∈ allBoundaries hists, lo ≤ b ∧ b ≤ hi
  fit : ByteAxis.IsFit lo hi (fitChars (commonPrefixLength lo hi) hists).1
    (fitChars (commonPrefixLength lo hi) hists).2 (shortestBoundary hists) axis

/-- Fitting ends, for every family. -/
theorem rebuildAxis_spec {hists : List RangeAttrHistogram} (hne : hists ≠ []) :
    ∃ lo hi axis, rebuildAxis hists = some (lo, hi, axis) ∧ AxisOf hists lo hi axis := by
  obtain ⟨lo, hi, hbounds, hlo, hhi, hbetween⟩ := globalBounds_spec hne
  obtain ⟨axis, hfit, hisFit⟩ := ByteAxis.fit_isFit lo hi (shortestBoundary hists)
    (fitChars_le (commonPrefixLength lo hi) hists)
  refine ⟨lo, hi, axis, ?_, hlo, hhi, hbetween, hisFit⟩
  simp only [rebuildAxis, hbounds, hfit, Option.bind_eq_bind, Option.bind_some, Option.pure_def]

namespace AxisOf

variable {hists : List RangeAttrHistogram} {lo hi : Bytes} {axis : ByteAxis}

/-- Every string between the bounds is the common bytes and a remainder, and
the remainders are ordered as the strings are. -/
theorem exists_remainder (h : AxisOf hists lo hi axis) {s : Bytes} (hlo : lo ≤ s) (hhi : s ≤ hi) :
    s = axis.prefixBytes ++ s.drop axis.prefixBytes.length := by
  have hlo' : lo = axis.prefixBytes ++ lo.drop (commonPrefixLength lo hi) := by
    rw [h.fit.prefixBytes_eq, List.take_append_drop]
  have hhi' : hi = axis.prefixBytes ++ hi.drop (commonPrefixLength lo hi) := by
    rw [h.fit.prefixBytes_eq, ← take_commonPrefixLength, List.take_append_drop]
  rw [hlo'] at hlo
  rw [hhi'] at hhi
  obtain ⟨r, rfl, -⟩ := exists_append_of_between hlo hhi
  rw [List.drop_left]

/-- The bytes of a boundary past the prefix are digits as they are. -/
theorem inRange (h : AxisOf hists lo hi axis) {b : Bytes} (hb : b ∈ allBoundaries hists) {c : UInt8}
    (hc : c ∈ b.drop (commonPrefixLength lo hi)) : axis.InRange c := by
  have hused : c ∈ usedBytes (commonPrefixLength lo hi) hists := List.mem_flatMap.2 ⟨b, hb, hc⟩
  obtain ⟨h1, h2⟩ := (charRange_spec (usedBytes (commonPrefixLength lo hi) hists)).1 c hused
  rw [← fitChars_eq hused, UInt8.le_iff_toNat_le] at h1 h2
  have hradix := ByteAxis.toNat_fitRadix (fitChars_le (commonPrefixLength lo hi) hists)
  rw [← h.fit.radix_eq] at hradix
  rw [← h.fit.loChar_eq] at h1 hradix
  exact ⟨h1, by omega⟩

theorem length_prefixBytes (h : AxisOf hists lo hi axis) :
    axis.prefixBytes.length = commonPrefixLength lo hi := by
  rw [h.fit.prefixBytes_eq, List.length_take, Nat.min_eq_left (commonPrefixLength_le lo hi)]

/-- Strings between the bounds, without the common bytes. -/
theorem exists_remainders (h : AxisOf hists lo hi axis) {s t : Bytes} (hlo : lo ≤ s) (hst : s ≤ t)
    (hhi : t ≤ hi) : ∃ u v, s = axis.prefixBytes ++ u ∧ t = axis.prefixBytes ++ v ∧ u ≤ v := by
  have hs := h.exists_remainder hlo (hst.trans hhi)
  have ht := h.exists_remainder (hlo.trans hst) hhi
  have hst' := hst
  rw [hs] at hst'
  obtain ⟨v, hv, huv, -⟩ := exists_append_of_between hst' ht.le
  exact ⟨_, v, hs, hv, huv⟩

/-- Digits keep the order of strings between the bounds whose window has no
clamped byte. -/
theorem windowDigits_le (h : AxisOf hists lo hi axis) {s t : Bytes} (hlo : lo ≤ s) (hst : s ≤ t)
    (hhi : t ≤ hi)
    (hs : ∀ c ∈ (s.drop (commonPrefixLength lo hi)).take axis.digits, axis.InRange c)
    (ht : ∀ c ∈ (t.drop (commonPrefixLength lo hi)).take axis.digits, axis.InRange c) :
    axis.windowDigits s ≤ axis.windowDigits t := by
  obtain ⟨u, v, rfl, rfl, huv⟩ := h.exists_remainders hlo hst hhi
  rw [← h.length_prefixBytes, List.drop_left] at hs ht
  rw [ByteAxis.windowDigits_append, ByteAxis.windowDigits_append]
  refine ByteAxis.readDigits_le huv fun hlt c hc d hd hcd => ?_
  rw [Option.mem_def, ← List.getElem?_take_of_lt hlt] at hc hd
  exact ByteAxis.clamp_lt_of_inRange h.fit.sized hcd (hs c (List.mem_of_getElem? hc))
    (ht d (List.mem_of_getElem? hd))

theorem lo_le_hi (h : AxisOf hists lo hi axis) : lo ≤ hi := (h.between hi h.hi_mem).1

/-- The span does not underflow. -/
theorem window_lo_le (h : AxisOf hists lo hi axis) : axis.window lo ≤ axis.window hi := by
  rw [ByteAxis.window_le_iff h.fit.sized]
  exact h.windowDigits_le le_rfl h.lo_le_hi le_rfl
    (fun c hc => h.inRange h.lo_mem (List.mem_of_mem_take hc))
    (fun c hc => h.inRange h.hi_mem (List.mem_of_mem_take hc))

theorem toNat_span (h : AxisOf hists lo hi axis) :
    axis.span.toNat = (axis.window hi).toNat - axis.base.toNat := by
  rw [h.fit.span_eq, h.fit.base_eq, UInt64.toNat_sub_of_le _ _ h.window_lo_le]

theorem base_add_span (h : AxisOf hists lo hi axis) :
    axis.base.toNat + axis.span.toNat = (axis.window hi).toNat := by
  have hle := UInt64.le_iff_toNat_le.1 h.window_lo_le
  have hbase := congrArg UInt64.toNat h.fit.base_eq
  rw [h.toNat_span]
  omega

/-- Between the bounds the coordinate is that of the window. -/
theorem rel_eq (h : AxisOf hists lo hi axis) {s : Bytes} (hlo : lo ≤ s) (hhi : s ≤ hi) :
    axis.rel s = axis.relWindow (axis.window s) := by
  have htake : s.take axis.prefixBytes.length = axis.prefixBytes := by
    have hs := h.exists_remainder hlo hhi
    rw [hs, List.take_left]
  have hzero : Bytes.compare (s.take axis.prefixBytes.length) axis.prefixBytes = 0 :=
    Bytes.compare_eq_zero.2 htake
  simp [ByteAxis.rel, hzero]

end AxisOf

namespace ByteAxis

/-! ### Coordinates -/

theorem toNat_endRel (axis : ByteAxis) :
    axis.endRel.toNat = min (axis.span.toNat + axis.unit.toNat) (2 ^ 64 - 1) :=
  toNat_satAdd axis.span axis.unit

theorem span_le_endRel (axis : ByteAxis) : axis.span ≤ axis.endRel := by
  have hlt := axis.span.toNat_lt
  rw [UInt64.le_iff_toNat_le, toNat_endRel]
  omega

theorem toNat_relWindow (axis : ByteAxis) (w : UInt64) :
    (axis.relWindow w).toNat =
      if w.toNat < axis.base.toNat then 0
      else if axis.base.toNat + axis.span.toNat < w.toNat then axis.endRel.toNat
      else w.toNat - axis.base.toNat := by
  unfold relWindow
  by_cases hlow : w < axis.base
  · have hlow' := UInt64.lt_iff_toNat_lt.1 hlow
    rw [if_pos hlow, if_pos hlow']
    rfl
  · have hge := UInt64.le_iff_toNat_le.1 (UInt64.not_lt.1 hlow)
    have hsub : (w - axis.base).toNat = w.toNat - axis.base.toNat :=
      UInt64.toNat_sub_of_le _ _ (UInt64.not_lt.1 hlow)
    rw [if_neg hlow, if_neg (not_lt.2 hge)]
    by_cases hhigh : axis.span < w - axis.base
    · rw [if_pos hhigh]
      rw [UInt64.lt_iff_toNat_lt, hsub] at hhigh
      rw [if_pos (by omega)]
    · rw [if_neg hhigh, hsub]
      rw [UInt64.lt_iff_toNat_lt, hsub] at hhigh
      rw [if_neg (by omega)]

/-- Coordinates are ordered as their windows, up to the two ends. -/
theorem relWindow_le_iff {axis : ByteAxis} (hunit : 0 < axis.unit.toNat) (v w : UInt64) :
    axis.relWindow v ≤ axis.relWindow w ↔
      v ≤ w ∨ v ≤ axis.base ∨ axis.base.toNat + axis.span.toNat < w.toNat := by
  have hv := v.toNat_lt
  have hend := axis.toNat_endRel
  simp only [UInt64.le_iff_toNat_le, toNat_relWindow, hend]
  split_ifs <;> omega

theorem relWindow_le_endRel (axis : ByteAxis) (w : UInt64) : axis.relWindow w ≤ axis.endRel := by
  have hspan := UInt64.le_iff_toNat_le.1 axis.span_le_endRel
  rw [UInt64.le_iff_toNat_le, toNat_relWindow]
  split
  · exact Nat.zero_le _
  · split
    · exact le_rfl
    · omega

theorem rel_le_endRel (axis : ByteAxis) (s : Bytes) : axis.rel s ≤ axis.endRel := by
  simp only [rel]
  split
  · exact UInt64.zero_le
  · split
    · exact UInt64.le_refl _
    · exact axis.relWindow_le_endRel _

end ByteAxis

namespace AxisOf

variable {hists : List RangeAttrHistogram} {lo hi : Bytes} {axis : ByteAxis}

/-- Without a clamped byte the coordinate is the distance of the windows. -/
theorem toNat_rel_of_inRange (h : AxisOf hists lo hi axis) {s : Bytes} (hlo : lo ≤ s) (hhi : s ≤ hi)
    (hs : ∀ c ∈ (s.drop (commonPrefixLength lo hi)).take axis.digits, axis.InRange c) :
    (axis.rel s).toNat = (axis.window s).toNat - axis.base.toNat ∧ axis.rel s ≤ axis.span := by
  have hwlo : axis.window lo ≤ axis.window s := by
    rw [ByteAxis.window_le_iff h.fit.sized]
    exact h.windowDigits_le le_rfl hlo hhi
      (fun c hc => h.inRange h.lo_mem (List.mem_of_mem_take hc)) hs
  have hwhi : axis.window s ≤ axis.window hi := by
    rw [ByteAxis.window_le_iff h.fit.sized]
    exact h.windowDigits_le hlo hhi le_rfl hs
      (fun c hc => h.inRange h.hi_mem (List.mem_of_mem_take hc))
  rw [UInt64.le_iff_toNat_le] at hwlo hwhi
  have hsum := h.base_add_span
  have hbase := congrArg UInt64.toNat h.fit.base_eq
  have hrel : (axis.rel s).toNat = (axis.window s).toNat - axis.base.toNat := by
    rw [h.rel_eq hlo hhi, ByteAxis.toNat_relWindow, if_neg (by omega), if_neg (by omega)]
  refine ⟨hrel, ?_⟩
  rw [UInt64.le_iff_toNat_le, hrel]
  omega

theorem toNat_rel (h : AxisOf hists lo hi axis) {b : Bytes} (hb : b ∈ allBoundaries hists) :
    (axis.rel b).toNat = (axis.window b).toNat - axis.base.toNat ∧ axis.rel b ≤ axis.span :=
  h.toNat_rel_of_inRange (h.between b hb).1 (h.between b hb).2
    fun _ hc => h.inRange hb (List.mem_of_mem_take hc)

theorem unit_pos (h : AxisOf hists lo hi axis) : 0 < axis.unit.toNat := by
  rw [h.fit.unit_eq]
  exact Nat.pow_pos (by have := h.fit.sized.two_le; omega)

theorem rel_lo (h : AxisOf hists lo hi axis) : axis.rel lo = 0 := by
  apply UInt64.toNat_inj.1
  rw [(h.toNat_rel h.lo_mem).1, h.fit.base_eq, Nat.sub_self]
  rfl

theorem rel_hi (h : AxisOf hists lo hi axis) : axis.rel hi = axis.span := by
  apply UInt64.toNat_inj.1
  rw [(h.toNat_rel h.hi_mem).1, h.toNat_span]

end AxisOf

/-- Whatever the boundaries, no step of the axis' arithmetic wraps. -/
theorem rebuildAxis_never_wraps {hists : List RangeAttrHistogram} (hne : hists ≠ []) :
    ∃ lo hi axis, rebuildAxis hists = some (lo, hi, axis) ∧
      axis.radix.toNat ^ axis.digits ≤ 2 ^ 64 ∧ 2 ^ 64 < axis.radix.toNat ^ (axis.digits + 1) ∧
      axis.unit.toNat ≤ axis.radix.toNat ^ (axis.digits - 1) ∧
      (∀ s n, n ≤ axis.digits →
        (axis.windowAfter s n).toNat =
          Radix.value axis.radix.toNat ((axis.windowDigits s).take n) ∧
        (axis.windowAfter s n).toNat < axis.radix.toNat ^ axis.digits) ∧
      axis.window lo ≤ axis.window hi ∧
      axis.span.toNat = (axis.window hi).toNat - (axis.window lo).toNat ∧
      axis.rel lo = 0 ∧ axis.rel hi = axis.span ∧
      (∀ h ∈ hists, ∀ b ∈ h.boundaries, axis.rel b ≤ axis.span) ∧
      (∀ s, axis.rel s ≤ axis.endRel) ∧
      axis.endRel.toNat = min (axis.span.toNat + axis.unit.toNat) (2 ^ 64 - 1) := by
  obtain ⟨lo, hi, axis, hrebuild, h⟩ := rebuildAxis_spec hne
  have hsized := h.fit.sized
  have hpos : 0 < axis.radix.toNat := by
    have := hsized.two_le
    omega
  refine ⟨lo, hi, axis, hrebuild, hsized.pow_le, hsized.lt_pow, ?_, ?_, h.window_lo_le, ?_,
    h.rel_lo, h.rel_hi, ?_, axis.rel_le_endRel, axis.toNat_endRel⟩
  · rw [h.fit.unit_eq]
    exact Nat.pow_le_pow_right hpos (Nat.min_le_right _ _)
  · intro s n hn
    obtain ⟨hvalue, hlt⟩ := ByteAxis.toNat_windowAfter hsized s hn
    exact ⟨hvalue, hlt.trans_le (Nat.pow_le_pow_right hpos hn)⟩
  · rw [h.toNat_span, h.fit.base_eq]
  · intro g hg b hb
    exact (h.toNat_rel (mem_allBoundaries.2 ⟨g, hg, hb⟩)).2

/-- Boundaries `"a"`, `"ab"` and `"c"`. -/
def lettersHistogram : RangeAttrHistogram where
  boundaries := [[97], [97, 98], [99]]
  counts := [3, 4]
  length_boundaries := rfl
  sorted := by decide

/-- Three letters: base 3, and 40 digits fit. -/
theorem rebuildAxis_never_wraps_letters :
    ∃ lo hi axis, rebuildAxis [lettersHistogram] = some (lo, hi, axis) ∧
      axis.radix = 3 ∧ axis.digits = 40 ∧ axis.rel lo = 0 ∧ axis.rel hi = axis.span ∧
      axis.rel [98, 255] ≤ axis.endRel := by
  have hfit : (rebuildAxis [lettersHistogram]).map
      (fun out => (out.2.2.radix, out.2.2.digits)) = some (3, 40) := by decide
  obtain ⟨lo, hi, axis, hrebuild, -, -, -, -, -, -, hlo, hhi, -, hend, -⟩ :=
    rebuildAxis_never_wraps (List.cons_ne_nil lettersHistogram [])
  rw [hrebuild, Option.map_some, Option.some.injEq, Prod.mk.injEq] at hfit
  exact ⟨lo, hi, axis, hrebuild, hfit.1, hfit.2, hlo, hhi, hend _⟩

end BitLSM
