import Mathlib.Data.Nat.Find
import BitLSM.Estimator.RangeStats

/-!
The order of coordinates.

A coordinate is read off a window of digits, and a byte outside the range of the
boundaries' bytes is clamped into it. Two strings that first differ in bytes
clamped alike are therefore ordered by what follows, which may be the other way
around. A string longer than the shortest boundary lies between two value steps,
so that an open end there may be placed before a closed one below it. And a
closed upper end is one step above its coordinate only as long as the sum fits
in 64 bits. All three are read off the bytes of the boundaries and of the
strings; where none happens, coordinates keep the order of strings, closed
intervals are windows that are not empty, and a larger interval has no less mass.
-/

namespace BitLSM

open Wire

/-! ### What the boundaries leave to tell apart -/

/-- How many bytes the least and the greatest boundary have in common. -/
def commonBytes (hists : List RangeAttrHistogram) : ℕ :=
  (globalBounds hists).elim 0 fun bounds => commonPrefixLength bounds.1 bounds.2

/-- The bytes of the boundaries that follow. -/
def laterBytes (hists : List RangeAttrHistogram) : Bytes := usedBytes (commonBytes hists) hists

def AtBottom (used : Bytes) (c : UInt8) : Prop := ∀ b ∈ used, c ≤ b

def AtTop (used : Bytes) (c : UInt8) : Prop := (∀ b ∈ used, b ≤ c) ∧ ∃ b ∈ used, b < c

/-- Two bytes outside the used ones, on the same side of them. -/
def Alike (used : Bytes) (c d : UInt8) : Prop :=
  AtBottom used c ∧ AtBottom used d ∨ AtTop used c ∧ AtTop used d

/-- How many bytes are told apart. -/
def alphabetSize (hists : List RangeAttrHistogram) : ℕ :=
  let chars := fitChars (commonBytes hists) hists
  max 2 (chars.2.toNat - chars.1.toNat + 1)

/-- How many letters of that alphabet 64 bits hold. -/
def windowLength (hists : List RangeAttrHistogram) : ℕ :=
  Nat.findGreatest (fun n => alphabetSize hists ^ n ≤ 2 ^ 64) 64

/-- The bytes whose last one is a value step: those of the shortest boundary, at
least one past the common bytes and no more than are read. -/
def stepBytes (hists : List RangeAttrHistogram) : ℕ :=
  min (max (shortestBoundary hists) (commonBytes hists + 1))
    (commonBytes hists + windowLength hists)

/-- The first two bytes in which `s` and `t` differ, if they are read, are not
alike. -/
def ToldApart (hists : List RangeAttrHistogram) (s t : Bytes) : Prop :=
  commonPrefixLength s t < commonBytes hists + windowLength hists →
    ∀ c ∈ s[commonPrefixLength s t]?, ∀ d ∈ t[commonPrefixLength s t]?,
      ¬Alike (laterBytes hists) c d

/-- `s` ends at a value step and `t` is above it before that step. -/
def StepApart (hists : List RangeAttrHistogram) (s t : Bytes) : Prop :=
  s.length ≤ stepBytes hists ∧ commonPrefixLength s t < stepBytes hists ∧
    ∃ d ∈ t[commonPrefixLength s t]?, ¬AtBottom (laterBytes hists) d ∧
      ∀ c ∈ s[commonPrefixLength s t]?, ¬Alike (laterBytes hists) c d

/-- The coordinates take all 64 bits: all that is read of `lo` is at the bottom
and all that is read of `s` at the top. -/
def ReachesEnd (hists : List RangeAttrHistogram) (lo s : Bytes) : Prop :=
  alphabetSize hists ^ windowLength hists = 2 ^ 64 ∧
    ∀ i < windowLength hists,
      (∀ c ∈ lo[commonBytes hists + i]?, AtBottom (laterBytes hists) c) ∧
        ∃ c ∈ s[commonBytes hists + i]?, AtTop (laterBytes hists) c

instance (used : Bytes) (c : UInt8) : Decidable (AtBottom used c) :=
  inferInstanceAs (Decidable (∀ b ∈ used, c ≤ b))

instance (used : Bytes) (c : UInt8) : Decidable (AtTop used c) :=
  inferInstanceAs (Decidable (_ ∧ _))

instance (used : Bytes) (c d : UInt8) : Decidable (Alike used c d) :=
  inferInstanceAs (Decidable (_ ∨ _))

instance (hists : List RangeAttrHistogram) (s t : Bytes) : Decidable (ToldApart hists s t) :=
  inferInstanceAs (Decidable (_ → _))

instance (hists : List RangeAttrHistogram) (s t : Bytes) : Decidable (StepApart hists s t) :=
  inferInstanceAs (Decidable (_ ∧ _ ∧ _))

instance (hists : List RangeAttrHistogram) (lo s : Bytes) : Decidable (ReachesEnd hists lo s) :=
  inferInstanceAs (Decidable (_ ∧ _))

/-- The closed interval from `s` to `t`. -/
def ByteInterval.closed (s t : Bytes) : ByteInterval := { lo := s, hi := t, hiUnbounded := false }

/-- Moving the ends of `v` outwards gives `w`. -/
structure ByteInterval.Within (v w : ByteInterval) : Prop where
  lo : w.lo < v.lo ∨ w.lo = v.lo ∧ (w.loOpen = true → v.loOpen = true)
  hi : w.hiUnbounded = true ∨ v.hiUnbounded = false ∧
    (v.hi < w.hi ∨ v.hi = w.hi ∧ (w.hiOpen = true → v.hiOpen = true))

namespace GlobalRangeStats

/-- Two ends between the bounds, `s` below `t`, are told apart; if only the lower
one is placed a step higher, by a step. -/
def EndApart (st : GlobalRangeStats) (hists : List RangeAttrHistogram) (s t : Bytes)
    (step : Bool) : Prop :=
  st.minBytes ≤ s → t ≤ st.maxBytes →
    if step then ToldApart hists st.minBytes s ∧ StepApart hists s t else ToldApart hists s t

/-- The ends that are moved are told apart. -/
structure EndsApart (st : GlobalRangeStats) (hists : List RangeAttrHistogram)
    (v w : ByteInterval) : Prop where
  lo : st.EndApart hists w.lo v.lo (w.loOpen && !v.loOpen)
  hi : w.hiUnbounded = false → st.EndApart hists v.hi w.hi (!v.hiOpen && w.hiOpen)

instance (st : GlobalRangeStats) (hists : List RangeAttrHistogram) (s t : Bytes) (step : Bool) :
    Decidable (st.EndApart hists s t step) :=
  inferInstanceAs (Decidable (_ → _ → _))

end GlobalRangeStats

/-! ### Digits of strings that are told apart -/

namespace AxisOf

variable {hists : List RangeAttrHistogram} {lo hi : Bytes} {axis : ByteAxis}

theorem commonBytes_eq (h : AxisOf hists lo hi axis) :
    commonBytes hists = axis.prefixBytes.length := by
  have hne : hists ≠ [] := by
    rintro rfl
    exact absurd h.lo_mem (by simp [allBoundaries])
  obtain ⟨lo', hi', hbounds, hlo, hhi, hbetween⟩ := globalBounds_spec hne
  obtain rfl : lo' = lo := le_antisymm (hbetween lo h.lo_mem).1 (h.between lo' hlo).1
  obtain rfl : hi' = hi := le_antisymm (h.between hi' hhi).2 (hbetween hi h.hi_mem).2
  rw [commonBytes, hbounds, h.length_prefixBytes]
  rfl

theorem toNat_radix (h : AxisOf hists lo hi axis) : axis.radix.toNat = alphabetSize hists := by
  rw [h.fit.radix_eq, ByteAxis.toNat_fitRadix (fitChars_le _ _), alphabetSize, h.commonBytes_eq,
    h.length_prefixBytes]

theorem digits_eq (h : AxisOf hists lo hi axis) : axis.digits = windowLength hists := by
  have htwo := h.fit.sized.two_le
  have hle : 2 ^ axis.digits ≤ 2 ^ 64 := (Nat.pow_le_pow_left htwo _).trans h.fit.sized.pow_le
  symm
  rw [windowLength, ← h.toNat_radix, Nat.findGreatest_eq_iff]
  refine ⟨(Nat.pow_le_pow_iff_right (by decide)).1 hle, fun _ => h.fit.sized.pow_le, ?_⟩
  intro n hlt _ hfits
  have hnext := Nat.pow_le_pow_right (by omega : 0 < axis.radix.toNat) hlt
  exact absurd (hnext.trans hfits) (not_le.2 h.fit.sized.lt_pow)

theorem toNat_unit (h : AxisOf hists lo hi axis) : axis.unit.toNat =
    axis.radix.toNat ^ (axis.prefixBytes.length + axis.digits - stepBytes hists) := by
  have height := h.fit.sized.eight_le
  rw [h.fit.unit_eq, stepBytes, h.commonBytes_eq, ← h.digits_eq, ← h.length_prefixBytes]
  congr 1
  omega

theorem inRange_later (h : AxisOf hists lo hi axis) {b : UInt8} (hb : b ∈ laterBytes hists) :
    axis.InRange b := by
  rw [laterBytes, h.commonBytes_eq, h.length_prefixBytes] at hb
  obtain ⟨v, hv, hbv⟩ := List.mem_flatMap.1 hb
  exact h.inRange hv hbv

/-- The least used byte. -/
theorem loChar_mem (h : AxisOf hists lo hi axis) {b : UInt8} (hb : b ∈ laterBytes hists) :
    axis.loChar ∈ laterBytes hists := by
  obtain ⟨hall, hlo, -⟩ := charRange_spec (laterBytes hists)
  have heq : axis.loChar = (charRange (laterBytes hists)).1 := by
    rw [h.fit.loChar_eq, ← h.length_prefixBytes, ← h.commonBytes_eq, fitChars_eq hb]
    rfl
  rw [heq]
  rcases hlo with hmem | hlast
  · exact hmem
  · -- nothing is above 255
    have hle := (hall b hb).1
    have hlt := b.toNat_lt
    rw [hlast, UInt8.le_iff_toNat_le, show (255 : UInt8).toNat = 255 from rfl] at hle
    have hbyte : b = 255 := UInt8.toNat_inj.1 (by
      rw [show (255 : UInt8).toNat = 255 from rfl]
      omega)
    rwa [hlast, ← hbyte]

/-- The least used byte has one that is not less above it in the base. -/
theorem exists_last (h : AxisOf hists lo hi axis) {b : UInt8} (hb : b ∈ laterBytes hists) :
    axis.radix.toNat = 2 ∨
      ∃ c ∈ laterBytes hists, c.toNat + 1 = axis.loChar.toNat + axis.radix.toNat := by
  obtain ⟨hall, -, hhi⟩ := charRange_spec (laterBytes hists)
  have hchars : fitChars (commonBytes hists) hists = charRange (laterBytes hists) := fitChars_eq hb
  have hle := UInt8.le_iff_toNat_le.1 ((hall b hb).1.trans (hall b hb).2)
  have hlo : axis.loChar = (charRange (laterBytes hists)).1 := by
    rw [h.fit.loChar_eq, ← h.length_prefixBytes, ← h.commonBytes_eq, hchars]
  have hradix := h.toNat_radix
  simp only [alphabetSize, hchars] at hradix
  rw [hlo]
  rcases hhi with hmem | hzero
  · by_cases htwo : axis.radix.toNat = 2
    · exact Or.inl htwo
    · exact Or.inr ⟨_, hmem, by omega⟩
  · left
    rw [hzero, show (0 : UInt8).toNat = 0 from rfl] at hradix
    omega

theorem clamp_eq_zero_iff (h : AxisOf hists lo hi axis) {b : UInt8} (hb : b ∈ laterBytes hists)
    {c : UInt8} : (axis.clamp c).toNat = 0 ↔ AtBottom (laterBytes hists) c := by
  have htwo := h.fit.sized.two_le
  rw [ByteAxis.toNat_clamp h.fit.sized]
  constructor
  · intro hzero d hd
    have hlo := (h.inRange_later hd).1
    rw [UInt8.le_iff_toNat_le]
    omega
  · intro hbottom
    have hlo := UInt8.le_iff_toNat_le.1 (hbottom _ (h.loChar_mem hb))
    omega

theorem clamp_eq_last_iff (h : AxisOf hists lo hi axis) {b : UInt8} (hb : b ∈ laterBytes hists)
    {c : UInt8} : (axis.clamp c).toNat + 1 = axis.radix.toNat ↔ AtTop (laterBytes hists) c := by
  have htwo := h.fit.sized.two_le
  rw [ByteAxis.toNat_clamp h.fit.sized]
  constructor
  · intro hlast
    refine ⟨fun d hd => ?_, axis.loChar, h.loChar_mem hb, ?_⟩
    · have hd := (h.inRange_later hd).2
      rw [UInt8.le_iff_toNat_le]
      omega
    · rw [UInt8.lt_iff_toNat_lt]
      omega
  · rintro ⟨hall, d, hd, hdc⟩
    have hlo := (h.inRange_later hd).1
    rw [UInt8.lt_iff_toNat_lt] at hdc
    rcases h.exists_last hb with hbase | ⟨e, he, hlast⟩
    · omega
    · have hec := UInt8.le_iff_toNat_le.1 (hall e he)
      omega

theorem clamp_lt (h : AxisOf hists lo hi axis) {c d : UInt8} (hcd : c < d)
    (hapart : ¬Alike (laterBytes hists) c d) : (axis.clamp c).toNat < (axis.clamp d).toNat := by
  obtain ⟨b, hb⟩ : ∃ b, b ∈ laterBytes hists := by
    by_contra hnone
    have hbottom (e : UInt8) : AtBottom (laterBytes hists) e := fun b hb => absurd ⟨b, hb⟩ hnone
    exact hapart (Or.inl ⟨hbottom c, hbottom d⟩)
  have hbottom := mt Or.inl hapart
  have htop := mt Or.inr hapart
  rw [← h.clamp_eq_zero_iff hb, ← h.clamp_eq_zero_iff hb] at hbottom
  rw [← h.clamp_eq_last_iff hb, ← h.clamp_eq_last_iff hb] at htop
  rw [UInt8.lt_iff_toNat_lt] at hcd
  have htwo := h.fit.sized.two_le
  rw [ByteAxis.toNat_clamp h.fit.sized, ByteAxis.toNat_clamp h.fit.sized] at *
  omega

theorem readDigits_lt (h : AxisOf hists lo hi axis) {n : ℕ} {s t : Bytes} (hst : s ≤ t)
    (hlt : commonPrefixLength s t < n) {d : UInt8} (hd : t[commonPrefixLength s t]? = some d)
    (hpos : ¬AtBottom (laterBytes hists) d)
    (hapart : ∀ c ∈ s[commonPrefixLength s t]?, ¬Alike (laterBytes hists) c d) :
    axis.readDigits n s < axis.readDigits n t := by
  induction n generalizing s t with
  | zero => omega
  | succ n ih =>
      cases t with
      | nil => simp at hd
      | cons e t =>
          cases s with
          | nil =>
              obtain rfl : e = d := Option.some.inj hd
              obtain ⟨b, hb⟩ : ∃ b, b ∈ laterBytes hists := by
                by_contra hnone
                exact hpos fun b hb => absurd ⟨b, hb⟩ hnone
              simp only [ByteAxis.readDigits]
              rw [List.cons_lt_cons_iff]
              exact Or.inl (Nat.pos_of_ne_zero (mt (h.clamp_eq_zero_iff hb).1 hpos))
          | cons c s =>
              simp only [ByteAxis.readDigits]
              rw [List.cons_lt_cons_iff]
              rcases Radix.cons_le_cons_iff.1 hst with hcd | ⟨rfl, htail⟩
              · rw [commonPrefixLength, if_neg hcd.ne] at hd hapart
                obtain rfl : e = d := Option.some.inj hd
                exact Or.inl (h.clamp_lt hcd (hapart c rfl))
              · rw [commonPrefixLength, if_pos rfl] at hlt hd hapart
                exact Or.inr ⟨rfl, ih htail (Nat.lt_of_succ_lt_succ hlt) hd hapart⟩

theorem window_le (h : AxisOf hists lo hi axis) {s t : Bytes} (hlo : lo ≤ s) (hst : s ≤ t)
    (hhi : t ≤ hi) (hapart : ToldApart hists s t) : axis.window s ≤ axis.window t := by
  obtain ⟨u, v, rfl, rfl, huv⟩ := h.exists_remainders hlo hst hhi
  rw [ByteAxis.window_le_iff h.fit.sized, ByteAxis.windowDigits_append,
    ByteAxis.windowDigits_append]
  rw [ToldApart, commonPrefixLength_append, h.commonBytes_eq, ← h.digits_eq] at hapart
  refine ByteAxis.readDigits_le huv fun hlt c hc d hd hcd => h.clamp_lt hcd ?_
  apply hapart (by omega) c _ d
  · rwa [List.getElem?_append_right (Nat.le_add_right _ _), Nat.add_sub_cancel_left]
  · rwa [List.getElem?_append_right (Nat.le_add_right _ _), Nat.add_sub_cancel_left]

/-- Strings a step apart have windows a unit apart. -/
theorem window_add_unit_le (h : AxisOf hists lo hi axis) {s t : Bytes} (hlo : lo ≤ s)
    (hst : s ≤ t) (hhi : t ≤ hi) (hstep : StepApart hists s t) :
    (axis.window s).toNat + axis.unit.toNat ≤ (axis.window t).toNat := by
  have hsized := h.fit.sized
  have hle : stepBytes hists ≤ axis.prefixBytes.length + axis.digits := by
    rw [stepBytes, h.commonBytes_eq, h.digits_eq]
    exact Nat.min_le_right _ _
  obtain ⟨u, v, rfl, rfl, huv⟩ := h.exists_remainders hlo hst hhi
  obtain ⟨hlen, hlt, d, hd, hpos, hapart⟩ := hstep
  rw [commonPrefixLength_append] at hlt hd hapart
  rw [List.getElem?_append_right (Nat.le_add_right _ _), Nat.add_sub_cancel_left] at hd hapart
  rw [List.length_append] at hlen
  -- the digits up to the step, and those past it
  obtain ⟨m, hm⟩ : ∃ m, stepBytes hists = axis.prefixBytes.length + m :=
    ⟨_, (Nat.add_sub_cancel' (by omega)).symm⟩
  obtain ⟨e, he⟩ : ∃ e, axis.digits = m + e := ⟨_, (Nat.add_sub_cancel' (by omega)).symm⟩
  have hdigits := h.readDigits_lt huv (by omega : commonPrefixLength u v < m) hd hpos hapart
  have hbound : ∀ d ∈ axis.readDigits m u, d < axis.radix.toNat := by
    intro d hd
    apply ByteAxis.windowDigits_lt hsized (axis.prefixBytes ++ u)
    rw [ByteAxis.windowDigits_append, he, ByteAxis.readDigits_add]
    exact List.mem_append_left _ hd
  have hvalue := Radix.value_lt_value (by simp) hbound hdigits
  have hunit : axis.unit.toNat = axis.radix.toNat ^ e := by
    rw [h.toNat_unit, hm, he]
    congr 1
    omega
  rw [ByteAxis.toNat_window hsized, ByteAxis.toNat_window hsized, ByteAxis.windowDigits_append,
    ByteAxis.windowDigits_append, he, ByteAxis.readDigits_add, ByteAxis.readDigits_add,
    Radix.value_append, Radix.value_append, List.drop_of_length_le (by omega),
    ByteAxis.readDigits_nil, Radix.value_replicate_zero, hunit, List.length_replicate,
    ByteAxis.length_readDigits]
  calc Radix.value axis.radix.toNat (axis.readDigits m u) * axis.radix.toNat ^ e + 0 +
        axis.radix.toNat ^ e
      = (Radix.value axis.radix.toNat (axis.readDigits m u) + 1) * axis.radix.toNat ^ e := by ring
    _ ≤ Radix.value axis.radix.toNat (axis.readDigits m v) * axis.radix.toNat ^ e :=
        Nat.mul_le_mul_right _ hvalue
    _ ≤ _ := Nat.le_add_right _ _

end AxisOf

/-! ### Coordinates of strings that are told apart -/

namespace AxisOf

variable {hists : List RangeAttrHistogram} {lo hi : Bytes} {axis : ByteAxis}

theorem exists_later (h : AxisOf hists lo hi axis) (hne : lo ≠ hi) :
    ∃ b, b ∈ laterBytes hists := by
  by_contra hnone
  have hinitial {v : Bytes} (hv : v ∈ allBoundaries hists) : v = axis.prefixBytes := by
    have hrest : v.drop axis.prefixBytes.length = [] := by
      refine List.eq_nil_iff_forall_not_mem.2 fun c hc => hnone ⟨c, ?_⟩
      rw [laterBytes, h.commonBytes_eq]
      exact List.mem_flatMap.2 ⟨v, hv, hc⟩
    rw [h.exists_remainder (h.between v hv).1 (h.between v hv).2, hrest, List.append_nil]
  exact hne ((hinitial h.lo_mem).trans (hinitial h.hi_mem).symm)

theorem digitAt_eq_zero_iff (h : AxisOf hists lo hi axis) {b : UInt8} (hb : b ∈ laterBytes hists)
    {s : Bytes} {i : ℕ} : (axis.digitAt s i).toNat = 0 ↔
      ∀ c ∈ s[commonBytes hists + i]?, AtBottom (laterBytes hists) c := by
  rw [ByteAxis.digitAt, h.commonBytes_eq]
  cases s[axis.prefixBytes.length + i]? with
  | none => simp
  | some c => simpa using h.clamp_eq_zero_iff hb

theorem digitAt_eq_last_iff (h : AxisOf hists lo hi axis) {b : UInt8} (hb : b ∈ laterBytes hists)
    {s : Bytes} {i : ℕ} : (axis.digitAt s i).toNat + 1 = axis.radix.toNat ↔
      ∃ c ∈ s[commonBytes hists + i]?, AtTop (laterBytes hists) c := by
  have htwo := h.fit.sized.two_le
  rw [ByteAxis.digitAt, h.commonBytes_eq]
  cases s[axis.prefixBytes.length + i]? with
  | none =>
      simp only [Option.not_mem_none, false_and, exists_false, iff_false, UInt32.toNat_zero]
      omega
  | some c => simpa using h.clamp_eq_last_iff hb

theorem window_eq_zero_iff (h : AxisOf hists lo hi axis) {b : UInt8} (hb : b ∈ laterBytes hists)
    {s : Bytes} : (axis.window s).toNat = 0 ↔ ∀ i < windowLength hists,
      ∀ c ∈ s[commonBytes hists + i]?, AtBottom (laterBytes hists) c := by
  have htwo := h.fit.sized.two_le
  rw [ByteAxis.toNat_window h.fit.sized, Radix.value_eq_zero_iff (by omega), ← h.digits_eq]
  simp only [ByteAxis.windowDigits, List.forall_mem_map, List.mem_range,
    h.digitAt_eq_zero_iff hb]

theorem window_eq_last_iff (h : AxisOf hists lo hi axis) {b : UInt8} (hb : b ∈ laterBytes hists)
    {s : Bytes} : (axis.window s).toNat + 1 = 2 ^ 64 ↔
      alphabetSize hists ^ windowLength hists = 2 ^ 64 ∧ ∀ i < windowLength hists,
        ∃ c ∈ s[commonBytes hists + i]?, AtTop (laterBytes hists) c := by
  have hlt := ByteAxis.windowDigits_lt h.fit.sized s
  have hvalue := Radix.value_add_one_iff hlt
  have hle := Radix.value_lt hlt
  have hpow := h.fit.sized.pow_le
  rw [ByteAxis.length_windowDigits] at hvalue hle
  have hdigits : (∀ d ∈ axis.windowDigits s, d + 1 = axis.radix.toNat) ↔
      ∀ i < windowLength hists, ∃ c ∈ s[commonBytes hists + i]?, AtTop (laterBytes hists) c := by
    rw [← h.digits_eq]
    simp only [ByteAxis.windowDigits, List.forall_mem_map, List.mem_range,
      h.digitAt_eq_last_iff hb]
  rw [← hdigits, ← hvalue, ByteAxis.toNat_window h.fit.sized, ← h.toNat_radix, ← h.digits_eq]
  constructor
  · intro hlast
    exact ⟨by omega, by omega⟩
  · rintro ⟨hfull, hlast⟩
    rw [hlast, hfull]

end AxisOf

namespace RangeStatsOf

variable {hists : List RangeAttrHistogram} {st : GlobalRangeStats}

theorem rel_le (h : RangeStatsOf hists st) {s t : Bytes} (hlo : st.minBytes ≤ s) (hst : s ≤ t)
    (hhi : t ≤ st.maxBytes) (hapart : ToldApart hists s t) : st.axis.rel s ≤ st.axis.rel t := by
  rw [h.axisOf.rel_eq hlo (hst.trans hhi), h.axisOf.rel_eq (hlo.trans hst) hhi,
    ByteAxis.relWindow_le_iff h.axisOf.unit_pos]
  exact Or.inl (h.axisOf.window_le hlo hst hhi hapart)

/-- Only the last of 64-bit coordinates has none above it. -/
theorem rel_eq_last_iff (h : RangeStatsOf hists st) {s : Bytes} (hlo : st.minBytes ≤ s)
    (hhi : s ≤ st.maxBytes) (hapart : ToldApart hists s st.maxBytes) :
    (st.axis.rel s).toNat = 2 ^ 64 - 1 ↔ ReachesEnd hists st.minBytes s := by
  have hle := UInt64.le_iff_toNat_le.1 (h.axisOf.window_le hlo hhi le_rfl hapart)
  have hsum := h.axisOf.base_add_span
  have hrel : (st.axis.rel s).toNat = (st.axis.window s).toNat - st.axis.base.toNat := by
    rw [h.axisOf.rel_eq hlo hhi, ByteAxis.toNat_relWindow]
    split_ifs <;> omega
  by_cases hne : st.minBytes = st.maxBytes
  · -- all strings between the bounds are one
    obtain rfl : s = st.minBytes := le_antisymm (hhi.trans_eq hne.symm) hlo
    rw [h.axisOf.rel_lo]
    refine iff_of_false (by decide) fun hend => ?_
    have height := h.axisOf.fit.sized.eight_le
    rw [h.axisOf.digits_eq] at height
    obtain ⟨hbottom, c, hc, htop⟩ := hend.2 0 (by omega)
    obtain ⟨-, b, hb, hbc⟩ := htop
    exact absurd hbc (not_lt.2 (hbottom c hc b hb))
  · obtain ⟨b, hb⟩ := h.axisOf.exists_later hne
    have hlast := @AxisOf.window_eq_last_iff _ _ _ _ h.axisOf b hb s
    have hzero := @AxisOf.window_eq_zero_iff _ _ _ _ h.axisOf b hb st.minBytes
    have hlt := (st.axis.window s).toNat_lt
    rw [← h.axisOf.fit.base_eq] at hzero
    have hsplit : (st.axis.rel s).toNat = 2 ^ 64 - 1 ↔
        (st.axis.window s).toNat + 1 = 2 ^ 64 ∧ st.axis.base.toNat = 0 := by
      rw [hrel]
      omega
    rw [hsplit, hlast, hzero, ReachesEnd, and_assoc, and_congr_right_iff]
    intro _
    constructor
    · rintro ⟨htop, hbottom⟩ i hi
      exact ⟨hbottom i hi, htop i hi⟩
    · intro hread
      exact ⟨fun i hi => (hread i hi).2, fun i hi => (hread i hi).1⟩

theorem place_closed {s t : Bytes} (hlo : st.minBytes ≤ s)
    (hst : s ≤ t) (hhi : t ≤ st.maxBytes) :
    (st.place (.closed s t)).lo = st.axis.rel s ∧
      (st.place (.closed s t)).hi = satAdd (st.axis.rel t) st.axis.unit := by
  constructor
  · have hsat : satAdd (st.axis.rel s) 0 = st.axis.rel s := by
      apply UInt64.toNat_inj.1
      have := (st.axis.rel s).toNat_lt
      rw [toNat_satAdd, UInt64.toNat_zero]
      omega
    have hmin : ¬(ByteInterval.closed s t).lo < st.minBytes := not_lt.2 hlo
    have hmax : ¬st.maxBytes < (ByteInterval.closed s t).lo := not_lt.2 (hst.trans hhi)
    show st.placeLo (.closed s t) = st.axis.rel s
    rw [GlobalRangeStats.placeLo, if_neg hmin, if_neg hmax]
    exact hsat
  · have hmax : ¬((ByteInterval.closed s t).hiUnbounded = true ∨
        st.maxBytes < (ByteInterval.closed s t).hi) :=
      not_or.2 ⟨Bool.false_ne_true, not_lt.2 hhi⟩
    have hmin : ¬(ByteInterval.closed s t).hi < st.minBytes := not_lt.2 (hlo.trans hst)
    show st.placeHi (.closed s t) = satAdd (st.axis.rel t) st.axis.unit
    rw [GlobalRangeStats.placeHi, if_neg hmax, if_neg hmin]
    rfl

end RangeStatsOf

/-! ### Mass of larger intervals -/

/-- Where an end is placed. A lower end is placed a step higher if it is open, an
upper end if it is closed. -/
def GlobalRangeStats.endAt (st : GlobalRangeStats) (s : Bytes) (higher : Bool) : UInt64 :=
  if s < st.minBytes then 0
  else if st.maxBytes < s then st.axis.endRel
  else satAdd (st.axis.rel s) (if higher then st.axis.unit else 0)

namespace RangeStatsOf

variable {hists : List RangeAttrHistogram} {st : GlobalRangeStats}

theorem placeHi_eq (h : RangeStatsOf hists st) {w : ByteInterval}
    (hbounded : w.hiUnbounded = false) :
    st.placeHi w = st.endAt w.hi (!w.hiOpen) := by
  have hbounds := h.axisOf.lo_le_hi
  rw [GlobalRangeStats.placeHi, GlobalRangeStats.endAt, hbounded]
  by_cases hmax : st.maxBytes < w.hi
  · rw [if_pos (Or.inr hmax), if_neg (not_lt.2 (hbounds.trans hmax.le)), if_pos hmax]
  · rw [if_neg (not_or.2 ⟨Bool.false_ne_true, hmax⟩)]
    split
    · rfl
    · cases w.hiOpen <;> rfl

/-- A step above the lower string is not above the higher one. -/
theorem cumBelow_step_le (h : RangeStatsOf hists st) {s t : Bytes} (hlo : st.minBytes ≤ s)
    (hst : s ≤ t) (hhi : t ≤ st.maxBytes) (hmin : ToldApart hists st.minBytes s)
    (hstep : StepApart hists s t) :
    st.cumBelow .exact (satAdd (st.axis.rel s) st.axis.unit) ≤
      st.cumBelow .exact (st.axis.rel t) := by
  obtain ⟨cells, hcells⟩ := h.cells
  have hbase := h.axisOf.window_le le_rfl hlo (hst.trans hhi) hmin
  have hunit := h.axisOf.window_add_unit_le hlo hst hhi hstep
  have hsum := h.axisOf.base_add_span
  have hend := st.axis.toNat_endRel
  rw [← h.axisOf.fit.base_eq, UInt64.le_iff_toNat_le] at hbase
  rw [h.axisOf.rel_eq hlo (hst.trans hhi), h.axisOf.rel_eq (hlo.trans hst) hhi]
  by_cases hout : (st.axis.window st.maxBytes).toNat < (st.axis.window t).toNat
  · -- the higher one is read past the greatest string, where all mass is below
    have heq : st.axis.relWindow (st.axis.window t) = st.axis.endRel := by
      apply UInt64.toNat_inj.1
      rw [ByteAxis.toNat_relWindow, if_neg (by omega), if_pos (by omega)]
    rw [heq, h.cumBelow_endRel]
    exact (hcells.cumBelow_mem _).2
  · apply hcells.cumBelow_mono
    rw [UInt64.le_iff_toNat_le, toNat_satAdd, ByteAxis.toNat_relWindow, ByteAxis.toNat_relWindow]
    split_ifs <;> omega

/-- Ends in order have no more mass below the first. -/
theorem cumBelow_endAt_le (h : RangeStatsOf hists st) {s t : Bytes} {p q : Bool}
    (hst : s < t ∨ s = t ∧ (p = true → q = true)) (hapart : st.EndApart hists s t (p && !q)) :
    st.cumBelow .exact (st.endAt s p) ≤ st.cumBelow .exact (st.endAt t q) := by
  obtain ⟨cells, hcells⟩ := h.cells
  have hle : s ≤ t := hst.elim le_of_lt fun heq => heq.1.le
  unfold GlobalRangeStats.endAt
  by_cases hlo : s < st.minBytes
  · rw [if_pos hlo, OverCells.cumBelow_zero]
    exact (hcells.cumBelow_mem _).1
  · rw [not_lt] at hlo
    by_cases hhi : st.maxBytes < t
    · rw [if_neg (not_lt.2 (hlo.trans hle)), if_pos hhi, h.cumBelow_endRel]
      exact (hcells.cumBelow_mem _).2
    · rw [not_lt] at hhi
      rw [if_neg (not_lt.2 hlo), if_neg (not_lt.2 (hle.trans hhi)),
        if_neg (not_lt.2 (hlo.trans hle)), if_neg (not_lt.2 hhi)]
      have hread := hapart hlo hhi
      have hlast := (st.axis.rel t).toNat_lt
      by_cases hstep : (p && !q) = true
      · rw [if_pos hstep] at hread
        obtain ⟨rfl, hq⟩ := Bool.and_eq_true_iff.1 hstep
        rw [Bool.not_eq_true'] at hq
        have hzero : satAdd (st.axis.rel t) 0 = st.axis.rel t := by
          apply UInt64.toNat_inj.1
          rw [toNat_satAdd, UInt64.toNat_zero]
          omega
        rw [hq, if_pos rfl, if_neg Bool.false_ne_true, hzero]
        exact h.cumBelow_step_le hlo hle hhi hread.1 hread.2
      · rw [if_neg hstep] at hread
        have hrel := UInt64.le_iff_toNat_le.1 (h.rel_le hlo hle hhi hread)
        apply hcells.cumBelow_mono
        rw [UInt64.le_iff_toNat_le, toNat_satAdd, toNat_satAdd]
        cases p <;> cases q <;> simp at hstep ⊢ <;> omega

theorem rangeMass_mono (h : RangeStatsOf hists st) {v w : ByteInterval} (hvw : v.Within w)
    (hapart : st.EndsApart hists v w) :
    st.rangeMass .exact (st.place v) ≤ st.rangeMass .exact (st.place w) := by
  obtain ⟨cells, hcells⟩ := h.cells
  have hlo : st.cumBelow .exact (st.place w).lo ≤ st.cumBelow .exact (st.place v).lo :=
    h.cumBelow_endAt_le hvw.lo hapart.lo
  have hhi : st.cumBelow .exact (st.place v).hi ≤ st.cumBelow .exact (st.place w).hi := by
    show st.cumBelow .exact (st.placeHi v) ≤ st.cumBelow .exact (st.placeHi w)
    cases hbounded : w.hiUnbounded with
    | true =>
        have hend : st.placeHi w = st.axis.endRel := by
          rw [GlobalRangeStats.placeHi, if_pos (Or.inl hbounded)]
        rw [hend, h.cumBelow_endRel]
        exact (hcells.cumBelow_mem _).2
    | false =>
        obtain ⟨hv, hends⟩ := hvw.hi.resolve_left (by rw [hbounded]; exact Bool.false_ne_true)
        rw [h.placeHi_eq hv, h.placeHi_eq hbounded]
        refine h.cumBelow_endAt_le (hends.imp_right fun heq => ⟨heq.1, fun hclosed => ?_⟩) ?_
        · cases hw : w.hiOpen with
          | false => rfl
          | true => rw [heq.2 hw] at hclosed; exact absurd hclosed Bool.false_ne_true
        · rw [Bool.not_not]
          exact hapart.hi hbounded
  rw [hcells.rangeMass_eq_max, hcells.rangeMass_eq_max]
  exact max_le_max le_rfl (sub_le_sub hhi hlo)

end RangeStatsOf

/-- Strings that are told apart have coordinates in order, and their closed
interval is a window that is not empty exactly if the first does not reach the
last of all 64-bit coordinates. An interval whose ends are moved outwards to
strings told apart from them does not lose mass. -/
theorem axis_keeps_order {hists : List RangeAttrHistogram} (hne : hists ≠ []) {gridCells : UInt32}
    (hgrid : 1 ≤ gridCells.toNat) :
    ∃ st, rebuildRange .exact gridCells hists = some st ∧
      (∀ s t, st.minBytes ≤ s → s ≤ t → t ≤ st.maxBytes → ToldApart hists s t →
        st.axis.rel s ≤ st.axis.rel t ∧
          (ToldApart hists s st.maxBytes →
            ((st.place (.closed s t)).lo < (st.place (.closed s t)).hi ↔
              ¬ReachesEnd hists st.minBytes s))) ∧
      ∀ v w : ByteInterval, v.Within w → st.EndsApart hists v w →
        st.rangeMass .exact (st.place v) ≤ st.rangeMass .exact (st.place w) := by
  obtain ⟨st, hst, h⟩ := rebuildRange_spec hne hgrid
  refine ⟨st, hst, ?_, fun v w => h.rangeMass_mono⟩
  intro s t hlo hle hhi hapart
  have horder := h.rel_le hlo hle hhi hapart
  refine ⟨horder, fun hmax => ?_⟩
  obtain ⟨hwlo, hwhi⟩ := RangeStatsOf.place_closed hlo hle hhi
  have hunit := h.axisOf.unit_pos
  have hlt := (st.axis.rel s).toNat_lt
  rw [UInt64.le_iff_toNat_le] at horder
  rw [hwlo, hwhi, ← h.rel_eq_last_iff hlo (hle.trans hhi) hmax, UInt64.lt_iff_toNat_lt,
    toNat_satAdd]
  omega

/-- The letters again: `"ab"` and `"b"` are told apart, and the point `"b"` has no
more mass than what lies strictly between `"a"` and `"c"`. -/
theorem axis_keeps_order_letters :
    ∃ st, rebuildRange .exact 5 [lettersHistogram] = some st ∧
      st.axis.rel [97, 98] ≤ st.axis.rel [98] ∧
      (st.place (.closed [97, 98] [98])).lo < (st.place (.closed [97, 98] [98])).hi ∧
      st.rangeMass .exact (st.place (.closed [98] [98])) ≤
        st.rangeMass .exact (st.place
          { lo := [97], loOpen := true, hi := [99], hiOpen := true, hiUnbounded := false }) := by
  obtain ⟨st, hst, horder, hmass⟩ := axis_keeps_order (List.cons_ne_nil lettersHistogram [])
    (show 1 ≤ (5 : UInt32).toNat by decide)
  obtain ⟨hmin, hmax⟩ : st.minBytes = [97] ∧ st.maxBytes = [99] := by
    obtain ⟨st', hst', hcheck⟩ := @exists_rebuildRange .exact 5 [lettersHistogram]
      (fun st => st.minBytes = [97] ∧ st.maxBytes = [99]) _ (by decide +kernel)
    rwa [Option.some.inj (hst.symm.trans hst')]
  obtain ⟨hrel, hclosed⟩ := horder [97, 98] [98] (by rw [hmin]; decide) (by decide)
    (by rw [hmax]; decide) (by decide +kernel)
  refine ⟨st, hst, hrel, (hclosed ?_).2 ?_, hmass _ _ ⟨Or.inl ?_, Or.inr ⟨rfl, Or.inl ?_⟩⟩ ⟨?_, ?_⟩⟩
  · rw [hmax]
    decide +kernel
  · rw [hmin]
    decide +kernel
  · decide
  · decide
  · unfold GlobalRangeStats.EndApart
    rw [hmin]
    exact fun _ _ => by decide +kernel
  · unfold GlobalRangeStats.EndApart
    rw [hmin]
    exact fun _ _ _ => by decide +kernel

/-- One bin from `"aaa"` to `"ccc"`. -/
def tripletHistogram : RangeAttrHistogram where
  boundaries := [[97, 97, 97], [99, 99, 99]]
  counts := [4]
  length_boundaries := rfl
  sorted := by decide

/-- One bin over all okeys. -/
def allOkeysHistogram : RangeAttrHistogram where
  boundaries := [List.replicate 8 0, List.replicate 8 255]
  counts := [4]
  length_boundaries := rfl
  sorted := by decide

/-- Both bytes after the `b` are clamped to `a`, so the letters after them
decide: the later string gets the smaller coordinate, and the interval between
the two is an empty window. Where the span takes all 64 bits, so is the interval
of the greatest string alone. And among the letters, moving the end of what lies
up to `"b"` on to `"bb"`, which is longer than the shortest boundary, loses mass. -/
theorem axis_reverses_strings :
    (∃ st, rebuildRange .exact 4 [tripletHistogram] = some st ∧
      st.minBytes ≤ [98, 1, 99] ∧ ([98, 1, 99] : Bytes) ≤ [98, 2, 97] ∧
      [98, 2, 97] ≤ st.maxBytes ∧ st.axis.rel [98, 2, 97] < st.axis.rel [98, 1, 99] ∧
      (st.place (.closed [98, 1, 99] [98, 2, 97])).hi ≤
        (st.place (.closed [98, 1, 99] [98, 2, 97])).lo) ∧
    (∃ st, rebuildRange .exact 4 [allOkeysHistogram] = some st ∧
      (st.place (.closed st.maxBytes st.maxBytes)).hi ≤
        (st.place (.closed st.maxBytes st.maxBytes)).lo) ∧
    ∃ st, rebuildRange .exact 5 [lettersHistogram] = some st ∧
      (ByteInterval.closed [97] [98]).Within
          { ByteInterval.closed [97] [98, 98] with hiOpen := true } ∧
      st.rangeMass .exact
          (st.place { ByteInterval.closed [97] [98, 98] with hiOpen := true }) <
        st.rangeMass .exact (st.place (.closed [97] [98])) := by
  refine ⟨?_, ?_, ?_⟩
  · exact exists_rebuildRange .exact (by decide +kernel)
  · exact exists_rebuildRange .exact (by decide +kernel)
  · obtain ⟨st, hst, hless⟩ := @exists_rebuildRange .exact 5 [lettersHistogram]
      (fun st => st.rangeMass .exact
          (st.place { ByteInterval.closed [97] [98, 98] with hiOpen := true }) <
        st.rangeMass .exact (st.place (.closed [97] [98]))) _ (by decide +kernel)
    exact ⟨st, hst, ⟨by decide, by decide⟩, hless⟩

end BitLSM
