import Mathlib.Data.Nat.Prime.Pow
import BitLSM.Okey
import BitLSM.Estimator.ByteAxis

/-!
The axis of a numeric attribute.

The boundaries of a numeric attribute are okeys, eight bytes each. The
coordinates are okeys scaled by a power of two if the bytes of the boundaries
past their common bytes span all 256 values. Otherwise the base is smaller, a
byte of an okey in between is clamped, and the coordinates no longer count
okeys.
-/

namespace BitLSM

open Wire

/-! ### Okeys as digits -/

theorem beBytes_concat (w n : ℕ) :
    beBytes (w + 1) n = beBytes w (n / 256) ++ [UInt8.ofNat (n % 256)] := by
  rw [beBytes, leBytes, List.reverse_cons, beBytes]

theorem value_beBytes (w n : ℕ) :
    Radix.value 256 ((beBytes w n).map UInt8.toNat) = n % 256 ^ w := by
  induction w generalizing n with
  | zero => simp [beBytes, leBytes, Nat.mod_one]
  | succ w ih =>
      have hbyte : (UInt8.ofNat (n % 256)).toNat = n % 256 := by
        rw [UInt8.toNat_ofNat']
        omega
      rw [beBytes_concat, List.map_append, List.map_singleton, Radix.value_concat, ih, hbyte,
        Nat.pow_succ', Nat.mod_mul]
      ring

theorem okeyToBytes_concat (k : UInt64) :
    okeyToBytes k = beBytes 7 (k.toNat / 256) ++ [UInt8.ofNat (k.toNat % 256)] := by
  rw [okeyToBytes_eq, beBytes_concat]

@[simp] theorem length_okeyToBytes (k : UInt64) : (okeyToBytes k).length = 8 := by
  rw [okeyToBytes_eq, beBytes, List.length_reverse, length_leBytes]

theorem okeyToBytes_le_iff {k l : UInt64} : okeyToBytes k ≤ okeyToBytes l ↔ k ≤ l := by
  rw [← not_lt, okeyToBytes_lt_iff, not_lt, UInt64.le_iff_toNat_le]

theorem commonPrefixLength_self (a : Bytes) : commonPrefixLength a a = a.length := by
  have h := commonPrefixLength_append a [] []
  simpa [commonPrefixLength] using h

/-- Where the common bytes end, two strings of one length differ. -/
theorem getElem?_commonPrefixLength_ne {a b : Bytes} (hlen : a.length = b.length) (hne : a ≠ b) :
    a[commonPrefixLength a b]? ≠ b[commonPrefixLength a b]? := by
  induction a generalizing b with
  | nil => exact absurd (List.length_eq_zero_iff.1 hlen.symm).symm hne
  | cons x a ih =>
      cases b with
      | nil => simp at hlen
      | cons y b =>
          simp only [commonPrefixLength]
          split
          · rename_i hxy
            subst hxy
            simp only [List.getElem?_cons_succ]
            exact ih (Nat.succ.inj hlen) fun heq => hne (by rw [heq])
          · rename_i hxy
            simpa using hxy

namespace ByteAxis

theorem readDigits_eq {axis : ByteAxis} {n : ℕ} {s : Bytes} (h : s.length ≤ n) :
    axis.readDigits n s =
      s.map (fun c => (axis.clamp c).toNat) ++ List.replicate (n - s.length) 0 := by
  induction n generalizing s with
  | zero =>
      obtain rfl : s = [] := List.length_eq_zero_iff.1 (Nat.le_zero.1 h)
      rfl
  | succ n ih =>
      cases s with
      | nil =>
          rw [readDigits, ih (s := []) (Nat.zero_le n)]
          rfl
      | cons c s =>
          have hs : s.length ≤ n := by simpa using h
          rw [readDigits, ih hs, List.map_cons, List.cons_append, List.length_cons,
            Nat.succ_sub_succ]

/-- A string within the window: its digits, shifted to the window's front. -/
theorem toNat_window_append {axis : ByteAxis} (h : axis.Sized) {s : Bytes}
    (hs : s.length ≤ axis.digits) :
    (axis.window (axis.prefixBytes ++ s)).toNat =
      Radix.value axis.radix.toNat (s.map fun c => (axis.clamp c).toNat) *
        axis.radix.toNat ^ (axis.digits - s.length) := by
  rw [toNat_window h, windowDigits_append, readDigits_eq hs, Radix.value_append,
    Radix.value_replicate_zero, List.length_replicate, Nat.add_zero]

end ByteAxis

/-! ### Families of okeys -/

/-- An axis fitted to okeys, from `kmin` to `kmax`. -/
structure OkeyAxisOf (hists : List RangeAttrHistogram) (kmin kmax : UInt64) (axis : ByteAxis) :
    Prop where
  axisOf : AxisOf hists (okeyToBytes kmin) (okeyToBytes kmax) axis
  okeys : ∀ b ∈ allBoundaries hists, ∃ k, b = okeyToBytes k

namespace OkeyAxisOf

variable {hists : List RangeAttrHistogram} {kmin kmax : UInt64} {axis : ByteAxis}

theorem le (h : OkeyAxisOf hists kmin kmax axis) : kmin ≤ kmax :=
  okeyToBytes_le_iff.1 h.axisOf.lo_le_hi

theorem shortest_eq (h : OkeyAxisOf hists kmin kmax axis) : shortestBoundary hists = 8 := by
  have hfold (l : List Bytes) (hl : ∀ b ∈ l, b.length = 8) (a : ℕ) :
      l.foldl (fun shortest v => min shortest v.length) a = if l = [] then a else min a 8 := by
    induction l generalizing a with
    | nil => rfl
    | cons b l ih =>
        rw [List.foldl_cons, ih (fun c hc => hl c (List.mem_cons_of_mem b hc)),
          hl b List.mem_cons_self, if_neg (List.cons_ne_nil b l)]
        split
        · rfl
        · rw [Nat.min_assoc, Nat.min_self]
  have hlen : ∀ b ∈ allBoundaries hists, b.length = 8 := by
    intro b hb
    obtain ⟨k, rfl⟩ := h.okeys b hb
    exact length_okeyToBytes k
  rw [shortestBoundary, hfold _ hlen, if_neg (List.ne_nil_of_mem h.axisOf.lo_mem)]
  rfl

/-- How many bytes the axis skips. -/
def skipped (kmin kmax : UInt64) : ℕ :=
  commonPrefixLength (okeyToBytes kmin) (okeyToBytes kmax)

theorem skipped_le (kmin kmax : UInt64) : skipped kmin kmax ≤ 8 :=
  (commonPrefixLength_le _ _).trans (length_okeyToBytes kmin).le

theorem toNat_unit (h : OkeyAxisOf hists kmin kmax axis) :
    axis.unit.toNat =
      axis.radix.toNat ^ min (skipped kmin kmax + axis.digits - 8) (axis.digits - 1) := by
  rw [h.axisOf.fit.unit_eq, h.shortest_eq, skipped]

theorem length_prefixBytes (h : OkeyAxisOf hists kmin kmax axis) :
    axis.prefixBytes.length = skipped kmin kmax :=
  h.axisOf.length_prefixBytes

/-- The window of an okey, by the bytes past the common ones. -/
theorem toNat_window (h : OkeyAxisOf hists kmin kmax axis) {k : UInt64} (hlo : kmin ≤ k)
    (hhi : k ≤ kmax) :
    (axis.window (okeyToBytes k)).toNat = Radix.value axis.radix.toNat
        (((okeyToBytes k).drop (skipped kmin kmax)).map fun c => (axis.clamp c).toNat) *
      axis.radix.toNat ^ (skipped kmin kmax + axis.digits - 8) := by
  have hk := h.axisOf.exists_remainder (okeyToBytes_le_iff.2 hlo) (okeyToBytes_le_iff.2 hhi)
  rw [h.length_prefixBytes] at hk
  have height := h.axisOf.fit.sized.eight_le
  have hskip := skipped_le kmin kmax
  have hlen : ((okeyToBytes k).drop (skipped kmin kmax)).length = 8 - skipped kmin kmax := by
    rw [List.length_drop, length_okeyToBytes]
  have hpad : axis.digits - (8 - skipped kmin kmax) = skipped kmin kmax + axis.digits - 8 := by
    omega
  have hfits : ((okeyToBytes k).drop (skipped kmin kmax)).length ≤ axis.digits := by
    rw [hlen]
    omega
  have hwindow := ByteAxis.toNat_window_append h.axisOf.fit.sized hfits
  rwa [← hk, hlen, hpad] at hwindow

/-- The digits past the common bytes. -/
def tailValue (axis : ByteAxis) (kmin kmax k : UInt64) : ℕ :=
  Radix.value axis.radix.toNat
    (((okeyToBytes k).drop (skipped kmin kmax)).map fun c => (axis.clamp c).toNat)

/-- An okey without a clamped byte is as far from `kmin` as its digits are. -/
theorem toNat_rel (h : OkeyAxisOf hists kmin kmax axis) {k : UInt64} (hlo : kmin ≤ k)
    (hhi : k ≤ kmax) (hin : ∀ c ∈ (okeyToBytes k).drop (skipped kmin kmax), axis.InRange c) :
    (axis.rel (okeyToBytes k)).toNat =
      (tailValue axis kmin kmax k - tailValue axis kmin kmax kmin) *
        axis.radix.toNat ^ (skipped kmin kmax + axis.digits - 8) := by
  rw [(h.axisOf.toNat_rel_of_inRange (okeyToBytes_le_iff.2 hlo) (okeyToBytes_le_iff.2 hhi)
    fun c hc => hin c (List.mem_of_mem_take hc)).1, h.axisOf.fit.base_eq, h.toNat_window hlo hhi,
    h.toNat_window (UInt64.le_refl _) h.le, Nat.sub_mul]
  rfl

theorem mem_usedBytes (h : OkeyAxisOf hists kmin kmax axis) {c : UInt8} :
    c ∈ usedBytes (skipped kmin kmax) hists ↔
      ∃ k, okeyToBytes k ∈ allBoundaries hists ∧ c ∈ (okeyToBytes k).drop (skipped kmin kmax) := by
  rw [usedBytes, List.mem_flatMap]
  constructor
  · rintro ⟨b, hb, hc⟩
    obtain ⟨k, rfl⟩ := h.okeys b hb
    exact ⟨k, hb, hc⟩
  · rintro ⟨k, hk, hc⟩
    exact ⟨_, hk, hc⟩

theorem between (h : OkeyAxisOf hists kmin kmax axis) {k : UInt64}
    (hk : okeyToBytes k ∈ allBoundaries hists) : kmin ≤ k ∧ k ≤ kmax :=
  ⟨okeyToBytes_le_iff.1 (h.axisOf.between _ hk).1, okeyToBytes_le_iff.1 (h.axisOf.between _ hk).2⟩

/-- The bytes the axis is fitted to. -/
theorem fitChars_spec (h : OkeyAxisOf hists kmin kmax axis) {c : UInt8}
    (hc : c ∈ usedBytes (skipped kmin kmax) hists) :
    ∃ hiChar, axis.loChar ∈ usedBytes (skipped kmin kmax) hists ∧
      hiChar ∈ usedBytes (skipped kmin kmax) hists ∧
      axis.radix.toNat = max 2 (hiChar.toNat - axis.loChar.toNat + 1) ∧
      ∀ c ∈ usedBytes (skipped kmin kmax) hists,
        axis.loChar.toNat ≤ c.toNat ∧ c.toNat ≤ hiChar.toNat := by
  obtain ⟨hall, hlo, hhi⟩ := charRange_spec (usedBytes (skipped kmin kmax) hists)
  have hchars : fitChars (skipped kmin kmax) hists =
      charRange (usedBytes (skipped kmin kmax) hists) := fitChars_eq hc
  have hradix := ByteAxis.toNat_fitRadix (fitChars_le (skipped kmin kmax) hists)
  have hfitLo : axis.loChar = (fitChars (skipped kmin kmax) hists).1 := h.axisOf.fit.loChar_eq
  have hfitRadix : axis.radix = ByteAxis.fitRadix (fitChars (skipped kmin kmax) hists).1
      (fitChars (skipped kmin kmax) hists).2 := h.axisOf.fit.radix_eq
  rw [hchars] at hfitLo
  rw [← hfitRadix, hchars, ← hfitLo] at hradix
  rw [← hfitLo] at hall hlo
  have hall' : ∀ c ∈ usedBytes (skipped kmin kmax) hists, axis.loChar.toNat ≤ c.toNat ∧
      c.toNat ≤ (charRange (usedBytes (skipped kmin kmax) hists)).2.toNat := fun c hc =>
    ⟨UInt8.le_iff_toNat_le.1 (hall c hc).1, UInt8.le_iff_toNat_le.1 (hall c hc).2⟩
  -- an end that is no used byte is the extreme one, and then so are the used bytes
  have hc' := hall' c hc
  refine ⟨_, ?_, ?_, hradix, hall'⟩
  · refine hlo.elim id fun hlast => ?_
    have hle := hc'.1
    have hlt := c.toNat_lt
    rw [hlast] at hle ⊢
    obtain rfl : c = 255 := UInt8.toNat_inj.1 (Nat.le_antisymm (Nat.le_of_lt_succ hlt) hle)
    exact hc
  · refine hhi.elim id fun hfirst => ?_
    have hle := hc'.2
    rw [hfirst] at hle ⊢
    obtain rfl : c = 0 := UInt8.toNat_inj.1 (Nat.le_zero.1 hle)
    exact hc

theorem toNat_unit_of_lt (h : OkeyAxisOf hists kmin kmax axis) (hskip : skipped kmin kmax < 8) :
    axis.unit.toNat = axis.radix.toNat ^ (skipped kmin kmax + axis.digits - 8) := by
  have hmin : min (skipped kmin kmax + axis.digits - 8) (axis.digits - 1) =
      skipped kmin kmax + axis.digits - 8 := by omega
  rw [h.toNat_unit, hmin]

theorem skipped_lt (h : OkeyAxisOf hists kmin kmax axis) {c : UInt8}
    (hc : c ∈ usedBytes (skipped kmin kmax) hists) : skipped kmin kmax < 8 := by
  obtain ⟨k, -, hmem⟩ := h.mem_usedBytes.1 hc
  have hpos := List.length_pos_of_mem hmem
  rw [List.length_drop, length_okeyToBytes] at hpos
  omega

/-! #### All bytes -/

theorem toNat_eq_value (k : UInt64) :
    Radix.value 256 ((okeyToBytes k).map UInt8.toNat) = k.toNat := by
  rw [okeyToBytes_eq, value_beBytes]
  exact Nat.mod_eq_of_lt k.toNat_lt

/-- Past their common bytes okeys are as far apart as they are. -/
theorem value_drop_sub (h : OkeyAxisOf hists kmin kmax axis) {k : UInt64} (hlo : kmin ≤ k)
    (hhi : k ≤ kmax) :
    Radix.value 256 (((okeyToBytes k).drop (skipped kmin kmax)).map UInt8.toNat) -
        Radix.value 256 (((okeyToBytes kmin).drop (skipped kmin kmax)).map UInt8.toNat) =
      k.toNat - kmin.toNat := by
  have hsplit {l : UInt64} (hlo : kmin ≤ l) (hhi : l ≤ kmax) : l.toNat =
      Radix.value 256 (axis.prefixBytes.map UInt8.toNat) * 256 ^ (8 - skipped kmin kmax) +
        Radix.value 256 (((okeyToBytes l).drop (skipped kmin kmax)).map UInt8.toNat) := by
    have hl := h.axisOf.exists_remainder (okeyToBytes_le_iff.2 hlo) (okeyToBytes_le_iff.2 hhi)
    have hvalue := toNat_eq_value l
    rw [hl, List.map_append, Radix.value_append, List.length_map, List.length_drop,
      length_okeyToBytes, h.length_prefixBytes] at hvalue
    exact hvalue.symm
  rw [hsplit hlo hhi, hsplit (UInt64.le_refl _) h.le, Nat.add_sub_add_left]

/-- If the boundaries use the least and the greatest byte, no byte is clamped. -/
theorem scales_of_all_bytes (h : OkeyAxisOf hists kmin kmax axis)
    (hzero : 0 ∈ usedBytes (skipped kmin kmax) hists)
    (hlast : 255 ∈ usedBytes (skipped kmin kmax) hists) :
    ∃ e, (∀ k, kmin ≤ k → k ≤ kmax →
        (axis.rel (okeyToBytes k)).toNat = 2 ^ e * (k.toNat - kmin.toNat)) ∧
      axis.unit.toNat = 2 ^ e := by
  obtain ⟨hiChar, -, -, hradix, hall⟩ := h.fitChars_spec hzero
  have hloChar : axis.loChar.toNat = 0 := Nat.le_zero.1 (hall 0 hzero).1
  have hhiChar : hiChar.toNat = 255 :=
    Nat.le_antisymm (Nat.le_of_lt_succ hiChar.toNat_lt) (hall 255 hlast).2
  have hbase : axis.radix.toNat = 256 := by omega
  have hin (c : UInt8) : axis.InRange c := by
    have := c.toNat_lt
    exact ⟨by omega, by omega⟩
  have hclamp (c : UInt8) : (axis.clamp c).toNat = c.toNat := by
    rw [ByteAxis.toNat_clamp_of_inRange h.axisOf.fit.sized (hin c), hloChar, Nat.sub_zero]
  have htail (k : UInt64) : tailValue axis kmin kmax k =
      Radix.value 256 (((okeyToBytes k).drop (skipped kmin kmax)).map UInt8.toNat) := by
    simp only [tailValue, hclamp, hbase]
  refine ⟨8 * (skipped kmin kmax + axis.digits - 8), fun k hlo hhi => ?_, ?_⟩
  · rw [h.toNat_rel hlo hhi fun c _ => hin c, htail, htail, h.value_drop_sub hlo hhi, hbase,
      Nat.mul_comm, Nat.pow_mul]
  · rw [h.toNat_unit_of_lt (h.skipped_lt hzero), hbase, Nat.pow_mul]

/-! #### One byte -/

theorem length_beBytes_seven (n : ℕ) : (beBytes 7 n).length = 7 := by
  rw [beBytes, List.length_reverse, length_leBytes]

theorem drop_seven (k : UInt64) : (okeyToBytes k).drop 7 = [UInt8.ofNat (k.toNat % 256)] := by
  rw [okeyToBytes_concat, List.drop_left' (length_beBytes_seven _)]

theorem toNat_lastByte (n : ℕ) : (UInt8.ofNat (n % 256)).toNat = n % 256 := by
  rw [UInt8.toNat_ofNat']
  omega

theorem skipped_eq_seven (hhigh : kmin.toNat / 256 = kmax.toNat / 256) (hne : kmin ≠ kmax) :
    skipped kmin kmax = 7 := by
  have hlow : UInt8.ofNat (kmin.toNat % 256) ≠ UInt8.ofNat (kmax.toNat % 256) := by
    intro heq
    have hmod := congrArg UInt8.toNat heq
    rw [toNat_lastByte, toNat_lastByte] at hmod
    exact hne (UInt64.toNat_inj.1 (by omega))
  rw [skipped, okeyToBytes_concat, okeyToBytes_concat, hhigh, commonPrefixLength_append,
    length_beBytes_seven]
  simp [commonPrefixLength, hlow]

/-- With seven common bytes the base is the number of okeys between the bounds,
and none of them is clamped. -/
theorem one_byte (h : OkeyAxisOf hists kmin kmax axis)
    (hhigh : kmin.toNat / 256 = kmax.toNat / 256) (hne : kmin ≠ kmax) :
    axis.radix.toNat = kmax.toNat - kmin.toNat + 1 ∧
      axis.unit.toNat = axis.radix.toNat ^ (axis.digits - 1) ∧
      ∀ k, kmin ≤ k → k ≤ kmax →
        (axis.rel (okeyToBytes k)).toNat = axis.unit.toNat * (k.toNat - kmin.toNat) := by
  have hskip := skipped_eq_seven hhigh hne
  have hle := UInt64.le_iff_toNat_le.1 h.le
  have hne' : kmin.toNat ≠ kmax.toNat := fun heq => hne (UInt64.toNat_inj.1 heq)
  have hused {k : UInt64} (hk : okeyToBytes k ∈ allBoundaries hists) :
      UInt8.ofNat (k.toNat % 256) ∈ usedBytes (skipped kmin kmax) hists := by
    rw [h.mem_usedBytes]
    refine ⟨k, hk, ?_⟩
    rw [hskip, drop_seven]
    exact List.mem_singleton_self _
  have hmin := hused h.axisOf.lo_mem
  have hmax := hused h.axisOf.hi_mem
  obtain ⟨hiChar, hlo, hhi, hradix, hall⟩ := h.fitChars_spec hmin
  have hmin' := hall _ hmin
  have hmax' := hall _ hmax
  rw [toNat_lastByte] at hmin' hmax'
  -- every used byte is the last one of an okey between the bounds
  have hbetween {c : UInt8} (hc : c ∈ usedBytes (skipped kmin kmax) hists) :
      kmin.toNat % 256 ≤ c.toNat ∧ c.toNat ≤ kmax.toNat % 256 := by
    obtain ⟨k, hk, hmem⟩ := h.mem_usedBytes.1 hc
    rw [hskip, drop_seven, List.mem_singleton] at hmem
    obtain ⟨h1, h2⟩ := h.between hk
    rw [UInt64.le_iff_toNat_le] at h1 h2
    rw [hmem, toNat_lastByte]
    omega
  have hlo' := hbetween hlo
  have hhi' := hbetween hhi
  have hbase : axis.radix.toNat = kmax.toNat - kmin.toNat + 1 := by omega
  have hunit := h.toNat_unit_of_lt (by omega)
  rw [hskip, show 7 + axis.digits - 8 = axis.digits - 1 by omega] at hunit
  refine ⟨hbase, hunit, fun k hkmin hkmax => ?_⟩
  have hk1 := UInt64.le_iff_toNat_le.1 hkmin
  have hk2 := UInt64.le_iff_toNat_le.1 hkmax
  have hin {l : UInt64} (hl1 : kmin.toNat ≤ l.toNat) (hl2 : l.toNat ≤ kmax.toNat) :
      axis.InRange (UInt8.ofNat (l.toNat % 256)) := by
    rw [ByteAxis.InRange, toNat_lastByte]
    omega
  have htail {l : UInt64} (hl1 : kmin.toNat ≤ l.toNat) (hl2 : l.toNat ≤ kmax.toNat) :
      tailValue axis kmin kmax l = l.toNat % 256 - axis.loChar.toNat := by
    rw [tailValue, hskip, drop_seven, List.map_singleton,
      ByteAxis.toNat_clamp_of_inRange h.axisOf.fit.sized (hin hl1 hl2), toNat_lastByte,
      Radix.value_cons]
    simp
  have hdiff : k.toNat % 256 - axis.loChar.toNat - (kmin.toNat % 256 - axis.loChar.toNat) =
      k.toNat - kmin.toNat := by omega
  rw [h.toNat_rel hkmin hkmax (by
    rw [hskip, drop_seven]
    intro c hc
    rw [List.mem_singleton.1 hc]
    exact hin hk1 hk2), htail hk1 hk2, htail le_rfl hle, hdiff, hunit, hskip,
    show 7 + axis.digits - 8 = axis.digits - 1 by omega, Nat.mul_comm]

/-! #### One okey -/

theorem scales_of_eq (h : OkeyAxisOf hists kmin kmax axis) (heq : kmin = kmax) :
    ∃ e, (∀ k, kmin ≤ k → k ≤ kmax →
        (axis.rel (okeyToBytes k)).toNat = 2 ^ e * (k.toNat - kmin.toNat)) ∧
      axis.unit.toNat = 2 ^ e := by
  have hskip : skipped kmin kmax = 8 := by
    rw [skipped, heq, commonPrefixLength_self, length_okeyToBytes]
  have hnone : usedBytes (skipped kmin kmax) hists = [] := by
    rw [List.eq_nil_iff_forall_not_mem]
    intro c hc
    have := h.skipped_lt hc
    omega
  have hradix : axis.radix.toNat = 2 := by
    have hfit : axis.radix = ByteAxis.fitRadix (fitChars (skipped kmin kmax) hists).1
      (fitChars (skipped kmin kmax) hists).2 := h.axisOf.fit.radix_eq
    rw [hfit, fitChars, hnone]
    decide
  refine ⟨_, fun k hlo hhi => ?_, h.toNat_unit.trans (by rw [hradix])⟩
  obtain rfl : k = kmin := UInt64.le_antisymm (heq ▸ hhi) hlo
  rw [h.axisOf.rel_lo, Nat.sub_self]
  rfl

/-! #### Clamped bytes -/

theorem drop_okeyToBytes (hskip : skipped kmin kmax < 8) (k : UInt64) :
    (okeyToBytes k).drop (skipped kmin kmax) =
      (beBytes 7 (k.toNat / 256)).drop (skipped kmin kmax) ++ [UInt8.ofNat (k.toNat % 256)] := by
  rw [okeyToBytes_concat, List.drop_append_of_le_length]
  rw [length_beBytes_seven]
  omega

/-- Okeys that differ in their last bytes alone have different coordinates only
if these are different digits. -/
theorem clamp_ne (h : OkeyAxisOf hists kmin kmax axis) (hskip : skipped kmin kmax < 8)
    {k l : UInt64} (hk : kmin ≤ k ∧ k ≤ kmax) (hl : kmin ≤ l ∧ l ≤ kmax)
    (hhigh : k.toNat / 256 = l.toNat / 256)
    (hrel : axis.rel (okeyToBytes k) ≠ axis.rel (okeyToBytes l)) :
    (axis.clamp (UInt8.ofNat (k.toNat % 256))).toNat ≠
      (axis.clamp (UInt8.ofNat (l.toNat % 256))).toNat := by
  intro hclamp
  apply hrel
  have hwindow : axis.window (okeyToBytes k) = axis.window (okeyToBytes l) := by
    apply UInt64.toNat_inj.1
    rw [h.toNat_window hk.1 hk.2, h.toNat_window hl.1 hl.2, drop_okeyToBytes hskip,
      drop_okeyToBytes hskip, hhigh, List.map_append, List.map_append, List.map_singleton,
      List.map_singleton, hclamp]
  rw [h.axisOf.rel_eq (okeyToBytes_le_iff.2 hk.1) (okeyToBytes_le_iff.2 hk.2),
    h.axisOf.rel_eq (okeyToBytes_le_iff.2 hl.1) (okeyToBytes_le_iff.2 hl.2), hwindow]

/-- Coordinates that count okeys across a carry need all bytes. -/
theorem all_bytes_of_scales (h : OkeyAxisOf hists kmin kmax axis)
    (hhigh : kmin.toNat / 256 < kmax.toNat / 256) {c : ℕ} (hc : 0 < c)
    (hrel : ∀ k, kmin ≤ k → k ≤ kmax →
      (axis.rel (okeyToBytes k)).toNat = c * (k.toNat - kmin.toNat)) :
    0 ∈ usedBytes (skipped kmin kmax) hists ∧ 255 ∈ usedBytes (skipped kmin kmax) hists := by
  have hne : okeyToBytes kmin ≠ okeyToBytes kmax := by
    rw [Ne, okeyToBytes_inj]
    omega
  have hskip : skipped kmin kmax < 8 := by
    refine lt_of_le_of_ne (skipped_le kmin kmax) fun heq => hne ?_
    have htake := take_commonPrefixLength (okeyToBytes kmin) (okeyToBytes kmax)
    rw [← skipped, heq, List.take_of_length_le (length_okeyToBytes _).le,
      List.take_of_length_le (length_okeyToBytes _).le] at htake
    exact htake.symm
  have hlastUsed {k : UInt64} (hk : okeyToBytes k ∈ allBoundaries hists) :
      UInt8.ofNat (k.toNat % 256) ∈ usedBytes (skipped kmin kmax) hists := by
    rw [h.mem_usedBytes]
    refine ⟨k, hk, ?_⟩
    rw [drop_okeyToBytes hskip]
    simp
  obtain ⟨hiChar, hloUsed, hhiUsed, hradix, hall⟩ := h.fitChars_spec (hlastUsed h.axisOf.lo_mem)
  -- the bounds differ in the first byte past their common ones, so the base is the span of bytes
  have hspan : axis.loChar.toNat < hiChar.toNat := by
    have hbyte {k : UInt64} (hk : okeyToBytes k ∈ allBoundaries hists) :
        ∃ b, (okeyToBytes k)[skipped kmin kmax]? = some b ∧
          b ∈ usedBytes (skipped kmin kmax) hists := by
      have hlen : skipped kmin kmax < (okeyToBytes k).length := by
        rw [length_okeyToBytes]
        exact hskip
      refine ⟨_, List.getElem?_eq_getElem hlen, h.mem_usedBytes.2 ⟨k, hk, ?_⟩⟩
      rw [List.drop_eq_getElem_cons hlen]
      exact List.mem_cons_self
    obtain ⟨a, ha, haUsed⟩ := hbyte h.axisOf.lo_mem
    obtain ⟨b, hb, hbUsed⟩ := hbyte h.axisOf.hi_mem
    have hdiff := getElem?_commonPrefixLength_ne
      ((length_okeyToBytes kmin).trans (length_okeyToBytes kmax).symm) hne
    rw [← skipped, ha, hb] at hdiff
    have hab : a.toNat ≠ b.toNat := fun heq => hdiff (by rw [UInt8.toNat_inj.1 heq])
    have ha' := hall a haUsed
    have hb' := hall b hbUsed
    omega
  have hkmax := kmax.toNat_lt
  have hneRel {n : ℕ} (hn : kmin.toNat ≤ n) (hn' : n + 1 ≤ kmax.toNat)
      (hdiv : n / 256 = (n + 1) / 256) :
      (axis.clamp (UInt8.ofNat (n % 256))).toNat ≠
        (axis.clamp (UInt8.ofNat ((n + 1) % 256))).toNat := by
    have hk : (UInt64.ofNat n).toNat = n := by
      rw [UInt64.toNat_ofNat', Nat.mod_eq_of_lt (by omega)]
    have hl : (UInt64.ofNat (n + 1)).toNat = n + 1 := by
      rw [UInt64.toNat_ofNat', Nat.mod_eq_of_lt (by omega)]
    have hkb : kmin ≤ UInt64.ofNat n ∧ UInt64.ofNat n ≤ kmax := by
      rw [UInt64.le_iff_toNat_le, UInt64.le_iff_toNat_le, hk]
      omega
    have hlb : kmin ≤ UInt64.ofNat (n + 1) ∧ UInt64.ofNat (n + 1) ≤ kmax := by
      rw [UInt64.le_iff_toNat_le, UInt64.le_iff_toNat_le, hl]
      omega
    have hclamp := h.clamp_ne hskip hkb hlb (by rw [hk, hl]; exact hdiv) (by
      intro heq
      have hval := congrArg UInt64.toNat heq
      rw [hrel _ hkb.1 hkb.2, hrel _ hlb.1 hlb.2, hk, hl] at hval
      have := Nat.eq_of_mul_eq_mul_left hc hval
      omega)
    rwa [hk, hl] at hclamp
  have hsized := h.axisOf.fit.sized
  constructor
  · by_cases hzero : kmax.toNat % 256 = 0
    · have hmem := hlastUsed h.axisOf.hi_mem
      rwa [hzero] at hmem
    · -- the carry below `kmax` is followed by one more okey
      have hclamp := hneRel (n := kmax.toNat / 256 * 256) (by omega) (by omega) (by omega)
      rw [show kmax.toNat / 256 * 256 % 256 = 0 by omega,
        show (kmax.toNat / 256 * 256 + 1) % 256 = 1 by omega, ByteAxis.toNat_clamp hsized,
        ByteAxis.toNat_clamp hsized, show (UInt8.ofNat 0).toNat = 0 from rfl,
        show (UInt8.ofNat 1).toNat = 1 from rfl] at hclamp
      have hlo : axis.loChar.toNat = 0 := by omega
      rwa [show axis.loChar = 0 from UInt8.toNat_inj.1 hlo] at hloUsed
  · by_cases hlast : kmin.toNat % 256 = 255
    · have hmem := hlastUsed h.axisOf.lo_mem
      rwa [hlast] at hmem
    · -- two okeys come before the carry above `kmin`
      have hclamp := hneRel (n := kmin.toNat / 256 * 256 + 254) (by omega) (by omega) (by omega)
      rw [show (kmin.toNat / 256 * 256 + 254) % 256 = 254 by omega,
        show (kmin.toNat / 256 * 256 + 254 + 1) % 256 = 255 by omega, ByteAxis.toNat_clamp hsized,
        ByteAxis.toNat_clamp hsized, show (UInt8.ofNat 254).toNat = 254 from rfl,
        show (UInt8.ofNat 255).toNat = 255 from rfl] at hclamp
      have hlt := hiChar.toNat_lt
      have hhi : hiChar.toNat = 255 := by omega
      rwa [show hiChar = 255 from UInt8.toNat_inj.1 hhi] at hhiUsed

end OkeyAxisOf

/-- The coordinates of an axis fitted to okeys are the okeys scaled by a power of
two, which is the unit, exactly if there is one okey, or all okeys share seven
bytes and their number is a power of two, or the boundaries use both the least
and the greatest byte past their common ones. -/
theorem rebuildAxis_scales_okeys_iff {hists : List RangeAttrHistogram} (hne : hists ≠ [])
    (hokeys : ∀ b ∈ allBoundaries hists, ∃ k, b = okeyToBytes k) :
    ∃ kmin kmax axis, rebuildAxis hists = some (okeyToBytes kmin, okeyToBytes kmax, axis) ∧
      ((∃ e, (∀ k, kmin ≤ k → k ≤ kmax →
            (axis.rel (okeyToBytes k)).toNat = 2 ^ e * (k.toNat - kmin.toNat)) ∧
          axis.unit.toNat = 2 ^ e) ↔
        kmin = kmax ∨
        kmin.toNat / 256 = kmax.toNat / 256 ∧ (∃ e, kmax.toNat - kmin.toNat + 1 = 2 ^ e) ∨
        0 ∈ usedBytes (commonPrefixLength (okeyToBytes kmin) (okeyToBytes kmax)) hists ∧
          255 ∈ usedBytes (commonPrefixLength (okeyToBytes kmin) (okeyToBytes kmax)) hists) := by
  obtain ⟨lo, hi, axis, hrebuild, haxis⟩ := rebuildAxis_spec hne
  obtain ⟨kmin, rfl⟩ := hokeys lo haxis.lo_mem
  obtain ⟨kmax, rfl⟩ := hokeys hi haxis.hi_mem
  have h : OkeyAxisOf hists kmin kmax axis := ⟨haxis, hokeys⟩
  refine ⟨kmin, kmax, axis, hrebuild, ?_, ?_⟩
  · rintro ⟨e, hrel, hunit⟩
    by_cases heq : kmin = kmax
    · exact Or.inl heq
    by_cases hhigh : kmin.toNat / 256 = kmax.toNat / 256
    · -- the base divides the unit
      obtain ⟨hradix, hunit', -⟩ := h.one_byte hhigh heq
      have hdvd : axis.radix.toNat ∣ 2 ^ e := by
        rw [← hunit, hunit']
        exact dvd_pow_self _ (by have := haxis.fit.sized.eight_le; omega)
      obtain ⟨d, -, hd⟩ := (Nat.dvd_prime_pow Nat.prime_two).1 hdvd
      exact Or.inr (Or.inl ⟨hhigh, d, hradix ▸ hd⟩)
    · have hle := Nat.div_le_div_right (c := 256) (UInt64.le_iff_toNat_le.1 h.le)
      exact Or.inr (Or.inr (h.all_bytes_of_scales (by omega) (Nat.two_pow_pos e) hrel))
  · rintro (heq | ⟨hhigh, d, hd⟩ | ⟨hzero, hlast⟩)
    · exact h.scales_of_eq heq
    · by_cases heq : kmin = kmax
      · exact h.scales_of_eq heq
      obtain ⟨hradix, hunit, hrel⟩ := h.one_byte hhigh heq
      have hpow : axis.unit.toNat = 2 ^ (d * (axis.digits - 1)) := by
        rw [hunit, hradix, hd, Nat.pow_mul]
      exact ⟨_, fun k hlo hhi => hpow ▸ hrel k hlo hhi, hpow⟩
    · exact h.scales_of_all_bytes hzero hlast

/-- Boundaries at 0, 255 and 999. -/
def denseHistogram : RangeAttrHistogram where
  boundaries := [okeyToBytes (i64ToOkey 0), okeyToBytes (i64ToOkey 255),
    okeyToBytes (i64ToOkey 999)]
  counts := [256, 744]
  length_boundaries := rfl
  sorted := by decide

/-- Boundaries at 256 and 515. -/
def sparseHistogram : RangeAttrHistogram where
  boundaries := [okeyToBytes (i64ToOkey 256), okeyToBytes (i64ToOkey 515)]
  counts := [260]
  length_boundaries := rfl
  sorted := by decide

/-- The bytes 0 and 255 occur, so 500 is halfway to 1000. -/
theorem rebuildAxis_scales_okeys_dense :
    ∃ kmin kmax axis e, rebuildAxis [denseHistogram] =
        some (okeyToBytes kmin, okeyToBytes kmax, axis) ∧
      axis.unit.toNat = 2 ^ e ∧
      (axis.rel (okeyToBytes (i64ToOkey 500))).toNat = 2 ^ e * 500 := by
  obtain ⟨kmin, kmax, axis, hrebuild, hiff⟩ :=
    rebuildAxis_scales_okeys_iff (List.cons_ne_nil denseHistogram []) (by
      simp only [allBoundaries, denseHistogram, List.flatMap_cons, List.flatMap_nil,
        List.append_nil, List.forall_mem_cons, List.not_mem_nil, false_imp_iff, implies_true,
        and_true]
      exact ⟨⟨_, rfl⟩, ⟨_, rfl⟩, ⟨_, rfl⟩⟩)
  have hcheck : (rebuildAxis [denseHistogram]).any (fun out =>
      out.1 = okeyToBytes (i64ToOkey 0) ∧ out.2.1 = okeyToBytes (i64ToOkey 999)) = true := by
    decide +kernel
  rw [hrebuild, Option.any_some, decide_eq_true_eq] at hcheck
  obtain ⟨hmin, hmax⟩ := hcheck
  obtain rfl : kmin = i64ToOkey 0 := UInt64.toNat_inj.1 (okeyToBytes_inj.1 hmin)
  obtain rfl : kmax = i64ToOkey 999 := UInt64.toNat_inj.1 (okeyToBytes_inj.1 hmax)
  obtain ⟨e, hrel, hunit⟩ := hiff.2 (Or.inr (Or.inr (by decide +kernel)))
  exact ⟨_, _, axis, e, hrebuild, hunit, hrel _ (by decide) (by decide)⟩

/-- With the bytes 0 to 3 alone, 300 and 301 are one coordinate. -/
theorem rebuildAxis_clamps_okeys :
    ∃ axis, rebuildAxis [sparseHistogram] =
        some (okeyToBytes (i64ToOkey 256), okeyToBytes (i64ToOkey 515), axis) ∧
      ¬∃ e, (∀ k, i64ToOkey 256 ≤ k → k ≤ i64ToOkey 515 →
          (axis.rel (okeyToBytes k)).toNat = 2 ^ e * (k.toNat - (i64ToOkey 256).toNat)) ∧
        axis.unit.toNat = 2 ^ e := by
  have hcheck : (rebuildAxis [sparseHistogram]).any (fun out =>
      out.1 = okeyToBytes (i64ToOkey 256) ∧ out.2.1 = okeyToBytes (i64ToOkey 515) ∧
        out.2.2.rel (okeyToBytes (i64ToOkey 300)) =
          out.2.2.rel (okeyToBytes (i64ToOkey 301))) = true := by decide +kernel
  obtain ⟨⟨lo, hi, axis⟩, hrebuild, hout⟩ := (Option.any_eq_true _ _).1 hcheck
  obtain ⟨rfl, rfl, heq⟩ := of_decide_eq_true hout
  refine ⟨axis, hrebuild, ?_⟩
  rintro ⟨e, hrel, -⟩
  have hval := congrArg UInt64.toNat heq
  rw [hrel _ (by decide) (by decide), hrel _ (by decide) (by decide)] at hval
  exact absurd (Nat.eq_of_mul_eq_mul_left (Nat.two_pow_pos e) hval) (by decide)

end BitLSM
