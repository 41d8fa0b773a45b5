import Mathlib.Data.List.Lex
import Mathlib.Tactic.Ring
import Mathlib.Tactic.Linarith
import BitLSM.Lib.Segments

/-!
Byte strings and the fixed-width integer codecs built on them.

A byte string is a `List UInt8`, ordered as `memcmp` orders it with a
shorter string before its extensions, which is the lexicographic order of
lists. Integers enter a byte string in little-endian or big-endian form of
a given width, or as a base-128 varint.
-/

namespace Wire

instance byteLinearOrder : LinearOrder UInt8 where
  le_refl := UInt8.le_refl
  le_trans _ _ _ := UInt8.le_trans
  le_antisymm _ _ := UInt8.le_antisymm
  le_total := UInt8.le_total
  lt_iff_le_not_ge a b := by
    rw [← UInt8.not_le]
    exact ⟨fun h => ⟨(UInt8.le_total a b).resolve_right h, h⟩, And.right⟩
  toDecidableLE := inferInstance
  toDecidableLT := inferInstance
  toDecidableEq := inferInstance

abbrev Bytes := List UInt8

/-- The sign a three-way comparison returns. -/
def Bytes.compare (a b : Bytes) : Int :=
  if a < b then -1 else if a = b then 0 else 1

theorem Bytes.compare_lt_zero {a b : Bytes} : Bytes.compare a b < 0 ↔ a < b := by
  unfold Bytes.compare
  split
  · simp_all
  · split <;> simp_all

theorem Bytes.compare_eq_zero {a b : Bytes} : Bytes.compare a b = 0 ↔ a = b := by
  unfold Bytes.compare
  split
  · rename_i h
    simp [h.ne]
  · split <;> simp_all

theorem Bytes.compare_le_zero {a b : Bytes} : Bytes.compare a b ≤ 0 ↔ a ≤ b := by
  rw [le_iff_lt_or_eq, Bytes.compare_lt_zero, Bytes.compare_eq_zero, le_iff_lt_or_eq]

theorem Bytes.compare_pos {a b : Bytes} : 0 < Bytes.compare a b ↔ b < a := by
  rw [← not_le, Bytes.compare_le_zero, not_le]

theorem Bytes.compare_nonneg {a b : Bytes} : 0 ≤ Bytes.compare a b ↔ b ≤ a := by
  rw [← not_lt, Bytes.compare_lt_zero, not_lt]

/-! ### Little-endian integers -/

/-- The `w` low bytes of `n`, least significant first. -/
def leBytes : ℕ → ℕ → Bytes
  | 0, _ => []
  | w + 1, n => UInt8.ofNat (n % 256) :: leBytes w (n / 256)

/-- The integer with the given little-endian bytes. -/
def leVal : Bytes → ℕ
  | [] => 0
  | b :: bs => b.toNat + 256 * leVal bs

@[simp] theorem length_leBytes (w n : ℕ) : (leBytes w n).length = w := by
  induction w generalizing n with
  | zero => rfl
  | succ w ih => simp [leBytes, ih]

theorem leVal_leBytes (w n : ℕ) : leVal (leBytes w n) = n % 256 ^ w := by
  induction w generalizing n with
  | zero => simp [leBytes, leVal, Nat.mod_one]
  | succ w ih =>
      have hbyte : n % 256 % 2 ^ 8 = n % 256 := by omega
      rw [leBytes, leVal, ih, UInt8.toNat_ofNat', hbyte, pow_succ', Nat.mod_mul]

theorem leVal_lt (bs : Bytes) : leVal bs < 256 ^ bs.length := by
  induction bs with
  | nil => simp [leVal]
  | cons b bs ih =>
      have hb : b.toNat < 256 := b.toNat_lt
      rw [leVal, List.length_cons, pow_succ]
      omega

theorem leBytes_leVal (bs : Bytes) : leBytes bs.length (leVal bs) = bs := by
  induction bs with
  | nil => rfl
  | cons b bs ih =>
      have hb : b.toNat < 256 := b.toNat_lt
      have hmod : (b.toNat + 256 * leVal bs) % 256 = b.toNat := by omega
      have hdiv : (b.toNat + 256 * leVal bs) / 256 = leVal bs := by omega
      rw [leVal, List.length_cons, leBytes, hmod, hdiv, ih]
      simp

theorem leBytes_mod (w n : ℕ) : leBytes w (n % 256 ^ w) = leBytes w n := by
  have h := leBytes_leVal (leBytes w n)
  rwa [length_leBytes, leVal_leBytes] at h

/-! ### Big-endian integers

Read most significant byte first, fixed-width integers are ordered by
their bytes. -/

/-- The `w` low bytes of `n`, most significant first. -/
def beBytes (w n : ℕ) : Bytes := (leBytes w n).reverse

theorem leBytes_succ_last (w n : ℕ) :
    leBytes (w + 1) n = leBytes w n ++ [UInt8.ofNat (n / 256 ^ w % 256)] := by
  induction w generalizing n with
  | zero => simp [leBytes]
  | succ w ih =>
      rw [leBytes, ih, leBytes, List.cons_append, Nat.div_div_eq_div_mul, pow_succ']

theorem beBytes_succ (w n : ℕ) :
    beBytes (w + 1) n = UInt8.ofNat (n / 256 ^ w % 256) :: beBytes w n := by
  simp [beBytes, leBytes_succ_last]

theorem beBytes_mod (w n : ℕ) : beBytes w (n % 256 ^ w) = beBytes w n := by
  rw [beBytes, leBytes_mod, beBytes]

theorem beBytes_lt_of_lt {w a b : ℕ} (hb : b < 256 ^ w) (h : a < b) :
    beBytes w a < beBytes w b := by
  induction w generalizing a b with
  | zero => simp at hb; omega
  | succ w ih =>
      have hpos : 0 < 256 ^ w := by positivity
      have hbd : b / 256 ^ w < 256 := by
        rw [Nat.div_lt_iff_lt_mul hpos, Nat.mul_comm, ← pow_succ]
        exact hb
      have hle : a / 256 ^ w ≤ b / 256 ^ w := Nat.div_le_div_right h.le
      rw [beBytes_succ, beBytes_succ]
      rcases hle.lt_or_eq with hlt | heq
      · -- the leading bytes decide
        apply List.Lex.rel
        rw [UInt8.lt_iff_toNat_lt, UInt8.toNat_ofNat', UInt8.toNat_ofNat']
        generalize a / 256 ^ w = x at hlt
        generalize b / 256 ^ w = y at hlt hbd
        omega
      · rw [heq]
        apply List.Lex.cons
        rw [← beBytes_mod w a, ← beBytes_mod w b]
        apply ih (Nat.mod_lt _ hpos)
        have ha := Nat.div_add_mod a (256 ^ w)
        have hb' := Nat.div_add_mod b (256 ^ w)
        rw [heq] at ha
        omega

theorem beBytes_lt_iff {w a b : ℕ} (ha : a < 256 ^ w) (hb : b < 256 ^ w) :
    beBytes w a < beBytes w b ↔ a < b := by
  constructor
  · intro h
    by_contra hab
    rcases (Nat.le_of_not_lt hab).lt_or_eq with hlt | rfl
    · exact lt_asymm h (beBytes_lt_of_lt ha hlt)
    · exact lt_irrefl _ h
  · exact beBytes_lt_of_lt hb

theorem beBytes_inj {w a b : ℕ} (ha : a < 256 ^ w) (hb : b < 256 ^ w) :
    beBytes w a = beBytes w b ↔ a = b := by
  constructor
  · intro h
    rcases Nat.lt_trichotomy a b with hab | hab | hab
    · exact absurd h (beBytes_lt_of_lt hb hab).ne
    · exact hab
    · exact absurd h (beBytes_lt_of_lt ha hab).ne'
  · rintro rfl
    rfl

/-! ### Varints

Seven bits a byte, least significant first; every byte but the last has its
top bit set. -/

/-- The varint of `n`, in at most `k` bytes. -/
def varint : ℕ → ℕ → Bytes
  | 0, _ => []
  | k + 1, n =>
      if n < 128 then [UInt8.ofNat n] else UInt8.ofNat (n % 128 + 128) :: varint k (n / 128)

/-- The varint at position `off`, of at most `k` bytes, and the position after it. -/
def readVarint (b : Bytes) : ℕ → ℕ → Option (ℕ × ℕ)
  | 0, _ => none
  | k + 1, off => do
      let c ← b[off]?
      if c.toNat < 128 then return (c.toNat, off + 1)
      let (v, next) ← readVarint b k (off + 1)
      return (c.toNat - 128 + 128 * v, next)

theorem readVarint_varint {b : Bytes} {k n off : ℕ} (h : HasAt b off (varint (k + 1) n))
    (hn : n < 128 ^ (k + 1)) :
    readVarint b (k + 1) off = some (n, off + (varint (k + 1) n).length) := by
  induction k generalizing n off with
  | zero =>
      have hn : n < 128 := by simpa using hn
      have hbyte : (UInt8.ofNat n).toNat = n := by
        rw [UInt8.toNat_ofNat']
        omega
      rw [varint, if_pos hn] at h ⊢
      simp [readVarint, h.getElem?, hbyte, hn]
  | succ k ih =>
      rw [varint] at h ⊢
      split at h
      · next hlt =>
          have hbyte : (UInt8.ofNat n).toNat = n := by
            rw [UInt8.toNat_ofNat']
            omega
          simp [readVarint, h.getElem?, hbyte, hlt]
      · next hge =>
          have hbyte : (UInt8.ofNat (n % 128 + 128)).toNat = n % 128 + 128 := by
            rw [UInt8.toNat_ofNat']
            omega
          have hdiv : n / 128 < 128 ^ (k + 1) := by
            rw [Nat.div_lt_iff_lt_mul (by decide), ← pow_succ]
            exact hn
          have hrest := ih h.tail hdiv
          rw [readVarint, h.getElem?]
          simp only [Option.bind_eq_bind, Option.bind_some, hbyte, hrest]
          rw [if_neg (by omega), if_neg hge, List.length_cons]
          simp only [Option.pure_def, Option.some.injEq, Prod.mk.injEq]
          omega

end Wire
