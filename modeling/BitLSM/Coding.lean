import BitLSM.Lib.Bytes

/-!
The integer codecs of the index blob.

Fixed-width integers are little-endian. A string is written behind its
length as a varint. Reads are by position and refuse to leave the buffer,
so a parse that succeeds touched only bytes of the blob.
-/

namespace BitLSM

open Wire

def putFixed32 (n : UInt32) : Bytes := leBytes 4 n.toNat

def putFixed64 (n : UInt64) : Bytes := leBytes 8 n.toNat

def putLengthPrefixedSlice (s : Bytes) : Bytes := varint 5 (s.length % 2 ^ 32) ++ s

def decodeFixed32 (b : Bytes) (off : ℕ) : Option UInt32 :=
  (readAt b off 4).map fun bs => UInt32.ofNat (leVal bs)

def decodeFixed64 (b : Bytes) (off : ℕ) : Option UInt64 :=
  (readAt b off 8).map fun bs => UInt64.ofNat (leVal bs)

/-- The varint at `off` and the position after it; it has at most five bytes. -/
def getVarint32Ptr (b : Bytes) (off : ℕ) : Option (UInt32 × ℕ) :=
  (readVarint b 5 off).map fun r => (UInt32.ofNat r.1, r.2)

/-- `n` consecutive integers from `off` on. -/
def decodeFixed32s (b : Bytes) : ℕ → ℕ → Option (List UInt32)
  | _, 0 => some []
  | off, n + 1 => do
      let x ← decodeFixed32 b off
      let xs ← decodeFixed32s b (off + 4) n
      return x :: xs

/-- Entries `0 .. last`. The loop runs while `i <= last`, which never fails for
the largest `uint32_t`. -/
def decodeFixed32sTo (b : Bytes) (off : ℕ) (last : UInt32) : Option (List UInt32) :=
  if last + 1 = 0 then none else decodeFixed32s b off (last + 1).toNat

def decodeFixed64s (b : Bytes) : ℕ → ℕ → Option (List UInt64)
  | _, 0 => some []
  | off, n + 1 => do
      let x ← decodeFixed64 b off
      let xs ← decodeFixed64s b (off + 8) n
      return x :: xs

@[simp] theorem length_putFixed32 (n : UInt32) : (putFixed32 n).length = 4 := length_leBytes 4 _

@[simp] theorem length_putFixed64 (n : UInt64) : (putFixed64 n).length = 8 := length_leBytes 8 _

@[simp] theorem length_flatMap_putFixed32 (ns : List UInt32) :
    (ns.flatMap putFixed32).length = 4 * ns.length := by
  induction ns with
  | nil => rfl
  | cons n ns ih =>
      simp only [List.flatMap_cons, List.length_append, length_putFixed32, ih, List.length_cons]
      omega

@[simp] theorem length_flatMap_putFixed64 (ns : List UInt64) :
    (ns.flatMap putFixed64).length = 8 * ns.length := by
  induction ns with
  | nil => rfl
  | cons n ns ih =>
      simp only [List.flatMap_cons, List.length_append, length_putFixed64, ih, List.length_cons]
      omega

theorem decodeFixed32_of_hasAt {b : Bytes} {off : ℕ} {n : UInt32}
    (h : HasAt b off (putFixed32 n)) : decodeFixed32 b off = some n := by
  have hval : leVal (putFixed32 n) = n.toNat := by
    rw [putFixed32, leVal_leBytes]
    exact Nat.mod_eq_of_lt n.toNat_lt
  rw [decodeFixed32, h.readAt_eq (length_putFixed32 n), Option.map_some, hval, UInt32.ofNat_toNat]

theorem decodeFixed64_of_hasAt {b : Bytes} {off : ℕ} {n : UInt64}
    (h : HasAt b off (putFixed64 n)) : decodeFixed64 b off = some n := by
  have hval : leVal (putFixed64 n) = n.toNat := by
    rw [putFixed64, leVal_leBytes]
    exact Nat.mod_eq_of_lt n.toNat_lt
  rw [decodeFixed64, h.readAt_eq (length_putFixed64 n), Option.map_some, hval, UInt64.ofNat_toNat]

theorem decodeFixed32s_of_hasAt {b : Bytes} {off : ℕ} {ns : List UInt32}
    (h : HasAt b off (ns.flatMap putFixed32)) : decodeFixed32s b off ns.length = some ns := by
  induction ns generalizing off with
  | nil => rfl
  | cons n ns ih =>
      rw [List.flatMap_cons] at h
      have hrest := h.right
      rw [length_putFixed32] at hrest
      rw [List.length_cons, decodeFixed32s, decodeFixed32_of_hasAt h.left, ih hrest]
      rfl

theorem decodeFixed32s_le {b : Bytes} {off n : ℕ} {ns : List UInt32}
    (h : decodeFixed32s b off n = some ns) (hn : 0 < n) : off + 4 * n ≤ b.length := by
  induction n generalizing off ns with
  | zero => omega
  | succ n ih =>
      obtain ⟨x, hx, hrest⟩ := Option.bind_eq_some_iff.1 h
      obtain ⟨xs, hxs, -⟩ := Option.bind_eq_some_iff.1 hrest
      obtain ⟨bs, hread, -⟩ := Option.map_eq_some_iff.1 hx
      have hle := (readAt_eq_some hread).1
      rcases Nat.eq_zero_or_pos n with rfl | hpos
      · omega
      · have := ih hxs hpos
        omega

theorem decodeFixed64s_of_hasAt {b : Bytes} {off : ℕ} {ns : List UInt64}
    (h : HasAt b off (ns.flatMap putFixed64)) : decodeFixed64s b off ns.length = some ns := by
  induction ns generalizing off with
  | nil => rfl
  | cons n ns ih =>
      rw [List.flatMap_cons] at h
      have hrest := h.right
      rw [length_putFixed64] at hrest
      rw [List.length_cons, decodeFixed64s, decodeFixed64_of_hasAt h.left, ih hrest]
      rfl

theorem getVarint32Ptr_of_hasAt {b : Bytes} {off n : ℕ} (hn : n < 2 ^ 32)
    (h : HasAt b off (varint 5 n)) :
    getVarint32Ptr b off = some (UInt32.ofNat n, off + (varint 5 n).length) := by
  have hbound : n < 128 ^ 5 := lt_trans hn (by decide)
  rw [getVarint32Ptr, readVarint_varint h hbound, Option.map_some]

end BitLSM
