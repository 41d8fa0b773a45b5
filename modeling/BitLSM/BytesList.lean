import BitLSM.Lib.Search
import BitLSM.Coding

/-!
Packed lists of byte strings: one arena and the end offset of each string.

Offsets are `uint32_t`. A list built by `pushBack` is `ofList` of the
strings pushed, and while the arena is below `2 ^ 32` bytes it reads back
exactly those strings, in memory and through its wire form.
-/

namespace BitLSM

open Wire

structure BytesList where
  arena : Bytes := []
  ends : List UInt32 := []
  deriving DecidableEq, Repr

namespace BytesList

def size (l : BytesList) : ℕ := l.ends.length

/-- The `i`-th string; an index out of range is undefined in the source. -/
def get (l : BytesList) (i : ℕ) : Bytes :=
  let start := if i = 0 then 0 else l.ends.getD (i - 1) 0
  slice l.arena start.toNat (l.ends.getD i 0 - start).toNat

def back (l : BytesList) : Bytes := l.get (l.size - 1)

def pushBack (l : BytesList) (v : Bytes) : BytesList where
  arena := l.arena ++ v
  ends := l.ends ++ [UInt32.ofNat (l.arena ++ v).length]

/-- Index of the first string above `v`. -/
def upperBound (l : BytesList) (v : Bytes) : ℕ :=
  BinarySearch.search (fun i => l.get i ≤ v) (l.size % 2 ^ 32)

/-- Index of the first string not below `v`. -/
def lowerBound (l : BytesList) (v : Bytes) : ℕ :=
  BinarySearch.search (fun i => l.get i < v) (l.size % 2 ^ 32)

def serialize (l : BytesList) : Bytes :=
  putFixed32 (UInt32.ofNat l.size) ++ l.ends.flatMap putFixed32 ++ l.arena

/-- The list at position `off`, and the length of its wire form. -/
def parse (b : Bytes) (off : ℕ) : Option (BytesList × ℕ) := do
  let count ← decodeFixed32 b off
  let ends ← decodeFixed32s b (off + 4) count.toNat
  let bytes := ends.getLastD 0
  let arena ← readAt b (off + 4 + count.toNat * 4) bytes.toNat
  return ({ arena, ends }, 4 + count.toNat * 4 + bytes.toNat)

/-! ### Lists built by pushes -/

def ofList (vs : List Bytes) : BytesList := vs.foldl pushBack {}

theorem ofList_concat (vs : List Bytes) (v : Bytes) :
    ofList (vs ++ [v]) = (ofList vs).pushBack v := by
  simp [ofList]

@[simp] theorem arena_ofList (vs : List Bytes) : (ofList vs).arena = vs.flatten := by
  induction vs using List.reverseRecOn with
  | nil => rfl
  | append_singleton vs v ih => simp [ofList_concat, pushBack, ih]

theorem ends_ofList (vs : List Bytes) :
    (ofList vs).ends =
      (List.range vs.length).map fun i => UInt32.ofNat (vs.take (i + 1)).flatten.length := by
  induction vs using List.reverseRecOn with
  | nil => rfl
  | append_singleton vs v ih =>
      have hlen : (vs ++ [v]).length = vs.length + 1 := by simp
      rw [ofList_concat, pushBack, ih, hlen, List.range_succ, List.map_append,
        List.map_singleton, arena_ofList]
      show _ ++ _ = _ ++ _
      congr 1
      · apply List.map_congr_left
        intro i hi
        have hi := List.mem_range.1 hi
        rw [List.take_append_of_le_length (by omega)]
      · rw [List.take_of_length_le (by simp)]
        simp

@[simp] theorem size_ofList (vs : List Bytes) : (ofList vs).size = vs.length := by
  simp [size, ends_ofList]

/-- End offsets below `2 ^ 32` are the true ones. -/
theorem getD_ends_ofList {vs : List Bytes} (hlen : vs.flatten.length < 2 ^ 32) {i : ℕ}
    (hi : i < vs.length) :
    ((ofList vs).ends.getD i 0).toNat = (vs.take (i + 1)).flatten.length := by
  have hle : (vs.take (i + 1)).flatten.length ≤ vs.flatten.length := by
    conv_rhs => rw [← List.take_append_drop (i + 1) vs, List.flatten_append, List.length_append]
    omega
  rw [ends_ofList, List.getD_eq_getElem?_getD, List.getElem?_map, List.getElem?_range hi]
  simp only [Option.map_some, Option.getD_some, UInt32.toNat_ofNat']
  omega

theorem get_ofList {vs : List Bytes} (hlen : vs.flatten.length < 2 ^ 32) {i : ℕ}
    (hi : i < vs.length) : (ofList vs).get i = vs[i] := by
  have hstart : (if i = 0 then 0 else (ofList vs).ends.getD (i - 1) 0).toNat =
      (vs.take i).flatten.length := by
    cases i with
    | zero => simp
    | succ i =>
        rw [if_neg (Nat.succ_ne_zero i), Nat.add_sub_cancel]
        exact getD_ends_ofList hlen (by omega)
  have hstop := getD_ends_ofList hlen hi
  have htake : (vs.take (i + 1)).flatten.length = (vs.take i).flatten.length + vs[i].length := by
    rw [List.take_succ_eq_append_getElem hi, List.flatten_append, List.length_append]
    simp
  have hsub : ((ofList vs).ends.getD i 0 -
      (if i = 0 then 0 else (ofList vs).ends.getD (i - 1) 0)).toNat = vs[i].length := by
    rw [UInt32.toNat_sub_of_le, hstop, hstart, htake]
    · omega
    · rw [UInt32.le_iff_toNat_le, hstop, hstart]
      omega
  have hat : HasAt vs.flatten (vs.take i).flatten.length vs[i] := by
    refine ⟨(vs.take i).flatten, (vs.drop (i + 1)).flatten, ?_, rfl⟩
    conv_lhs => rw [← List.take_append_drop i vs]
    rw [List.drop_eq_getElem_cons hi, List.flatten_append, List.flatten_cons, List.append_assoc]
  rw [get, hstart, hsub, arena_ofList]
  exact hat.slice_eq

theorem getLastD_ends_ofList {vs : List Bytes} (hlen : vs.flatten.length < 2 ^ 32) :
    ((ofList vs).ends.getLastD 0).toNat = vs.flatten.length := by
  induction vs using List.reverseRecOn with
  | nil => rfl
  | append_singleton vs v _ =>
      rw [ofList_concat, pushBack, List.getLastD_concat, arena_ofList]
      simp only [UInt32.toNat_ofNat', List.length_append, List.flatten_append,
        List.flatten_singleton] at hlen ⊢
      omega

/-- A list read back from its wire form is the list written. -/
theorem parse_of_hasAt {vs : List Bytes} {b : Bytes} {off : ℕ}
    (h : HasAt b off (ofList vs).serialize) (hlen : b.length < 2 ^ 32) :
    parse b off = some (ofList vs, (ofList vs).serialize.length) := by
  have hbytes := h.length_le
  rw [serialize] at h
  simp only [serialize, List.length_append, length_putFixed32, length_flatMap_putFixed32,
    arena_ofList] at hbytes
  have hsize : (UInt32.ofNat (ofList vs).size).toNat = (ofList vs).ends.length := by
    rw [UInt32.toNat_ofNat', size]
    omega
  have hlast := @getLastD_ends_ofList vs (by omega)
  have hends := h.left.right
  have harena := h.right
  rw [length_putFixed32] at hends
  simp only [List.length_append, length_putFixed32, length_flatMap_putFixed32] at harena
  have hread := harena.readAt_eq (congrArg List.length (arena_ofList vs))
  rw [parse, decodeFixed32_of_hasAt h.left.left]
  simp only [Option.bind_eq_bind, Option.bind_some, hsize, decodeFixed32s_of_hasAt hends, hlast]
  have hpos : off + 4 + (ofList vs).ends.length * 4 = off + (4 + 4 * (ofList vs).ends.length) := by
    omega
  rw [hpos, hread]
  have hself : ({ arena := vs.flatten, ends := (ofList vs).ends } : BytesList) = ofList vs := by
    rw [← arena_ofList]
  simp only [Option.bind_some, Option.pure_def, arena_ofList, hself, serialize,
    List.length_append, length_putFixed32, length_flatMap_putFixed32]
  congr 2
  omega

end BytesList

end BitLSM
