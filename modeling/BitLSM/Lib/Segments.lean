import Mathlib.Data.List.Infix

/-!
Segments of lists, and reads by position.

`HasAt b off bs` says that `b` holds the elements `bs` from position `off`
on. It splits over concatenation, and each bounds-checked read is answered
from it. A format proof is then a `HasAt` fact about the whole file, taken
apart section by section; the records a format is decoded into are addressed
by position just as its bytes are.
-/

namespace Wire

variable {α β γ : Type*}

/-- The `len` elements from position `off`; shorter when the list ends first. -/
def slice (b : List α) (off len : ℕ) : List α := (b.drop off).take len

/-- The same segment, refusing to read past the end. -/
def readAt (b : List α) (off len : ℕ) : Option (List α) :=
  if off + len ≤ b.length then some (slice b off len) else none

/-- `b` holds `bs` from position `off` on. -/
def HasAt (b : List α) (off : ℕ) (bs : List α) : Prop :=
  ∃ pre post, b = pre ++ bs ++ post ∧ pre.length = off

theorem HasAt.intro (pre bs post : List α) : HasAt (pre ++ bs ++ post) pre.length bs :=
  ⟨pre, post, rfl, rfl⟩

theorem HasAt.self (b : List α) : HasAt b 0 b := ⟨[], [], by simp, rfl⟩

theorem HasAt.length_le {b bs : List α} {off : ℕ} (h : HasAt b off bs) :
    off + bs.length ≤ b.length := by
  obtain ⟨pre, post, rfl, rfl⟩ := h
  simp only [List.length_append]
  omega

theorem HasAt.left {b xs ys : List α} {off : ℕ} (h : HasAt b off (xs ++ ys)) :
    HasAt b off xs := by
  obtain ⟨pre, post, rfl, rfl⟩ := h
  exact ⟨pre, ys ++ post, by simp, rfl⟩

theorem HasAt.right {b xs ys : List α} {off : ℕ} (h : HasAt b off (xs ++ ys)) :
    HasAt b (off + xs.length) ys := by
  obtain ⟨pre, post, rfl, rfl⟩ := h
  exact ⟨pre ++ xs, post, by simp, by simp⟩

theorem HasAt.trans {b c bs : List α} {off o : ℕ} (h : HasAt b off c) (h' : HasAt c o bs) :
    HasAt b (off + o) bs := by
  obtain ⟨pre, post, rfl, rfl⟩ := h
  obtain ⟨pre', post', rfl, rfl⟩ := h'
  exact ⟨pre ++ pre', post' ++ post, by simp, by simp⟩

theorem HasAt.slice_eq {b bs : List α} {off : ℕ} (h : HasAt b off bs) :
    slice b off bs.length = bs := by
  obtain ⟨pre, post, rfl, rfl⟩ := h
  simp [slice]

theorem HasAt.readAt_eq {b bs : List α} {off len : ℕ} (h : HasAt b off bs)
    (hlen : bs.length = len) : readAt b off len = some bs := by
  subst hlen
  rw [readAt, if_pos h.length_le, h.slice_eq]

theorem readAt_eq_some {b bs : List α} {off len : ℕ} (h : readAt b off len = some bs) :
    off + len ≤ b.length ∧ bs = slice b off len := by
  unfold readAt at h
  split at h
  · exact ⟨by assumption, (Option.some.inj h).symm⟩
  · cases h

theorem readAt_eq_none {b : List α} {off len : ℕ} (h : b.length < off + len) :
    readAt b off len = none := by
  rw [readAt, if_neg (by omega)]

theorem hasAt_iff_slice {b bs : List α} {off : ℕ} :
    HasAt b off bs ↔ off ≤ b.length ∧ slice b off bs.length = bs := by
  constructor
  · intro h
    exact ⟨by have := h.length_le; omega, h.slice_eq⟩
  · rintro ⟨hle, hs⟩
    refine ⟨b.take off, b.drop (off + bs.length), ?_, by simp [hle]⟩
    conv_lhs => rw [← List.take_append_drop off b]
    rw [List.append_assoc]
    congr 1
    conv_lhs => rw [← List.take_append_drop bs.length (b.drop off)]
    rw [List.drop_drop]
    congr 1

theorem length_slice {b : List α} {off len : ℕ} (h : off + len ≤ b.length) :
    (slice b off len).length = len := by
  simp only [slice, List.length_take, List.length_drop]
  omega

/-- A slice of a slice that stays inside it. -/
theorem slice_slice {b : List α} {off len o l : ℕ} (h : o + l ≤ len) :
    slice (slice b off len) o l = slice b (off + o) l := by
  simp only [slice, List.drop_take, List.take_take, List.drop_drop]
  congr 1
  omega

/-- A segment inside a part that was read out. -/
theorem HasAt.of_readAt {b region xs : List α} {off len o : ℕ} (h : HasAt b (off + o) xs)
    (hread : readAt b off len = some region) (hle : o + xs.length ≤ len) : HasAt region o xs := by
  obtain ⟨hlen, rfl⟩ := readAt_eq_some hread
  rw [hasAt_iff_slice, length_slice hlen, slice_slice hle]
  exact ⟨by omega, h.slice_eq⟩

theorem HasAt.append {b bs : List α} {off : ℕ} (h : HasAt b off bs) (ys : List α) :
    HasAt (b ++ ys) off bs := by
  obtain ⟨pre, post, rfl, rfl⟩ := h
  exact ⟨pre, post ++ ys, by simp, rfl⟩

theorem HasAt.getElem? {b bs : List α} {x : α} {off : ℕ} (h : HasAt b off (x :: bs)) :
    b[off]? = some x := by
  obtain ⟨pre, post, rfl, rfl⟩ := h
  simp

theorem HasAt.tail {b bs : List α} {x : α} {off : ℕ} (h : HasAt b off (x :: bs)) :
    HasAt b (off + 1) bs :=
  @HasAt.right α b [x] bs off h

theorem HasAt.drop_eq {b bs : List α} {off : ℕ} (h : HasAt b off bs) :
    ∃ rest, b.drop off = bs ++ rest := by
  obtain ⟨pre, post, rfl, rfl⟩ := h
  exact ⟨post, by simp⟩

/-! ### Overwriting -/

/-- Overwrite `out` from position `off` on, refusing to write past its end. -/
def writeAt (out : List α) (off : ℕ) (bs : List α) : Option (List α) :=
  if off + bs.length ≤ out.length then some (out.take off ++ bs ++ out.drop (off + bs.length))
  else none

theorem writeAt_eq_some {out out' bs : List α} {off : ℕ} (h : writeAt out off bs = some out') :
    off + bs.length ≤ out.length ∧ out' = out.take off ++ bs ++ out.drop (off + bs.length) := by
  unfold writeAt at h
  split at h
  · exact ⟨by assumption, (Option.some.inj h).symm⟩
  · cases h

theorem length_writeAt {out out' bs : List α} {off : ℕ} (h : writeAt out off bs = some out') :
    out'.length = out.length := by
  obtain ⟨hle, rfl⟩ := writeAt_eq_some h
  simp only [List.length_append, List.length_take, List.length_drop]
  omega

theorem hasAt_writeAt {out out' bs : List α} {off : ℕ} (h : writeAt out off bs = some out') :
    HasAt out' off bs := by
  obtain ⟨hle, rfl⟩ := writeAt_eq_some h
  exact ⟨out.take off, out.drop (off + bs.length), rfl, by simp; omega⟩

/-- A write leaves the segments before it and after it alone. -/
theorem HasAt.writeAt {out out' bs xs : List α} {off o : ℕ} (hx : HasAt out o xs)
    (h : writeAt out off bs = some out') (hdisj : o + xs.length ≤ off ∨ off + bs.length ≤ o) :
    HasAt out' o xs := by
  obtain ⟨hle, rfl⟩ := writeAt_eq_some h
  have hlen := hx.length_le
  rw [hasAt_iff_slice] at hx ⊢
  obtain ⟨ho, hslice⟩ := hx
  refine ⟨by simp only [List.length_append, List.length_take, List.length_drop]; omega, ?_⟩
  conv_rhs => rw [← hslice]
  unfold slice
  apply List.ext_getElem?
  intro i
  by_cases hi : i < xs.length
  · rcases hdisj with hbefore | hafter
    · simp only [List.getElem?_take, hi, if_true, List.getElem?_drop]
      rw [List.getElem?_append_left (by simp; omega), List.getElem?_append_left (by simp; omega),
        List.getElem?_take, if_pos (by omega)]
    · simp only [List.getElem?_take, hi, if_true, List.getElem?_drop]
      rw [List.getElem?_append_right (by simp; omega), List.getElem?_drop]
      congr 1
      simp only [List.length_append, List.length_take]
      omega
  · rw [List.getElem?_take, List.getElem?_take, if_neg hi, if_neg hi]

theorem exists_writeAt (out bs : List α) {off : ℕ} (h : off + bs.length ≤ out.length) :
    ∃ out', writeAt out off bs = some out' := ⟨_, if_pos h⟩

theorem HasAt.nil {b : List α} {off : ℕ} (h : off ≤ b.length) : HasAt b off [] :=
  hasAt_iff_slice.2 ⟨h, by simp [slice]⟩

/-- Neighbouring segments are one segment. -/
theorem HasAt.join {b xs ys : List α} {off : ℕ} (hx : HasAt b off xs)
    (hy : HasAt b (off + xs.length) ys) : HasAt b off (xs ++ ys) := by
  rw [hasAt_iff_slice] at hx hy ⊢
  refine ⟨hx.1, ?_⟩
  rw [List.length_append]
  unfold slice at *
  rw [List.take_add, hx.2, List.drop_drop, hy.2]

/-- A segment that is everything. -/
theorem HasAt.eq_of_length {b bs : List α} (h : HasAt b 0 bs) (hlen : bs.length = b.length) :
    b = bs := by
  have hslice := h.slice_eq
  rwa [slice, List.drop_zero, hlen, List.take_length] at hslice

/-- A write at the end of a segment makes it longer. -/
theorem HasAt.concat {out out' c bs : List α} {off : ℕ} (hc : HasAt out off c)
    (h : Wire.writeAt out (off + c.length) bs = some out') : HasAt out' off (c ++ bs) :=
  (hc.writeAt h (Or.inl le_rfl)).join (hasAt_writeAt h)

/-- A write of one element inside a segment. -/
theorem HasAt.set {out out' seg : List α} {off k : ℕ} {x : α} (hc : HasAt out off seg)
    (hk : k < seg.length) (h : Wire.writeAt out (off + k) [x] = some out') :
    HasAt out' off (seg.set k x) := by
  have hsplit : seg = seg.take k ++ (seg[k] :: seg.drop (k + 1)) := by
    rw [← List.drop_eq_getElem_cons hk, List.take_append_drop]
  rw [hsplit] at hc
  have htake : (seg.take k).length = k := by
    rw [List.length_take]
    omega
  have hbefore := hc.left.writeAt h (Or.inl (by omega))
  have hafter := hc.right.tail
  rw [htake] at hafter
  have hafter := hafter.writeAt h (Or.inr le_rfl)
  rw [List.set_eq_take_append_cons_drop, if_pos hk]
  refine hbefore.join ?_
  rw [htake]
  exact (hasAt_writeAt h).join hafter

/-! ### Loops -/

/-- A loop whose body always succeeds. -/
theorem mapM_eq_some_map {f : α → Option β} {g : α → β} {l : List α}
    (h : ∀ x ∈ l, f x = some (g x)) : l.mapM f = some (l.map g) := by
  induction l with
  | nil => rfl
  | cons x xs ih =>
      rw [List.forall_mem_cons] at h
      rw [List.mapM_cons, h.1, ih h.2]
      rfl

theorem mapM_isSome {f : α → Option β} {l : List α} (h : ∀ x ∈ l, ∃ y, f x = some y) :
    ∃ ys, l.mapM f = some ys := by
  induction l with
  | nil => exact ⟨[], rfl⟩
  | cons x xs ih =>
      rw [List.forall_mem_cons] at h
      obtain ⟨y, hy⟩ := h.1
      obtain ⟨ys, hys⟩ := ih h.2
      exact ⟨y :: ys, by rw [List.mapM_cons, hy, hys]; rfl⟩

/-- A loop that succeeds ran its body on every element. -/
theorem mapM_getElem? {f : α → Option β} {l : List α} {ys : List β} (h : l.mapM f = some ys) :
    ys.length = l.length ∧
      ∀ (i : ℕ) (x : α), l[i]? = some x → ∃ y, f x = some y ∧ ys[i]? = some y := by
  induction l generalizing ys with
  | nil =>
      obtain rfl : [] = ys := Option.some.inj h
      simp
  | cons x xs ih =>
      rw [List.mapM_cons, Option.bind_eq_bind, Option.bind_eq_some_iff] at h
      obtain ⟨y, hy, h⟩ := h
      rw [Option.bind_eq_bind, Option.bind_eq_some_iff] at h
      obtain ⟨zs, hzs, h⟩ := h
      obtain rfl : y :: zs = ys := Option.some.inj h
      obtain ⟨hlen, hget⟩ := ih hzs
      refine ⟨by simp [hlen], fun i z hz => ?_⟩
      cases i with
      | zero =>
          obtain rfl : x = z := by simpa using hz
          exact ⟨y, hy, rfl⟩
      | succ i => exact hget i z hz

theorem mapM_eq_some {f : α → Option β} {l : List α} {ys : List β} (hlen : l.length = ys.length)
    (h : ∀ (i : ℕ) x, l[i]? = some x → ∃ y, ys[i]? = some y ∧ f x = some y) :
    l.mapM f = some ys := by
  obtain ⟨zs, hzs⟩ := mapM_isSome (f := f) (l := l) fun x hx => by
    obtain ⟨i, hi⟩ := List.mem_iff_getElem?.1 hx
    obtain ⟨y, -, hy⟩ := h i x hi
    exact ⟨y, hy⟩
  obtain ⟨hzlen, hget⟩ := mapM_getElem? hzs
  rw [hzs, Option.some.injEq]
  refine List.ext_getElem? fun i => ?_
  cases hx : l[i]? with
  | none =>
      rw [List.getElem?_eq_none_iff] at hx
      rw [List.getElem?_eq_none (by omega), List.getElem?_eq_none (by omega)]
  | some x =>
      obtain ⟨y, hy, hfx⟩ := h i x hx
      obtain ⟨z, hfz, hz⟩ := hget i x hx
      rw [hy, hz, ← hfz, hfx]

/-- Lists that agree position by position under two maps. -/
theorem map_eq_map {f : α → γ} {g : β → γ} {l : List α} {m : List β} (hlen : l.length = m.length)
    (h : ∀ (i : ℕ) x, l[i]? = some x → ∃ y, m[i]? = some y ∧ f x = g y) : l.map f = m.map g := by
  refine List.ext_getElem? fun i => ?_
  rw [List.getElem?_map, List.getElem?_map]
  cases hx : l[i]? with
  | none =>
      rw [List.getElem?_eq_none_iff, hlen] at hx
      rw [List.getElem?_eq_none hx]
      rfl
  | some x =>
      obtain ⟨y, hy, hxy⟩ := h i x hx
      rw [hy, Option.map_some, Option.map_some, hxy]

end Wire
