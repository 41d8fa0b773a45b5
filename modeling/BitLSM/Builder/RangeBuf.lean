import BitLSM.Lib.Runs
import BitLSM.Okey
import BitLSM.BytesList
import BitLSM.Runtime

/-!
The value buffer of a range attribute.

Values are collected row by row and sorted once, as integers when all of
them have the length of an okey and as byte strings otherwise. Either way
the rows come out in value order, cut into runs of equal values.
-/

namespace BitLSM

open Wire

/-- Eight bytes, most significant first; the caller guarantees the length. -/
def okeyFromBytes (bytes : Bytes) : UInt64 := bswap64 (UInt64.ofNat (leVal (bytes.take 8)))

structure RangeAttrBuf where
  values : BytesList := {}
  /-- Length shared by every value: -2 while empty, -1 once two lengths differ. -/
  uniformLen : Int32 := -2

/-- The part of the buffer that `Sort` fills. -/
structure SortedRuns where
  /-- Row positions in value order. -/
  sorted : List ℕ
  /-- Equal-value runs in `sorted`, and the number of rows. -/
  runStart : List ℕ
  distinct : ℕ

namespace RangeAttrBuf

def push (b : RangeAttrBuf) (v : Bytes) : RangeAttrBuf where
  values := b.values.pushBack v
  uniformLen :=
    let len := Int32.ofNat v.length
    if b.uniformLen = -2 then len else if b.uniformLen ≠ len then -1 else b.uniformLen

/-- The branch of `sort` for values that are okeys. -/
def sortOkeys (std : StdSort) (b : RangeAttrBuf) : SortedRuns :=
  let n := b.values.size % 2 ^ 32
  let recs := std.run (fun x y : UInt64 × ℕ => decide (x.1.toNat < y.1.toNat))
    ((List.range n).map fun i => (okeyFromBytes (b.values.get i), i))
  { sorted := recs.map Prod.snd
    runStart := Runs.cuts (recs.map Prod.fst)
    distinct := (Runs.starts (recs.map Prod.fst)).length }

/-- The branch of `sort` for any values. -/
def sortBytes (std : StdSort) (b : RangeAttrBuf) : SortedRuns :=
  let n := b.values.size % 2 ^ 32
  let sorted := std.run (fun x y => decide (b.values.get x < b.values.get y)) (List.range n)
  { sorted
    runStart := Runs.cuts (sorted.map b.values.get)
    distinct := (Runs.starts (sorted.map b.values.get)).length }

def sort (std : StdSort) (b : RangeAttrBuf) : SortedRuns :=
  if b.uniformLen = 8 then b.sortOkeys std else b.sortBytes std

end RangeAttrBuf

/-! ### Sorting -/

/-- The buffer after pushing `vs`. -/
structure RangeAttrBuf.Pushed (vs : List Bytes) (b : RangeAttrBuf) : Prop where
  values : b.values = BytesList.ofList vs
  /-- Only a value of `2 ^ 32 - 2` bytes could leave the mark of an empty buffer. -/
  empty : b.uniformLen = -2 → vs = [] ∨ 2 ^ 32 - 2 ≤ vs.flatten.length
  uniform : vs.flatten.length < 2 ^ 32 → b.uniformLen = 8 → ∀ v ∈ vs, v.length = 8

theorem RangeAttrBuf.pushed_nil : Pushed [] {} :=
  ⟨rfl, fun _ => Or.inl rfl, fun _ h => by simp at h⟩

/-- The length a `size_t` is cut down to determines it modulo `2 ^ 32`. -/
theorem int32_ofNat_eq {n : ℕ} {x : Int32} (h : Int32.ofNat n = x) :
    n % 2 ^ 32 = x.toBitVec.toNat := by
  rw [← h]
  exact (BitVec.toNat_ofNat n 32).symm

theorem RangeAttrBuf.Pushed.push {vs : List Bytes} {b : RangeAttrBuf} (h : Pushed vs b)
    (v : Bytes) : Pushed (vs ++ [v]) (b.push v) := by
  have hlen : (vs ++ [v]).flatten.length = vs.flatten.length + v.length := by simp
  have height (hlt : v.length < 2 ^ 32) (hv : Int32.ofNat v.length = 8) : v.length = 8 := by
    have := int32_ofNat_eq hv
    rwa [Nat.mod_eq_of_lt hlt] at this
  refine ⟨by rw [RangeAttrBuf.push, h.values, BytesList.ofList_concat], fun hu => ?_,
    fun hbytes hu => ?_⟩
  · right
    rw [RangeAttrBuf.push] at hu
    simp only at hu
    split at hu
    · have hv : v.length % 2 ^ 32 = 2 ^ 32 - 2 := int32_ofNat_eq hu
      omega
    · split at hu
      · exact absurd hu (by decide)
      · contradiction
  · rw [RangeAttrBuf.push] at hu
    simp only at hu
    rw [List.forall_mem_append, List.forall_mem_singleton]
    split at hu
    · next hempty =>
        have hv := height (by omega) hu
        rcases h.empty hempty with rfl | hlong
        · exact ⟨by simp, hv⟩
        · omega
    · split at hu
      · exact absurd hu (by decide)
      · next _ hsame =>
          rw [ne_eq, not_not] at hsame
          exact ⟨h.uniform (by omega) hu, height (by omega) (hsame ▸ hu)⟩

/-- Eight bytes are determined by their key, and ordered by it. -/
theorem okeyToBytes_okeyFromBytes {v : Bytes} (h : v.length = 8) :
    okeyToBytes (okeyFromBytes v) = v := by
  have hval : (UInt64.ofNat (leVal v)).toNat = leVal v := by
    have hlt := leVal_lt v
    rw [h] at hlt
    rw [UInt64.toNat_ofNat', Nat.mod_eq_of_lt (by simpa using hlt)]
  have hswap : (okeyFromBytes v).toNat = leVal v.reverse := by
    have hlt := leVal_lt v.reverse
    rw [List.length_reverse, h] at hlt
    have hself := leBytes_leVal v
    rw [h] at hself
    rw [okeyFromBytes, List.take_of_length_le h.le, bswap64, hval, hself, UInt64.toNat_ofNat',
      Nat.mod_eq_of_lt (by simpa using hlt)]
  have hself := leBytes_leVal v.reverse
  rw [List.length_reverse, h] at hself
  rw [okeyToBytes_eq, hswap, beBytes, hself, List.reverse_reverse]

/-- The values in order. -/
def SortedRuns.ordering (vs : List Bytes) (runs : SortedRuns) : List Bytes :=
  runs.sorted.map fun i => vs.getD i []

/-- What `Sort` leaves behind for the values `vs`. -/
structure SortedRuns.Of (vs : List Bytes) (runs : SortedRuns) : Prop where
  perm : runs.sorted.Perm (List.range vs.length)
  ordered : (runs.ordering vs).Pairwise (· ≤ ·)
  runStart : runs.runStart = Runs.cuts (runs.ordering vs)
  distinct : runs.distinct = (Runs.starts (runs.ordering vs)).length

namespace RangeAttrBuf

/-- The values as the buffer reads them back. -/
def reads (b : RangeAttrBuf) : List Bytes :=
  (List.range (b.values.size % 2 ^ 32)).map b.values.get

theorem length_reads (b : RangeAttrBuf) : b.reads.length = b.values.size % 2 ^ 32 := by
  simp [reads]

theorem get_eq_reads (b : RangeAttrBuf) {i : ℕ} (hi : i < b.reads.length) :
    b.values.get i = b.reads.getD i [] := by
  rw [List.getD_eq_getElem _ _ hi]
  simp [reads]

theorem Pushed.reads_eq {vs : List Bytes} {b : RangeAttrBuf} (h : Pushed vs b)
    (hrows : vs.length < 2 ^ 32) (hbytes : vs.flatten.length < 2 ^ 32) : b.reads = vs := by
  have hn : b.values.size % 2 ^ 32 = vs.length := by
    rw [h.values, BytesList.size_ofList, Nat.mod_eq_of_lt hrows]
  refine List.ext_getElem (by rw [length_reads, hn]) fun i _ hi => ?_
  simp only [RangeAttrBuf.reads, List.getElem_map, List.getElem_range, h.values,
    BytesList.get_ofList hbytes hi]

/-- Sorting byte strings sorts what the buffer reads back. -/
theorem sortBytes_of (std : StdSort) (b : RangeAttrBuf) : (b.sortBytes std).Of b.reads := by
  set sorted := std.run (fun x y => decide (b.values.get x < b.values.get y))
    (List.range (b.values.size % 2 ^ 32)) with hsorted
  have hperm := std.perm (fun x y => decide (b.values.get x < b.values.get y))
    (List.range (b.values.size % 2 ^ 32))
  rw [← hsorted, ← b.length_reads] at hperm
  have hmap : sorted.map b.values.get = sorted.map fun i => b.reads.getD i [] :=
    List.map_congr_left fun i hi => b.get_eq_reads (List.mem_range.1 (hperm.mem_iff.1 hi))
  refine ⟨hperm, ?_, congrArg Runs.cuts hmap, congrArg (fun ks => (Runs.starts ks).length) hmap⟩
  show (sorted.map fun i => b.reads.getD i []).Pairwise (· ≤ ·)
  rw [← hmap, hsorted]
  exact std.pairwise_key (by simp) _

/-- Sorting okeys does the same when every value is eight bytes long. -/
theorem sortOkeys_of (std : StdSort) {b : RangeAttrBuf} (h8 : ∀ v ∈ b.reads, v.length = 8) :
    (b.sortOkeys std).Of b.reads := by
  set recs := std.run (fun x y : UInt64 × ℕ => decide (x.1.toNat < y.1.toNat))
    ((List.range (b.values.size % 2 ^ 32)).map fun i => (okeyFromBytes (b.values.get i), i))
    with hrecs
  have hperm := std.perm (fun x y : UInt64 × ℕ => decide (x.1.toNat < y.1.toNat))
    ((List.range (b.values.size % 2 ^ 32)).map fun i => (okeyFromBytes (b.values.get i), i))
  rw [← hrecs, ← b.length_reads] at hperm
  have hrow : (recs.map Prod.snd).Perm (List.range b.reads.length) := by
    have := hperm.map Prod.snd
    rwa [List.map_map, Function.comp_def, List.map_id'] at this
  have hkey : ∀ x ∈ recs, x.1 = okeyFromBytes (b.reads.getD x.2 []) := by
    intro x hx
    obtain ⟨i, hi, rfl⟩ := List.mem_map.1 (hperm.mem_iff.1 hx)
    rw [b.get_eq_reads (List.mem_range.1 hi)]
  have hfst : recs.map Prod.fst =
      ((recs.map Prod.snd).map fun i => b.reads.getD i []).map okeyFromBytes := by
    rw [List.map_map, List.map_map]
    exact List.map_congr_left hkey
  have hlen : ∀ v ∈ (recs.map Prod.snd).map fun i => b.reads.getD i [], v.length = 8 := by
    intro v hv
    obtain ⟨i, hi, rfl⟩ := List.mem_map.1 hv
    have hi := List.mem_range.1 (hrow.mem_iff.1 hi)
    rw [List.getD_eq_getElem _ _ hi]
    exact h8 _ (List.getElem_mem hi)
  have hinj : ∀ x ∈ (recs.map Prod.snd).map fun i => b.reads.getD i [],
      ∀ y ∈ (recs.map Prod.snd).map fun i => b.reads.getD i [],
      okeyFromBytes x = okeyFromBytes y → x = y := by
    intro x hx y hy hxy
    rw [← okeyToBytes_okeyFromBytes (hlen x hx), hxy, okeyToBytes_okeyFromBytes (hlen y hy)]
  refine ⟨hrow, ?_, ?_, ?_⟩
  · have hsorted : (recs.map fun x => x.1.toNat).Pairwise (· ≤ ·) :=
      std.pairwise_key (by simp) _
    show ((recs.map Prod.snd).map fun i => b.reads.getD i []).Pairwise (· ≤ ·)
    rw [List.map_map, List.pairwise_map]
    rw [List.pairwise_map] at hsorted
    refine hsorted.imp_of_mem fun {x y} hx hy hxy => ?_
    have hx8 := hlen _ (List.mem_map_of_mem (List.mem_map_of_mem hx))
    have hy8 := hlen _ (List.mem_map_of_mem (List.mem_map_of_mem hy))
    rw [hkey x hx, hkey y hy] at hxy
    rw [Function.comp_apply, Function.comp_apply, ← okeyToBytes_okeyFromBytes hx8,
      ← okeyToBytes_okeyFromBytes hy8, ← not_lt, okeyToBytes_lt_iff]
    omega
  · show Runs.cuts (recs.map Prod.fst) = _
    rw [hfst, Runs.cuts_map hinj]
    rfl
  · show (Runs.starts (recs.map Prod.fst)).length = _
    rw [hfst, Runs.starts_map hinj]
    rfl

theorem Pushed.sort {vs : List Bytes} {b : RangeAttrBuf} (h : Pushed vs b)
    (std : StdSort) (hrows : vs.length < 2 ^ 32) (hbytes : vs.flatten.length < 2 ^ 32) :
    (b.sort std).Of vs := by
  have hreads := h.reads_eq hrows hbytes
  rw [RangeAttrBuf.sort]
  split
  · next huniform =>
      have hof := @sortOkeys_of std b (by rw [hreads]; exact h.uniform hbytes huniform)
      rwa [hreads] at hof
  · have hof := sortBytes_of std b
    rwa [hreads] at hof

end RangeAttrBuf

/-! ### Runs -/

theorem pairwise_le_of_getElem? {l : List Bytes} (h : l.Pairwise (· ≤ ·)) {i j : ℕ} {x y : Bytes}
    (hij : i ≤ j) (hx : l[i]? = some x) (hy : l[j]? = some y) : x ≤ y := by
  obtain ⟨hi, rfl⟩ := List.getElem?_eq_some_iff.1 hx
  obtain ⟨hj, rfl⟩ := List.getElem?_eq_some_iff.1 hy
  rcases hij.lt_or_eq with hlt | rfl
  · exact List.pairwise_iff_getElem.1 h i j hi hj hlt
  · exact le_rfl

namespace SortedRuns

variable {vs : List Bytes} {runs : SortedRuns}

/-- The value of a run. -/
def value (vs : List Bytes) (runs : SortedRuns) (r : ℕ) : Bytes :=
  vs.getD (runs.sorted.getD (runs.runStart.getD r 0) 0) []

theorem Of.length_sorted (h : runs.Of vs) : runs.sorted.length = vs.length := by
  simpa using h.perm.length_eq

theorem length_ordering (h : runs.Of vs) : (runs.ordering vs).length = vs.length := by
  rw [ordering, List.length_map, h.length_sorted]

theorem Of.length_runStart (h : runs.Of vs) (hne : vs ≠ []) :
    runs.runStart.length - 1 = runs.distinct := by
  have hpos : 0 < (runs.ordering vs).length := by
    rw [length_ordering h]
    exact List.length_pos_iff.2 hne
  rw [h.runStart, h.distinct]
  exact congrArg (· - 1) (Runs.length_cuts hpos)

theorem Of.getElem_ordering (h : runs.Of vs) {k : ℕ} (hk : k < vs.length) :
    (runs.ordering vs)[k]? = some (vs.getD (runs.sorted.getD k 0) []) := by
  have hk' : k < runs.sorted.length := by rwa [h.length_sorted]
  rw [ordering, List.getElem?_map, List.getElem?_eq_getElem hk', List.getD_eq_getElem _ _ hk']
  rfl

theorem Of.perm_ordering (h : runs.Of vs) : (runs.ordering vs).Perm vs := by
  have hself : (List.range vs.length).map (fun i => vs.getD i []) = vs := by
    refine List.ext_getElem (by simp) fun i _ hi => ?_
    rw [List.getElem_map, List.getElem_range, List.getD_eq_getElem _ _ hi]
  have hperm := h.perm.map fun i => vs.getD i []
  rwa [hself] at hperm

/-- Sorted values stay as they are. -/
theorem Of.ordering_eq (h : runs.Of vs)
    (hvs : vs.Pairwise (· ≤ ·)) : runs.ordering vs = vs :=
  List.Perm.eq_of_pairwise (fun _ _ _ _ => le_antisymm) h.ordered hvs h.perm_ordering

/-- A run's start, and its value there. -/
theorem Of.start (h : runs.Of vs) {r : ℕ} (hr : r < runs.distinct) :
    (Runs.starts (runs.ordering vs))[r]? = some (runs.runStart.getD r 0) ∧
      runs.runStart.getD r 0 < vs.length ∧
      (runs.ordering vs)[runs.runStart.getD r 0]? = some (runs.value vs r) := by
  rw [h.distinct] at hr
  have hget := List.getElem?_eq_getElem hr
  have hcut : runs.runStart.getD r 0 = (Runs.starts (runs.ordering vs))[r] := by
    rw [List.getD_eq_getElem?_getD, h.runStart, Runs.getElem_cuts_of_lt hr, hget]
    rfl
  have hlt := (Runs.mem_starts.1 (List.mem_of_getElem? hget)).1
  rw [length_ordering h] at hlt
  refine ⟨by rw [hcut]; exact hget, by rw [hcut]; exact hlt, ?_⟩
  rw [h.getElem_ordering (by rw [hcut]; exact hlt), value]

theorem Of.value_lt (h : runs.Of vs) {r q : ℕ} (hrq : r < q) (hq : q < runs.distinct) :
    runs.value vs r < runs.value vs q := by
  obtain ⟨hr, -, hrval⟩ := h.start (lt_trans hrq hq)
  obtain ⟨hq, -, hqval⟩ := h.start hq
  exact Runs.start_lt_start h.ordered hr hq hrq hrval hqval

theorem Of.value_le_iff (h : runs.Of vs) {r q : ℕ} (hr : r < runs.distinct)
    (hq : q < runs.distinct) : runs.value vs r ≤ runs.value vs q ↔ r ≤ q := by
  constructor
  · intro hle
    by_contra hlt
    exact absurd (h.value_lt (Nat.lt_of_not_le hlt) hr) (not_lt.2 hle)
  · intro hle
    rcases hle.lt_or_eq with hlt | rfl
    · exact (h.value_lt hlt hq).le
    · exact le_rfl

theorem Of.inRun_iff (h : runs.Of vs) {r k : ℕ} (hr : r < runs.distinct) :
    Runs.InRun (runs.ordering vs) r k ↔
      runs.runStart.getD r 0 ≤ k ∧ k < runs.runStart.getD (r + 1) 0 := by
  obtain ⟨-, hstart, -⟩ := h.start hr
  rw [h.distinct] at hr
  have hpos : 0 < (runs.ordering vs).length := by
    rw [length_ordering h]
    omega
  have hlen := Runs.length_cuts hpos
  have hcut (q : ℕ) (hq : q < (Runs.cuts (runs.ordering vs)).length) :
      (Runs.cuts (runs.ordering vs))[q]? = some (runs.runStart.getD q 0) := by
    rw [List.getD_eq_getElem?_getD, h.runStart, List.getElem?_eq_getElem hq]
    rfl
  constructor
  · rintro ⟨a, b, ha, hb, hak, hkb⟩
    rw [hcut r (by omega), Option.some.injEq] at ha
    rw [hcut (r + 1) (by omega), Option.some.injEq] at hb
    omega
  · rintro ⟨hak, hkb⟩
    exact ⟨_, _, hcut r (by omega), hcut (r + 1) (by omega), hak, hkb⟩

/-- Every row is in the run of its value. -/
theorem Of.exists_run (h : runs.Of vs) {i : ℕ} (hi : i < vs.length) :
    ∃ k r, r < runs.distinct ∧ runs.sorted[k]? = some i ∧
      Runs.InRun (runs.ordering vs) r k ∧ vs[i]? = some (runs.value vs r) := by
  obtain ⟨k, hk⟩ := List.mem_iff_getElem?.1 (h.perm.mem_iff.2 (List.mem_range.2 hi))
  have hkn : k < vs.length := by
    rw [← h.length_sorted]
    exact (List.getElem?_eq_some_iff.1 hk).1
  have hlt : k < (runs.ordering vs).length := by rwa [length_ordering h]
  obtain ⟨r, hr, hrun⟩ := Runs.exists_inRun hlt
  have hr : r < runs.distinct := by rwa [h.distinct]
  obtain ⟨hstart, -, hval⟩ := h.start hr
  rw [← Runs.getElem_cuts_of_lt (List.getElem?_eq_some_iff.1 hstart).1] at hstart
  have heq := hrun.getElem_eq hstart
  have hrow : runs.sorted.getD k 0 = i := by
    rw [List.getD_eq_getElem?_getD, hk]
    rfl
  rw [h.getElem_ordering hkn, hval, Option.some.injEq, hrow, List.getD_eq_getElem _ _ hi] at heq
  exact ⟨k, r, hr, hk, hrun, by rw [List.getElem?_eq_getElem hi, heq]⟩

/-- The first and the last value in order are those of the first and the last run. -/
theorem Of.value_ends (h : runs.Of vs) (hne : vs ≠ []) : 0 < runs.distinct ∧
    vs.getD (runs.sorted.headD 0) [] = runs.value vs 0 ∧
    vs.getD (runs.sorted.getLastD 0) [] = runs.value vs (runs.distinct - 1) := by
  have hpos : 0 < vs.length := List.length_pos_iff.2 hne
  have hks : 0 < (runs.ordering vs).length := by rwa [length_ordering h]
  have hzero : runs.runStart.getD 0 0 = 0 := by
    rw [List.getD_eq_getElem?_getD, h.runStart, Runs.getElem_cuts_zero hks]
    rfl
  have hcnt : 0 < runs.distinct := by
    rw [h.distinct]
    exact List.length_pos_of_mem (Runs.mem_starts.2 ⟨hks, Or.inl rfl⟩)
  refine ⟨hcnt, ?_, ?_⟩
  · rw [value, hzero]
    cases runs.sorted <;> rfl
  · -- the last value is the value of some run, and no run has a greater one
    have hlast : (runs.ordering vs)[vs.length - 1]? =
        some (vs.getD (runs.sorted.getLastD 0) []) := by
      rw [h.getElem_ordering (by omega), List.getLastD_eq_getLast?, List.getLast?_eq_getElem?,
        ← List.getD_eq_getElem?_getD, h.length_sorted]
    obtain ⟨i, hi⟩ : ∃ i, runs.sorted[vs.length - 1]? = some i :=
      ⟨_, List.getElem?_eq_getElem (by rw [h.length_sorted]; omega)⟩
    have hi' : i < vs.length := List.mem_range.1 (h.perm.mem_iff.1 (List.mem_of_getElem? hi))
    obtain ⟨k, r, hr, hk, -, hval⟩ := h.exists_run hi'
    have hrun : vs.getD (runs.sorted.getLastD 0) [] = runs.value vs r := by
      rw [List.getLastD_eq_getLast?, List.getLast?_eq_getElem?, h.length_sorted, hi,
        Option.getD_some, List.getD_eq_getElem?_getD, hval]
      rfl
    obtain ⟨-, hstart, htop⟩ := h.start (show runs.distinct - 1 < runs.distinct by omega)
    rw [hrun] at hlast ⊢
    refine le_antisymm ((h.value_le_iff hr (by omega)).2 (by omega)) ?_
    exact pairwise_le_of_getElem? h.ordered (by omega) htop hlast

/-- There is a run for each distinct value. -/
theorem Of.distinct_eq_card (h : runs.Of vs) : runs.distinct = vs.toFinset.card := by
  have himage : vs.toFinset = (Finset.range runs.distinct).image (runs.value vs) := by
    ext v
    rw [List.mem_toFinset, Finset.mem_image]
    constructor
    · intro hv
      obtain ⟨i, hi⟩ := List.mem_iff_getElem?.1 hv
      obtain ⟨k, r, hr, -, -, hval⟩ := h.exists_run (List.getElem?_eq_some_iff.1 hi).1
      exact ⟨r, Finset.mem_range.2 hr, Option.some.inj (hval.symm.trans hi)⟩
    · rintro ⟨r, hr, rfl⟩
      obtain ⟨-, hstart, hval⟩ := h.start (Finset.mem_range.1 hr)
      obtain ⟨i, hi, hrow⟩ := List.mem_map.1 (List.mem_of_getElem? hval)
      have hlt := List.mem_range.1 (h.perm.mem_iff.1 hi)
      rw [← hrow, List.getD_eq_getElem _ _ hlt]
      exact List.getElem_mem hlt
  rw [himage, Finset.card_image_of_injOn, Finset.card_range]
  intro r hr q hq heq
  have hr := Finset.mem_range.1 hr
  have hq := Finset.mem_range.1 hq
  exact le_antisymm ((h.value_le_iff hr hq).1 heq.le) ((h.value_le_iff hq hr).1 heq.ge)

end SortedRuns

end BitLSM
