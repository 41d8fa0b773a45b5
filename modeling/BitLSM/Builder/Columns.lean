import Mathlib.Data.List.ReduceOption
import BitLSM.Builder.RangePolicy
import BitLSM.Builder.EqualityPolicy

/-!
The column of one attribute, from buffered values to bin bitmaps.

A column is seen as its cells, one per row of the table: the value, or
nothing for NULL and for a tombstone. Only the values are buffered;
`fillBins` finds each row's value again by walking the row ids beside the
excluded ones. The result is the abstract content of an index: a row is in
the bin of its value and in no other, and an empty cell is in none.
-/

namespace BitLSM

open Wire

inductive AttrBuf where
  | equality (b : EqualityAttrBuf)
  | range (b : RangeAttrBuf)

structure AttrColumn where
  buf : AttrBuf
  /-- Row ids whose value is NULL. -/
  nullRows : Roaring := ∅

def AttrColumn.new : IndexType → AttrColumn
  | .range => { buf := .range {} }
  | .equality => { buf := .equality {} }

/-- Buffer one row's attribute. -/
def AttrColumn.add (hash : Bytes → UInt64) (row : ℕ) (c : AttrColumn) (attr : EncodedAttr) :
    Option AttrColumn :=
  match attr, c.buf with
  | none, _ => some { c with nullRows := insert row c.nullRows }
  | some v, .range b => some { c with buf := .range (b.push v) }
  | some v, .equality b => do
      let b' ← b.intern hash v
      return { c with buf := .equality b' }

inductive BinningPolicy where
  | equality (entries : List (Bytes × ℕ))
  | range (boundaries : BytesList)
  deriving DecidableEq, Repr

def AttrBuf.indexType : AttrBuf → IndexType
  | .equality _ => .equality
  | .range _ => .range

def BinningPolicy.indexType : BinningPolicy → IndexType
  | .equality _ => .equality
  | .range _ => .range

/-- A binned attribute: its policy, the bin of each value row and the number
of distinct values. -/
structure AttrBinning where
  policy : BinningPolicy
  rowBin : ℕ → Option ℕ
  distinct : ℕ

def AttrBuf.cardinality (std : StdSort) (target : ℕ) : AttrBuf → ℕ
  | .equality b => b.valueById.length % 2 ^ 32
  | .range b => min (b.sort std).distinct target

def AttrBuf.setBinningPolicy (rt : Runtime) (bins : ℕ) : AttrBuf → Option AttrBinning
  | .equality b => do
      let (entries, binById) ← setEqualityBinningPolicy rt.sort bins b
      return {
        policy := .equality entries
        rowBin := b.rowBin binById
        distinct := b.valueById.length }
  | .range b =>
      let runs := b.sort rt.sort
      let (boundaries, binOfRow) := setRangeBinningPolicy rt.fpu bins b.values runs
      some {
        policy := .range boundaries
        rowBin := fun k => binOfRow[k]?
        distinct := runs.distinct }

/-- Row `j` beside the skipped ids from position `s` and the value rows from
position `k` on. -/
def fillStep (skipIds : List ℕ) (rowBin : ℕ → Option ℕ) (st : ℕ × ℕ × List Roaring) (j : ℕ) :
    Option (ℕ × ℕ × List Roaring) :=
  let (s, k, bitmaps) := st
  if skipIds[s]? = some j then some (s + 1, k, bitmaps)
  else do
    let bin ← rowBin k
    let old ← bitmaps[bin]?
    return (s, k + 1, bitmaps.set bin (insert j old))

/-- The bitmaps of one attribute's bins over the row ids below `cnt`. -/
def fillBins (cnt bins : ℕ) (excluded : Roaring) (rowBin : ℕ → Option ℕ) :
    Option (List Roaring) := do
  let (_, _, bitmaps) ← (List.range cnt).foldlM (fillStep excluded.toUint32Array rowBin)
    (0, 0, List.replicate bins ∅)
  return bitmaps

/-! ### Cells -/

/-- The rows without a value. -/
def emptyCells (cells : List (Option Bytes)) : Roaring :=
  (Finset.range cells.length).filter fun j => cells[j]? = some none

theorem mem_emptyCells {cells : List (Option Bytes)} {j : ℕ} :
    j ∈ emptyCells cells ↔ cells[j]? = some none := by
  rw [emptyCells, Finset.mem_filter, Finset.mem_range]
  exact ⟨And.right, fun h => ⟨(List.getElem?_eq_some_iff.1 h).1, h⟩⟩

/-- The fill before row `j`. -/
structure FillOk (cells : List (Option Bytes)) (binOf : Bytes → ℕ) (bins j : ℕ)
    (st : ℕ × ℕ × List Roaring) : Prop where
  skipped : st.1 = ((emptyCells cells).toUint32Array.filter fun i => decide (i < j)).length
  dense : st.2.1 = (cells.take j).reduceOption.length
  length : st.2.2.length = bins
  mem : ∀ b i, i ∈ st.2.2.getD b ∅ ↔ i < j ∧ ∃ v, cells[i]? = some (some v) ∧ binOf v = b

theorem getElem?_filter_lt_length {l : List ℕ} (hl : l.Pairwise (· < ·)) {j : ℕ} :
    l[(l.filter fun i => decide (i < j)).length]? = some j ↔ j ∈ l := by
  induction l with
  | nil => simp
  | cons x l ih =>
      obtain ⟨hx, hl⟩ := List.pairwise_cons.1 hl
      by_cases hxj : x < j
      · rw [List.filter_cons_of_pos (by simpa), List.length_cons, List.getElem?_cons_succ, ih hl,
          List.mem_cons]
        exact ⟨Or.inr, fun h => h.resolve_left (by omega)⟩
      · have hnone : (x :: l).filter (fun i => decide (i < j)) = [] :=
          List.filter_eq_nil_iff.2 fun i hi => by
            rcases List.mem_cons.1 hi with rfl | hi
            · simpa using hxj
            · have := hx i hi
              simp
              omega
        rw [hnone, List.length_nil, List.getElem?_cons_zero, Option.some.injEq, List.mem_cons]
        exact ⟨fun h => Or.inl h.symm, fun h => h.elim Eq.symm fun hmem => by
          have := hx j hmem
          omega⟩

theorem length_filter_lt_succ {l : List ℕ} (hl : l.Nodup) (j : ℕ) :
    (l.filter fun i => decide (i < j + 1)).length =
      (l.filter fun i => decide (i < j)).length + if j ∈ l then 1 else 0 := by
  have hsplit : l.countP (fun i => decide (i < j + 1)) =
      l.countP (fun i => decide (i < j)) + l.count j := by
    clear hl
    induction l with
    | nil => rfl
    | cons x l ih =>
        rw [List.countP_cons, List.countP_cons, List.count_cons, ih]
        rcases Nat.lt_trichotomy x j with h | h | h
        · simp [h, h.ne, Nat.lt_succ_of_lt h]
          omega
        · simp [h]
          omega
        · simp [h.ne', not_lt.2 h.le, show ¬x < j + 1 by omega]
  have hone : l.count j = if j ∈ l then 1 else 0 := by
    split
    · next hmem => exact List.count_eq_one_of_mem hl hmem
    · next hmem => exact List.count_eq_zero.2 hmem
  rw [← List.countP_eq_length_filter, ← List.countP_eq_length_filter, hsplit, hone]

/-- The value of a row among all values. -/
theorem getElem?_reduceOption {cells : List (Option Bytes)} {j : ℕ} {v : Bytes}
    (h : cells[j]? = some (some v)) :
    cells.reduceOption[(cells.take j).reduceOption.length]? = some v := by
  obtain ⟨hj, hget⟩ := List.getElem?_eq_some_iff.1 h
  have hsplit : cells.reduceOption =
      (cells.take j).reduceOption ++ v :: (cells.drop (j + 1)).reduceOption := by
    conv_lhs => rw [← List.take_append_drop j cells, List.drop_eq_getElem_cons hj, hget]
    rw [List.reduceOption_append, List.reduceOption_cons_of_some]
  rw [hsplit, List.getElem?_append_right (le_refl _), Nat.sub_self]
  rfl

section Fill

variable {cells : List (Option Bytes)} {binOf : Bytes → ℕ} {bins j : ℕ}

/-- The cells below `j + 1` are those below `j` and cell `j`. -/
theorem lt_succ_cell_iff {b i : ℕ} :
    (i < j + 1 ∧ ∃ v, cells[i]? = some (some v) ∧ binOf v = b) ↔
      (i < j ∧ ∃ v, cells[i]? = some (some v) ∧ binOf v = b) ∨
        i = j ∧ ∃ v, cells[j]? = some (some v) ∧ binOf v = b := by
  rw [Nat.lt_succ_iff_lt_or_eq, or_and_right]
  exact or_congr_right ⟨fun ⟨hij, h⟩ => ⟨hij, hij ▸ h⟩, fun ⟨hij, h⟩ => ⟨hij, hij ▸ h⟩⟩

theorem FillOk.step {st : ℕ × ℕ × List Roaring} (h : FillOk cells binOf bins j st)
    (hj : j < cells.length) (hbins : ∀ v, some v ∈ cells → binOf v < bins)
    {rowBin : ℕ → Option ℕ} (hrow : ∀ k, rowBin k = (cells.reduceOption.map binOf)[k]?) :
    ∃ st', fillStep (emptyCells cells).toUint32Array rowBin st j = some st' ∧
      FillOk cells binOf bins (j + 1) st' := by
  obtain ⟨s, k, bitmaps⟩ := st
  have hsorted := (emptyCells cells).pairwise_toUint32Array
  have hmem : j ∈ (emptyCells cells).toUint32Array ↔ cells[j]? = some none := by
    rw [Roaring.mem_toUint32Array, mem_emptyCells]
  have hskipped : s = _ := h.skipped
  have hskip : (emptyCells cells).toUint32Array[s]? = some j ↔ cells[j]? = some none := by
    rw [hskipped, getElem?_filter_lt_length hsorted, hmem]
  have hcount := length_filter_lt_succ (hsorted.imp ne_of_lt) j
  have htake : (cells.take (j + 1)).reduceOption =
      (cells.take j).reduceOption ++ [cells[j]].reduceOption := by
    rw [List.take_succ_eq_append_getElem hj, List.reduceOption_append]
  have hget := List.getElem?_eq_getElem hj
  rw [fillStep]
  cases hcell : cells[j] with
  | none =>
      rw [hcell] at hget htake
      rw [if_pos (hmem.2 hget)] at hcount
      refine ⟨_, if_pos (hskip.2 hget), by rw [hcount, ← hskipped], ?_, h.length, fun b i => ?_⟩
      · rw [htake]
        simpa using h.dense
      · rw [lt_succ_cell_iff, h.mem, hget]
        simp
  | some v =>
      rw [hcell] at hget htake
      have hne : ¬cells[j]? = some none := by rw [hget]; simp
      rw [if_neg (mt hmem.1 hne)] at hcount
      have hdense : k = _ := h.dense
      have hk : rowBin k = some (binOf v) := by
        rw [hrow, hdense, List.getElem?_map, getElem?_reduceOption hget, Option.map_some]
      have hbin : binOf v < bitmaps.length := by
        rw [show bitmaps.length = bins from h.length]
        exact hbins v (List.mem_of_getElem? hget)
      have hold := List.getElem?_eq_getElem hbin
      refine ⟨(s, k + 1, bitmaps.set (binOf v) (insert j bitmaps[binOf v])), ?_, ?_, ?_,
        by simpa using h.length, fun b i => ?_⟩
      · simp only [if_neg (mt hskip.1 hne), hk, Option.bind_eq_bind, Option.bind_some, hold]
        rfl
      · rw [hcount, ← hskipped]
        rfl
      · rw [htake, List.length_append, ← hdense]
        rfl
      · rw [lt_succ_cell_iff, hget]
        have hmem' := h.mem b i
        simp only [Option.some.injEq, exists_eq_left'] at hmem' ⊢
        rw [← hmem', List.getD_eq_getElem?_getD, List.getD_eq_getElem?_getD]
        by_cases hb : binOf v = b
        · subst hb
          rw [List.getElem?_set_self hbin, hold, Option.getD_some, Option.getD_some,
            Finset.mem_insert, or_comm]
          simp
        · rw [List.getElem?_set_ne hb]
          simp [hb]

theorem fillBins_spec (hbins : ∀ v, some v ∈ cells → binOf v < bins) {rowBin : ℕ → Option ℕ}
    (hrow : ∀ k, rowBin k = (cells.reduceOption.map binOf)[k]?) :
    ∃ bitmaps, fillBins cells.length bins (emptyCells cells) rowBin = some bitmaps ∧
      bitmaps.length = bins ∧
      ∀ b i, i ∈ bitmaps.getD b ∅ ↔ ∃ v, cells[i]? = some (some v) ∧ binOf v = b := by
  have hrun : ∀ n ≤ cells.length, ∃ st, (List.range n).foldlM
      (fillStep (emptyCells cells).toUint32Array rowBin) (0, 0, List.replicate bins ∅) = some st ∧
        FillOk cells binOf bins n st := by
    intro n hn
    induction n with
    | zero =>
        have hempty (b : ℕ) : (List.replicate bins (∅ : Roaring)).getD b ∅ = ∅ := by
          rw [List.getD_eq_getElem?_getD, List.getElem?_replicate]
          split <;> rfl
        refine ⟨_, rfl, by simp, by simp, by simp, fun b i => ?_⟩
        rw [hempty]
        simp
    | succ n ih =>
        obtain ⟨st, hfold, hst⟩ := ih (by omega)
        obtain ⟨st', hstep, hst'⟩ := hst.step hn hbins hrow
        refine ⟨st', ?_, hst'⟩
        rw [List.range_succ, List.foldlM_append, hfold]
        simp [hstep]
  obtain ⟨⟨s, k, bitmaps⟩, hfold, hst⟩ := hrun cells.length le_rfl
  refine ⟨bitmaps, by rw [fillBins, hfold]; rfl, hst.length, fun b i => ?_⟩
  rw [hst.mem]
  exact ⟨And.right, fun h => ⟨(List.getElem?_eq_some_iff.1 h.choose_spec.1).1, h⟩⟩

end Fill

/-! ### Buffers and policies -/

/-- The buffer after the values `vs`. -/
inductive AttrBuf.Holds (hash : Bytes → UInt64) (vs : List Bytes) : AttrBuf → Prop
  | equality {b : EqualityAttrBuf} (h : b.Interned hash vs) : Holds hash vs (.equality b)
  | range {b : RangeAttrBuf} (h : b.Pushed vs) : Holds hash vs (.range b)

/-- A policy over the values `vs`, and the bin it puts a value into. -/
inductive BinningPolicy.Bins (vs : List Bytes) (bins : ℕ) : BinningPolicy → (Bytes → ℕ) → Prop
  | equality {dict : List (Bytes × ℕ)} (h : EqualityDict vs bins dict) :
      Bins vs bins (.equality dict) (dictBin dict)
  | range {boundaries : List Bytes} (h : RangeBoundaries vs bins boundaries) :
      Bins vs bins (.range (BytesList.ofList boundaries)) (rangeBin bins boundaries)

theorem BinningPolicy.Bins.lt_bins {vs : List Bytes} {bins : ℕ} {policy : BinningPolicy}
    {binOf : Bytes → ℕ} (h : policy.Bins vs bins binOf) (hbins : 1 ≤ bins) {v : Bytes}
    (hv : v ∈ vs) : binOf v < bins := by
  cases h with
  | equality h =>
      obtain ⟨⟨w, bin⟩, hmem, rfl⟩ := List.mem_map.1 ((h.mem v).2 hv)
      rw [h.dictBin_eq hmem]
      exact h.lt_bins _ hmem
  | range h =>
      rw [rangeBin]
      omega

theorem AttrBuf.Holds.setBinningPolicy {hash : Bytes → UInt64} {vs : List Bytes} {buf : AttrBuf}
    (h : buf.Holds hash vs) (rt : Runtime) {bins : ℕ} (hbins : 1 ≤ bins)
    (hrows : vs.length < 2 ^ 32) (hbytes : vs.flatten.length < 2 ^ 32) :
    ∃ ab binOf, buf.setBinningPolicy rt bins = some ab ∧ ab.policy.Bins vs bins binOf ∧
      ab.policy.indexType = buf.indexType ∧ ∀ k, ab.rowBin k = (vs.map binOf)[k]? := by
  cases h with
  | @equality b h =>
      obtain ⟨dict, binById, hpolicy, hdict, hrow⟩ :=
        setEqualityBinningPolicy_spec h rt.sort hbins hrows
      refine ⟨⟨.equality dict, b.rowBin binById, b.valueById.length⟩, _, ?_, .equality hdict,
        rfl, hrow⟩
      rw [AttrBuf.setBinningPolicy, hpolicy]
      rfl
  | @range b h =>
      have hvalues : ∀ i < vs.length, b.values.get i = vs.getD i [] := by
        intro i hi
        rw [h.values, BytesList.get_ofList hbytes hi, List.getD_eq_getElem _ _ hi]
      obtain ⟨boundaries, hpolicy, hbounds⟩ := setRangeBinningPolicy_spec rt.fpu hbins hvalues
        (h.sort rt.sort hrows hbytes)
      refine ⟨⟨.range (BytesList.ofList boundaries),
        fun k => (vs.map (rangeBin bins boundaries))[k]?, (b.sort rt.sort).distinct⟩, _, ?_,
        .range hbounds, rfl, fun k => rfl⟩
      simp only [AttrBuf.setBinningPolicy, hpolicy]

/-- The directory's distinct count. -/
theorem AttrBuf.Holds.distinct_eq {hash : Bytes → UInt64} {vs : List Bytes} {buf : AttrBuf}
    (h : buf.Holds hash vs) {rt : Runtime} {bins : ℕ} {ab : AttrBinning}
    (hab : buf.setBinningPolicy rt bins = some ab) (hrows : vs.length < 2 ^ 32)
    (hbytes : vs.flatten.length < 2 ^ 32) : ab.distinct = vs.toFinset.card := by
  cases h with
  | @equality b h =>
      obtain ⟨x, -, hab⟩ := Option.bind_eq_some_iff.1 hab
      obtain rfl := Option.some.inj hab
      have hset : (distinctValues vs).toFinset = vs.toFinset := by
        ext v
        rw [List.mem_toFinset, List.mem_toFinset, mem_distinctValues]
      show b.valueById.length = _
      rw [h.length_values, ← hset, List.toFinset_card_of_nodup (nodup_distinctValues vs)]
  | @range b h =>
      obtain rfl := Option.some.inj hab
      exact (h.sort rt.sort hrows hbytes).distinct_eq_card

/-- A policy that can be written: bins below `bins`, boundaries that were
pushed. -/
def BinningPolicy.Writable (bins : ℕ) : BinningPolicy → Prop
  | .equality entries => ∀ e ∈ entries, e.2 < bins
  | .range boundaries => ∃ vs, boundaries = BytesList.ofList vs

theorem AttrBuf.setBinningPolicy_writable {rt : Runtime} {bins : ℕ} (hbins : 1 ≤ bins)
    {buf : AttrBuf} {binning : AttrBinning} (h : buf.setBinningPolicy rt bins = some binning) :
    binning.policy.Writable bins ∧ binning.policy.indexType = buf.indexType := by
  cases buf with
  | equality b =>
      obtain ⟨⟨entries, binById⟩, hpolicy, h⟩ := Option.bind_eq_some_iff.1 h
      obtain rfl := Option.some.inj h
      exact ⟨setEqualityBinningPolicy_lt hbins hpolicy, rfl⟩
  | range b =>
      obtain rfl := Option.some.inj h
      exact ⟨setRangeBinningPolicy_ofList _ _ _ _, rfl⟩

theorem fillStep_shape {skipIds : List ℕ} {rowBin : ℕ → Option ℕ} {st st' : ℕ × ℕ × List Roaring}
    {cnt j : ℕ} (h : fillStep skipIds rowBin st j = some st') (hj : j < cnt)
    (hids : ∀ r ∈ st.2.2, ∀ i ∈ r, i < cnt) :
    st'.2.2.length = st.2.2.length ∧ ∀ r ∈ st'.2.2, ∀ i ∈ r, i < cnt := by
  rw [fillStep] at h
  split at h
  · obtain rfl := Option.some.inj h
    exact ⟨rfl, hids⟩
  · obtain ⟨bin, -, h⟩ := Option.bind_eq_some_iff.1 h
    obtain ⟨old, hold, h⟩ := Option.bind_eq_some_iff.1 h
    obtain rfl := Option.some.inj h
    refine ⟨List.length_set, fun r hr => ?_⟩
    rcases List.mem_or_eq_of_mem_set hr with hr | rfl
    · exact hids r hr
    · exact Finset.forall_mem_insert _ _ _ |>.2 ⟨hj, hids old (List.mem_of_getElem? hold)⟩

/-- One bitmap for each bin, of row ids below the number of rows. -/
theorem fillBins_shape {cnt bins : ℕ} {excluded : Roaring} {rowBin : ℕ → Option ℕ}
    {bitmaps : List Roaring} (h : fillBins cnt bins excluded rowBin = some bitmaps) :
    bitmaps.length = bins ∧ ∀ r ∈ bitmaps, ∀ i ∈ r, i < cnt := by
  have hfold : ∀ (js : List ℕ) (st st' : ℕ × ℕ × List Roaring), (∀ j ∈ js, j < cnt) →
      (∀ r ∈ st.2.2, ∀ i ∈ r, i < cnt) →
      js.foldlM (fillStep excluded.toUint32Array rowBin) st = some st' →
      st'.2.2.length = st.2.2.length ∧ ∀ r ∈ st'.2.2, ∀ i ∈ r, i < cnt := by
    intro js
    induction js with
    | nil =>
        rintro st st' - hids h
        obtain rfl := Option.some.inj h
        exact ⟨rfl, hids⟩
    | cons j js ih =>
        intro st st' hjs hids h
        rw [List.forall_mem_cons] at hjs
        obtain ⟨st₁, hstep, h⟩ := Option.bind_eq_some_iff.1 h
        obtain ⟨hlen, hids₁⟩ := fillStep_shape hstep hjs.1 hids
        obtain ⟨hlen', hids'⟩ := ih st₁ st' hjs.2 hids₁ h
        exact ⟨hlen'.trans hlen, hids'⟩
  obtain ⟨st, hst, h⟩ := Option.bind_eq_some_iff.1 h
  obtain rfl := Option.some.inj h
  obtain ⟨hlen, hids⟩ := hfold _ _ _ (fun j hj => List.mem_range.1 hj)
    (fun r hr => by simp [List.eq_of_mem_replicate hr]) hst
  exact ⟨by simpa using hlen, hids⟩

end BitLSM
