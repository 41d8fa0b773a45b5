import BitLSM.SabiQuery
import BitLSM.Builder.Build
import BitLSM.Reader.Parse

/-!
Which bins a condition needs.

`selectBins` maps a condition to a contiguous range of bins, `queryCanMatch`
asks the boundaries alone whether a table can have a match. Both are
compared with `SABICondition.holds`: a row that satisfies the condition has
its bin selected, and its table is never skipped.

An access out of range or to the wrong policy alternative is `none`.
-/

namespace BitLSM

open Wire

/-- A contiguous range of flat bin indexes, both ends included. -/
structure BinSelection where
  first : UInt32
  last : UInt32
  deriving DecidableEq, Repr

/-- `std::lower_bound` by the value of an entry. -/
def lowerBoundEntry (entries : List (Bytes × ℕ)) (v : Bytes) : ℕ :=
  BinarySearch.search (fun i => (entries.getD i ([], 0)).1 < v) entries.length

/-- The bin of a value in a dictionary, if it is there. -/
def findEntry (entries : List (Bytes × ℕ)) (v : Bytes) : Option ℕ :=
  match entries[lowerBoundEntry entries v]? with
  | some e => if e.1 = v then some e.2 else none
  | none => none

/-- `-1` is below the leftmost boundary. -/
def binOf (boundaries : BytesList) (last : Int32) (v : Bytes) (isOpen : Bool) : Int32 :=
  let i := if isOpen then boundaries.lowerBound v else boundaries.upperBound v
  if i = 0 then -1
  else if boundaries.size ≤ i then last
  else Int32.ofNat i - 1

/-- The bins of a range attribute that an interval may touch. -/
def selectRange (boundaries : BytesList) (numBins bitmapOffset : UInt32) (win : ByteInterval) :
    Option BinSelection :=
  let last := numBins.toInt32 - 1
  let endBin := if win.hiUnbounded then last else binOf boundaries last win.hi win.hiOpen
  if endBin < 0 then none
  else
    let startBin := binOf boundaries last win.lo false
    let startBin := if startBin < 0 then 0 else startBin
    some ⟨bitmapOffset + startBin.toUInt32, bitmapOffset + endBin.toUInt32⟩

namespace SABIReader

/-- The flat index of an attribute's first bin. -/
def attrBinOffset (r : SABIReader) (attrIdx : ℕ) : Option UInt32 :=
  if attrIdx ≤ r.bitmapNums.length then some ((r.bitmapNums.take attrIdx).foldl (· + ·) 0) else none

/-- `some none`: the condition selects no bin. -/
def selectBins (r : SABIReader) (c : SABICondition) : Option (Option BinSelection) := do
  let indexType ← r.indexTypes[c.attrIdx.toNat]?
  let bitmapOffset ← r.attrBinOffset c.attrIdx.toNat
  let policy ← r.binningPolicy[c.attrIdx.toNat]?
  match indexType, policy with
  | .equality, .equality entries =>
      return (findEntry entries c.bytes).map fun bin =>
        ⟨bitmapOffset + UInt32.ofNat bin, bitmapOffset + UInt32.ofNat bin⟩
  | .range, .range boundaries => do
      let numBins ← r.bitmapNums[c.attrIdx.toNat]?
      return if c.win.empty then none else selectRange boundaries numBins bitmapOffset c.win
  | _, _ => none

/-- Provably unsatisfiable in this table. -/
def conditionImpossible (r : SABIReader) (c : SABICondition) : Bool :=
  match r.binningPolicy[c.attrIdx.toNat]?, r.indexTypes[c.attrIdx.toNat]? with
  | some (.range bounds), some .range =>
      if bounds.size < 2 then false
      else
        let mn := bounds.get 0
        let mx := bounds.back
        let w := c.win
        if w.empty || mx < w.lo || (w.lo = mx && w.loOpen) then true
        else if w.hiUnbounded then false
        else w.hi < mn || (w.hi = mn && w.hiOpen)
  | some (.equality entries), some .equality => (findEntry entries c.bytes).isNone
  | _, _ => false

def queryCanMatch (r : SABIReader) (q : SABIQuery) : Bool :=
  q.clauseGroups.all fun clause =>
    clause.isEmpty || clause.any fun c => !r.conditionImpossible c

end SABIReader

/-! ### Dictionaries -/

section Dictionary

variable {vs : List Bytes} {bins : ℕ} {dict : List (Bytes × ℕ)}

/-- A value of the table is found in its bin. -/
theorem EqualityDict.findEntry_eq (h : EqualityDict vs bins dict) {v : Bytes} (hv : v ∈ vs) :
    findEntry dict v = some (dictBin dict v) := by
  obtain ⟨e, he, rfl⟩ := List.mem_map.1 ((h.mem v).2 hv)
  obtain ⟨i, hi⟩ := List.mem_iff_getElem?.1 he
  have hlt := (List.getElem?_eq_some_iff.1 hi).1
  -- keys grow with the position
  have hkeys (j k : ℕ) (hjk : j < k) (hk : k < dict.length) :
      (dict.getD j ([], 0)).1 < (dict.getD k ([], 0)).1 := by
    have hpair := List.pairwise_iff_getElem.1 h.ordered j k (by simp; omega) (by simpa using hk) hjk
    simpa [List.getD_eq_getElem?_getD, List.getElem?_eq_getElem hk,
      List.getElem?_eq_getElem (hjk.trans hk)] using hpair
  have hei : dict.getD i ([], 0) = e := by
    rw [List.getD_eq_getElem?_getD, hi]
    rfl
  have hsearch : lowerBoundEntry dict e.1 = i := by
    have hmono : ∀ j k, j ≤ k → k < dict.length →
        decide ((dict.getD k ([], 0)).1 < e.1) = true →
        decide ((dict.getD j ([], 0)).1 < e.1) = true := by
      intro j k hjk hk hlt
      rw [decide_eq_true_eq] at hlt ⊢
      rcases hjk.lt_or_eq with hjk | rfl
      · exact (hkeys j k hjk hk).trans hlt
      · exact hlt
    have hle := BinarySearch.search_le hmono
    rw [lowerBoundEntry]
    apply le_antisymm
    · by_contra hgt
      have := (BinarySearch.lt_search_iff hmono hlt).1 (Nat.lt_of_not_le hgt)
      rw [decide_eq_true_eq, hei] at this
      exact lt_irrefl _ this
    · by_contra hgt
      have hlt' := Nat.lt_of_not_le hgt
      have hkey := hkeys _ i hlt' hlt
      rw [hei] at hkey
      exact lt_irrefl _ ((BinarySearch.lt_search_iff hmono (hlt'.trans hlt)).2
        (decide_eq_true hkey))
  rw [findEntry, hsearch, hi, h.dictBin_eq he]
  simp

end Dictionary

/-! ### Boundaries -/

section Boundaries

variable {vs bs : List Bytes} {bins : ℕ} {v w : Bytes}

theorem BytesList.upperBound_ofList (hbs : bs.Pairwise (· ≤ ·))
    (hbytes : bs.flatten.length < 2 ^ 32)
    (hlen : bs.length < 2 ^ 32) (v : Bytes) :
    (BytesList.ofList bs).upperBound v = bs.countP fun b => decide (b ≤ v) := by
  rw [BytesList.upperBound, BytesList.size_ofList, Nat.mod_eq_of_lt hlen]
  refine BinarySearch.search_eq_countP (hbs.imp fun {a b} hab h => ?_) fun i hi => ?_
  · rw [decide_eq_true_eq] at h ⊢
    exact hab.trans h
  · rw [BytesList.get_ofList hbytes hi]

theorem BytesList.lowerBound_ofList (hbs : bs.Pairwise (· ≤ ·))
    (hbytes : bs.flatten.length < 2 ^ 32)
    (hlen : bs.length < 2 ^ 32) (v : Bytes) :
    (BytesList.ofList bs).lowerBound v = bs.countP fun b => decide (b < v) := by
  rw [BytesList.lowerBound, BytesList.size_ofList, Nat.mod_eq_of_lt hlen]
  refine BinarySearch.search_eq_countP (hbs.imp fun {a b} hab h => ?_) fun i hi => ?_
  · rw [decide_eq_true_eq] at h ⊢
    exact lt_of_le_of_lt hab h
  · rw [BytesList.get_ofList hbytes hi]

theorem countP_le_countP (h : v ≤ w) :
    (bs.countP fun b => decide (b ≤ v)) ≤ bs.countP fun b => decide (b ≤ w) :=
  List.countP_mono_left fun b _ hb => by
    rw [decide_eq_true_eq] at hb ⊢
    exact hb.trans h

theorem countP_le_countP_lt (h : v < w) :
    (bs.countP fun b => decide (b ≤ v)) ≤ bs.countP fun b => decide (b < w) :=
  List.countP_mono_left fun b _ hb => by
    rw [decide_eq_true_eq] at hb ⊢
    exact lt_of_le_of_lt hb h

/-- Every value of the table is at or above a boundary. -/
theorem RangeBoundaries.one_le_countP (h : RangeBoundaries vs bins bs) (hv : v ∈ vs) :
    1 ≤ bs.countP fun b => decide (b ≤ v) := by
  have hpos : 0 < bs.length := by
    rw [h.length]
    omega
  have hleast := h.least bs[0] (by rw [List.head?_eq_getElem?, List.getElem?_eq_getElem hpos]) v hv
  exact List.one_le_countP_iff.2 ⟨bs[0], List.getElem_mem hpos, decide_eq_true hleast⟩

theorem int32_ofNat_sub_one {n : ℕ} (h : 1 ≤ n) : Int32.ofNat n - 1 = Int32.ofNat (n - 1) := by
  obtain ⟨m, rfl⟩ := Nat.exists_eq_add_of_le h
  rw [Nat.add_comm, Int32.ofNat_add, Nat.add_sub_cancel]
  exact Int32.add_sub_cancel _ _

theorem int32_ofNat_nonneg {n : ℕ} (h : n < 2 ^ 31) : ¬Int32.ofNat n < 0 := by
  rw [Int32.not_lt, Int32.le_iff_toInt_le, Int32.toInt_ofNat_of_lt (by simpa using h)]
  exact Int.natCast_nonneg n

/-- The bin of an interval end, by the number of boundaries in front of it. -/
theorem binOf_eq {boundaries : BytesList} {count : ℕ} (isOpen : Bool)
    (hsize : boundaries.size = bins + 1)
    (hcount : (if isOpen then boundaries.lowerBound v else boundaries.upperBound v) = count)
    (hle : count ≤ bins + 1) :
    binOf boundaries (Int32.ofNat (bins - 1)) v isOpen =
      if count = 0 then -1 else Int32.ofNat (min (bins - 1) (count - 1)) := by
  rw [binOf]
  simp only [hcount, hsize]
  split
  · rfl
  · split
    · rw [show min (bins - 1) (count - 1) = bins - 1 by omega]
    · rw [show min (bins - 1) (count - 1) = count - 1 by omega, int32_ofNat_sub_one (by omega)]

/-- The boundaries in front of an interval's upper end. -/
def hiCount (bs : List Bytes) (win : ByteInterval) : ℕ :=
  if win.hiUnbounded then bs.length
  else if win.hiOpen then bs.countP fun b => decide (b < win.hi)
  else bs.countP fun b => decide (b ≤ win.hi)

theorem selectRange_eq (h : RangeBoundaries vs bins bs) (hbins : 1 ≤ bins) (hsmall : bins < 2 ^ 31)
    (hbytes : bs.flatten.length < 2 ^ 32) (offset : UInt32) (win : ByteInterval) :
    selectRange (BytesList.ofList bs) (UInt32.ofNat bins) offset win =
      if hiCount bs win = 0 then none
      else some ⟨offset + UInt32.ofNat (min (bins - 1)
          ((bs.countP fun b => decide (b ≤ win.lo)) - 1)),
        offset + UInt32.ofNat (min (bins - 1) (hiCount bs win - 1))⟩ := by
  have hlen : bs.length < 2 ^ 32 := by
    rw [h.length]
    omega
  have hsize : (BytesList.ofList bs).size = bins + 1 := by rw [BytesList.size_ofList, h.length]
  have hcountLe (p : Bytes → Bool) : bs.countP p ≤ bins + 1 := by
    rw [← h.length]
    exact List.countP_le_length
  have hlast : (UInt32.ofNat bins).toInt32 - 1 = Int32.ofNat (bins - 1) := int32_ofNat_sub_one hbins
  have hupper := BytesList.upperBound_ofList h.ordered hbytes hlen
  have hlower := BytesList.lowerBound_ofList h.ordered hbytes hlen
  have hstart := binOf_eq false hsize (hupper win.lo) (hcountLe _)
  have hend : (if win.hiUnbounded then Int32.ofNat (bins - 1)
      else binOf (BytesList.ofList bs) (Int32.ofNat (bins - 1)) win.hi win.hiOpen) =
      if hiCount bs win = 0 then -1
      else Int32.ofNat (min (bins - 1) (hiCount bs win - 1)) := by
    rw [hiCount]
    cases win.hiUnbounded with
    | true =>
        rw [if_pos rfl, if_pos rfl, h.length, if_neg (by omega),
          show min (bins - 1) (bins + 1 - 1) = bins - 1 by omega]
    | false =>
        simp only [Bool.false_eq_true, if_false]
        cases win.hiOpen with
        | true => exact binOf_eq true hsize (hlower win.hi) (hcountLe _)
        | false => exact binOf_eq false hsize (hupper win.hi) (hcountLe _)
  rw [selectRange]
  simp only [hlast, hend, hstart]
  by_cases hzero : hiCount bs win = 0
  · rw [if_pos hzero, if_pos hzero]
    rfl
  · rw [if_neg hzero, if_neg hzero, if_neg (int32_ofNat_nonneg (by omega))]
    by_cases hlo : (bs.countP fun b => decide (b ≤ win.lo)) = 0
    · rw [if_pos hlo, hlo, show min (bins - 1) (0 - 1) = 0 by omega]
      rfl
    · rw [if_neg hlo, if_neg (int32_ofNat_nonneg (by omega))]
      rfl

/-- The bin of every value in the interval is selected. -/
theorem rangeBin_mem_selectRange (h : RangeBoundaries vs bins bs) {win : ByteInterval}
    (hv : v ∈ vs) (hwin : v ∈ win) :
    hiCount bs win ≠ 0 ∧
      min (bins - 1) ((bs.countP fun b => decide (b ≤ win.lo)) - 1) ≤ rangeBin bins bs v ∧
      rangeBin bins bs v ≤ min (bins - 1) (hiCount bs win - 1) := by
  have hone := h.one_le_countP hv
  have hlo := @countP_le_countP bs _ _ hwin.1.le
  have hhi : (bs.countP fun b => decide (b ≤ v)) ≤ hiCount bs win := by
    rw [hiCount]
    cases hunbounded : win.hiUnbounded with
    | true => exact List.countP_le_length
    | false =>
        have hbelow := hwin.2.resolve_left (by rw [hunbounded]; decide)
        rw [if_neg (by decide)]
        cases hopen : win.hiOpen with
        | true => exact countP_le_countP_lt (by simpa [hopen] using hbelow)
        | false => exact countP_le_countP (by simpa [hopen] using hbelow)
  rw [rangeBin]
  omega

/-- The selection of a non-empty interval is in order. -/
theorem countP_le_hiCount {win : ByteInterval} (hwin : win.empty = false) :
    (bs.countP fun b => decide (b ≤ win.lo)) ≤ hiCount bs win := by
  rw [hiCount]
  cases hunbounded : win.hiUnbounded with
  | true => exact List.countP_le_length
  | false =>
      obtain ⟨hle, hclosed⟩ : win.lo ≤ win.hi ∧
          (win.lo = win.hi → win.loOpen = false ∧ win.hiOpen = false) := by
        rw [ByteInterval.empty, hunbounded] at hwin
        simpa [Bytes.compare_pos, Bytes.compare_eq_zero, Bytes.compare_le_zero] using hwin
      rw [if_neg (by decide)]
      cases hopen : win.hiOpen with
      | true =>
          refine countP_le_countP_lt (lt_of_le_of_ne hle fun heq => ?_)
          exact absurd (hclosed heq).2 (by rw [hopen]; decide)
      | false => exact countP_le_countP hle

end Boundaries

end BitLSM
