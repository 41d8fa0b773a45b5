import BitLSM.Estimator.RangeStats

/-!
Estimates of a query's selectivity.

`rebuild` collects what the live files say about each attribute; `estimate`
turns an encoded query into the fraction of rows expected to match. Clauses of
one condition on a range attribute are intersected into one window for each
attribute, a disjunction is bounded by the sum of its members, and the
attributes are taken to be independent: the estimate is a product with one
factor for each clause or window, and never less than one row.

A map is the list of its entries, a set the sorted list of its members.
-/

namespace BitLSM

open Wire

/-! ### The statistics of all attributes -/

/-- One equality attribute. -/
structure GlobalEqualityStats where
  /-- Rows of each value, over all live files. -/
  valueCounts : List (Bytes × ℚ)
  total : ℚ
  /-- Only the most frequent values are kept. -/
  truncated : Bool := false
  /-- The sum over the live files of their average bin mass. -/
  binmassSum : ℚ

/-- One slot per attribute in each list; the one of the attribute's index type is
used, and is empty when no live file has binned rows. -/
structure GlobalStats where
  range : List (Option GlobalRangeStats)
  equality : List (Option GlobalEqualityStats)
  /-- Data entries of the live files without tombstones. -/
  physicalRows : UInt64 := 0
  liveSstCount : UInt64 := 0

def GlobalStats.rangeOf (stats : GlobalStats) (a : UInt32) : Option GlobalRangeStats :=
  stats.range[a.toNat]?.join

def GlobalStats.equalityOf (stats : GlobalStats) (a : UInt32) : Option GlobalEqualityStats :=
  stats.equality[a.toNat]?.join

structure EstimateResult where
  selectivity : ℚ := 1
  physicalRows : UInt64 := 0
  /-- Attributes whose conditions could not be estimated. -/
  fallbackAttrs : List UInt32 := []
  candidateSelectivity : ℚ := 1
  memtableEntries : UInt64 := 0

/-! ### Rebuild -/

section Rebuild

variable (r : Rounding)

/-- What `Rebuild` reads of a file's index reader. -/
structure SABIHarvest where
  /-- `data_entries_cnt_psum.back()`, if there is one. -/
  dataEntries : Option UInt64
  tombstoneCardinality : UInt64
  rangeHistogram : UInt32 → Option RangeAttrHistogram
  equalityValueCounts : UInt32 → Option (List (Bytes × ℚ))
  bitmapNums : List UInt32

inductive LiveFile where
  /-- `FindTable` fails. -/
  | unreadable
  /-- The file has no index that parses. -/
  | noIndex (numEntries numDeletions : UInt64)
  | indexed (reader : SABIHarvest)

def LiveFile.reader? : LiveFile → Option SABIHarvest
  | .indexed reader => some reader
  | _ => none

def addFile (stats : GlobalStats) : LiveFile → GlobalStats
  | .unreadable => stats
  | .noIndex entries deletions =>
      { stats with
        physicalRows := stats.physicalRows + (entries - deletions)
        liveSstCount := stats.liveSstCount + 1 }
  | .indexed reader =>
      { stats with
        physicalRows := match reader.dataEntries with
          | none => stats.physicalRows
          | some n => stats.physicalRows + (n - reader.tombstoneCardinality)
        liveSstCount := stats.liveSstCount + 1 }

/-- `map[value] += count`. -/
def addCount (counts : List (Bytes × ℚ)) (entry : Bytes × ℚ) : List (Bytes × ℚ) :=
  match counts.lookup entry.1 with
  | none => counts ++ [(entry.1, r.add 0 entry.2)]
  | some _ => counts.map fun e => if e.1 = entry.1 then (e.1, r.add e.2 entry.2) else e

/-- The value counts of attribute `a` in one file, merged into those so far. -/
def addValueCounts (a : UInt32) (stats : GlobalEqualityStats) (reader : SABIHarvest) :
    GlobalEqualityStats :=
  match reader.equalityValueCounts a with
  | none => stats
  | some counts =>
      let sstTotal := counts.foldl (fun total e => r.add total e.2) 0
      { stats with
        valueCounts := counts.foldl (addCount r) stats.valueCounts
        total := r.add stats.total sstTotal
        binmassSum := match reader.bitmapNums[a.toNat]? with
          | none => stats.binmassSum
          | some n =>
              if 0 < n then r.add stats.binmassSum (r.div sstTotal (r.ofNat n.toNat))
              else stats.binmassSum }

/-- `kMaxTrackedValues`. -/
def maxTrackedValues : ℕ := 10000

/-- The slot of an equality attribute. `nthElement` is how `std::nth_element`
rearranges the entries by count. -/
def rebuildEquality (nthElement : List (Bytes × ℚ) → List (Bytes × ℚ)) (a : UInt32)
    (readers : List SABIHarvest) : Option GlobalEqualityStats :=
  let stats := readers.foldl (addValueCounts r a) ⟨[], 0, false, 0⟩
  if stats.valueCounts = [] then none
  else if maxTrackedValues < stats.valueCounts.length then
    some { stats with
      valueCounts := (nthElement stats.valueCounts).take maxTrackedValues
      truncated := true }
  else some stats

/-- The slot of a range attribute. -/
def rebuildRangeSlot (gridCells : UInt32) (a : UInt32) (readers : List SABIHarvest) :
    Option (Option GlobalRangeStats) :=
  match readers.filterMap fun reader => reader.rangeHistogram a with
  | [] => some none
  | hists => (rebuildRange r gridCells hists).map some

/-- The statistics of the live files. The source fills the buffers of all
attributes file by file, which for one attribute is a pass over the files. -/
def rebuild (nthElement : List (Bytes × ℚ) → List (Bytes × ℚ)) (gridCells : UInt32)
    (types : List IndexType) (files : List LiveFile) : Option GlobalStats := do
  let readers := files.filterMap LiveFile.reader?
  let range ← types.zipIdx.mapM fun (t, a) =>
    if t = .range then rebuildRangeSlot r gridCells (UInt32.ofNat a) readers else some none
  let equality := types.zipIdx.map fun (t, a) =>
    if t = .range then none else rebuildEquality r nthElement (UInt32.ofNat a) readers
  return files.foldl addFile { range, equality }

end Rebuild

/-! ### Estimate -/

/-- `std::set::insert`. -/
def insertAttr (a : UInt32) : List UInt32 → List UInt32
  | [] => [a]
  | b :: rest =>
      if a < b then a :: b :: rest
      else if b < a then b :: insertAttr a rest
      else b :: rest

/-- `windows[a].Intersect(win)`; a new entry is unbounded. -/
def intersectAt (a : UInt32) (win : ByteInterval) :
    List (UInt32 × ByteInterval) → List (UInt32 × ByteInterval)
  | [] => [(a, ({} : ByteInterval).intersect win)]
  | (b, w) :: rest =>
      if a < b then (a, ({} : ByteInterval).intersect win) :: (b, w) :: rest
      else if b < a then (b, w) :: intersectAt a win rest
      else (b, w.intersect win) :: rest

/-- The answer without an estimator or without statistics. -/
def fallbackResult (q : SABIQuery) : EstimateResult where
  fallbackAttrs := q.clauseGroups.flatten.foldl (fun attrs c => insertAttr c.attrIdx attrs) []

section Estimate

variable (r : Rounding) (types : List IndexType) (stats : GlobalStats)

/-- The number of rows as a double. -/
def GlobalStats.phys : ℚ := r.ofNat stats.physicalRows.toNat

/-- The fraction of rows one condition matches, or -1 when it cannot be
estimated. -/
def conditionSelectivity (cond : SABICondition) : ℚ :=
  match types[cond.attrIdx.toNat]? with
  | none => -1
  | some .range =>
      match stats.rangeOf cond.attrIdx with
      | none => -1
      | some ord =>
          let win := ord.place cond.win
          if win.hi ≤ win.lo then 0 else r.div (ord.pointAwareRangeMass r win) (stats.phys r)
  | some .equality =>
      match stats.equalityOf cond.attrIdx with
      | none => -1
      | some uno =>
          match uno.valueCounts.lookup cond.bytes with
          | some count => r.div count (stats.phys r)
          -- absent after truncation only means that it is not frequent
          | none => if uno.truncated then -1 else 0

/-- The fraction of rows the bins of one condition hold, given the fraction `f`
it matches. -/
def conditionCandidate (cond : SABICondition) (f : ℚ) : ℚ :=
  match types[cond.attrIdx.toNat]? with
  | some .range =>
      match stats.rangeOf cond.attrIdx with
      | none => 0
      | some ord =>
          let win := ord.place cond.win
          if win.hi ≤ win.lo then 0
          else min 1 (r.div (ord.candidateMass r win (r.mul f (stats.phys r))) (stats.phys r))
  | _ =>
      if f = 0 then 0
      else
        match stats.equalityOf cond.attrIdx with
        | none => 0
        | some uno => min 1 (max f (r.div uno.binmassSum (stats.phys r)))

structure EstimateState where
  product : ℚ := 1
  /-- What `product` is for matches, for candidates. -/
  candProduct : ℚ := 1
  windows : List (UInt32 × ByteInterval) := []
  fallback : List UInt32 := []

def estimateSingle (st : EstimateState) (cond : SABICondition) : EstimateState :=
  if types[cond.attrIdx.toNat]? = some .range then
    { st with windows := intersectAt cond.attrIdx cond.win st.windows }
  else
    let f := conditionSelectivity r types stats cond
    if f < 0 then { st with fallback := insertAttr cond.attrIdx st.fallback }
    else
      { st with
        product := r.mul st.product f
        candProduct := r.mul st.candProduct (conditionCandidate r types stats cond f) }

/-- The sums over the members of a disjunction. -/
structure ClauseSums where
  sum : ℚ := 0
  candSum : ℚ := 0
  clauseFallback : Bool := false
  fallback : List UInt32

def addMember (acc : ClauseSums) (cond : SABICondition) : ClauseSums :=
  let f := conditionSelectivity r types stats cond
  if f < 0 then
    { acc with clauseFallback := true, fallback := insertAttr cond.attrIdx acc.fallback }
  else
    { acc with
      sum := r.add acc.sum f
      candSum := r.add acc.candSum (conditionCandidate r types stats cond f) }

def estimateMembers (st : EstimateState) (clause : SABIOrClause) : EstimateState :=
  let acc := clause.foldl (addMember r types stats) { fallback := st.fallback }
  if acc.clauseFallback then { st with fallback := acc.fallback }
  else
    { st with
      product := r.mul st.product (min 1 acc.sum)
      candProduct := r.mul st.candProduct (min 1 acc.candSum)
      fallback := acc.fallback }

def estimateClause (st : EstimateState) (clause : SABIOrClause) : EstimateState :=
  match clause with
  -- the source takes an empty clause to be satisfiable
  | [] => st
  | [cond] => estimateSingle r types stats st cond
  | _ => estimateMembers r types stats st clause

def estimateWindow (st : EstimateState) (entry : UInt32 × ByteInterval) : EstimateState :=
  match stats.rangeOf entry.1 with
  | none => { st with fallback := insertAttr entry.1 st.fallback }
  | some ord =>
      let win := ord.place entry.2
      if win.hi ≤ win.lo then { st with product := 0, candProduct := 0 }
      else
        let matchMass := ord.pointAwareRangeMass r win
        { st with
          product := r.mul st.product (r.div matchMass (stats.phys r))
          candProduct := r.mul st.candProduct
            (min 1 (r.div (ord.candidateMass r win matchMass) (stats.phys r))) }

/-- One row as a fraction of all. -/
def GlobalStats.oneRow : ℚ := r.div 1 (stats.phys r)

def estimate (memtable : UInt64) (q : SABIQuery) : EstimateResult :=
  if stats.liveSstCount = 0 ∨ stats.physicalRows = 0 then
    { fallbackResult q with memtableEntries := memtable }
  else
    let st := q.clauseGroups.foldl (estimateClause r types stats) {}
    let st := st.windows.foldl (estimateWindow r stats) st
    let selectivity := min 1 (max st.product (stats.oneRow r))
    { selectivity
      physicalRows := stats.physicalRows
      fallbackAttrs := st.fallback
      candidateSelectivity := min 1 (max st.candProduct selectivity)
      memtableEntries := memtable }

/-! ### The factors of an estimate -/

/-- The windows of an encoded query: for each range attribute the intersection of
its single conditions. -/
def addWindow (windows : List (UInt32 × ByteInterval)) (clause : SABIOrClause) :
    List (UInt32 × ByteInterval) :=
  match clause with
  | [cond] =>
      if types[cond.attrIdx.toNat]? = some .range then intersectAt cond.attrIdx cond.win windows
      else windows
  | _ => windows

def SABIQuery.windows (q : SABIQuery) : List (UInt32 × ByteInterval) :=
  q.clauseGroups.foldl (addWindow types) []

/-- The factor of a clause that is not part of a window. An empty clause has
none, nor has one with a member that cannot be estimated. -/
def clauseFactor (clause : SABIOrClause) : Option ℚ :=
  match clause with
  | [] => none
  | [cond] =>
      if types[cond.attrIdx.toNat]? = some .range then none
      else if conditionSelectivity r types stats cond < 0 then none
      else some (conditionSelectivity r types stats cond)
  | _ =>
      if clause.any fun cond => conditionSelectivity r types stats cond < 0 then none
      else some (min 1
        (clause.foldl (fun sum cond => r.add sum (conditionSelectivity r types stats cond)) 0))

/-- The factor of a window, zero when it is placed empty. -/
def windowFactor (entry : UInt32 × ByteInterval) : Option ℚ :=
  (stats.rangeOf entry.1).map fun ord =>
    if (ord.place entry.2).hi ≤ (ord.place entry.2).lo then 0
    else r.div (ord.pointAwareRangeMass r (ord.place entry.2)) (stats.phys r)

/-- The factors of a query, in the order in which they are multiplied. -/
def factors (q : SABIQuery) : List ℚ :=
  q.clauseGroups.filterMap (clauseFactor r types stats) ++
    (q.windows types).filterMap (windowFactor r stats)

variable {r types stats}

theorem Rounding.mul_zero (r : Rounding) (x : ℚ) : r.mul x 0 = 0 := by
  rw [Rounding.mul, MulZeroClass.mul_zero, r.zero]

theorem foldl_addMember (clause : SABIOrClause) (acc : ClauseSums) :
    (clause.foldl (addMember r types stats) acc).clauseFallback =
        (acc.clauseFallback ||
          clause.any fun cond => conditionSelectivity r types stats cond < 0) ∧
      ((clause.any fun cond => conditionSelectivity r types stats cond < 0) = false →
        (clause.foldl (addMember r types stats) acc).sum =
          clause.foldl (fun sum cond => r.add sum (conditionSelectivity r types stats cond))
            acc.sum) := by
  induction clause generalizing acc with
  | nil => simp
  | cons cond rest ih =>
      obtain ⟨hfallback, hsum⟩ := ih (addMember r types stats acc cond)
      rw [List.foldl_cons, hfallback, List.any_cons]
      by_cases hneg : conditionSelectivity r types stats cond < 0
      · simp [addMember, hneg]
      · constructor
        · simp [addMember, hneg]
        · intro hnone
          rw [hsum (Bool.or_eq_false_iff.1 hnone).2, List.foldl_cons]
          simp [addMember, hneg]

/-- A clause multiplies its factor, or narrows a window. -/
theorem estimateClause_spec (st : EstimateState) (clause : SABIOrClause) :
    (estimateClause r types stats st clause).product =
        (clauseFactor r types stats clause).elim st.product (r.mul st.product) ∧
      (estimateClause r types stats st clause).windows = addWindow types st.windows clause := by
  match clause with
  | [] => exact ⟨rfl, rfl⟩
  | [cond] =>
      simp only [estimateClause, estimateSingle, clauseFactor, addWindow]
      by_cases hrange : types[cond.attrIdx.toNat]? = some .range
      · simp [hrange]
      · by_cases hneg : conditionSelectivity r types stats cond < 0 <;> simp [hrange, hneg]
  | c :: d :: rest =>
      obtain ⟨hfallback, hsum⟩ := @foldl_addMember r types stats (c :: d :: rest)
        { fallback := st.fallback }
      rw [Bool.false_or] at hfallback
      simp only [estimateClause, estimateMembers, clauseFactor, addWindow, hfallback]
      cases hany : (c :: d :: rest).any fun cond => conditionSelectivity r types stats cond < 0 with
      | true => simp
      | false =>
          rw [hsum hany]
          exact ⟨rfl, rfl⟩

theorem foldl_estimateClause (clauses : List SABIOrClause) (st : EstimateState) :
    (clauses.foldl (estimateClause r types stats) st).product =
        (clauses.filterMap (clauseFactor r types stats)).foldl r.mul st.product ∧
      (clauses.foldl (estimateClause r types stats) st).windows =
        clauses.foldl (addWindow types) st.windows := by
  induction clauses generalizing st with
  | nil => exact ⟨rfl, rfl⟩
  | cons clause rest ih =>
      obtain ⟨hproduct, hwindows⟩ := ih (estimateClause r types stats st clause)
      obtain ⟨hfactor, hwindow⟩ := @estimateClause_spec r types stats st clause
      rw [List.foldl_cons, hproduct, hwindows, hfactor, hwindow, List.foldl_cons]
      refine ⟨?_, rfl⟩
      cases hclause : clauseFactor r types stats clause with
      | none => rw [List.filterMap_cons_none hclause, Option.elim_none]
      | some f => rw [List.filterMap_cons_some hclause, Option.elim_some, List.foldl_cons]

theorem foldl_estimateWindow (windows : List (UInt32 × ByteInterval)) (st : EstimateState) :
    (windows.foldl (estimateWindow r stats) st).product =
      (windows.filterMap (windowFactor r stats)).foldl r.mul st.product := by
  induction windows generalizing st with
  | nil => rfl
  | cons entry rest ih =>
      rw [List.foldl_cons, ih]
      cases hord : stats.rangeOf entry.1 with
      | none =>
          rw [List.filterMap_cons_none (by rw [windowFactor, hord, Option.map_none])]
          simp only [estimateWindow, hord]
      | some ord =>
          rw [List.filterMap_cons_some (by rw [windowFactor, hord, Option.map_some]),
            List.foldl_cons]
          simp only [estimateWindow, hord]
          split
          · rw [r.mul_zero]
          · rfl

/-- The estimate is the product of the factors, kept between one row and all. -/
theorem estimate_selectivity (hlive : stats.liveSstCount ≠ 0) (hphys : stats.physicalRows ≠ 0)
    (memtable : UInt64) (q : SABIQuery) :
    (estimate r types stats memtable q).selectivity =
      min 1 (max ((factors r types stats q).foldl r.mul 1) (stats.oneRow r)) := by
  obtain ⟨hproduct, hwindows⟩ := @foldl_estimateClause r types stats q.clauseGroups {}
  rw [estimate, if_neg (not_or.2 ⟨hlive, hphys⟩)]
  simp only [foldl_estimateWindow, hproduct, hwindows]
  rw [factors, List.foldl_append, SABIQuery.windows]

theorem GlobalStats.oneRow_mem (stats : GlobalStats) (r : Rounding)
    (hphys : stats.physicalRows ≠ 0) : 0 ≤ stats.oneRow r ∧ stats.oneRow r ≤ 1 := by
  have hone : 1 ≤ stats.phys r := by
    have hpos : 1 ≤ stats.physicalRows.toNat :=
      Nat.pos_of_ne_zero fun hzero => hphys (UInt64.toNat_inj.1 hzero)
    calc (1 : ℚ) = r.round 1 := r.one.symm
      _ ≤ r.round stats.physicalRows.toNat := r.mono (by exact_mod_cast hpos)
  have hpos : 0 < stats.phys r := one_pos.trans_le hone
  constructor
  · calc (0 : ℚ) = r.round 0 := r.zero.symm
      _ ≤ stats.oneRow r := r.mono (div_nonneg one_pos.le hpos.le)
  · calc stats.oneRow r ≤ r.round 1 := r.mono ((div_le_one hpos).2 hone)
      _ = 1 := r.one

theorem foldl_mul_eq_zero {fs : List ℚ} (hzero : 0 ∈ fs) (x : ℚ) : fs.foldl r.mul x = 0 := by
  have hstart (fs : List ℚ) : fs.foldl r.mul 0 = 0 := by
    induction fs with
    | nil => rfl
    | cons f fs ih => rw [List.foldl_cons, Rounding.mul, zero_mul, r.zero, ih]
  induction fs generalizing x with
  | nil => cases hzero
  | cons f fs ih =>
      rw [List.foldl_cons]
      rcases List.mem_cons.1 hzero with rfl | hmem
      · rw [r.mul_zero, hstart]
      · exact ih hmem _

end Estimate

end BitLSM
