import BitLSM.CompiledQuery
import BitLSM.Reader.Select

/-!
The evaluators of a query with every access checked.

The evaluators elsewhere answer a read past a row's end, or past the arena of a
packed list, with the bytes that are there. Here such a read is `none`, as an
index out of range and a wrong alternative are everywhere, so that a result
says that none of these happened on the way. The loops are those of the source
over the checked accesses; where all accesses are inside, the result is that of
the unchecked evaluator.
-/

namespace BitLSM

open Wire

/-! ### Reads of a row -/

/-- The null bit of an attribute; one that is not nullable has none. -/
def nullBitIn (row : Bytes) (nullBit : Int32) : Option Bool :=
  if 0 ≤ nullBit then
    if nullBit.toNatClampNeg / 8 < row.length then some (isNullBitSet row nullBit) else none
  else some false

/-- The bytes a fixed slot is read by. -/
def AttrSpec.slotBytes (s : AttrSpec) : ℕ :=
  match s.physicalType with
  | .float => if s.width = 8 then 8 else 4
  | .int | .uint | .binary => s.width.toNat
  | .varBinary => 0

def decodeFixedIn (row : Bytes) (off : ℕ) (s : AttrSpec) : Option AttrView :=
  if off + s.slotBytes ≤ row.length then some (decodeFixed (row.drop off) s) else none

/-- Where the variable attribute of rank `rank` starts. -/
def varStartIn (nullBitmapBytes : UInt32) (row : Bytes) (rank : UInt32) : Option UInt32 :=
  if 0 < rank then decodeFixed32 row (nullBitmapBytes.toNat + (rank - 1).toNat * 4) else some 0

def variableIn (nullBitmapBytes variableBase : UInt32) (row : Bytes) (rank : UInt32) :
    Option Bytes := do
  let stop ← decodeFixed32 row (nullBitmapBytes.toNat + rank.toNat * 4)
  let start ← varStartIn nullBitmapBytes row rank
  readAt row (variableBase.toNat + start.toNat) (stop - start).toNat

def decodeAttrIn (layout : ValueLayout) (row : Bytes) (attrIdx : UInt32) : Option AttrView := do
  let nb ← layout.nullBit[attrIdx.toNat]?
  if ← nullBitIn row nb then return .null
  let fixed ← layout.isFixed[attrIdx.toNat]?
  let slot ← layout.slot[attrIdx.toNat]?
  if fixed then
    let spec ← layout.specs[attrIdx.toNat]?
    decodeFixedIn row slot.toNat spec
  else (variableIn layout.nullBitmapBytes layout.variableBase row slot).map .bytes

/-! ### The reference evaluator -/

def cachedDecodeBy (decode : UInt32 → Option AttrView) (attrIdx cachedIdx : UInt32)
    (cachedVal : AttrView) : Option AttrView :=
  if attrIdx ≠ cachedIdx then decode attrIdx else some cachedVal

/-- One clause over a decoder, with the last decoded attribute at hand. -/
def checkClauseBy (decode : UInt32 → Option AttrView) :
    OrClause → UInt32 → AttrView → Option Bool
  | [], _, _ => some false
  | cond :: rest, cachedIdx, cachedVal => do
      let val ← cachedDecodeBy decode cond.attrIdx cachedIdx cachedVal
      if ← evalCondition cond val then return true
      checkClauseBy decode rest cond.attrIdx val

def checkClausesBy (decode : UInt32 → Option AttrView) : List OrClause → Option Bool
  | [] => some true
  | clause :: rest => do
      if ← checkClauseBy decode clause 0xFFFFFFFF .null then checkClausesBy decode rest
      else return false

def BitLSMQuery.checkConditionIn (q : BitLSMQuery) (row : Bytes) (layout : ValueLayout) :
    Option Bool :=
  if q.clauseGroups.isEmpty then some true
  else checkClausesBy (decodeAttrIn layout row) q.clauseGroups

/-! ### The compiled query -/

namespace CompiledQuery

def evalNumericIn (row : Bytes) (p : Pred) : Option Bool :=
  if p.slot.toNat + p.spec.slotBytes ≤ row.length then evalNumeric row p else none

def binaryAttrIn (cq : CompiledQuery) (row : Bytes) (p : Pred) : Option Bytes :=
  if p.spec.isFixed then readAt row p.slot.toNat p.spec.width.toNat
  else variableIn cq.nullBitmapBytes cq.variableBase row p.slot

def evalPredIn (cq : CompiledQuery) (row : Bytes) (p : Pred) : Option Bool := do
  if ← nullBitIn row p.nullBit then return false
  if p.isNumeric then evalNumericIn row p
  else
    let attr ← cq.binaryAttrIn row p
    let want ← readAt cq.arena p.soff.toNat p.slen.toNat
    return passOp p.op (Bytes.compare attr want)

def evalRangeIn (cq : CompiledQuery) (row : Bytes) : ℕ → ℕ → Option Bool
  | _, 0 => some false
  | i, n + 1 => do
      let p ← cq.preds[i]?
      if ← cq.evalPredIn row p then return true
      evalRangeIn cq row (i + 1) n

def evalClausesIn (cq : CompiledQuery) (row : Bytes) : List ClauseRange → Option Bool
  | [] => some true
  | c :: rest => do
      if ← cq.evalRangeIn row c.first.toNat (c.stop.toNat - c.first.toNat) then
        evalClausesIn cq row rest
      else return false

def evalIn (cq : CompiledQuery) (row : Bytes) : Option Bool :=
  cq.evalClausesIn row cq.clauses

end CompiledQuery

/-! ### The index -/

namespace BytesList

def startIn (l : BytesList) (i : ℕ) : Option UInt32 := if i = 0 then some 0 else l.ends[i - 1]?

/-- Both indexes are in range. -/
def entryAt (l : BytesList) (i : ℕ) : Option Bytes := do
  let start ← l.startIn i
  let stop ← l.ends[i]?
  return slice l.arena start.toNat (stop - start).toNat

/-- And the string lies in the arena. -/
def getIn (l : BytesList) (i : ℕ) : Option Bytes := do
  let start ← l.startIn i
  let stop ← l.ends[i]?
  readAt l.arena start.toNat (stop - start).toNat

end BytesList

section Lookups

/- `get` is one of the two accesses above. -/
variable (get : BytesList → ℕ → Option Bytes)

def BytesList.upperBoundBy (l : BytesList) (v : Bytes) : Option ℕ :=
  BinarySearch.searchM (fun i => (get l i).map fun x => decide (x ≤ v)) (l.size % 2 ^ 32)

def BytesList.lowerBoundBy (l : BytesList) (v : Bytes) : Option ℕ :=
  BinarySearch.searchM (fun i => (get l i).map fun x => decide (x < v)) (l.size % 2 ^ 32)

def binOfBy (boundaries : BytesList) (last : Int32) (v : Bytes) (isOpen : Bool) : Option Int32 :=
  (if isOpen then boundaries.lowerBoundBy get v else boundaries.upperBoundBy get v).map fun i =>
    if i = 0 then -1 else if boundaries.size ≤ i then last else Int32.ofNat i - 1

def endBinBy (boundaries : BytesList) (last : Int32) (win : ByteInterval) : Option Int32 :=
  if win.hiUnbounded then some last else binOfBy get boundaries last win.hi win.hiOpen

def selectRangeBy (boundaries : BytesList) (numBins bitmapOffset : UInt32) (win : ByteInterval) :
    Option (Option BinSelection) := do
  let last := numBins.toInt32 - 1
  let endBin ← endBinBy get boundaries last win
  if endBin < 0 then return none
  let startBin ← binOfBy get boundaries last win.lo false
  let startBin := if startBin < 0 then 0 else startBin
  return some ⟨bitmapOffset + startBin.toUInt32, bitmapOffset + endBin.toUInt32⟩

namespace SABIReader

def selectBinsBy (r : SABIReader) (c : SABICondition) : Option (Option BinSelection) := do
  let indexType ← r.indexTypes[c.attrIdx.toNat]?
  let bitmapOffset ← r.attrBinOffset c.attrIdx.toNat
  match indexType with
  | .equality => do
      let .equality entries ← r.binningPolicy[c.attrIdx.toNat]? | none
      return (findEntry entries c.bytes).map fun bin =>
        ⟨bitmapOffset + UInt32.ofNat bin, bitmapOffset + UInt32.ofNat bin⟩
  | .range => do
      if c.win.empty then return none
      let .range boundaries ← r.binningPolicy[c.attrIdx.toNat]? | none
      let numBins ← r.bitmapNums[c.attrIdx.toNat]?
      selectRangeBy get boundaries numBins bitmapOffset c.win

/-- The source tests both array lengths before it looks the attribute up, and the
alternative before it takes it. -/
def conditionImpossibleBy (r : SABIReader) (c : SABICondition) : Option Bool :=
  let idx := c.attrIdx.toNat
  if r.binningPolicy.length ≤ idx ∨ r.indexTypes.length ≤ idx then some false
  else do
    let indexType ← r.indexTypes[idx]?
    let policy ← r.binningPolicy[idx]?
    match indexType, policy with
    | .range, .range bounds =>
        if bounds.size < 2 then return false
        let _mn ← get bounds 0
        let _mx ← get bounds (bounds.size - 1)
        return r.conditionImpossible c
    | .equality, .equality entries => return (findEntry entries c.bytes).isNone
    | .range, .equality _ | .equality, .range _ => return false

def clauseImpossibleBy (r : SABIReader) : SABIOrClause → Option Bool
  | [] => some true
  | c :: rest => do
      if ← r.conditionImpossibleBy get c then clauseImpossibleBy r rest else return false

def queryCanMatchBy (r : SABIReader) (q : SABIQuery) : Option Bool :=
  go q.clauseGroups
where
  go : List SABIOrClause → Option Bool
    | [] => some true
    | clause :: rest =>
        if clause.isEmpty then go rest
        else do if ← r.clauseImpossibleBy get clause then return false else go rest

end SABIReader

end Lookups

/-! ### Where the accesses are inside, nothing changes -/

section Row

variable {l : ValueLayout} {row : Bytes}

/-- The reads of an attribute stay in the row. -/
structure AttrSlot.Inside (l : ValueLayout) (row : Bytes) (a : AttrSlot) : Prop where
  null : 0 ≤ a.nullBit → a.nullBit.toNatClampNeg / 8 < row.length
  fixed : a.spec.isFixed = true → a.slot.toNat + a.spec.slotBytes ≤ row.length
  bytes : a.spec.isFixed ≠ true →
    variableIn l.nullBitmapBytes l.variableBase row a.slot = some (l.variableBytes row a.slot)

theorem decodeFixed32_eq_loadU32 {off : ℕ} (h : off + 4 ≤ row.length) :
    decodeFixed32 row off = some (loadU32 (row.drop off)) := by
  rw [decodeFixed32, readAt, if_pos h]
  rfl

theorem variableIn_eq {rank start stop : UInt32}
    (hstart : (if 0 < rank then
      loadU32 (row.drop (l.nullBitmapBytes.toNat + (rank - 1).toNat * 4)) else 0) = start)
    (hstop : loadU32 (row.drop (l.nullBitmapBytes.toNat + rank.toNat * 4)) = stop)
    (hends : l.nullBitmapBytes.toNat + rank.toNat * 4 + 4 ≤ row.length)
    (hroom : l.variableBase.toNat + start.toNat + (stop - start).toNat ≤ row.length) :
    variableIn l.nullBitmapBytes l.variableBase row rank = some (l.variableBytes row rank) := by
  have hstartIn : varStartIn l.nullBitmapBytes row rank = some start := by
    rw [varStartIn, ← hstart]
    by_cases hpos : 0 < rank
    · have hpred : (rank - 1).toNat + 1 = rank.toNat := by
        have hposNat : 1 ≤ rank.toNat := UInt32.lt_iff_toNat_lt.1 hpos
        have hle : (1 : UInt32) ≤ rank := UInt32.le_iff_toNat_le.2 hposNat
        rw [UInt32.toNat_sub_of_le _ _ hle]
        exact Nat.sub_add_cancel hposNat
      rw [if_pos hpos, if_pos hpos, decodeFixed32_eq_loadU32 (by omega)]
    · rw [if_neg hpos, if_neg hpos]
  rw [variableIn, decodeFixed32_eq_loadU32 hends, hstop, hstartIn, ValueLayout.variableBytes]
  simp only [Option.bind_eq_bind, Option.bind_some, List.drop_drop, hstart, hstop]
  rw [readAt, if_pos hroom]

theorem nullBitIn_eq {nb : Int32} (h : 0 ≤ nb → nb.toNatClampNeg / 8 < row.length) :
    nullBitIn row nb = some (decide (0 ≤ nb ∧ isNullBitSet row nb = true)) := by
  unfold nullBitIn
  by_cases hnb : 0 ≤ nb
  · simp [hnb, h hnb]
  · simp [hnb]

theorem decodeAttrIn_eq {attrIdx : UInt32} {a : AttrSlot} (hat : l.At attrIdx a)
    (h : a.Inside l row) : decodeAttrIn l row attrIdx = decodeAttr l row attrIdx := by
  rw [decodeAttr_eq hat, decodeAttrIn, hat.nullBit]
  simp only [Option.bind_eq_bind, Option.bind_some, nullBitIn_eq h.null, hat.isFixed, hat.slot,
    hat.specs, decide_eq_true_eq]
  by_cases hnull : a.isNull row
  · have hnull' : 0 ≤ a.nullBit ∧ isNullBitSet row a.nullBit = true := hnull
    rw [if_pos hnull, if_pos hnull']
    rfl
  · have hnull' : ¬(0 ≤ a.nullBit ∧ isNullBitSet row a.nullBit = true) := hnull
    rw [if_neg hnull, if_neg hnull']
    by_cases hf : a.spec.isFixed = true
    · rw [if_pos hf, if_pos hf, decodeFixedIn, if_pos (h.fixed hf)]
    · rw [if_neg hf, if_neg hf, h.bytes hf]
      rfl

theorem checkClauseBy_eq {decode : UInt32 → Option AttrView} {clause : OrClause}
    (h : ∀ c ∈ clause, decode c.attrIdx = decodeAttr l row c.attrIdx) (idx : UInt32)
    (val : AttrView) : checkClauseBy decode clause idx val = checkClause l row clause idx val := by
  induction clause generalizing idx val with
  | nil => rfl
  | cons c clause ih =>
      rw [List.forall_mem_cons] at h
      have hcached : cachedDecodeBy decode c.attrIdx idx val =
          cachedDecode l row c.attrIdx idx val := by
        rw [cachedDecodeBy, cachedDecode, h.1]
      rw [checkClauseBy, checkClause, hcached]
      simp only [ih h.2]

theorem checkClausesBy_eq {decode : UInt32 → Option AttrView} {clauses : List OrClause}
    (h : ∀ clause ∈ clauses, ∀ c ∈ clause, decode c.attrIdx = decodeAttr l row c.attrIdx) :
    checkClausesBy decode clauses = checkClauses l row clauses := by
  induction clauses with
  | nil => rfl
  | cons clause clauses ih =>
      rw [List.forall_mem_cons] at h
      rw [checkClausesBy, checkClauses, checkClauseBy_eq h.1, ih h.2]

theorem BitLSMQuery.checkConditionIn_eq {q : BitLSMQuery}
    (h : ∀ clause ∈ q.clauseGroups, ∀ c ∈ clause, ∃ a, l.At c.attrIdx a ∧ a.Inside l row) :
    q.checkConditionIn row l = q.checkCondition row l := by
  rw [checkConditionIn, checkCondition, checkClausesBy_eq fun clause hclause c hc => ?_]
  obtain ⟨a, hat, ha⟩ := h clause hclause c hc
  exact decodeAttrIn_eq hat ha

end Row

namespace CompiledQuery

variable {l : ValueLayout} {cq : CompiledQuery} {row : Bytes}

/-- A predicate whose reads stay in the row and in the arena. -/
structure PredInside (l : ValueLayout) (cq : CompiledQuery) (row : Bytes) (p : Pred) : Prop where
  row : AttrSlot.Inside l row ⟨p.spec, p.nullBit, p.slot⟩
  isNumeric : p.isNumeric = p.spec.isNumeric
  arena : p.soff.toNat + p.slen.toNat ≤ cq.arena.length

theorem evalPredIn_eq {p : Pred} (hbase : cq.variableBase = l.variableBase)
    (hnull : cq.nullBitmapBytes = l.nullBitmapBytes) (h : PredInside l cq row p) :
    cq.evalPredIn row p = cq.evalPred row p := by
  rw [evalPredIn, evalPred, nullBitIn_eq h.row.null]
  simp only [Option.bind_eq_bind, Option.bind_some, decide_eq_true_eq]
  by_cases hn : 0 ≤ p.nullBit ∧ isNullBitSet row p.nullBit = true
  · rw [if_pos hn, if_pos hn]
    rfl
  rw [if_neg hn, if_neg hn, h.isNumeric]
  cases hnum : p.spec.isNumeric with
  | true =>
      have hfixed : p.spec.isFixed = true := by
        cases hp : p.spec.physicalType <;> simp_all [AttrSpec.isNumeric, AttrSpec.isFixed]
      rw [if_pos rfl, if_pos rfl, evalNumericIn, if_pos (h.row.fixed hfixed)]
  | false =>
      have hattr : cq.binaryAttrIn row p = some (cq.binaryAttr row p) := by
        rw [binaryAttrIn, binaryAttr]
        by_cases hfixed : p.spec.isFixed = true
        · have hbinary : p.spec.slotBytes = p.spec.width.toNat := by
            cases hp : p.spec.physicalType <;>
              simp_all [AttrSpec.isNumeric, AttrSpec.isFixed, AttrSpec.slotBytes]
          have hroom := h.row.fixed hfixed
          simp only [hbinary] at hroom
          rw [if_pos hfixed, if_pos hfixed, readAt, if_pos hroom]
        · rw [if_neg hfixed, if_neg hfixed, hbase, hnull, h.row.bytes hfixed]
          rfl
      rw [hattr, readAt, if_pos h.arena]
      rfl

theorem evalRangeIn_eq (h : ∀ p ∈ cq.preds, cq.evalPredIn row p = cq.evalPred row p) (i n : ℕ) :
    cq.evalRangeIn row i n = cq.evalRange row i n := by
  induction n generalizing i with
  | zero => rfl
  | succ n ih =>
      rw [evalRangeIn, evalRange]
      cases hp : cq.preds[i]? with
      | none => rfl
      | some p =>
          simp only [Option.bind_eq_bind, Option.bind_some, h p (List.mem_of_getElem? hp), ih]

theorem evalIn_eq (h : ∀ p ∈ cq.preds, cq.evalPredIn row p = cq.evalPred row p) :
    cq.evalIn row = cq.eval row := by
  have hclauses (clauses : List ClauseRange) :
      cq.evalClausesIn row clauses = cq.evalClauses row clauses := by
    induction clauses with
    | nil => rfl
    | cons c clauses ih => rw [evalClausesIn, evalClauses, evalRangeIn_eq h, ih]
  exact hclauses cq.clauses

end CompiledQuery

/-! ### The index, likewise -/

namespace BytesList

variable {l : BytesList}

/-- The access gives every string of the list. -/
def Readable (get : BytesList → ℕ → Option Bytes) (l : BytesList) : Prop :=
  ∀ i < l.size, get l i = some (l.get i)

theorem startIn_eq {i : ℕ} (hi : i < l.size) :
    l.startIn i = some (if i = 0 then 0 else l.ends.getD (i - 1) 0) := by
  rw [startIn]
  by_cases h0 : i = 0
  · rw [if_pos h0, if_pos h0]
  · have hlt : i - 1 < l.ends.length := by
      have : i < l.ends.length := hi
      omega
    rw [if_neg h0, if_neg h0, List.getD_eq_getElem?_getD, List.getElem?_eq_getElem hlt]
    rfl

theorem stop_eq {i : ℕ} (hi : i < l.size) : l.ends[i]? = some (l.ends.getD i 0) := by
  have hlt : i < l.ends.length := hi
  rw [List.getD_eq_getElem?_getD, List.getElem?_eq_getElem hlt]
  rfl

theorem readable_entryAt : l.Readable entryAt := by
  intro i hi
  rw [entryAt, startIn_eq hi, stop_eq hi]
  rfl

theorem readable_getIn (hends : l.ends.Pairwise (· ≤ ·))
    (harena : ∀ e ∈ l.ends, e.toNat ≤ l.arena.length) : l.Readable getIn := by
  intro i hi
  have hle : (if i = 0 then 0 else l.ends.getD (i - 1) 0) ≤ l.ends[i] := by
    by_cases h0 : i = 0
    · rw [if_pos h0]
      exact UInt32.zero_le
    · have hlt : i - 1 < l.ends.length := by
        have : i < l.ends.length := hi
        omega
      rw [if_neg h0, List.getD_eq_getElem?_getD, List.getElem?_eq_getElem hlt]
      exact List.pairwise_iff_getElem.1 hends (i - 1) i hlt hi (by omega)
  have hroom := harena _ (List.getElem_mem hi)
  have hstop : l.ends.getD i 0 = l.ends[i] := by
    rw [List.getD_eq_getElem?_getD, List.getElem?_eq_getElem hi]
    rfl
  rw [getIn, get, startIn_eq hi, stop_eq hi, hstop]
  simp only [Option.bind_eq_bind, Option.bind_some]
  have hsub := UInt32.toNat_sub_of_le _ _ hle
  rw [UInt32.le_iff_toNat_le] at hle
  rw [readAt, if_pos (by omega)]

end BytesList

section Index

variable {get : BytesList → ℕ → Option Bytes} {boundaries : BytesList}
  (h : boundaries.Readable get)
include h

theorem BytesList.Readable.searchM_eq (f : Bytes → Bool) :
    BinarySearch.searchM (fun i => (get boundaries i).map f) (boundaries.size % 2 ^ 32) =
      some (BinarySearch.search (fun i => f (boundaries.get i)) (boundaries.size % 2 ^ 32)) := by
  refine BinarySearch.searchM_eq fun i hi => ?_
  rw [h i (hi.trans_le (Nat.mod_le _ _)), Option.map_some]

theorem binOfBy_eq (last : Int32) (v : Bytes) (isOpen : Bool) :
    binOfBy get boundaries last v isOpen = some (binOf boundaries last v isOpen) := by
  cases isOpen with
  | true =>
      have hsearch := h.searchM_eq fun x => decide (x < v)
      simp only [binOfBy, binOf, BytesList.lowerBoundBy, BytesList.lowerBound, if_true, hsearch]
      rfl
  | false =>
      have hsearch := h.searchM_eq fun x => decide (x ≤ v)
      simp only [binOfBy, binOf, BytesList.upperBoundBy, BytesList.upperBound, if_false,
        Bool.false_eq_true, hsearch]
      rfl

theorem selectRangeBy_eq (numBins bitmapOffset : UInt32) (win : ByteInterval) :
    selectRangeBy get boundaries numBins bitmapOffset win =
      some (selectRange boundaries numBins bitmapOffset win) := by
  have hend : endBinBy get boundaries (numBins.toInt32 - 1) win =
      some (if win.hiUnbounded then numBins.toInt32 - 1
        else binOf boundaries (numBins.toInt32 - 1) win.hi win.hiOpen) := by
    rw [endBinBy, binOfBy_eq h]
    split <;> rfl
  rw [selectRangeBy, selectRange, hend]
  simp only [binOfBy_eq h, Option.bind_eq_bind, Option.bind_some]
  generalize (if win.hiUnbounded = true then numBins.toInt32 - 1
    else binOf boundaries (numBins.toInt32 - 1) win.hi win.hiOpen) = endBin
  split <;> rfl

end Index

namespace SABIReader

variable {get : BytesList → ℕ → Option Bytes} {r : SABIReader} {c : SABICondition}

/-- What the constructor leaves behind: parallel arrays, each policy of its
attribute's index type, and boundaries that can be read. -/
structure Consistent (get : BytesList → ℕ → Option Bytes) (r : SABIReader) : Prop where
  bitmapNums : r.bitmapNums.length = r.indexTypes.length
  equality : ∀ i : ℕ, r.indexTypes[i]? = some .equality →
    ∃ entries, r.binningPolicy[i]? = some (.equality entries)
  range : ∀ i : ℕ, r.indexTypes[i]? = some .range →
    ∃ boundaries, r.binningPolicy[i]? = some (.range boundaries) ∧ boundaries.Readable get

theorem Consistent.selectBinsBy (h : r.Consistent get)
    (hidx : c.attrIdx.toNat < r.indexTypes.length) :
    ∃ s, r.selectBinsBy get c = some s ∧ r.selectBins c = some s := by
  obtain ⟨t, htype⟩ : ∃ t, r.indexTypes[c.attrIdx.toNat]? = some t :=
    ⟨_, List.getElem?_eq_getElem hidx⟩
  obtain ⟨n, hnum⟩ : ∃ n, r.bitmapNums[c.attrIdx.toNat]? = some n :=
    ⟨_, List.getElem?_eq_getElem (h.bitmapNums ▸ hidx)⟩
  obtain ⟨off, hoff⟩ : ∃ off, r.attrBinOffset c.attrIdx.toNat = some off :=
    ⟨_, if_pos (by rw [h.bitmapNums]; exact hidx.le)⟩
  cases t with
  | equality =>
      obtain ⟨entries, hpolicy⟩ := h.equality _ htype
      simp only [SABIReader.selectBinsBy, selectBins, htype, hoff, hpolicy, Option.bind_eq_bind,
        Option.bind_some]
      exact ⟨_, rfl, rfl⟩
  | range =>
      obtain ⟨boundaries, hpolicy, hread⟩ := h.range _ htype
      simp only [SABIReader.selectBinsBy, selectBins, htype, hoff, hpolicy, hnum,
        Option.bind_eq_bind, Option.bind_some, selectRangeBy_eq hread]
      split
      · exact ⟨_, rfl, rfl⟩
      · exact ⟨_, rfl, rfl⟩

theorem Consistent.conditionImpossibleBy (h : r.Consistent get) (c : SABICondition) :
    r.conditionImpossibleBy get c = some (r.conditionImpossible c) := by
  rw [SABIReader.conditionImpossibleBy]
  by_cases hidx : r.binningPolicy.length ≤ c.attrIdx.toNat ∨ r.indexTypes.length ≤ c.attrIdx.toNat
  · simp only [if_pos hidx, conditionImpossible]
    rcases hidx with hidx | hidx
    · rw [List.getElem?_eq_none hidx]
    · rw [List.getElem?_eq_none hidx]
      split <;> simp_all
  · obtain ⟨t, htype⟩ : ∃ t, r.indexTypes[c.attrIdx.toNat]? = some t :=
      ⟨_, List.getElem?_eq_getElem (by omega)⟩
    cases t with
    | equality =>
        obtain ⟨entries, hpolicy⟩ := h.equality _ htype
        simp only [if_neg hidx, htype, hpolicy, conditionImpossible, Option.bind_eq_bind,
          Option.bind_some, Option.pure_def]
    | range =>
        obtain ⟨bounds, hpolicy, hread⟩ := h.range _ htype
        simp only [if_neg hidx, htype, hpolicy, Option.bind_eq_bind, Option.bind_some]
        by_cases hsize : bounds.size < 2
        · simp only [conditionImpossible, htype, hpolicy, if_pos hsize, Option.pure_def]
        · rw [if_neg hsize, hread 0 (by omega), hread (bounds.size - 1) (by omega)]
          rfl

theorem Consistent.clauseImpossibleBy (h : r.Consistent get) (clause : SABIOrClause) :
    r.clauseImpossibleBy get clause = some (clause.all r.conditionImpossible) := by
  induction clause with
  | nil => rfl
  | cons c clause ih =>
      rw [SABIReader.clauseImpossibleBy, h.conditionImpossibleBy, ih, List.all_cons]
      cases r.conditionImpossible c <;> rfl

theorem Consistent.queryCanMatchBy (h : r.Consistent get) (q : SABIQuery) :
    r.queryCanMatchBy get q = some (r.queryCanMatch q) := by
  rw [SABIReader.queryCanMatchBy, queryCanMatch]
  induction q.clauseGroups with
  | nil => rfl
  | cons clause clauses ih =>
      rw [queryCanMatchBy.go, List.all_cons, ih, h.clauseImpossibleBy]
      cases clause with
      | nil => rfl
      | cons c clause =>
          have hany : ((c :: clause).any fun c => !r.conditionImpossible c) =
              !(c :: clause).all r.conditionImpossible := by
            rw [List.not_all_eq_any_not]
          rw [hany]
          cases (c :: clause).all r.conditionImpossible <;> rfl

end SABIReader

end BitLSM
