import BitLSM.Row

/-!
Queries in conjunctive normal form and their reference evaluation.

`checkCondition` is the reference evaluator: it decodes attributes through
`decodeAttr` and keeps the last decoded one for the next condition of the
clause. `validate` is the structural check every query passes before it is
evaluated. A comparand of the wrong alternative throws in the source; that,
and an out-of-range attribute, is `none` here.
-/

namespace BitLSM

open Wire

inductive CompareOp where
  | equal
  | lessEqual
  | greaterEqual
  | less
  | greater
  deriving DecidableEq, Repr

/-- `lhs <op> rhs` for two operands of one type. -/
def applyCompareOp {α : Type} [BEq α] [LT α] [LE α] [DecidableLT α] [DecidableLE α]
    (op : CompareOp) (lhs rhs : α) : Bool :=
  match op with
  | .equal => lhs == rhs
  | .less => lhs < rhs
  | .lessEqual => lhs ≤ rhs
  | .greater => rhs < lhs
  | .greaterEqual => rhs ≤ lhs

inductive Comparand where
  | int (x : Int64)
  | uint (x : UInt64)
  | float (d : Binary64)
  | bytes (s : Bytes)
  deriving DecidableEq, Repr

/-- The comparand's alternative is the one of the physical type. -/
def Comparand.fits : Comparand → PhysicalType → Bool
  | .int _, .int => true
  | .uint _, .uint => true
  | .float _, .float => true
  | .bytes _, .binary => true
  | .bytes _, .varBinary => true
  | _, _ => false

structure QueryCondition where
  attrIdx : UInt32
  op : CompareOp
  value : Comparand
  deriving DecidableEq, Repr

/-- Conditions combined with OR. -/
abbrev OrClause := List QueryCondition

/-- Clauses combined with AND. -/
structure BitLSMQuery where
  clauseGroups : List OrClause
  deriving DecidableEq, Repr

/-! ### Reference evaluation -/

def evalCondition (cond : QueryCondition) (attrVal : AttrView) : Option Bool :=
  match attrVal, cond.value with
  -- a NULL attribute makes every comparison UNKNOWN, so no match
  | .null, _ => some false
  | .bytes target, .bytes want => some (applyCompareOp cond.op (Bytes.compare target want) 0)
  | .int x, .int y => some (applyCompareOp cond.op x y)
  | .uint x, .uint y => some (applyCompareOp cond.op x y)
  | .float x, .float y => some (applyCompareOp cond.op x y)
  | _, _ => none

/-- The attribute, decoded again only when it is not the cached one. -/
def cachedDecode (layout : ValueLayout) (buffer : Bytes) (attrIdx cachedIdx : UInt32)
    (cachedVal : AttrView) : Option AttrView :=
  if attrIdx ≠ cachedIdx then decodeAttr layout buffer attrIdx else some cachedVal

/-- One clause, with the last decoded attribute at hand. -/
def checkClause (layout : ValueLayout) (buffer : Bytes) :
    OrClause → UInt32 → AttrView → Option Bool
  | [], _, _ => some false
  | cond :: rest, cachedIdx, cachedVal => do
      let val ← cachedDecode layout buffer cond.attrIdx cachedIdx cachedVal
      if ← evalCondition cond val then return true
      checkClause layout buffer rest cond.attrIdx val

def checkClauses (layout : ValueLayout) (buffer : Bytes) : List OrClause → Option Bool
  | [] => some true
  | clause :: rest => do
      -- the cache starts at `UINT32_MAX`, which no attribute has
      if ← checkClause layout buffer clause 0xFFFFFFFF .null then
        checkClauses layout buffer rest
      else return false

def BitLSMQuery.checkCondition (q : BitLSMQuery) (value : Bytes) (layout : ValueLayout) :
    Option Bool :=
  if q.clauseGroups.isEmpty then some true else checkClauses layout value q.clauseGroups

/-! ### Validation -/

def validateCondition (o : BitLSMOptions) (cond : QueryCondition) : Status :=
  match o.attrSpecs[cond.attrIdx.toNat]? with
  | none => .invalidArgument ("attr_idx " ++ toString cond.attrIdx.toNat ++
      " out of range (attr_num=" ++ toString o.attrSpecs.length ++ ")")
  | some spec =>
      if !cond.value.fits spec.physicalType then
        .invalidArgument ("attr " ++ toString cond.attrIdx.toNat ++
          " comparand type does not match its physical type")
      else if spec.indexType = .equality ∧ cond.op ≠ .equal then
        .invalidArgument ("kEquality attr " ++ toString cond.attrIdx.toNat ++
          " supports only EQUAL")
      else .ok

def validateClause (o : BitLSMOptions) : OrClause → Status
  | [] => .ok
  | cond :: rest =>
      match validateCondition o cond with
      | .ok => validateClause o rest
      | s => s

def validateClauses (o : BitLSMOptions) : ℕ → List OrClause → Status
  | _, [] => .ok
  | ci, clause :: rest =>
      if clause.isEmpty then .invalidArgument ("clause " ++ toString ci ++ " is empty")
      else
        match validateClause o clause with
        | .ok => validateClauses o (ci + 1) rest
        | s => s

def BitLSMQuery.validate (q : BitLSMQuery) (o : BitLSMOptions) : Status :=
  validateClauses o 0 q.clauseGroups

/-- What an accepted condition guarantees about its attribute. -/
structure QueryCondition.Ok (o : BitLSMOptions) (c : QueryCondition) (spec : AttrSpec) :
    Prop where
  spec_eq : o.attrSpecs[c.attrIdx.toNat]? = some spec
  fits : c.value.fits spec.physicalType = true
  equal : spec.indexType = .equality → c.op = .equal

theorem validateCondition_eq_ok {o : BitLSMOptions} {c : QueryCondition} :
    validateCondition o c = .ok ↔ ∃ spec, c.Ok o spec := by
  unfold validateCondition
  cases hs : o.attrSpecs[c.attrIdx.toNat]? with
  | none =>
      simp only [reduceCtorEq, false_iff, not_exists]
      intro spec h
      simp [h.spec_eq] at hs
  | some spec =>
      have huniq : (∃ spec', c.Ok o spec') ↔ c.Ok o spec := by
        refine ⟨?_, fun h => ⟨spec, h⟩⟩
        rintro ⟨spec', h⟩
        have heq : spec' = spec := Option.some.inj (h.spec_eq.symm.trans hs)
        exact heq ▸ h
      rw [huniq]
      by_cases hf : c.value.fits spec.physicalType = true
      · by_cases he : spec.indexType = .equality ∧ c.op ≠ .equal
        · simp only [hf, he, Bool.not_true, Bool.false_eq_true, if_false, if_true, true_and,
            ne_eq, not_false_eq_true, reduceCtorEq, false_iff]
          exact fun h => he.2 (h.equal he.1)
        · simp only [hf, he, Bool.not_true, Bool.false_eq_true, if_false, true_iff]
          exact ⟨hs, hf, fun hi => by_contra fun hop => he ⟨hi, hop⟩⟩
      · simp only [hf, Bool.not_false, if_true, reduceCtorEq, false_iff]
        exact fun h => hf h.fits

theorem validateClause_eq_ok {o : BitLSMOptions} {clause : OrClause} :
    validateClause o clause = .ok ↔ ∀ c ∈ clause, ∃ spec, c.Ok o spec := by
  induction clause with
  | nil => simp [validateClause]
  | cons c rest ih =>
      rw [List.forall_mem_cons, ← ih, ← validateCondition_eq_ok, validateClause]
      cases validateCondition o c <;> simp

theorem validateClauses_eq_ok {o : BitLSMOptions} (ci : ℕ) {clauses : List OrClause} :
    validateClauses o ci clauses = .ok ↔
      ∀ clause ∈ clauses, clause ≠ [] ∧ ∀ c ∈ clause, ∃ spec, c.Ok o spec := by
  induction clauses generalizing ci with
  | nil => simp [validateClauses]
  | cons clause rest ih =>
      rw [List.forall_mem_cons, ← ih (ci + 1), ← validateClause_eq_ok, validateClauses]
      cases clause with
      | nil => simp
      | cons c cs => cases validateClause o (c :: cs) <;> simp

theorem BitLSMQuery.validate_eq_ok {o : BitLSMOptions} {q : BitLSMQuery} :
    q.validate o = .ok ↔
      ∀ clause ∈ q.clauseGroups, clause ≠ [] ∧ ∀ c ∈ clause, ∃ spec, c.Ok o spec :=
  validateClauses_eq_ok 0

/-! ### What the reference evaluator computes

The cache only ever holds what the decoder would return again, so a clause
is the disjunction of its conditions, each on a fresh decode. -/

section Reference

variable {o : BitLSMOptions}

/-- The condition matches the row. -/
def QueryCondition.holds (layout : ValueLayout) (buffer : Bytes) (c : QueryCondition) : Bool :=
  (decodeAttr layout buffer c.attrIdx).bind (evalCondition c) == some true

theorem evalCondition_isSome {c : QueryCondition} {v : AttrView} {p : PhysicalType}
    (hv : v = .null ∨ v.fits p = true) (hc : c.value.fits p = true) :
    ∃ b, evalCondition c v = some b := by
  obtain ⟨idx, op, value⟩ := c
  rcases hv with rfl | hv
  · exact ⟨false, rfl⟩
  · cases v <;> cases p <;> simp [AttrView.fits] at hv <;>
      cases value <;> simp [Comparand.fits] at hc <;> exact ⟨_, rfl⟩

theorem QueryCondition.Ok.eval {c : QueryCondition} {spec : AttrSpec} (h : c.Ok o spec)
    (buffer : Bytes) :
    ∃ v, decodeAttr (ValueLayout.ofOptions o) buffer c.attrIdx = some v ∧
      evalCondition c v = some (c.holds (ValueLayout.ofOptions o) buffer) := by
  obtain ⟨a, hat, rfl⟩ := ValueLayout.exists_at h.spec_eq
  obtain ⟨v, hdec, hfits⟩ := decodeAttr_fits hat buffer
  obtain ⟨b, hb⟩ := evalCondition_isSome hfits h.fits
  refine ⟨v, hdec, ?_⟩
  cases b <;> simp [QueryCondition.holds, hdec, hb]

/-- The cache is unset or holds the decode of its attribute. -/
def CacheOk (layout : ValueLayout) (buffer : Bytes) (idx : UInt32) (val : AttrView) : Prop :=
  idx = 0xFFFFFFFF ∨ decodeAttr layout buffer idx = some val

theorem checkClause_eq {clause : OrClause} (buffer : Bytes) (idx : UInt32) (val : AttrView)
    (hnum : o.attrSpecs.length = o.attrNum.toNat)
    (hok : ∀ c ∈ clause, ∃ spec, c.Ok o spec)
    (hcache : CacheOk (ValueLayout.ofOptions o) buffer idx val) :
    checkClause (ValueLayout.ofOptions o) buffer clause idx val =
      some (clause.any (QueryCondition.holds (ValueLayout.ofOptions o) buffer)) := by
  induction clause generalizing idx val with
  | nil => rfl
  | cons c rest ih =>
      obtain ⟨spec, hc⟩ := hok c (by simp)
      obtain ⟨v, hdec, heval⟩ := hc.eval buffer
      -- no attribute of an accepted schema has the sentinel's index
      have hidx : c.attrIdx ≠ 0xFFFFFFFF := by
        intro heq
        obtain ⟨hlt, -⟩ := List.getElem?_eq_some_iff.1 hc.spec_eq
        have hmax := o.attrNum.toNat_lt
        rw [heq, hnum] at hlt
        exact absurd hlt (by simp only [UInt32.toNat_ofNat]; omega)
      have hval : cachedDecode (ValueLayout.ofOptions o) buffer c.attrIdx idx val = some v := by
        unfold cachedDecode
        split
        · exact hdec
        · next heq =>
            have heq : c.attrIdx = idx := not_not.1 heq
            rcases hcache with hmax | hdec'
            · exact absurd (heq.trans hmax) hidx
            · rw [← hdec', ← heq, hdec]
      have hrest := ih c.attrIdx v (fun c' hc' => hok c' (by simp [hc'])) (Or.inr hdec)
      rw [checkClause, hval, List.any_cons]
      cases hh : c.holds (ValueLayout.ofOptions o) buffer <;>
        simp [heval, hh, hrest]

/-- The reference evaluator is the CNF over conditions evaluated one by one. -/
theorem BitLSMQuery.checkCondition_eq {q : BitLSMQuery} (value : Bytes)
    (hschema : validateAttrSpecs o = .ok) (hq : q.validate o = .ok) :
    q.checkCondition value (ValueLayout.ofOptions o) =
      some (q.clauseGroups.all fun clause =>
        clause.any (QueryCondition.holds (ValueLayout.ofOptions o) value)) := by
  have hnum := (validateAttrSpecs_eq_ok.1 hschema).1
  have hok := BitLSMQuery.validate_eq_ok.1 hq
  have hall : checkClauses (ValueLayout.ofOptions o) value q.clauseGroups =
      some (q.clauseGroups.all fun clause =>
        clause.any (QueryCondition.holds (ValueLayout.ofOptions o) value)) := by
    generalize q.clauseGroups = clauses at hok
    induction clauses with
    | nil => rfl
    | cons clause rest ih =>
        have hclause := checkClause_eq value _ .null hnum (hok clause (by simp)).2 (Or.inl rfl)
        have hrest := ih fun c hc => hok c (by simp [hc])
        rw [checkClauses, hclause, List.all_cons]
        cases hh : clause.any (QueryCondition.holds (ValueLayout.ofOptions o) value) <;>
          simp [hrest]
  unfold BitLSMQuery.checkCondition
  split
  · next h => simp [List.isEmpty_iff.1 h]
  · exact hall

end Reference

end BitLSM
