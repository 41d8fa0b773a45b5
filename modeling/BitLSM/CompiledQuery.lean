import Mathlib.Data.List.Forall2
import BitLSM.Query

/-!
The compiled form of a query, evaluated on every scanned row.

The constructor resolves each condition against the layout once: predicates
lie in one flat list, a clause is a range of it, and binary comparands lie
back to back in an arena. Ranges, arena offsets and comparand lengths are
`uint32_t`.
-/

namespace BitLSM

open Wire

structure Pred where
  isNumeric : Bool
  op : CompareOp
  nullBit : Int32
  slot : UInt32
  spec : AttrSpec
  ival : Int64 := 0
  uval : UInt64 := 0
  dval : Binary64 := ⟨0⟩
  /-- Binary comparand: offset into the arena, and length. -/
  soff : UInt32 := 0
  slen : UInt32 := 0

/-- Predicates `first .. stop - 1` form one clause. -/
structure ClauseRange where
  first : UInt32
  stop : UInt32

structure CompiledQuery where
  preds : List Pred := []
  clauses : List ClauseRange := []
  variableBase : UInt32
  nullBitmapBytes : UInt32
  arena : Bytes := []

namespace CompiledQuery

def addPred (layout : ValueLayout) (cq : CompiledQuery) (cond : QueryCondition) :
    Option CompiledQuery := do
  let spec ← layout.specs[cond.attrIdx.toNat]?
  let nullBit ← layout.nullBit[cond.attrIdx.toNat]?
  let slot ← layout.slot[cond.attrIdx.toNat]?
  let p : Pred := { isNumeric := spec.isNumeric, op := cond.op, nullBit, slot, spec }
  match spec.physicalType, cond.value with
  | .float, .float d => return { cq with preds := cq.preds ++ [{ p with dval := d }] }
  | .int, .int x => return { cq with preds := cq.preds ++ [{ p with ival := x }] }
  | .uint, .uint x => return { cq with preds := cq.preds ++ [{ p with uval := x }] }
  | .binary, .bytes str | .varBinary, .bytes str =>
      let soff := UInt32.ofNat cq.arena.length
      let slen := UInt32.ofNat str.length
      return { cq with
        preds := cq.preds ++ [{ p with soff, slen }]
        arena := cq.arena ++ str }
  | _, _ => none

def addClause (layout : ValueLayout) (cq : CompiledQuery) (clause : OrClause) :
    Option CompiledQuery := do
  let first := UInt32.ofNat cq.preds.length
  let cq ← clause.foldlM (addPred layout) cq
  return { cq with clauses := cq.clauses ++ [⟨first, UInt32.ofNat cq.preds.length⟩] }

def ofQuery (query : BitLSMQuery) (o : BitLSMOptions) : Option CompiledQuery :=
  let layout := ValueLayout.ofOptions o
  query.clauseGroups.foldlM (addClause layout)
    { variableBase := layout.variableBase, nullBitmapBytes := layout.nullBitmapBytes }

def passOp (op : CompareOp) (cmp : Int) : Bool :=
  match op with
  | .equal => cmp = 0
  | .greaterEqual => 0 ≤ cmp
  | .lessEqual => cmp ≤ 0
  | .greater => 0 < cmp
  | .less => cmp < 0

/-- The numeric predicate, on the scalar in the fixed slot. -/
def evalNumeric (base : Bytes) (p : Pred) : Option Bool :=
  if p.spec.physicalType = .float ∧ p.spec.width = 8 then
    some (applyCompareOp p.op (loadDouble (base.drop p.slot.toNat)) p.dval)
  else
    match p.spec.physicalType, decodeFixed (base.drop p.slot.toNat) p.spec with
    | .float, .float v => some (applyCompareOp p.op v p.dval)
    | .float, _ => none
    | .int, .int v => some (applyCompareOp p.op v p.ival)
    | .int, _ => none
    | _, .uint v => some (applyCompareOp p.op v p.uval)
    | _, _ => none

/-- The row bytes a binary predicate compares. -/
def binaryAttr (cq : CompiledQuery) (base : Bytes) (p : Pred) : Bytes :=
  if p.spec.isFixed then slice base p.slot.toNat p.spec.width.toNat
  else
    let ve := base.drop cq.nullBitmapBytes.toNat
    let stop := loadU32 (ve.drop (p.slot.toNat * 4))
    let start := if 0 < p.slot then loadU32 (ve.drop ((p.slot - 1).toNat * 4)) else 0
    slice base (cq.variableBase.toNat + start.toNat) (stop - start).toNat

def evalPred (cq : CompiledQuery) (base : Bytes) (p : Pred) : Option Bool :=
  if 0 ≤ p.nullBit ∧ isNullBitSet base p.nullBit then some false
  else if p.isNumeric then evalNumeric base p
  else
    let want := slice cq.arena p.soff.toNat p.slen.toNat
    some (passOp p.op (Bytes.compare (cq.binaryAttr base p) want))

/-- The loop over `n` predicates from position `i` on. -/
def evalRange (cq : CompiledQuery) (base : Bytes) : ℕ → ℕ → Option Bool
  | _, 0 => some false
  | i, n + 1 => do
      let p ← cq.preds[i]?
      if ← cq.evalPred base p then return true
      evalRange cq base (i + 1) n

def evalClauses (cq : CompiledQuery) (base : Bytes) : List ClauseRange → Option Bool
  | [] => some true
  | c :: rest => do
      if ← cq.evalRange base c.first.toNat (c.stop.toNat - c.first.toNat) then
        evalClauses cq base rest
      else return false

def eval (cq : CompiledQuery) (value : Bytes) : Option Bool :=
  cq.evalClauses value cq.clauses

/-! ### One predicate -/

/-- The binary bytes of a comparand, as the arena stores them. -/
def arenaBytes : Comparand → Bytes
  | .bytes s => s
  | _ => []

/-- `p` keeps the comparand, a binary one as a segment of the arena. -/
def KeepsComparand (arena : Bytes) (p : Pred) : Comparand → Prop
  | .int x => p.ival = x
  | .uint x => p.uval = x
  | .float d => p.dval = d
  | .bytes s => HasAt arena p.soff.toNat s ∧ p.slen.toNat = s.length

/-- `p` is condition `c`, resolved against the layout. -/
structure PredFor (l : ValueLayout) (arena : Bytes) (c : QueryCondition) (p : Pred) : Prop where
  at_slot : l.At c.attrIdx ⟨p.spec, p.nullBit, p.slot⟩
  fits : c.value.fits p.spec.physicalType = true
  isNumeric : p.isNumeric = p.spec.isNumeric
  op : p.op = c.op
  comparand : KeepsComparand arena p c.value

theorem passOp_eq (op : CompareOp) (cmp : Int) : passOp op cmp = applyCompareOp op cmp 0 := by
  cases op with
  | equal => rw [passOp, applyCompareOp, Bool.beq_eq_decide_eq]
  | _ => rfl

theorem PredFor.append {l : ValueLayout} {arena : Bytes} {c : QueryCondition} {p : Pred}
    (h : PredFor l arena c p) (bytes : Bytes) : PredFor l (arena ++ bytes) c p := by
  refine ⟨h.at_slot, h.fits, h.isNumeric, h.op, ?_⟩
  have hkeeps := h.comparand
  cases hv : c.value with
  | bytes s =>
      rw [hv] at hkeeps
      exact ⟨hkeeps.1.append bytes, hkeeps.2⟩
  | _ => rwa [hv] at hkeeps

/-- A numeric predicate compares the scalar the decoder returns. -/
theorem evalNumeric_eq {l : ValueLayout} {arena base : Bytes} {c : QueryCondition} {p : Pred}
    (h : PredFor l arena c p) (hnum : p.spec.isNumeric = true) :
    evalNumeric base p = evalCondition c (decodeFixed (base.drop p.slot.toNat) p.spec) := by
  have hfits := h.fits
  have hkeeps := h.comparand
  unfold evalNumeric
  cases hp : p.spec.physicalType <;> cases hv : c.value <;>
    simp [hp, hv, Comparand.fits, AttrSpec.isNumeric] at hfits hnum <;>
    rw [hv] at hkeeps
  case int.int x =>
    have hival : p.ival = x := hkeeps
    simp [decodeFixed, hp, evalCondition, hv, h.op, hival]
  case uint.uint x =>
    have huval : p.uval = x := hkeeps
    simp [decodeFixed, hp, evalCondition, hv, h.op, huval]
  case float.float d =>
    have hdval : p.dval = d := hkeeps
    by_cases hw : p.spec.width = 8 <;>
      simp [decodeFixed, hp, evalCondition, hv, h.op, hw, hdval]

/-- A binary predicate compares the bytes the decoder returns. -/
theorem binaryAttr_eq {l : ValueLayout} {cq : CompiledQuery} {p : Pred} (base : Bytes)
    (hbase : cq.variableBase = l.variableBase)
    (hnull : cq.nullBitmapBytes = l.nullBitmapBytes) (hbin : p.spec.isNumeric = false) :
    .bytes (cq.binaryAttr base p) =
      if p.spec.isFixed then decodeFixed (base.drop p.slot.toNat) p.spec
      else AttrView.bytes (l.variableBytes base p.slot) := by
  unfold binaryAttr
  split
  · next hfixed =>
      cases hp : p.spec.physicalType <;>
        simp [AttrSpec.isNumeric, AttrSpec.isFixed, hp] at hbin hfixed
      simp [decodeFixed, hp, slice]
  · rw [hbase, hnull]
    rfl

/-- A predicate gives what its condition gives on a fresh decode. -/
theorem evalPred_eq {l : ValueLayout} {cq : CompiledQuery} {c : QueryCondition} {p : Pred}
    (base : Bytes) (hbase : cq.variableBase = l.variableBase)
    (hnull : cq.nullBitmapBytes = l.nullBitmapBytes) (h : PredFor l cq.arena c p) :
    cq.evalPred base p = (decodeAttr l base c.attrIdx).bind (evalCondition c) := by
  rw [decodeAttr_eq h.at_slot, Option.bind_some, evalPred]
  by_cases hn : 0 ≤ p.nullBit ∧ isNullBitSet base p.nullBit = true
  · have hn' : AttrSlot.isNull ⟨p.spec, p.nullBit, p.slot⟩ base := hn
    rw [if_pos hn, if_pos hn']
    rfl
  · have hn' : ¬AttrSlot.isNull ⟨p.spec, p.nullBit, p.slot⟩ base := hn
    rw [if_neg hn, if_neg hn', h.isNumeric]
    cases hnum : p.spec.isNumeric with
    | true =>
        have hfixed : p.spec.isFixed = true := by
          cases hp : p.spec.physicalType <;>
            simp [AttrSpec.isNumeric, AttrSpec.isFixed, hp] at hnum ⊢
        rw [if_pos rfl, if_pos hfixed, evalNumeric_eq h hnum]
    | false =>
        obtain ⟨s, hv⟩ : ∃ s, c.value = .bytes s := by
          have hfits := h.fits
          cases hp : p.spec.physicalType <;> cases hv : c.value <;>
            simp [hp, hv, Comparand.fits, AttrSpec.isNumeric] at hfits hnum ⊢
        have hkeeps := h.comparand
        rw [hv] at hkeeps
        have hwant : slice cq.arena p.soff.toNat p.slen.toNat = s := by
          rw [hkeeps.2]
          exact hkeeps.1.slice_eq
        rw [← binaryAttr_eq base hbase hnull hnum]
        simp [evalCondition, hv, hwant, passOp_eq, h.op]

/-! ### Compilation

While what is recorded fits 32 bits, every range and every segment of the arena
is the true one. -/

/-- The comparands of these conditions, put behind `n` bytes of the arena, have
offsets and lengths of 32 bits. An empty comparand is found at any offset. -/
def ArenaFits : ℕ → List QueryCondition → Prop
  | _, [] => True
  | n, c :: rest => (arenaBytes c.value ≠ [] → n < 2 ^ 32) ∧ (arenaBytes c.value).length < 2 ^ 32 ∧
      ArenaFits (n + (arenaBytes c.value).length) rest

/-- One condition adds one predicate and its comparand's bytes. -/
theorem addPred_spec {o : BitLSMOptions} (cq : CompiledQuery) {c : QueryCondition}
    {spec : AttrSpec} (hc : c.Ok o spec)
    (hoffset : arenaBytes c.value ≠ [] → cq.arena.length < 2 ^ 32)
    (hlength : (arenaBytes c.value).length < 2 ^ 32) :
    ∃ p, addPred (ValueLayout.ofOptions o) cq c =
        some { cq with preds := cq.preds ++ [p], arena := cq.arena ++ arenaBytes c.value } ∧
      PredFor (ValueLayout.ofOptions o) (cq.arena ++ arenaBytes c.value) c p := by
  obtain ⟨a, hat, rfl⟩ := ValueLayout.exists_at hc.spec_eq
  have hfits := hc.fits
  unfold addPred
  simp only [hat.specs, hat.nullBit, hat.slot, Option.bind_eq_bind, Option.bind_some]
  cases hp : a.spec.physicalType <;> cases hv : c.value <;>
    simp [hp, hv, Comparand.fits] at hfits
  case int.int x =>
    exact ⟨_, by simp [arenaBytes]; rfl, hat, hc.fits, rfl, rfl, by rw [hv]; rfl⟩
  case uint.uint x =>
    exact ⟨_, by simp [arenaBytes]; rfl, hat, hc.fits, rfl, rfl, by rw [hv]; rfl⟩
  case float.float d =>
    exact ⟨_, by simp [arenaBytes]; rfl, hat, hc.fits, rfl, rfl, by rw [hv]; rfl⟩
  all_goals
    next s =>
      rw [hv] at hoffset hlength
      simp only [arenaBytes] at hoffset hlength
      refine ⟨_, rfl, hat, hc.fits, rfl, rfl, ?_⟩
      rw [hv]
      refine ⟨?_, ?_⟩
      · by_cases hs : s = []
        · subst hs
          refine HasAt.nil ?_
          simp only [UInt32.toNat_ofNat', arenaBytes, List.append_nil]
          exact Nat.mod_le _ _
        · have hoff : (UInt32.ofNat cq.arena.length).toNat = cq.arena.length := by
            rw [UInt32.toNat_ofNat', Nat.mod_eq_of_lt (hoffset hs)]
          simpa [hoff, arenaBytes] using HasAt.intro cq.arena s []
      · rw [UInt32.toNat_ofNat', Nat.mod_eq_of_lt hlength]

/-- The comparand bytes of a list of conditions, in arena order. -/
def conditionBytes (conds : List QueryCondition) : Bytes :=
  conds.flatMap fun c => arenaBytes c.value

theorem arenaFits_append {conds rest : List QueryCondition} {n : ℕ} :
    ArenaFits n (conds ++ rest) ↔
      ArenaFits n conds ∧ ArenaFits (n + (conditionBytes conds).length) rest := by
  induction conds generalizing n with
  | nil => simp [ArenaFits, conditionBytes]
  | cons c conds ih =>
      have hbytes : (conditionBytes (c :: conds)).length =
          (arenaBytes c.value).length + (conditionBytes conds).length := by
        rw [conditionBytes, List.flatMap_cons, List.length_append, conditionBytes]
      rw [List.cons_append, ArenaFits, ArenaFits, ih, hbytes, Nat.add_assoc]
      tauto

/-- In particular if all comparands together have fewer than `2 ^ 32` bytes. -/
theorem arenaFits_of_lt {conds : List QueryCondition} {n : ℕ}
    (h : n + (conditionBytes conds).length < 2 ^ 32) : ArenaFits n conds := by
  induction conds generalizing n with
  | nil => trivial
  | cons c conds ih =>
      rw [conditionBytes, List.flatMap_cons, List.length_append, ← conditionBytes] at h
      exact ⟨fun _ => by omega, by omega, ih (by omega)⟩

theorem foldlM_addPred_spec {o : BitLSMOptions} {clause : OrClause} (cq : CompiledQuery)
    (hok : ∀ c ∈ clause, ∃ spec, c.Ok o spec) (hfit : ArenaFits cq.arena.length clause) :
    ∃ g, clause.foldlM (addPred (ValueLayout.ofOptions o)) cq =
        some { cq with preds := cq.preds ++ g, arena := cq.arena ++ conditionBytes clause } ∧
      List.Forall₂ (PredFor (ValueLayout.ofOptions o) (cq.arena ++ conditionBytes clause))
        clause g := by
  induction clause generalizing cq with
  | nil => exact ⟨[], by simp [conditionBytes], .nil⟩
  | cons c rest ih =>
      obtain ⟨spec, hc⟩ := hok c (by simp)
      have hbytes : conditionBytes (c :: rest) = arenaBytes c.value ++ conditionBytes rest := rfl
      obtain ⟨hoffset, hlength, hfit⟩ := hfit
      obtain ⟨p, hadd, hp⟩ := addPred_spec cq hc hoffset hlength
      obtain ⟨g, hrest, hg⟩ := ih
        { cq with preds := cq.preds ++ [p], arena := cq.arena ++ arenaBytes c.value }
        (fun c' hc' => hok c' (by simp [hc'])) (by simpa only [List.length_append] using hfit)
      refine ⟨p :: g, ?_, ?_⟩
      · rw [List.foldlM_cons, hadd]
        simpa [hbytes] using hrest
      · rw [hbytes, ← List.append_assoc]
        exact .cons (hp.append _) hg

/-- The range of predicates `r` holds the clause. -/
def HoldsClause (l : ValueLayout) (preds : List Pred) (arena : Bytes) (clause : OrClause)
    (r : ClauseRange) : Prop :=
  ∃ g, HasAt preds r.first.toNat g ∧ r.stop.toNat = r.first.toNat + g.length ∧
    List.Forall₂ (PredFor l arena) clause g

theorem HoldsClause.append {l : ValueLayout} {preds : List Pred} {arena : Bytes}
    {clause : OrClause} {r : ClauseRange} (h : HoldsClause l preds arena clause r)
    (ps : List Pred) (bytes : Bytes) : HoldsClause l (preds ++ ps) (arena ++ bytes) clause r := by
  obtain ⟨g, hat, hstop, hg⟩ := h
  exact ⟨g, hat.append ps, hstop, hg.imp fun _ _ hp => hp.append bytes⟩

/-- `cq` is the compiled form of `clauses`. -/
structure CompiledFor (l : ValueLayout) (clauses : List OrClause) (cq : CompiledQuery) :
    Prop where
  variableBase : cq.variableBase = l.variableBase
  nullBitmapBytes : cq.nullBitmapBytes = l.nullBitmapBytes
  arena : cq.arena = conditionBytes clauses.flatten
  length_preds : cq.preds.length = clauses.flatten.length
  ranges : List.Forall₂ (HoldsClause l cq.preds cq.arena) clauses cq.clauses

/-- Adding a clause keeps the ranges of the clauses before it. -/
theorem addClause_spec {o : BitLSMOptions} {clauses : List OrClause} {clause : OrClause}
    {cq : CompiledQuery} (h : CompiledFor (ValueLayout.ofOptions o) clauses cq)
    (hok : ∀ c ∈ clause, ∃ spec, c.Ok o spec)
    (hconds : (clauses ++ [clause]).flatten.length < 2 ^ 32)
    (hbytes : ArenaFits (conditionBytes clauses.flatten).length clause) :
    ∃ cq', addClause (ValueLayout.ofOptions o) cq clause = some cq' ∧
      CompiledFor (ValueLayout.ofOptions o) (clauses ++ [clause]) cq' := by
  have hsplit : conditionBytes (clauses ++ [clause]).flatten =
      cq.arena ++ conditionBytes clause := by
    simp [conditionBytes, h.arena]
  rw [← h.arena] at hbytes
  obtain ⟨g, hfold, hg⟩ := foldlM_addPred_spec cq hok hbytes
  have hlen : g.length = clause.length := hg.length_eq.symm
  rw [List.flatten_append, List.length_append, ← h.length_preds] at hconds
  simp only [List.flatten_singleton] at hconds
  have hfirst : (UInt32.ofNat cq.preds.length).toNat = cq.preds.length := by
    simp only [UInt32.toNat_ofNat']
    omega
  have hstop : (UInt32.ofNat (cq.preds ++ g).length).toNat = cq.preds.length + g.length := by
    simp only [UInt32.toNat_ofNat', List.length_append]
    omega
  have hadd : addClause (ValueLayout.ofOptions o) cq clause = some
      { cq with
        preds := cq.preds ++ g
        arena := cq.arena ++ conditionBytes clause
        clauses := cq.clauses ++
          [⟨UInt32.ofNat cq.preds.length, UInt32.ofNat (cq.preds ++ g).length⟩] } := by
    rw [addClause, hfold]
    rfl
  refine ⟨_, hadd, h.variableBase, h.nullBitmapBytes, hsplit.symm, ?_, ?_⟩
  · simp [h.length_preds, hlen]
  · refine List.rel_append (h.ranges.imp fun _ _ hr => hr.append g _) (.cons ?_ .nil)
    refine ⟨g, ?_, ?_, hg⟩
    · rw [hfirst]
      simpa using HasAt.intro cq.preds g []
    · rw [hfirst]
      exact hstop

/-- A query whose ranges and comparands fit 32 bits compiles. -/
theorem ofQuery_spec {o : BitLSMOptions} {q : BitLSMQuery} (hq : q.validate o = .ok)
    (hconds : q.clauseGroups.flatten.length < 2 ^ 32)
    (hbytes : ArenaFits 0 q.clauseGroups.flatten) :
    ∃ cq, ofQuery q o = some cq ∧ CompiledFor (ValueLayout.ofOptions o) q.clauseGroups cq := by
  have hok := BitLSMQuery.validate_eq_ok.1 hq
  -- the clauses compiled so far, with the rest still to come
  have hrun : ∀ (rest done : List OrClause) (cq : CompiledQuery),
      done ++ rest = q.clauseGroups → CompiledFor (ValueLayout.ofOptions o) done cq →
      ∃ cq', rest.foldlM (addClause (ValueLayout.ofOptions o)) cq = some cq' ∧
        CompiledFor (ValueLayout.ofOptions o) q.clauseGroups cq' := by
    intro rest
    induction rest with
    | nil =>
        intro done cq hsplit hdone
        rw [List.append_nil] at hsplit
        exact ⟨cq, rfl, hsplit ▸ hdone⟩
    | cons clause rest ih =>
        intro done cq hsplit hdone
        have hsplit' : (done ++ [clause]) ++ rest = q.clauseGroups := by simpa using hsplit
        have hflat : q.clauseGroups.flatten =
            (done ++ [clause]).flatten ++ rest.flatten := by
          rw [← hsplit', List.flatten_append]
        have hmem : clause ∈ q.clauseGroups := by simp [← hsplit]
        rw [hflat, List.length_append] at hconds
        rw [hflat, List.flatten_append, List.flatten_singleton, arenaFits_append, arenaFits_append,
          Nat.zero_add] at hbytes
        obtain ⟨cq', hadd, hcq'⟩ := addClause_spec hdone (hok clause hmem).2 (by omega) hbytes.1.2
        obtain ⟨cq'', hfold, hcq''⟩ := ih _ cq' hsplit' hcq'
        exact ⟨cq'', by rw [List.foldlM_cons, hadd]; exact hfold, hcq''⟩
  exact hrun q.clauseGroups [] _ rfl ⟨rfl, rfl, rfl, rfl, .nil⟩

/-! ### Evaluation -/

section Evaluation

variable {o : BitLSMOptions} {cq : CompiledQuery} {clauses : List OrClause}

theorem evalRange_eq (base : Bytes) {clause : OrClause} {g : List Pred} {i : ℕ}
    (hcq : CompiledFor (ValueLayout.ofOptions o) clauses cq) (hat : HasAt cq.preds i g)
    (hg : List.Forall₂ (PredFor (ValueLayout.ofOptions o) cq.arena) clause g)
    (hok : ∀ c ∈ clause, ∃ spec, c.Ok o spec) :
    cq.evalRange base i g.length =
      some (clause.any (QueryCondition.holds (ValueLayout.ofOptions o) base)) := by
  induction hg generalizing i with
  | nil => rfl
  | @cons c p rest ps hp _ ih =>
      obtain ⟨spec, hc⟩ := hok c (by simp)
      obtain ⟨v, hdec, heval⟩ := hc.eval base
      have hpred := evalPred_eq base hcq.variableBase hcq.nullBitmapBytes hp
      rw [hdec, Option.bind_some, heval] at hpred
      have hrest := ih hat.tail fun c' hc' => hok c' (by simp [hc'])
      rw [List.length_cons, evalRange, hat.getElem?, List.any_cons]
      cases hh : c.holds (ValueLayout.ofOptions o) base <;> simp [hpred, hh, hrest]

theorem evalClauses_eq (base : Bytes) {all : List OrClause} {ranges : List ClauseRange}
    (hcq : CompiledFor (ValueLayout.ofOptions o) all cq)
    (hranges : List.Forall₂ (HoldsClause (ValueLayout.ofOptions o) cq.preds cq.arena)
      clauses ranges)
    (hok : ∀ clause ∈ clauses, ∀ c ∈ clause, ∃ spec, c.Ok o spec) :
    cq.evalClauses base ranges =
      some (clauses.all fun clause =>
        clause.any (QueryCondition.holds (ValueLayout.ofOptions o) base)) := by
  induction hranges with
  | nil => rfl
  | @cons clause r rest rs hr _ ih =>
      obtain ⟨g, hat, hstop, hg⟩ := hr
      have hcount : r.stop.toNat - r.first.toNat = g.length := by omega
      have hclause := evalRange_eq base hcq hat hg (hok clause (by simp))
      have hrest := ih fun clause' h => hok clause' (by simp [h])
      rw [evalClauses, hcount, hclause, List.all_cons]
      cases hh : clause.any (QueryCondition.holds (ValueLayout.ofOptions o) base) <;>
        simp [hrest]

theorem CompiledFor.eval_eq {q : BitLSMQuery} (hschema : validateAttrSpecs o = .ok)
    (hq : q.validate o = .ok)
    (hcq : CompiledFor (ValueLayout.ofOptions o) q.clauseGroups cq) (row : Bytes) :
    cq.eval row = q.checkCondition row (ValueLayout.ofOptions o) := by
  have hok := BitLSMQuery.validate_eq_ok.1 hq
  rw [BitLSMQuery.checkCondition_eq row hschema hq]
  exact evalClauses_eq row hcq hcq.ranges fun clause hc => (hok clause hc).2

end Evaluation

end CompiledQuery

/-! ### The two evaluators agree

Clauses may be compiled with their conditions in another order: a clause is
a disjunction. -/

/-- `q'` is `q` with the conditions inside its clauses reordered. -/
def BitLSMQuery.Reordered (q' q : BitLSMQuery) : Prop :=
  List.Forall₂ List.Perm q'.clauseGroups q.clauseGroups

theorem BitLSMQuery.Reordered.flatten_perm {q' q : BitLSMQuery} (h : q'.Reordered q) :
    q'.clauseGroups.flatten.Perm q.clauseGroups.flatten := by
  unfold BitLSMQuery.Reordered at h
  generalize q'.clauseGroups = cs', q.clauseGroups = cs at h
  induction h with
  | nil => exact .refl _
  | cons hp _ ih => simpa using hp.append ih

theorem BitLSMQuery.Reordered.validate {q' q : BitLSMQuery} (h : q'.Reordered q)
    {o : BitLSMOptions} (hq : q.validate o = .ok) : q'.validate o = .ok := by
  rw [BitLSMQuery.validate_eq_ok] at hq ⊢
  unfold BitLSMQuery.Reordered at h
  generalize q'.clauseGroups = cs', q.clauseGroups = cs at h hq
  induction h with
  | nil => simp
  | @cons clause' clause rest' rest hp _ ih =>
      rw [List.forall_mem_cons] at hq ⊢
      refine ⟨⟨?_, fun c hc => hq.1.2 c (hp.subset hc)⟩, ih hq.2⟩
      rintro rfl
      exact hq.1.1 hp.nil_eq.symm

theorem BitLSMQuery.Reordered.checkCondition {q' q : BitLSMQuery} (h : q'.Reordered q)
    {o : BitLSMOptions} (hschema : validateAttrSpecs o = .ok) (hq : q.validate o = .ok)
    (value : Bytes) :
    q'.checkCondition value (ValueLayout.ofOptions o) =
      q.checkCondition value (ValueLayout.ofOptions o) := by
  rw [BitLSMQuery.checkCondition_eq value hschema hq,
    BitLSMQuery.checkCondition_eq value hschema (h.validate hq)]
  unfold BitLSMQuery.Reordered at h
  generalize q'.clauseGroups = cs', q.clauseGroups = cs at h
  induction h with
  | nil => rfl
  | cons hp _ ih =>
      rw [List.all_cons, List.all_cons, hp.any_eq, Option.some.inj ih]

/-- The bytes of all binary comparands together. -/
def BitLSMQuery.comparandBytes (q : BitLSMQuery) : ℕ :=
  (CompiledQuery.conditionBytes q.clauseGroups.flatten).length

/-- While no recorded range, offset or length loses bits, the compiled query
evaluates every row as the reference evaluator does. -/
theorem CompiledQuery.eval_eq_checkCondition {o : BitLSMOptions} {q q' : BitLSMQuery}
    (hschema : validateAttrSpecs o = .ok) (hq : q.validate o = .ok) (hre : q'.Reordered q)
    (hconds : q'.clauseGroups.flatten.length < 2 ^ 32)
    (hbytes : ArenaFits 0 q'.clauseGroups.flatten) :
    ∃ cq, CompiledQuery.ofQuery q' o = some cq ∧
      ∀ row, ∃ b, cq.eval row = some b ∧
        q.checkCondition row (ValueLayout.ofOptions o) = some b := by
  have hq' := hre.validate hq
  obtain ⟨cq, hcompile, hcq⟩ := ofQuery_spec hq' hconds hbytes
  refine ⟨cq, hcompile, fun row => ?_⟩
  rw [hcq.eval_eq hschema hq' row, hre.checkCondition hschema hq row,
    BitLSMQuery.checkCondition_eq row hschema hq]
  exact ⟨_, rfl, rfl⟩

/-- A disjunction over a nullable integer and a string, compiled with its
conditions swapped. -/
theorem CompiledQuery.eval_eq_checkCondition_swapped :
    ∃ cq, CompiledQuery.ofQuery
        ⟨[[⟨1, .less, .bytes [98]⟩, ⟨0, .equal, .int 7⟩]]⟩
        ⟨2, [⟨.equality, .int, 4, true⟩, ⟨.range, .varBinary, 0, false⟩]⟩ = some cq ∧
      ∀ row, ∃ b, cq.eval row = some b ∧
        (BitLSMQuery.mk [[⟨0, .equal, .int 7⟩, ⟨1, .less, .bytes [98]⟩]]).checkCondition row
          (ValueLayout.ofOptions
            ⟨2, [⟨.equality, .int, 4, true⟩, ⟨.range, .varBinary, 0, false⟩]⟩) = some b :=
  CompiledQuery.eval_eq_checkCondition rfl rfl (.cons (.swap _ _ []) .nil) (by decide)
    (CompiledQuery.arenaFits_of_lt (by decide))

/-- The schema of one variable-width binary attribute. -/
def oneVarBinary : BitLSMOptions := ⟨1, [⟨.equality, .varBinary, 0, false⟩]⟩

/-- The predicate of a comparand whose recorded length is `0`. -/
def lengthZeroPred : Pred where
  isNumeric := false
  op := .equal
  nullBit := -1
  slot := 0
  spec := ⟨.equality, .varBinary, 0, false⟩

theorem CompiledQuery.eval_lengthZeroPred (arena : Bytes) :
    (CompiledQuery.mk [lengthZeroPred] [⟨0, 1⟩] 4 0 arena).eval [0, 0, 0, 0] = some true := by
  have hattr : (CompiledQuery.mk [lengthZeroPred] [⟨0, 1⟩] 4 0 arena).binaryAttr [0, 0, 0, 0]
      lengthZeroPred = [] :=
    (show (CompiledQuery.mk [lengthZeroPred] [⟨0, 1⟩] 4 0 []).binaryAttr [0, 0, 0, 0]
      lengthZeroPred = [] by decide)
  have hwant : slice arena lengthZeroPred.soff.toNat lengthZeroPred.slen.toNat = [] := by
    simp [slice, lengthZeroPred]
  have hpred : (CompiledQuery.mk [lengthZeroPred] [⟨0, 1⟩] 4 0 arena).evalPred [0, 0, 0, 0]
      lengthZeroPred = some true := by
    rw [evalPred, hattr, hwant]
    decide
  simp [CompiledQuery.eval, evalClauses, evalRange, hpred]

/-- The comparand's length is kept modulo `2 ^ 32`. -/
theorem CompiledQuery.eval_long_comparand {s : Bytes} (hs : s.length = 2 ^ 32) :
    ∃ cq, CompiledQuery.ofQuery ⟨[[⟨0, .equal, .bytes s⟩]]⟩ oneVarBinary = some cq ∧
      cq.eval [0, 0, 0, 0] = some true ∧
      (BitLSMQuery.mk [[⟨0, .equal, .bytes s⟩]]).checkCondition [0, 0, 0, 0]
        (ValueLayout.ofOptions oneVarBinary) = some false := by
  have hlen : UInt32.ofNat s.length = 0 := by
    rw [hs]
    rfl
  have hcompile : CompiledQuery.ofQuery ⟨[[⟨0, .equal, .bytes s⟩]]⟩ oneVarBinary =
      some ⟨[{ lengthZeroPred with slen := UInt32.ofNat s.length }], [⟨0, 1⟩], 4, 0, s⟩ := rfl
  rw [hlen] at hcompile
  refine ⟨_, hcompile, eval_lengthZeroPred s, ?_⟩
  have hcmp : Bytes.compare [] s ≠ 0 := by
    rw [ne_eq, Bytes.compare_eq_zero]
    rintro rfl
    simp at hs
  have hdec : decodeAttr (ValueLayout.ofOptions oneVarBinary) [0, 0, 0, 0] 0 =
      some (.bytes []) := rfl
  simp [BitLSMQuery.checkCondition, checkClauses, checkClause, cachedDecode, hdec,
    evalCondition, applyCompareOp, hcmp]

/-- A comparand of `2 ^ 32` zero bytes matches the row of the empty string
when compiled, and does not match it by the reference evaluator. -/
theorem CompiledQuery.eval_ne_checkCondition :
    validateAttrSpecs oneVarBinary = .ok ∧
      encodeValue (ValueLayout.ofOptions oneVarBinary) [.bytes []] [] [] = some [0, 0, 0, 0] ∧
      ∃ q cq, q.validate oneVarBinary = .ok ∧ CompiledQuery.ofQuery q oneVarBinary = some cq ∧
        cq.eval [0, 0, 0, 0] = some true ∧
        q.checkCondition [0, 0, 0, 0] (ValueLayout.ofOptions oneVarBinary) = some false := by
  obtain ⟨cq, hcompile, htrue, hfalse⟩ :=
    CompiledQuery.eval_long_comparand (s := List.replicate (2 ^ 32) 0) List.length_replicate
  exact ⟨rfl, rfl, _, cq, rfl, hcompile, htrue, hfalse⟩

end BitLSM
