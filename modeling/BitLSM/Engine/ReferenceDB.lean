import BitLSM.CompiledQuery
import BitLSM.Lib.SortedMap
import BitLSM.Okey
import BitLSM.RowRoundTrip

/-!
The reference database of the tests.

It keeps the records as the client passed them in and answers a query by
looking at every one of them. `Encodes.matchQuery_eq` says that it accepts a record
exactly when the evaluators accept the row the record is stored as.
-/

namespace BitLSM

open Wire

/-- A logical record. -/
structure Record where
  attrs : List AttrView
  payload : Bytes
  deriving DecidableEq, Repr

structure ReferenceDB where
  /-- By key, in ascending order. -/
  live : List (Bytes × Record) := []

namespace ReferenceDB

def put (db : ReferenceDB) (key : Bytes) (attrs : List AttrView) (payload : Bytes) : ReferenceDB :=
  ⟨SortedMap.insert key ⟨attrs, payload⟩ db.live⟩

def delete (db : ReferenceDB) (key : Bytes) : ReferenceDB := ⟨SortedMap.erase key db.live⟩

/-- Bytes are compared as strings here, not through `compare`. `std::get`
throws on another alternative. -/
def matchCondition (attrs : List AttrView) (cond : QueryCondition) : Option Bool :=
  attrs[cond.attrIdx.toNat]?.bind fun a =>
    match a, cond.value with
    | .null, _ => some false
    | .int x, .int y => some (applyCompareOp cond.op x y)
    | .uint x, .uint y => some (applyCompareOp cond.op x y)
    | .float x, .float y => some (applyCompareOp cond.op x y)
    | .bytes s, .bytes t => some (applyCompareOp cond.op s t)
    | _, _ => none

def matchClause (attrs : List AttrView) : OrClause → Option Bool
  | [] => some false
  | cond :: rest =>
      (matchCondition attrs cond).bind fun ok => if ok then some true else matchClause attrs rest

def matchClauses (attrs : List AttrView) : List OrClause → Option Bool
  | [] => some true
  | clause :: rest =>
      (matchClause attrs clause).bind fun ok =>
        if ok then matchClauses attrs rest else some false

def matchQuery (query : BitLSMQuery) (attrs : List AttrView) : Option Bool :=
  matchClauses attrs query.clauseGroups

def expectedFrom (query : BitLSMQuery) : List (Bytes × Record) → Option (List (Bytes × Record))
  | [] => some []
  | (key, rec) :: rest =>
      (matchQuery query rec.attrs).bind fun ok =>
        (expectedFrom query rest).map fun out => if ok then (key, rec) :: out else out

/-- The live records that match. -/
def expectedResult (db : ReferenceDB) (query : BitLSMQuery) : Option (List (Bytes × Record)) :=
  expectedFrom query db.live

end ReferenceDB

/-! ### Reading a row back -/

structure PayloadCounts where
  nVar : UInt32 := 0
  nNullable : UInt32 := 0
  fixedBytes : UInt32 := 0

def PayloadCounts.add (c : PayloadCounts) (s : AttrSpec) : PayloadCounts where
  nNullable := if s.nullable then c.nNullable + 1 else c.nNullable
  nVar := if s.physicalType = .varBinary then c.nVar + 1 else c.nVar
  fixedBytes :=
    if s.physicalType = .varBinary then c.fixedBytes else c.fixedBytes + s.width.toUInt32

/-- The payload, found without the layout. -/
def payloadOf (buf : Bytes) (o : BitLSMOptions) : Option Bytes :=
  let c := o.attrSpecs.foldl PayloadCounts.add {}
  let nullBytes := (c.nNullable + 7) / 8
  let varBase := nullBytes + c.nVar * 4 + c.fixedBytes
  let lastEnd :=
    if 0 < c.nVar then loadU32 (buf.drop (nullBytes.toNat + (c.nVar - 1).toNat * 4)) else 0
  let pos := (varBase + lastEnd).toNat
  if pos ≤ buf.length then some (buf.drop pos) else none

/-- The record of a row. -/
def recordOf (o : BitLSMOptions) (value : Bytes) : Option Record :=
  ((List.range o.attrNum.toNat).mapM fun i =>
    decodeAttr (.ofOptions o) value (UInt32.ofNat i)).bind fun attrs =>
      (payloadOf value o).map fun payload => ⟨attrs, payload⟩

theorem PayloadCounts.foldl_eq (specs : List AttrSpec) :
    specs.foldl PayloadCounts.add {} =
      ⟨UInt32.ofNat (variableCount specs), UInt32.ofNat (nullableCount specs),
        UInt32.ofNat (BitLSM.fixedBytes specs)⟩ := by
  induction specs using List.reverseRecOn with
  | nil => rfl
  | append_singleton specs s ih =>
      rw [List.foldl_append, List.foldl_cons, List.foldl_nil, ih, add, variableCount_append,
        nullableCount_append, fixedBytes_append, variableCount_singleton, nullableCount_singleton,
        fixedBytes_singleton]
      by_cases hn : s.nullable = true <;> by_cases hp : s.physicalType = .varBinary <;>
        simp [hn, hp, AttrSpec.isFixed, UInt32.ofNat_add]

/-- The two ways to find the payload. -/
theorem payloadOf_eq (buf : Bytes) (o : BitLSMOptions) :
    payloadOf buf o = decodePayload (.ofOptions o) buf := by
  obtain ⟨hvar, hnull, -⟩ := LayoutCounts.foldl_eq o.attrSpecs
  rw [payloadOf, decodePayload, PayloadCounts.foldl_eq]
  simp only [ValueLayout.ofOptions, hvar, hnull, (LayoutSlots.foldl_eq o.attrSpecs _).1]

/-! ### Records and their rows -/

/-- A row the client may store: values of their attributes, within their
widths, and offsets and null bits the encoder can address. -/
structure RowOk (o : BitLSMOptions) (attrs : List AttrView) : Prop where
  length : attrs.length = o.attrNum.toNat
  storable : ∀ c ∈ o.attrSpecs.zip attrs, c.2.Storable c.1
  bytes : layoutBytes o.attrSpecs + (variablePart (o.attrSpecs.zip attrs)).length < 2 ^ 32
  nulls : nullableCount o.attrSpecs ≤ 2 ^ 31

/-- `value` is the row of the record. -/
structure Record.Encodes (o : BitLSMOptions) (r : Record) (value : Bytes) : Prop where
  ok : RowOk o r.attrs
  encoded : ∀ prev, encodeValue (.ofOptions o) r.attrs r.payload prev = some value

section Encodes

variable {o : BitLSMOptions} (hschema : validateAttrSpecs o = .ok) {r : Record} {value : Bytes}
include hschema

theorem RowOk.roundTrips {attrs : List AttrView} (h : RowOk o attrs) (payload : Bytes) :
    RoundTrips o attrs payload := by
  have hnum := (validateAttrSpecs_eq_ok.1 hschema).1
  have hlength := h.length
  have hfst : o.attrSpecs = (o.attrSpecs.zip attrs).map Prod.fst :=
    (List.map_fst_zip (by omega)).symm
  have hsnd : attrs = (o.attrSpecs.zip attrs).map Prod.snd := (List.map_snd_zip (by omega)).symm
  have htrip := roundTrips_of_addressable hschema hfst h.storable h.bytes
    (fun pre c post hsplit hnull => ?_) payload
  · rwa [← hsnd] at htrip
  · -- the attribute itself is nullable, so fewer are in front of it
    have hnullable : c.1.nullable = true := by
      rcases h.storable c (by rw [hsplit]; simp) with ⟨-, hnullable⟩ | ⟨hfits, -⟩
      · exact hnullable
      · rw [hnull] at hfits
        cases hfits
    have hcount := h.nulls
    rw [hfst, hsplit, List.map_append, List.map_cons, List.append_cons, nullableCount_append,
      nullableCount_append, nullableCount_singleton, if_pos hnullable] at hcount
    omega

theorem RowOk.exists_encodes {attrs : List AttrView} (h : RowOk o attrs) (payload : Bytes) :
    ∃ value, Record.Encodes o ⟨attrs, payload⟩ value := by
  obtain ⟨value, hvalue, -⟩ := h.roundTrips hschema payload
  exact ⟨value, h, hvalue⟩

namespace Record.Encodes

variable (h : r.Encodes o value)
include h

theorem decodeAttr_eq {attrIdx : UInt32} {v : AttrView} (hv : r.attrs[attrIdx.toNat]? = some v) :
    decodeAttr (.ofOptions o) value attrIdx = some v := by
  obtain ⟨row, hrow, hdecode, -⟩ := h.ok.roundTrips hschema r.payload
  obtain rfl := Option.some.inj ((h.encoded []).symm.trans (hrow []))
  exact hdecode attrIdx v hv

theorem recordOf_eq : recordOf o value = some r := by
  obtain ⟨row, hrow, -, hpayload⟩ := h.ok.roundTrips hschema r.payload
  obtain rfl := Option.some.inj ((h.encoded []).symm.trans (hrow []))
  have hattrs : ((List.range o.attrNum.toNat).mapM fun i =>
      decodeAttr (.ofOptions o) value (UInt32.ofNat i)) = some r.attrs := by
    have hlength := h.ok.length
    have hrange : (List.range o.attrNum.toNat).map (fun i => r.attrs.getD i .null) = r.attrs := by
      rw [← hlength]
      refine List.ext_getElem (by simp) fun i hi hi' => ?_
      simp [List.getD_eq_getElem?_getD, List.getElem?_eq_getElem hi']
    rw [← hrange]
    refine mapM_eq_some_map fun i hi => ?_
    have hlt : i < o.attrNum.toNat := List.mem_range.1 hi
    have hidx : (UInt32.ofNat i).toNat = i := by
      rw [UInt32.toNat_ofNat']
      exact Nat.mod_eq_of_lt (by have := o.attrNum.toNat_lt; omega)
    refine h.decodeAttr_eq hschema ?_
    rw [hidx, List.getD_eq_getElem?_getD, List.getElem?_eq_getElem (by omega)]
    rfl
  rw [recordOf, hattrs, Option.bind_some, payloadOf_eq, hpayload]
  rfl

theorem matchCondition_eq {c : QueryCondition} {spec : AttrSpec} (hc : c.Ok o spec) :
    ReferenceDB.matchCondition r.attrs c = some (c.holds (.ofOptions o) value) := by
  obtain ⟨hlt, -⟩ := List.getElem?_eq_some_iff.1 hc.spec_eq
  have hnum := (validateAttrSpecs_eq_ok.1 hschema).1
  have hlength := h.ok.length
  have hattr : r.attrs[c.attrIdx.toNat]? = some r.attrs[c.attrIdx.toNat] :=
    List.getElem?_eq_getElem (by omega)
  obtain ⟨v, hdecode, heval⟩ := hc.eval value
  obtain rfl := Option.some.inj ((h.decodeAttr_eq hschema hattr).symm.trans hdecode)
  rw [ReferenceDB.matchCondition, hattr, Option.bind_some, ← heval]
  cases r.attrs[c.attrIdx.toNat] <;> cases hvalue : c.value <;>
    simp [evalCondition, hvalue, applyCompareOp_bytes]

theorem matchClause_eq {clause : OrClause} (hok : ∀ c ∈ clause, ∃ spec, c.Ok o spec) :
    ReferenceDB.matchClause r.attrs clause =
      some (clause.any (QueryCondition.holds (.ofOptions o) value)) := by
  induction clause with
  | nil => rfl
  | cons c rest ih =>
      rw [List.forall_mem_cons] at hok
      obtain ⟨⟨spec, hc⟩, hrest⟩ := hok
      rw [ReferenceDB.matchClause, h.matchCondition_eq hschema hc, Option.bind_some, ih hrest,
        List.any_cons]
      split
      · next hholds => rw [hholds, Bool.true_or]
      · next hholds => rw [Bool.eq_false_of_not_eq_true hholds, Bool.false_or]

/-- The reference accepts a record as the evaluator accepts its row. -/
theorem matchQuery_eq {q : BitLSMQuery} (hq : q.validate o = .ok) :
    ReferenceDB.matchQuery q r.attrs = q.checkCondition value (.ofOptions o) := by
  rw [BitLSMQuery.checkCondition_eq value hschema hq, ReferenceDB.matchQuery]
  have hok := BitLSMQuery.validate_eq_ok.1 hq
  generalize q.clauseGroups = clauses at hok ⊢
  induction clauses with
  | nil => rfl
  | cons clause rest ih =>
      rw [List.forall_mem_cons] at hok
      rw [ReferenceDB.matchClauses, h.matchClause_eq hschema hok.1.2, Option.bind_some,
        ih hok.2, List.all_cons]
      split
      · next hclause => rw [hclause, Bool.true_and]
      · next hclause => rw [Bool.eq_false_of_not_eq_true hclause, Bool.false_and]

end Record.Encodes

end Encodes

end BitLSM
