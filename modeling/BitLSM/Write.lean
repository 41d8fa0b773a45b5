import Mathlib.Data.List.Forall2
import BitLSM.Query
import BitLSM.RowRoundTrip

/-!
Writing rows: `Put` and `PutBatch`.

A write is refused before anything is stored when a row has the wrong number
of attributes, or a fixed-width binary value of the wrong length. Nothing
checks that an integer fits its attribute's width. What an accepted write
stores is the encoding of the row, and it is the row that was passed in
exactly when its integers are in range and its offsets fit 32 bits.
-/

namespace BitLSM

open Wire

/-- The rows handed to the store in one write, or the status returned
instead. -/
abbrev WriteOutcome := Except Status (List (Bytes × Bytes))

/-- The length check of one value; `std::get` throws on another alternative. -/
def binaryWidthOk (s : AttrSpec) (v : AttrView) : Option Bool :=
  if s.physicalType = .binary ∧ v ≠ .null then
    match v with
    | .bytes str => some (str.length = s.width.toNat)
    | _ => none
  else some true

def checkFixedBinaryWidthsFrom (o : BitLSMOptions) : ℕ → List AttrView → Option Status
  | _, [] => some .ok
  | i, v :: rest =>
      match o.attrSpecs[i]? with
      | none => none
      | some s =>
          match binaryWidthOk s v with
          | none => none
          | some true => checkFixedBinaryWidthsFrom o (i + 1) rest
          | some false => some (.invalidArgument ("attr " ++ toString i ++
              ": kBinary value must be exactly " ++ toString s.width.toNat ++ " bytes"))

def checkFixedBinaryWidths (o : BitLSMOptions) (attrs : List AttrView) : Option Status :=
  checkFixedBinaryWidthsFrom o 0 attrs

/-- The checks of one row and its encoding; `mismatch` is the text for a
wrong number of attributes. -/
def encodeChecked (o : BitLSMOptions) (mismatch : String) (attrs : List AttrView)
    (payload : Option Bytes) (prev : Bytes) : Option (Except Status Bytes) :=
  if attrs.length ≠ o.attrNum.toNat then some (.error (.invalidArgument mismatch))
  else
    match checkFixedBinaryWidths o attrs with
    | none => none
    | some .ok =>
        payload.bind fun payload => (encodeValue (.ofOptions o) attrs payload prev).map .ok
    | some status => some (.error status)

/-- `cf` is the family's schema, `none` for a null handle; `prev` is what the
thread's buffer held. -/
def put (cf : Option BitLSMOptions) (pk : Bytes) (attrs : List AttrView) (payload prev : Bytes) :
    Option WriteOutcome :=
  match cf with
  | none => some (.error (.invalidArgument "null column family"))
  | some o =>
      match encodeChecked o "The number of attrs does not match with db configuration." attrs
          (some payload) prev with
      | none => none
      | some (.error status) => some (.error status)
      | some (.ok value) => some (.ok [(pk, value)])

/-- The body of the batch loop, each row into a buffer of its own. -/
def putBatchRow (o : BitLSMOptions) (pks : List Bytes) (attrsList : List (List AttrView))
    (payloads : List Bytes) (i : ℕ) : Option (Except Status (Bytes × Bytes)) :=
  match attrsList[i]? with
  | none => none
  | some attrs =>
      match encodeChecked o ("PutBatch error: attrs size at index " ++ toString i ++
          " does not match the configured attr_num.") attrs payloads[i]? [] with
      | none => none
      | some (.error status) => some (.error status)
      | some (.ok value) => pks[i]?.map fun pk => .ok (pk, value)

/-- `n` rounds of the loop from row `i` on. -/
def putBatchFrom (o : BitLSMOptions) (pks : List Bytes) (attrsList : List (List AttrView))
    (payloads : List Bytes) : ℕ → ℕ → Option WriteOutcome
  | _, 0 => some (.ok [])
  | i, n + 1 =>
      match putBatchRow o pks attrsList payloads i with
      | none => none
      | some (.error status) => some (.error status)
      | some (.ok kv) =>
          match putBatchFrom o pks attrsList payloads (i + 1) n with
          | some (.ok kvs) => some (.ok (kv :: kvs))
          | r => r

/-- The number of rows is kept in a `uint32_t`. -/
def putBatch (cf : Option BitLSMOptions) (pks : List Bytes) (attrsList : List (List AttrView))
    (payloads : List Bytes) : Option WriteOutcome :=
  match cf with
  | none => some (.error (.invalidArgument "null column family"))
  | some o => putBatchFrom o pks attrsList payloads 0 (UInt32.ofNat pks.length).toNat

/-! ### The checks -/

/-- Every value has the alternative of its attribute's physical type. -/
def RowTyped (o : BitLSMOptions) (attrs : List AttrView) : Prop :=
  ∀ c ∈ o.attrSpecs.zip attrs, c.2 = .null ∨ c.2.fits c.1.physicalType = true

/-- A fixed-width binary value fills its slot. -/
def BinaryExact (c : Cell) : Prop :=
  ∀ str, c.2 = .bytes str → c.1.physicalType = .binary → str.length = c.1.width.toNat

theorem binaryWidthOk_spec {c : Cell} (h : c.2 = .null ∨ c.2.fits c.1.physicalType = true) :
    ∃ ok, binaryWidthOk c.1 c.2 = some ok ∧ (ok = true ↔ BinaryExact c) := by
  obtain ⟨s, v⟩ := c
  by_cases hb : s.physicalType = .binary ∧ v ≠ .null
  · obtain ⟨hp, hv⟩ := hb
    obtain ⟨str, rfl⟩ : ∃ str, v = .bytes str := by
      have hfits := h.resolve_left hv
      simp only [hp] at hfits
      cases v <;> simp_all [AttrView.fits]
    refine ⟨decide (str.length = s.width.toNat), by simp [binaryWidthOk, hp], ?_⟩
    rw [decide_eq_true_eq]
    constructor
    · intro hlen str' hstr' _
      obtain rfl : str = str' := AttrView.bytes.inj hstr'
      exact hlen
    · exact fun hexact => hexact str rfl hp
  · refine ⟨true, if_neg hb, fun _ str hstr hp => ?_, fun _ => rfl⟩
    exact absurd ⟨hp, by rw [show v = .bytes str from hstr]; exact AttrView.noConfusion⟩ hb

theorem checkFixedBinaryWidthsFrom_spec {o : BitLSMOptions} {attrs : List AttrView} {i : ℕ}
    (hlen : i + attrs.length ≤ o.attrSpecs.length)
    (h : ∀ c ∈ (o.attrSpecs.drop i).zip attrs, c.2 = .null ∨ c.2.fits c.1.physicalType = true) :
    (checkFixedBinaryWidthsFrom o i attrs = some .ok ∧
        ∀ c ∈ (o.attrSpecs.drop i).zip attrs, BinaryExact c) ∨
      ∃ msg, checkFixedBinaryWidthsFrom o i attrs = some (.invalidArgument msg) := by
  induction attrs generalizing i with
  | nil => exact Or.inl ⟨rfl, by simp⟩
  | cons v rest ih =>
      rw [List.length_cons] at hlen
      have hlt : i < o.attrSpecs.length := by omega
      rw [List.drop_eq_getElem_cons hlt, List.zip_cons_cons, List.forall_mem_cons] at h ⊢
      obtain ⟨ok, hok, hexact⟩ := binaryWidthOk_spec h.1
      rw [checkFixedBinaryWidthsFrom, List.getElem?_eq_getElem hlt]
      simp only [hok]
      cases ok with
      | false => exact Or.inr ⟨_, rfl⟩
      | true =>
          rcases ih (i := i + 1) (by omega) h.2 with ⟨hrest, hall⟩ | hbad
          · exact Or.inl ⟨hrest, hexact.1 rfl, hall⟩
          · exact Or.inr hbad

theorem checkFixedBinaryWidths_spec {o : BitLSMOptions} {attrs : List AttrView}
    (hlen : attrs.length ≤ o.attrSpecs.length) (h : RowTyped o attrs) :
    (checkFixedBinaryWidths o attrs = some .ok ∧ ∀ c ∈ o.attrSpecs.zip attrs, BinaryExact c) ∨
      ∃ msg, checkFixedBinaryWidths o attrs = some (.invalidArgument msg) :=
  checkFixedBinaryWidthsFrom_spec (i := 0) (by omega) h

/-! ### One row -/

/-- The comparand of an EQUAL query on an integer or binary value. -/
def AttrView.exactComparand : AttrView → Option Comparand
  | .int x => some (.int x)
  | .uint x => some (.uint x)
  | .bytes str => some (.bytes str)
  | _ => none

/-- The row holds every integer and binary value that was passed in, and is
matched by an EQUAL query on it. -/
def RowStored (o : BitLSMOptions) (attrs : List AttrView) (value : Bytes) : Prop :=
  ∀ (attrIdx : UInt32) v want, attrs[attrIdx.toNat]? = some v → v.exactComparand = some want →
    decodeAttr (.ofOptions o) value attrIdx = some v ∧
      (BitLSMQuery.mk [[⟨attrIdx, .equal, want⟩]]).checkCondition value (.ofOptions o) = some true

def AttrView.IsInteger : AttrView → Prop
  | .int _ => True
  | .uint _ => True
  | _ => False

/-- The row's offsets fit 32 bits and its integers their widths. -/
structure RowKept (o : BitLSMOptions) (attrs : List AttrView) : Prop where
  bytes : layoutBytes o.attrSpecs + (variablePart (o.attrSpecs.zip attrs)).length < 2 ^ 32
  integers : ∀ c ∈ o.attrSpecs.zip attrs, c.2.IsInteger → c.2.InWidth c.1

theorem AttrView.exactComparand_fits {v : AttrView} {want : Comparand} {p : PhysicalType}
    (hwant : v.exactComparand = some want) (hfits : v.fits p = true) : want.fits p = true := by
  cases v <;> simp [exactComparand] at hwant <;> subst hwant <;> cases p <;>
    simp_all [AttrView.fits, Comparand.fits]

theorem evalCondition_exactComparand {v : AttrView} {want : Comparand} (attrIdx : UInt32)
    (hwant : v.exactComparand = some want) :
    evalCondition ⟨attrIdx, .equal, want⟩ v = some true := by
  cases v <;> simp [AttrView.exactComparand] at hwant <;> subst hwant <;>
    simp [evalCondition, applyCompareOp, Bytes.compare_eq_zero]

theorem checkCondition_equal {o : BitLSMOptions} {attrIdx : UInt32} {v : AttrView} {s : AttrSpec}
    {want : Comparand} {value : Bytes} (hschema : validateAttrSpecs o = .ok)
    (hs : o.attrSpecs[attrIdx.toNat]? = some s)
    (hfits : v.fits s.physicalType = true) (hwant : v.exactComparand = some want)
    (hdecode : decodeAttr (.ofOptions o) value attrIdx = some v) :
    (BitLSMQuery.mk [[⟨attrIdx, .equal, want⟩]]).checkCondition value (.ofOptions o) =
      some true := by
  have hok : QueryCondition.Ok o ⟨attrIdx, .equal, want⟩ s :=
    ⟨hs, AttrView.exactComparand_fits hwant hfits, fun _ => rfl⟩
  have hvalid : (BitLSMQuery.mk [[⟨attrIdx, .equal, want⟩]]).validate o = .ok := by
    rw [BitLSMQuery.validate_eq_ok]
    intro clause hclause
    rw [List.mem_singleton] at hclause
    subst hclause
    refine ⟨by simp, fun c hc => ?_⟩
    rw [List.mem_singleton] at hc
    subst hc
    exact ⟨s, hok⟩
  rw [BitLSMQuery.checkCondition_eq value hschema hvalid]
  simp [QueryCondition.holds, hdecode, evalCondition_exactComparand attrIdx hwant]

section Row

variable {o : BitLSMOptions} {attrs : List AttrView} (hschema : validateAttrSpecs o = .ok)
  (hlen : attrs.length = o.attrNum.toNat)
include hschema hlen

/-- An attribute and its neighbours in the row. -/
theorem exists_cells_split {attrIdx : UInt32} {v : AttrView}
    (hv : attrs[attrIdx.toNat]? = some v) :
    ∃ pre s post, o.attrSpecs.zip attrs = pre ++ (s, v) :: post ∧ attrIdx.toNat = pre.length ∧
      o.attrSpecs[attrIdx.toNat]? = some s := by
  have hnum := (validateAttrSpecs_eq_ok.1 hschema).1
  obtain ⟨hlt, -⟩ := List.getElem?_eq_some_iff.1 hv
  obtain ⟨s, hs⟩ : ∃ s, o.attrSpecs[attrIdx.toNat]? = some s :=
    ⟨_, List.getElem?_eq_getElem (by omega)⟩
  have hcell : (o.attrSpecs.zip attrs)[attrIdx.toNat]? = some (s, v) :=
    List.getElem?_zip_eq_some.2 ⟨hs, hv⟩
  obtain ⟨hlt', hget⟩ := List.getElem?_eq_some_iff.1 hcell
  refine ⟨_, s, (o.attrSpecs.zip attrs).drop (attrIdx.toNat + 1), ?_,
    (List.length_take_of_le hlt'.le).symm, hs⟩
  rw [← hget, List.cons_getElem_drop_succ, List.take_append_drop]

variable (htyped : RowTyped o attrs) (hexact : ∀ c ∈ o.attrSpecs.zip attrs, BinaryExact c)
include htyped hexact

omit hschema hlen in
theorem encodable_of_typed : ∀ c ∈ o.attrSpecs.zip attrs, Encodable c := by
  intro c hc
  rcases htyped c hc with hnull | hfits
  · exact Or.inl hnull
  · exact Or.inr ⟨hfits, fun str hstr hp => (hexact c hc str hstr hp).ge⟩

/-- What a stored row reads as. -/
theorem decodeAttr_encodeValue
    (hsmall : layoutBytes o.attrSpecs + (variablePart (o.attrSpecs.zip attrs)).length < 2 ^ 32)
    (payload : Bytes) :
    ∃ value, (∀ prev, encodeValue (.ofOptions o) attrs payload prev = some value) ∧
      ∀ (attrIdx : UInt32) v s, attrs[attrIdx.toNat]? = some v →
        o.attrSpecs[attrIdx.toNat]? = some s → v ≠ .null →
        decodeAttr (.ofOptions o) value attrIdx = some (v.narrow s) := by
  have hnum := (validateAttrSpecs_eq_ok.1 hschema).1
  have hfst : o.attrSpecs = (o.attrSpecs.zip attrs).map Prod.fst :=
    (List.map_fst_zip (by omega)).symm
  have hsnd : attrs = (o.attrSpecs.zip attrs).map Prod.snd := (List.map_snd_zip (by omega)).symm
  have henc := encodable_of_typed htyped hexact
  have hwalk := Walk.ofOptions hschema hfst henc hsmall
  refine ⟨rowBytes (o.attrSpecs.zip attrs) ++ payload, fun prev => ?_, fun attrIdx v s hv hs
      hne => ?_⟩
  · have hvalue := encodeValue_eq hschema hfst henc hsmall payload prev
    rwa [← hsnd] at hvalue
  · obtain ⟨pre, s', post, hsplit, hidx, hs'⟩ := exists_cells_split hschema hlen hv
    obtain rfl : s' = s := Option.some.inj (hs'.symm.trans hs)
    rw [hsplit] at hwalk ⊢
    exact decodeAttr_row payload hwalk hidx hne

theorem exists_rowStored (hkept : RowKept o attrs) (payload prev : Bytes) :
    ∃ value, encodeValue (.ofOptions o) attrs payload prev = some value ∧
      RowStored o attrs value := by
  obtain ⟨value, hvalue, hdecode⟩ :=
    decodeAttr_encodeValue hschema hlen htyped hexact hkept.bytes payload
  refine ⟨value, hvalue prev, fun attrIdx v want hv hwant => ?_⟩
  obtain ⟨pre, s, post, hsplit, -, hs⟩ := exists_cells_split hschema hlen hv
  have hmem : (s, v) ∈ o.attrSpecs.zip attrs := by
    rw [hsplit]
    simp
  have hne : v ≠ .null := by
    rintro rfl
    cases hwant
  have hfits : v.fits s.physicalType = true := (htyped _ hmem).resolve_left hne
  have hwidth : v.InWidth s := by
    cases v with
    | null => trivial
    | int x => exact hkept.integers _ hmem trivial
    | uint x => exact hkept.integers _ hmem trivial
    | float d => cases hwant
    | bytes str => exact fun hp => hexact _ hmem str rfl hp
  have hvalid := (validateAttrSpecs_eq_ok.1 hschema).2 s (List.mem_of_getElem? hs)
  have hdec := hdecode attrIdx v s hv hs hne
  rw [AttrView.narrow_of_inWidth hvalid hfits hwidth] at hdec
  exact ⟨hdec, checkCondition_equal hschema hs hfits hwant hdec⟩

theorem rowKept_of_rowStored (hlayout : layoutBytes o.attrSpecs < 2 ^ 32) {payload prev : Bytes}
    {value : Bytes} (hvalue : encodeValue (.ofOptions o) attrs payload prev = some value)
    (hstored : RowStored o attrs value) : RowKept o attrs := by
  have hnum := (validateAttrSpecs_eq_ok.1 hschema).1
  have hfst : o.attrSpecs = (o.attrSpecs.zip attrs).map Prod.fst :=
    (List.map_fst_zip (by omega)).symm
  have hsnd : attrs = (o.attrSpecs.zip attrs).map Prod.snd := (List.map_snd_zip (by omega)).symm
  have hsmall : layoutBytes o.attrSpecs + (variablePart (o.attrSpecs.zip attrs)).length <
      2 ^ 32 := by
    have hroom := hvalue
    rw [hsnd] at hroom
    exact encodeValue_room hschema hfst (encodable_of_typed htyped hexact) hlayout hroom
  refine ⟨hsmall, fun c hc hint => ?_⟩
  obtain ⟨value', hvalue', hdecode⟩ :=
    decodeAttr_encodeValue hschema hlen htyped hexact hsmall payload
  obtain rfl : value' = value := Option.some.inj ((hvalue' prev).symm.trans hvalue)
  obtain ⟨i, hi⟩ := List.mem_iff_getElem?.1 hc
  obtain ⟨s, v⟩ := c
  obtain ⟨hs, hv⟩ := List.getElem?_zip_eq_some.1 hi
  obtain ⟨hlt, -⟩ := List.getElem?_eq_some_iff.1 hv
  have hidx : (UInt32.ofNat i).toNat = i := by
    rw [UInt32.toNat_ofNat']
    exact Nat.mod_eq_of_lt (by have := o.attrNum.toNat_lt; omega)
  rw [← hidx] at hs hv
  have hvalid := (validateAttrSpecs_eq_ok.1 hschema).2 s (List.mem_of_getElem? hs)
  have hfits := htyped _ hc
  cases v with
  | int x =>
      have hp := AttrView.eq_int_of_fits (hfits.resolve_left AttrView.noConfusion)
      obtain ⟨hw0, hw⟩ := s.width_of_valid_int hvalid (Or.inl hp)
      have hdec := (hstored _ _ (.int x) hv rfl).1
      rw [hdecode _ _ _ hv hs AttrView.noConfusion, Option.some.injEq] at hdec
      exact (narrow_int_eq_iff x hw0 hw).1 hdec
  | uint x =>
      have hdec := (hstored _ _ (.uint x) hv rfl).1
      rw [hdecode _ _ _ hv hs AttrView.noConfusion, Option.some.injEq] at hdec
      exact (narrow_uint_eq_iff x).1 hdec
  | null => cases hint
  | float d => cases hint
  | bytes str => cases hint

end Row

/-! ### Whole writes -/

/-- The write was refused. -/
def Refused {α : Type} (r : Option (Except Status α)) : Prop :=
  ∃ msg, r = some (.error (.invalidArgument msg))

/-- The write stored a value under every key, each holding its row. -/
def Stores (o : BitLSMOptions) (pks : List Bytes) (attrsList : List (List AttrView))
    (r : Option WriteOutcome) : Prop :=
  ∃ values, r = some (.ok (pks.zip values)) ∧ List.Forall₂ (RowStored o) attrsList values

section Outcomes

variable {α β : Type} {f : α → β} {x : Option (Except Status α)}

theorem map_outcome_eq_ok {b : β} :
    x.map (Except.map f) = some (.ok b) ↔ ∃ a, x = some (.ok a) ∧ f a = b := by
  rcases x with - | (status | a) <;> simp [Except.map]

theorem refused_map_outcome : Refused (x.map (Except.map f)) ↔ Refused x := by
  rcases x with - | (status | a) <;> simp [Refused, Except.map]

end Outcomes

theorem put_eq (o : BitLSMOptions) (pk : Bytes) (attrs : List AttrView) (payload prev : Bytes) :
    put (some o) pk attrs payload prev =
      (encodeChecked o "The number of attrs does not match with db configuration." attrs
        (some payload) prev).map (Except.map fun value => [(pk, value)]) := by
  rw [put]
  generalize encodeChecked o _ attrs (some payload) prev = x
  rcases x with - | (status | value) <;> rfl

theorem putBatchRow_eq {o : BitLSMOptions} {pks payloads : List Bytes}
    {attrsList : List (List AttrView)} {i : ℕ} {pk payload : Bytes} {attrs : List AttrView}
    (hpk : pks[i]? = some pk) (hattrs : attrsList[i]? = some attrs)
    (hpayload : payloads[i]? = some payload) :
    putBatchRow o pks attrsList payloads i =
      (encodeChecked o ("PutBatch error: attrs size at index " ++ toString i ++
          " does not match the configured attr_num.") attrs (some payload) []).map
        (Except.map fun value => (pk, value)) := by
  rw [putBatchRow, hattrs, hpk, hpayload]
  simp only []
  generalize encodeChecked o _ attrs (some payload) [] = x
  rcases x with - | (status | value) <;> rfl

section Loop

variable {o : BitLSMOptions} {pks payloads : List Bytes}
    {attrsList : List (List AttrView)} {i n : ℕ}

theorem putBatchFrom_of_row {kv : Bytes × Bytes}
    (h : putBatchRow o pks attrsList payloads i = some (.ok kv)) :
    putBatchFrom o pks attrsList payloads i (n + 1) =
      (putBatchFrom o pks attrsList payloads (i + 1) n).map (Except.map (kv :: ·)) := by
  rw [putBatchFrom, h]
  simp only []
  rcases putBatchFrom o pks attrsList payloads (i + 1) n with - | (status | kvs) <;> rfl

theorem refused_putBatchFrom (h : Refused (putBatchRow o pks attrsList payloads i)) :
    Refused (putBatchFrom o pks attrsList payloads i (n + 1)) := by
  obtain ⟨msg, hmsg⟩ := h
  exact ⟨msg, by rw [putBatchFrom, hmsg]⟩

/-- A batch that was written wrote its first row. -/
theorem putBatchRow_of_from {batch : List (Bytes × Bytes)}
    (h : putBatchFrom o pks attrsList payloads i (n + 1) = some (.ok batch)) :
    ∃ kv kvs, batch = kv :: kvs ∧ putBatchRow o pks attrsList payloads i = some (.ok kv) ∧
      putBatchFrom o pks attrsList payloads (i + 1) n = some (.ok kvs) := by
  rcases hrow : putBatchRow o pks attrsList payloads i with - | (status | kv)
  · simp [putBatchFrom, hrow] at h
  · simp [putBatchFrom, hrow] at h
  · rw [putBatchFrom_of_row hrow] at h
    obtain ⟨kvs, hkvs, rfl⟩ := map_outcome_eq_ok.1 h
    exact ⟨kv, kvs, rfl, rfl, hkvs⟩

theorem length_putBatchFrom {batch : List (Bytes × Bytes)}
    (h : putBatchFrom o pks attrsList payloads i n = some (.ok batch)) : batch.length = n := by
  induction n generalizing i batch with
  | zero =>
      obtain rfl : [] = batch := Except.ok.inj (Option.some.inj h)
      rfl
  | succ n ih =>
      obtain ⟨kv, kvs, rfl, -, hrest⟩ := putBatchRow_of_from h
      rw [List.length_cons, ih hrest]

end Loop

section Writes

variable {o : BitLSMOptions} (hschema : validateAttrSpecs o = .ok)
include hschema

/-- A row is refused, or it passed both checks and is encoded. -/
theorem encodeChecked_spec {attrs : List AttrView} (htyped : RowTyped o attrs) (mismatch : String)
    (payload prev : Bytes) :
    (∃ msg, encodeChecked o mismatch attrs (some payload) prev =
        some (.error (.invalidArgument msg))) ∨
      attrs.length = o.attrNum.toNat ∧ (∀ c ∈ o.attrSpecs.zip attrs, BinaryExact c) ∧
        encodeChecked o mismatch attrs (some payload) prev =
          (encodeValue (.ofOptions o) attrs payload prev).map .ok := by
  have hnum := (validateAttrSpecs_eq_ok.1 hschema).1
  rw [encodeChecked]
  by_cases hlen : attrs.length = o.attrNum.toNat
  · rw [if_neg (not_not.2 hlen)]
    rcases checkFixedBinaryWidths_spec (by omega) htyped with ⟨hok, hexact⟩ | ⟨msg, hbad⟩
    · exact Or.inr ⟨hlen, hexact, by rw [hok]; rfl⟩
    · exact Or.inl ⟨msg, by rw [hbad]⟩
  · exact Or.inl ⟨mismatch, by rw [if_pos hlen]⟩

/-- The row is kept exactly when what is encoded holds it. -/
theorem encodeChecked_stored {attrs : List AttrView} (htyped : RowTyped o attrs)
    (mismatch : String) (payload prev : Bytes)
    (hacc : ¬ Refused (encodeChecked o mismatch attrs (some payload) prev)) :
    (RowKept o attrs → ∃ value, encodeChecked o mismatch attrs (some payload) prev =
        some (.ok value) ∧ RowStored o attrs value) ∧
      (layoutBytes o.attrSpecs < 2 ^ 32 → ∀ value,
        encodeChecked o mismatch attrs (some payload) prev = some (.ok value) →
          RowStored o attrs value → RowKept o attrs) := by
  obtain ⟨hlen, hexact, heq⟩ :=
    (encodeChecked_spec hschema htyped mismatch payload prev).resolve_left hacc
  rw [heq]
  refine ⟨fun hkept => ?_, fun hlayout value hvalue hstored => ?_⟩
  · obtain ⟨value, hvalue, hstored⟩ :=
      exists_rowStored hschema hlen htyped hexact hkept payload prev
    exact ⟨value, by rw [hvalue]; rfl, hstored⟩
  · obtain ⟨value', hvalue', hok⟩ := Option.map_eq_some_iff.1 hvalue
    obtain rfl : value' = value := Except.ok.inj hok
    exact rowKept_of_rowStored hschema hlen htyped hexact hlayout hvalue' hstored

theorem put_stores_iff {attrs : List AttrView} (htyped : RowTyped o attrs)
    (pk payload prev : Bytes) (hacc : ¬ Refused (put (some o) pk attrs payload prev)) :
    (RowKept o attrs → Stores o [pk] [attrs] (put (some o) pk attrs payload prev)) ∧
      (layoutBytes o.attrSpecs < 2 ^ 32 →
        Stores o [pk] [attrs] (put (some o) pk attrs payload prev) → RowKept o attrs) := by
  rw [put_eq] at *
  obtain ⟨hkeep, hconv⟩ :=
    encodeChecked_stored hschema htyped _ payload prev (mt refused_map_outcome.2 hacc)
  refine ⟨fun hkept => ?_, fun hlayout ⟨values, hput, hall⟩ => ?_⟩
  · obtain ⟨value, hvalue, hstored⟩ := hkeep hkept
    exact ⟨[value], map_outcome_eq_ok.2 ⟨value, hvalue, rfl⟩, .cons hstored .nil⟩
  · obtain ⟨value, rest, hstored, -, rfl⟩ := List.forall₂_cons_left_iff.1 hall
    obtain ⟨value', hvalue, heq⟩ := map_outcome_eq_ok.1 hput
    obtain rfl : value' = value := by simpa using (List.cons.inj heq).1
    exact hconv hlayout value' hvalue hstored

theorem putBatchFrom_stores_iff {pks payloads : List Bytes} {attrsList : List (List AttrView)}
    (hattrs : attrsList.length = pks.length) (hpayloads : payloads.length = pks.length)
    (htyped : ∀ attrs ∈ attrsList, RowTyped o attrs) (n : ℕ) {i : ℕ} (hi : i + n = pks.length)
    (hacc : ¬ Refused (putBatchFrom o pks attrsList payloads i n)) :
    ((∀ attrs ∈ attrsList.drop i, RowKept o attrs) →
        Stores o (pks.drop i) (attrsList.drop i) (putBatchFrom o pks attrsList payloads i n)) ∧
      (layoutBytes o.attrSpecs < 2 ^ 32 →
        Stores o (pks.drop i) (attrsList.drop i) (putBatchFrom o pks attrsList payloads i n) →
          ∀ attrs ∈ attrsList.drop i, RowKept o attrs) := by
  induction n generalizing i with
  | zero =>
      rw [List.drop_of_length_le (show pks.length ≤ i by omega),
        List.drop_of_length_le (show attrsList.length ≤ i by omega)]
      exact ⟨fun _ => ⟨[], rfl, .nil⟩, by simp⟩
  | succ n ih =>
      have hpk : pks[i]? = some pks[i] := List.getElem?_eq_getElem (by omega)
      have hrow : attrsList[i]? = some attrsList[i] := List.getElem?_eq_getElem (by omega)
      have hpayload : payloads[i]? = some payloads[i] := List.getElem?_eq_getElem (by omega)
      have hrowTyped := htyped _ (List.mem_of_getElem? hrow)
      rw [List.drop_eq_getElem_cons (show i < pks.length by omega),
        List.drop_eq_getElem_cons (show i < attrsList.length by omega), List.forall_mem_cons]
      have hrowEq := putBatchRow_eq (o := o) hpk hrow hpayload
      have hrowAcc := mt refused_putBatchFrom hacc
      rw [hrowEq] at hrowAcc
      obtain ⟨hkeep, hconv⟩ :=
        encodeChecked_stored hschema hrowTyped _ payloads[i] [] (mt refused_map_outcome.2 hrowAcc)
      generalize pks[i] = pk at *
      generalize attrsList[i] = attrs at *
      refine ⟨fun ⟨hkept, hrest⟩ => ?_, fun hlayout ⟨values, hput, hall⟩ => ?_⟩
      · obtain ⟨value, hvalue, hstored⟩ := hkeep hkept
        rw [putBatchFrom_of_row (hrowEq.trans (map_outcome_eq_ok.2 ⟨value, hvalue, rfl⟩))] at hacc ⊢
        obtain ⟨values, hvalues, hall⟩ :=
          (ih (by omega) (mt refused_map_outcome.2 hacc)).1 hrest
        exact ⟨value :: values, map_outcome_eq_ok.2 ⟨_, hvalues, rfl⟩, .cons hstored hall⟩
      · obtain ⟨value, rest, hstored, hrest, rfl⟩ := List.forall₂_cons_left_iff.1 hall
        obtain ⟨kv, kvs, hbatch, hkv, hkvs⟩ := putBatchRow_of_from hput
        obtain ⟨rfl, rfl⟩ := List.cons.inj hbatch
        obtain ⟨value', hvalue, heq⟩ := map_outcome_eq_ok.1 (hrowEq.symm.trans hkv)
        obtain rfl : value' = value := (Prod.mk.inj heq).2
        refine ⟨hconv hlayout _ hvalue hstored, (ih (by omega) ?_).2 hlayout ⟨rest, hkvs, hrest⟩⟩
        rintro ⟨msg, hmsg⟩
        rw [hkvs] at hmsg
        cases hmsg

theorem putBatch_stores_iff {pks payloads : List Bytes} {attrsList : List (List AttrView)}
    (hattrs : attrsList.length = pks.length) (hpayloads : payloads.length = pks.length)
    (htyped : ∀ attrs ∈ attrsList, RowTyped o attrs)
    (hacc : ¬ Refused (putBatch (some o) pks attrsList payloads)) :
    (pks.length < 2 ^ 32 ∧ (∀ attrs ∈ attrsList, RowKept o attrs) →
        Stores o pks attrsList (putBatch (some o) pks attrsList payloads)) ∧
      (layoutBytes o.attrSpecs < 2 ^ 32 →
        Stores o pks attrsList (putBatch (some o) pks attrsList payloads) →
          pks.length < 2 ^ 32 ∧ ∀ attrs ∈ attrsList, RowKept o attrs) := by
  have hput : putBatch (some o) pks attrsList payloads =
      putBatchFrom o pks attrsList payloads 0 (pks.length % 2 ^ 32) := by
    rw [putBatch, UInt32.toNat_ofNat']
  rw [hput] at hacc ⊢
  refine ⟨fun ⟨hlt, hkept⟩ => ?_, fun hlayout hstores => ?_⟩
  · rw [Nat.mod_eq_of_lt hlt] at *
    exact (putBatchFrom_stores_iff hschema hattrs hpayloads htyped pks.length
      (Nat.zero_add _) hacc).1 hkept
  · have hlt : pks.length < 2 ^ 32 := by
      obtain ⟨values, hput, hall⟩ := hstores
      have hlen := length_putBatchFrom hput
      rw [List.length_zip, ← hall.length_eq, hattrs, min_self] at hlen
      omega
    rw [Nat.mod_eq_of_lt hlt] at *
    exact ⟨hlt, (putBatchFrom_stores_iff hschema hattrs hpayloads htyped pks.length
      (Nat.zero_add _) hacc).2 hlayout hstores⟩

end Writes

/-- Every accepted schema: a write that is not refused stores its rows
faithfully if they are kept, and for a layout whose fixed part fits, only
then. A batch counts its rows in a `uint32_t`. -/
theorem accepted_write_stored {o : BitLSMOptions} (hschema : validateAttrSpecs o = .ok) :
    (∀ pk attrs payload prev, RowTyped o attrs →
      ¬ Refused (put (some o) pk attrs payload prev) →
      (RowKept o attrs → Stores o [pk] [attrs] (put (some o) pk attrs payload prev)) ∧
        (layoutBytes o.attrSpecs < 2 ^ 32 →
          Stores o [pk] [attrs] (put (some o) pk attrs payload prev) → RowKept o attrs)) ∧
    ∀ pks attrsList payloads, attrsList.length = pks.length → payloads.length = pks.length →
      (∀ attrs ∈ attrsList, RowTyped o attrs) →
      ¬ Refused (putBatch (some o) pks attrsList payloads) →
      (pks.length < 2 ^ 32 ∧ (∀ attrs ∈ attrsList, RowKept o attrs) →
          Stores o pks attrsList (putBatch (some o) pks attrsList payloads)) ∧
        (layoutBytes o.attrSpecs < 2 ^ 32 →
          Stores o pks attrsList (putBatch (some o) pks attrsList payloads) →
            pks.length < 2 ^ 32 ∧ ∀ attrs ∈ attrsList, RowKept o attrs) := by
  refine ⟨fun pk attrs payload prev htyped hacc => ?_,
    fun pks attrsList payloads hattrs hpayloads htyped hacc => ?_⟩
  · exact put_stores_iff hschema htyped pk payload prev hacc
  · exact putBatch_stores_iff hschema hattrs hpayloads htyped hacc

/-- One signed byte. -/
def oneByteSchema : BitLSMOptions := ⟨1, [⟨.range, .int, 1, false⟩]⟩

theorem rowTyped_oneByte (x : Int64) : RowTyped oneByteSchema [.int x] := by
  intro c hc
  obtain rfl : c = (⟨.range, .int, 1, false⟩, .int x) := by simpa [oneByteSchema] using hc
  exact Or.inr rfl

theorem not_refused_of_ok {α : Type} {r : Option (Except Status α)} {a : α} (h : r = some (.ok a)) :
    ¬ Refused r := by
  rintro ⟨msg, hmsg⟩
  rw [h] at hmsg
  cases hmsg

theorem accepted_write_stored_oneByte :
    validateAttrSpecs oneByteSchema = .ok ∧ RowKept oneByteSchema [.int (-7)] ∧
      Stores oneByteSchema [[1]] [[.int (-7)]] (put (some oneByteSchema) [1] [.int (-7)] [] []) ∧
      Stores oneByteSchema [[1], [2]] [[.int (-7)], [.int (-7)]]
        (putBatch (some oneByteSchema) [[1], [2]] [[.int (-7)], [.int (-7)]] [[], [5]]) := by
  have hkept : RowKept oneByteSchema [.int (-7)] := by
    refine ⟨by decide, fun c hc _ => ?_⟩
    obtain rfl : c = (⟨.range, .int, 1, false⟩, .int (-7)) := by simpa [oneByteSchema] using hc
    constructor <;> decide
  have hput : ¬ Refused (put (some oneByteSchema) [1] [.int (-7)] [] []) :=
    not_refused_of_ok (a := [([1], [249])]) (by decide)
  have hbatch : ¬ Refused
      (putBatch (some oneByteSchema) [[1], [2]] [[.int (-7)], [.int (-7)]] [[], [5]]) :=
    not_refused_of_ok (a := [([1], [249]), ([2], [249, 5])]) (by decide)
  refine ⟨rfl, hkept, ((accepted_write_stored rfl).1 _ _ _ _ (rowTyped_oneByte _) hput).1 hkept,
    ((accepted_write_stored rfl).2 [[1], [2]] [[.int (-7)], [.int (-7)]] [[], [5]] rfl rfl ?_
      hbatch).1 ⟨?_, ?_⟩⟩
  · simpa using rowTyped_oneByte (-7)
  · decide
  · simpa using hkept

/-- The byte attribute given 300 is stored as 44, with no refusal, and an
EQUAL query on 300 misses the row. -/
theorem accepted_write_altered :
    validateAttrSpecs oneByteSchema = .ok ∧ RowTyped oneByteSchema [.int 300] ∧
      put (some oneByteSchema) [1] [.int 300] [] [] = some (.ok [([1], [44])]) ∧
      decodeAttr (.ofOptions oneByteSchema) [44] 0 = some (.int 44) ∧
      (BitLSMQuery.mk [[⟨0, .equal, .int 300⟩]]).checkCondition [44] (.ofOptions oneByteSchema) =
        some false :=
  ⟨rfl, rowTyped_oneByte 300, by decide, by decide, by decide⟩

end BitLSM
