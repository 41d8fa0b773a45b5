import BitLSM.Builder.Finish
import BitLSM.Checked
import BitLSM.RowRoundTrip

/-!
What a validated query can rely on.

Five consumers unpack the comparands of a query and index by its attributes on
the strength of one check, and the readers of a row trust the layout. A query
that passes `validate` is evaluated to the end by each of them: every access of
the checked evaluators succeeds on every row the encoder wrote, whatever the
sizes of the query, and on every index with the schema's types. The layout's
own offsets are `uint32_t`, so the part of a row in front of its variable bytes
has to be addressable.
-/

namespace BitLSM

open Wire

/-! ### Rows of a schema -/

/-- The encoder wrote `row` for one value per attribute. -/
def IsRow (o : BitLSMOptions) (row : Bytes) : Prop :=
  ∃ attrs payload prev, attrs.length = o.attrSpecs.length ∧
    encodeValue (.ofOptions o) attrs payload prev = some row

theorem fits_of_encodeFixed {v : AttrView} {s : AttrSpec} {bs : Bytes} (hf : s.isFixed = true)
    (h : encodeFixed v s = some bs) :
    v.fits s.physicalType = true ∧
      ∀ b, v = .bytes b → s.physicalType = .binary → s.width.toNat ≤ b.length := by
  cases hp : s.physicalType with
  | varBinary => simp [AttrSpec.isFixed, hp] at hf
  | binary =>
      cases v with
      | bytes str =>
          refine ⟨rfl, fun b hb _ => ?_⟩
          obtain rfl := AttrView.bytes.inj hb
          simp only [encodeFixed, hp] at h
          simpa using (readAt_eq_some h).1
      | _ => simp [encodeFixed, hp] at h
  | int =>
      cases v with
      | int x => exact ⟨rfl, fun _ hb => by cases hb⟩
      | _ => simp [encodeFixed, hp] at h
  | uint =>
      cases v with
      | uint x => exact ⟨rfl, fun _ hb => by cases hb⟩
      | _ => simp [encodeFixed, hp] at h
  | float =>
      cases v with
      | float d => exact ⟨rfl, fun _ hb => by cases hb⟩
      | _ => simp [encodeFixed, hp] at h

theorem encodable_of_encodeAttr {layout : ValueLayout} {st st' : EncodeState} {i : ℕ} {c : Cell}
    (hspec : layout.specs[i]? = some c.1) (hfixed : layout.isFixed[i]? = some c.1.isFixed)
    (h : encodeAttr layout st i c.2 = some st') : Encodable c := by
  by_cases hnull : c.2 = .null
  · exact Or.inl hnull
  right
  rw [encodeAttr, Option.bind_eq_bind, Option.bind_eq_some_iff] at h
  obtain ⟨out, -, h⟩ := h
  simp only [hfixed, hspec, Option.bind_eq_bind, Option.bind_some, if_neg hnull] at h
  by_cases hf : c.1.isFixed = true
  · rw [if_pos hf] at h
    obtain ⟨slot, -, h⟩ := Option.bind_eq_some_iff.1 h
    obtain ⟨bytes, hbytes, -⟩ := Option.bind_eq_some_iff.1 h
    exact fits_of_encodeFixed hf hbytes
  · have hp : c.1.physicalType = .varBinary := by simpa [AttrSpec.isFixed] using hf
    rw [if_neg hf] at h
    cases hv : c.2 with
    | bytes b => exact ⟨by rw [hp]; rfl, fun _ _ hbin => by rw [hp] at hbin; cases hbin⟩
    | null => exact absurd hv hnull
    | int x => rw [hv] at h; cases h
    | uint x => rw [hv] at h; cases h
    | float d => rw [hv] at h; cases h

theorem encodable_of_encodeAttrs {layout : ValueLayout} {st st' : EncodeState} {i : ℕ}
    {cells : List Cell}
    (hspec : ∀ (j : ℕ) c, cells[j]? = some c → layout.specs[i + j]? = some c.1)
    (hfixed : ∀ (j : ℕ) c, cells[j]? = some c → layout.isFixed[i + j]? = some c.1.isFixed)
    (h : encodeAttrs layout st i (cells.map Prod.snd) = some st') : ∀ c ∈ cells, Encodable c := by
  induction cells generalizing st i with
  | nil => exact fun c hc => by cases hc
  | cons c cells ih =>
      rw [List.map_cons, encodeAttrs, Option.bind_eq_bind, Option.bind_eq_some_iff] at h
      obtain ⟨st₁, hstep, hrun⟩ := h
      have hshift (j : ℕ) : i + 1 + j = i + (j + 1) := by omega
      refine List.forall_mem_cons.2 ⟨encodable_of_encodeAttr (hspec 0 c rfl) (hfixed 0 c rfl) hstep,
        ih (fun j c' hc' => ?_) (fun j c' hc' => ?_) hrun⟩
      · rw [hshift]
        exact hspec (j + 1) c' hc'
      · rw [hshift]
        exact hfixed (j + 1) c' hc'

/-- A row of an addressable schema is laid out as its values say. -/
theorem IsRow.walk {o : BitLSMOptions} {row : Bytes} (hschema : validateAttrSpecs o = .ok)
    (hlayout : layoutBytes o.attrSpecs < 2 ^ 32) (h : IsRow o row) :
    ∃ cells payload, o.attrSpecs = cells.map Prod.fst ∧ row = rowBytes cells ++ payload ∧
      Walk (.ofOptions o) (layoutBytes o.attrSpecs + (variablePart cells).length) cells := by
  obtain ⟨attrs, payload, prev, hlen, henc⟩ := h
  obtain ⟨cells, hfst, hsnd⟩ : ∃ cells : List Cell,
      o.attrSpecs = cells.map Prod.fst ∧ attrs = cells.map Prod.snd :=
    ⟨o.attrSpecs.zip attrs, (List.map_fst_zip (by omega)).symm, (List.map_snd_zip (by omega)).symm⟩
  rw [hsnd] at henc
  have hcell (j : ℕ) (c : Cell) (hc : cells[j]? = some c) : o.attrSpecs[j]? = some c.1 := by
    rw [hfst, List.getElem?_map, hc]
    rfl
  have hencodable : ∀ c ∈ cells, Encodable c := by
    have hrun := henc
    simp only [encodeValue, Option.bind_eq_bind] at hrun
    obtain ⟨_, -, hrun⟩ := Option.bind_eq_some_iff.1 hrun
    obtain ⟨_, -, hrun⟩ := Option.bind_eq_some_iff.1 hrun
    obtain ⟨_, hrun, -⟩ := Option.bind_eq_some_iff.1 hrun
    refine encodable_of_encodeAttrs (fun j c hc => ?_) (fun j c hc => ?_) hrun
    · rw [ValueLayout.specs_ofOptions, Nat.zero_add, hcell j c hc]
    · rw [ValueLayout.isFixed_ofOptions, Nat.zero_add, List.getElem?_map, hcell j c hc]
      rfl
  have hsmall := encodeValue_room hschema hfst hencodable hlayout henc
  rw [encodeValue_eq hschema hfst hencodable hsmall] at henc
  exact ⟨cells, payload, hfst, (Option.some.inj henc).symm,
    Walk.ofOptions hschema hfst hencodable hsmall⟩

/-! ### Every attribute lies inside -/

theorem slotBytes_eq {s : AttrSpec} (hvalid : s.valid = true) (hfixed : s.isFixed = true) :
    s.slotBytes = s.width.toNat := by
  cases hp : s.physicalType with
  | varBinary => simp [AttrSpec.isFixed, hp] at hfixed
  | float =>
      have hw : s.width = 4 ∨ s.width = 8 := by simpa [AttrSpec.valid, hp] using hvalid
      rcases hw with hw | hw <;> simp [AttrSpec.slotBytes, hp, hw]
  | int | uint | binary => simp only [AttrSpec.slotBytes, hp]

section Inside

variable {pre post : List Cell} {c : Cell} {layout : ValueLayout} {size : ℕ}

theorem Walk.inside (w : Walk layout size (pre ++ c :: post)) (payload : Bytes) {slot : UInt32}
    (hslot : slot.toNat = if c.1.isFixed = true then
        fixedBase ((pre ++ c :: post).map Prod.fst) + fixedBytes (pre.map Prod.fst)
      else variableCount (pre.map Prod.fst)) :
    AttrSlot.Inside layout (rowBytes (pre ++ c :: post) ++ payload)
      ⟨c.1, nullBitAt c.1.nullable (nullableCount (pre.map Prod.fst)), slot⟩ := by
  obtain ⟨henc, hvalid⟩ := w.encodable c (by simp)
  obtain ⟨hheader, hends, hfixed, -⟩ := rowBytes_regions payload w.encodable
  obtain ⟨hrank, hroom, hvars, hfixedLe, -⟩ := w.bounds
  refine ⟨fun hnb => ?_, fun hf => ?_, fun hf => ?_⟩
  · obtain ⟨hnullable, hlow⟩ := (nullBitAt_nonneg hrank).1 hnb
    have hle := hheader.length_le
    rw [length_nullHeader] at hle
    simp only [hnullable, toNatClampNeg_nullBitAt hlow]
    have := hroom hnullable
    omega
  · have hle := hfixed.length_le
    rw [length_fixedPart w.encodable] at hle
    rw [fixedBytes_singleton, if_pos hf] at hfixedLe
    rw [if_pos hf] at hslot
    simp only [slotBytes_eq hvalid hf]
    omega
  · rw [if_neg hf] at hslot
    have hsmall := w.small
    have hstart := loadStart_eq payload w.encodable (by omega) hslot
    have hstop := loadStop_eq payload w hf hslot
    rw [← w.placed.header] at hstart hstop
    generalize hfrom : (if 0 < slot then loadU32 _ else 0) = start at hstart
    generalize hto : loadU32 _ = stop at hstop
    refine variableIn_eq hfrom hto ?_ ?_
    · have hle := hends.length_le
      rw [length_varEnds] at hle
      rw [variableCount_singleton, if_neg hf] at hvars
      simp only [w.placed.header]
      omega
    · have hle := (variableCell_at payload w.encodable).length_le
      rw [UInt32.toNat_sub_of_le, hstart, hstop, w.placed.base]
      · omega
      · rw [UInt32.le_iff_toNat_le, hstart, hstop]
        exact Nat.le_add_right _ _

end Inside

theorem IsRow.inside {o : BitLSMOptions} {row : Bytes} (hschema : validateAttrSpecs o = .ok)
    (hlayout : layoutBytes o.attrSpecs < 2 ^ 32) (h : IsRow o row) {attrIdx : UInt32}
    {a : AttrSlot} (hat : (ValueLayout.ofOptions o).At attrIdx a) :
    a.Inside (.ofOptions o) row := by
  obtain ⟨cells, payload, hspecs, rfl, w⟩ := h.walk hschema hlayout
  have hspec := hat.specs
  rw [ValueLayout.specs_ofOptions, hspecs, List.getElem?_map, Option.map_eq_some_iff] at hspec
  obtain ⟨c, hc, -⟩ := hspec
  obtain ⟨hlt, hget⟩ := List.getElem?_eq_some_iff.1 hc
  have hsplit : cells = cells.take attrIdx.toNat ++ c :: cells.drop (attrIdx.toNat + 1) := by
    rw [← hget, List.cons_getElem_drop_succ, List.take_append_drop]
  have hidx : attrIdx.toNat = (cells.take attrIdx.toNat).length :=
    (List.length_take_of_le hlt.le).symm
  generalize cells.take attrIdx.toNat = pre at *
  generalize cells.drop (attrIdx.toNat + 1) = post at *
  subst hsplit
  obtain ⟨slot, hat', hslot⟩ := w.placed.at hidx
  have heq : a = ⟨c.1, nullBitAt c.1.nullable (nullableCount (pre.map Prod.fst)), slot⟩ := by
    obtain ⟨spec, nb, sl⟩ := a
    have h₁ := Option.some.inj (hat.specs.symm.trans hat'.specs)
    have h₂ := Option.some.inj (hat.nullBit.symm.trans hat'.nullBit)
    have h₃ := Option.some.inj (hat.slot.symm.trans hat'.slot)
    simp_all
  rw [heq]
  exact w.inside payload hslot

/-! ### Compilation of any size

Offsets past `2 ^ 32` are recorded wrapped. They are then smaller than the true
ones, so that what they point at exists. -/

namespace CompiledQuery

/-- The predicate is resolved against the layout and points into the arena. -/
structure PredSafe (l : ValueLayout) (arena : Bytes) (p : Pred) : Prop where
  at_slot : ∃ attrIdx, l.At attrIdx ⟨p.spec, p.nullBit, p.slot⟩
  isNumeric : p.isNumeric = p.spec.isNumeric
  arena : p.soff.toNat + p.slen.toNat ≤ arena.length

structure Safe (l : ValueLayout) (cq : CompiledQuery) : Prop where
  variableBase : cq.variableBase = l.variableBase
  nullBitmapBytes : cq.nullBitmapBytes = l.nullBitmapBytes
  preds : ∀ p ∈ cq.preds, PredSafe l cq.arena p
  clauses : ∀ r ∈ cq.clauses, r.stop.toNat ≤ cq.preds.length

variable {o : BitLSMOptions} {l : ValueLayout} {cq : CompiledQuery}

theorem Safe.push {p : Pred} {arena : Bytes} (h : Safe l cq)
    (harena : cq.arena.length ≤ arena.length) (hp : PredSafe l arena p) :
    Safe l { cq with preds := cq.preds ++ [p], arena } := by
  refine ⟨h.variableBase, h.nullBitmapBytes, fun p' hp' => ?_, fun r hr => ?_⟩
  · rcases List.mem_append.1 hp' with hold | hnew
    · obtain ⟨hat, hnum, hle⟩ := h.preds p' hold
      exact ⟨hat, hnum, hle.trans harena⟩
    · rw [List.mem_singleton.1 hnew]
      exact hp
  · have := h.clauses r hr
    simp only [List.length_append]
    omega

theorem addPred_safe (h : Safe (.ofOptions o) cq) {c : QueryCondition} {spec : AttrSpec}
    (hc : c.Ok o spec) :
    ∃ cq', addPred (.ofOptions o) cq c = some cq' ∧ Safe (.ofOptions o) cq' := by
  obtain ⟨a, hat, rfl⟩ := ValueLayout.exists_at hc.spec_eq
  have hfits := hc.fits
  unfold addPred
  simp only [hat.specs, hat.nullBit, hat.slot, Option.bind_eq_bind, Option.bind_some]
  cases hp : a.spec.physicalType <;> cases hv : c.value <;>
    simp [hp, hv, Comparand.fits] at hfits
  case int.int | uint.uint | float.float =>
    exact ⟨_, rfl, h.push le_rfl ⟨⟨_, hat⟩, rfl, Nat.zero_le _⟩⟩
  all_goals
    next str =>
      refine ⟨_, rfl, h.push (by simp) ⟨⟨_, hat⟩, rfl, ?_⟩⟩
      have hoff := Nat.mod_le cq.arena.length (2 ^ 32)
      have hlen := Nat.mod_le str.length (2 ^ 32)
      simp only [UInt32.toNat_ofNat', List.length_append]
      omega

theorem foldlM_addPred_safe {clause : OrClause} (h : Safe (.ofOptions o) cq)
    (hok : ∀ c ∈ clause, ∃ spec, c.Ok o spec) :
    ∃ cq', clause.foldlM (addPred (.ofOptions o)) cq = some cq' ∧ Safe (.ofOptions o) cq' := by
  induction clause generalizing cq with
  | nil => exact ⟨cq, rfl, h⟩
  | cons c clause ih =>
      rw [List.forall_mem_cons] at hok
      obtain ⟨spec, hc⟩ := hok.1
      obtain ⟨cq₁, hadd, h₁⟩ := addPred_safe h hc
      obtain ⟨cq₂, hfold, h₂⟩ := ih h₁ hok.2
      exact ⟨cq₂, by rw [List.foldlM_cons, hadd]; exact hfold, h₂⟩

theorem addClause_safe {clause : OrClause} (h : Safe (.ofOptions o) cq)
    (hok : ∀ c ∈ clause, ∃ spec, c.Ok o spec) :
    ∃ cq', addClause (.ofOptions o) cq clause = some cq' ∧ Safe (.ofOptions o) cq' := by
  obtain ⟨cq₁, hfold, h₁⟩ := foldlM_addPred_safe h hok
  refine ⟨{ cq₁ with
      clauses := cq₁.clauses ++ [⟨UInt32.ofNat cq.preds.length, UInt32.ofNat cq₁.preds.length⟩] },
    by rw [addClause, hfold]; rfl, h₁.variableBase, h₁.nullBitmapBytes, h₁.preds, fun r hr => ?_⟩
  rcases List.mem_append.1 hr with hold | hnew
  · exact h₁.clauses r hold
  · rw [List.mem_singleton.1 hnew]
    simp only [UInt32.toNat_ofNat']
    exact Nat.mod_le _ _

theorem ofQuery_safe {q : BitLSMQuery} (hq : q.validate o = .ok) :
    ∃ cq, ofQuery q o = some cq ∧ Safe (.ofOptions o) cq := by
  have hok := BitLSMQuery.validate_eq_ok.1 hq
  have hrun (clauses : List OrClause) (cq : CompiledQuery) (h : Safe (.ofOptions o) cq)
      (hok : ∀ clause ∈ clauses, ∀ c ∈ clause, ∃ spec, c.Ok o spec) :
      ∃ cq', clauses.foldlM (addClause (.ofOptions o)) cq = some cq' ∧
        Safe (.ofOptions o) cq' := by
    induction clauses generalizing cq with
    | nil => exact ⟨cq, rfl, h⟩
    | cons clause clauses ih =>
        rw [List.forall_mem_cons] at hok
        obtain ⟨cq₁, hadd, h₁⟩ := addClause_safe h hok.1
        obtain ⟨cq₂, hfold, h₂⟩ := ih cq₁ h₁ hok.2
        exact ⟨cq₂, by rw [List.foldlM_cons, hadd]; exact hfold, h₂⟩
  refine hrun q.clauseGroups _ ⟨rfl, rfl, fun p hp => ?_, fun r hr => ?_⟩
    fun clause hclause => (hok clause hclause).2
  · cases hp
  · cases hr

/-! ### Evaluation comes to an end -/

theorem evalNumeric_isSome {row : Bytes} {p : Pred} (hnum : p.spec.isNumeric = true) :
    ∃ b, evalNumeric row p = some b := by
  rw [evalNumeric]
  split
  · exact ⟨_, rfl⟩
  · next hw =>
      cases hp : p.spec.physicalType with
      | int => exact ⟨_, by simp only [decodeFixed, hp]; rfl⟩
      | uint => exact ⟨_, by simp only [decodeFixed, hp]; rfl⟩
      | float =>
          have hw8 : p.spec.width ≠ 8 := fun h => hw ⟨hp, h⟩
          exact ⟨_, by simp only [decodeFixed, hp, if_neg hw8]; rfl⟩
      | binary => simp [AttrSpec.isNumeric, hp] at hnum
      | varBinary => simp [AttrSpec.isNumeric, hp] at hnum

theorem PredSafe.evalPred {p : Pred} (h : PredSafe l cq.arena p) (row : Bytes) :
    ∃ b, cq.evalPred row p = some b := by
  rw [CompiledQuery.evalPred, h.isNumeric]
  split
  · exact ⟨_, rfl⟩
  · cases hnum : p.spec.isNumeric with
    | true => exact evalNumeric_isSome hnum
    | false => exact ⟨_, rfl⟩

theorem Safe.evalRange (h : Safe l cq) (row : Bytes) {i n : ℕ} (hn : i + n ≤ cq.preds.length) :
    ∃ b, cq.evalRange row i n = some b := by
  induction n generalizing i with
  | zero => exact ⟨false, rfl⟩
  | succ n ih =>
      have hlt : i < cq.preds.length := by omega
      obtain ⟨b, hb⟩ := (h.preds _ (List.getElem_mem hlt)).evalPred row
      obtain ⟨b', hb'⟩ := @ih (i + 1) (by omega)
      rw [CompiledQuery.evalRange, List.getElem?_eq_getElem hlt]
      simp only [Option.bind_eq_bind, Option.bind_some, hb, hb']
      cases b <;> exact ⟨_, rfl⟩

theorem Safe.eval (h : Safe l cq) (row : Bytes) : ∃ b, cq.eval row = some b := by
  have hrun (clauses : List ClauseRange) (hc : ∀ r ∈ clauses, r.stop.toNat ≤ cq.preds.length) :
      ∃ b, cq.evalClauses row clauses = some b := by
    induction clauses with
    | nil => exact ⟨true, rfl⟩
    | cons r clauses ih =>
        rw [List.forall_mem_cons] at hc
        obtain ⟨b', hb'⟩ := ih hc.2
        rw [evalClauses]
        rcases Nat.le_total r.first.toNat r.stop.toNat with hle | hge
        · obtain ⟨b, hb⟩ := h.evalRange row
            (show r.first.toNat + (r.stop.toNat - r.first.toNat) ≤ _ by omega)
          rw [hb]
          cases b
          · exact ⟨false, rfl⟩
          · exact ⟨b', hb'⟩
        · -- a wrapped range is empty
          rw [Nat.sub_eq_zero_of_le hge]
          exact ⟨false, rfl⟩
  exact hrun cq.clauses h.clauses

/-- Evaluation of a validated query reads inside the row and the arena. -/
theorem Safe.evalIn (hschema : validateAttrSpecs o = .ok)
    (hlayout : layoutBytes o.attrSpecs < 2 ^ 32) (h : Safe (.ofOptions o) cq) {row : Bytes}
    (hrow : IsRow o row) : cq.evalIn row = cq.eval row := by
  refine evalIn_eq fun p hp => ?_
  obtain ⟨⟨attrIdx, hat⟩, hnum, harena⟩ := h.preds p hp
  exact evalPredIn_eq h.variableBase h.nullBitmapBytes
    ⟨hrow.inside hschema hlayout hat, hnum, harena⟩

end CompiledQuery

/-! ### Readers -/

theorem length_decodeFixed32s {b : Bytes} {off n : ℕ} {xs : List UInt32}
    (h : decodeFixed32s b off n = some xs) : xs.length = n := by
  induction n generalizing off xs with
  | zero =>
      obtain rfl := Option.some.inj h
      rfl
  | succ n ih =>
      obtain ⟨x, -, h⟩ := Option.bind_eq_some_iff.1 h
      obtain ⟨xs', hxs', h⟩ := Option.bind_eq_some_iff.1 h
      obtain rfl := Option.some.inj h
      rw [List.length_cons, ih hxs']

theorem length_decodeFixed32sTo {b : Bytes} {off : ℕ} {last : UInt32} {xs : List UInt32}
    (h : decodeFixed32sTo b off last = some xs) : xs.length = last.toNat + 1 := by
  rw [decodeFixed32sTo] at h
  split at h
  · cases h
  · next hne =>
      have hlt := last.toNat_lt
      have hadd : (last + 1).toNat = (last.toNat + 1) % 2 ^ 32 := UInt32.toNat_add last 1
      have hnz : (last + 1).toNat ≠ 0 := fun h0 => hne (UInt32.toNat_inj.1 h0)
      rw [length_decodeFixed32s h]
      omega

/-- A parsed directory has its arrays in step. -/
theorem Directory.parse_lengths {b : Bytes} {dir : ℕ} {d : Directory}
    (h : Directory.parse b dir = some d) :
    d.binCounts.length = d.indexTypes.length ∧
      d.policyOffsets.length = d.indexTypes.length + 1 := by
  rw [Directory.parse] at h
  obtain ⟨attrNum, -, h⟩ := Option.bind_eq_some_iff.1 h
  obtain ⟨types, htypes, h⟩ := Option.bind_eq_some_iff.1 h
  obtain ⟨indexTypes, hindex, h⟩ := Option.bind_eq_some_iff.1 h
  obtain ⟨binCounts, hcounts, h⟩ := Option.bind_eq_some_iff.1 h
  obtain ⟨_, -, h⟩ := Option.bind_eq_some_iff.1 h
  obtain ⟨_, -, h⟩ := Option.bind_eq_some_iff.1 h
  obtain ⟨_, -, h⟩ := Option.bind_eq_some_iff.1 h
  obtain ⟨_, -, h⟩ := Option.bind_eq_some_iff.1 h
  obtain ⟨policyOffsets, hoffsets, h⟩ := Option.bind_eq_some_iff.1 h
  obtain ⟨_, -, h⟩ := Option.bind_eq_some_iff.1 h
  obtain rfl := Option.some.inj h
  obtain ⟨hroom, hslice⟩ := readAt_eq_some htypes
  have hlen : indexTypes.length = attrNum.toNat := by
    rw [(mapM_getElem? hindex).1, hslice, length_slice hroom]
  exact ⟨(length_decodeFixed32s hcounts).trans hlen.symm, by
    simp only [length_decodeFixed32sTo hoffsets, hlen]⟩

theorem le_getLastD {ends : List UInt32} (h : ends.Pairwise (· ≤ ·)) {e : UInt32}
    (he : e ∈ ends) : e ≤ ends.getLastD 0 := by
  induction ends using List.reverseRecOn with
  | nil => cases he
  | append_singleton ends x ih =>
      rw [List.pairwise_append] at h
      rw [List.getLastD_concat]
      rcases List.mem_append.1 he with hold | hnew
      · exact h.2.2 e hold x (by simp)
      · rw [List.mem_singleton.1 hnew]
        exact UInt32.le_refl x

theorem BytesList.readable_of_parse {b : Bytes} {off n : ℕ} {l : BytesList}
    (h : BytesList.parse b off = some (l, n)) (hends : l.ends.Pairwise (· ≤ ·)) :
    l.Readable getIn := by
  rw [BytesList.parse] at h
  obtain ⟨count, -, h⟩ := Option.bind_eq_some_iff.1 h
  obtain ⟨ends, -, h⟩ := Option.bind_eq_some_iff.1 h
  obtain ⟨arena, harena, h⟩ := Option.bind_eq_some_iff.1 h
  obtain ⟨rfl, -⟩ := Prod.mk.inj (Option.some.inj h)
  obtain ⟨hroom, rfl⟩ := readAt_eq_some harena
  refine BytesList.readable_getIn hends fun e he => ?_
  rw [length_slice hroom]
  exact UInt32.le_iff_toNat_le.1 (le_getLastD hends he)

/-- The end offsets of every packed list are in order, as in each list that was
packed below `2 ^ 32` bytes. -/
def SABIReader.EndsOrdered (r : SABIReader) : Prop :=
  ∀ boundaries, BinningPolicy.range boundaries ∈ r.binningPolicy →
    boundaries.ends.Pairwise (· ≤ ·)

theorem SABIReader.consistent_of_parse {frozen : FrozenCodec} {mode : SABIReaderMode} {b : Bytes}
    {r : SABIReader} {get : BytesList → ℕ → Option Bytes}
    (h : SABIReader.parse frozen mode b = some r)
    (hread : ∀ boundaries off n, BytesList.parse b off = some (boundaries, n) →
      .range boundaries ∈ r.binningPolicy → boundaries.Readable get) :
    r.Consistent get := by
  rw [SABIReader.parse] at h
  split at h
  case isFalse => cases h
  obtain ⟨dir, -, h⟩ := Option.bind_eq_some_iff.1 h
  obtain ⟨d, hd, h⟩ := Option.bind_eq_some_iff.1 h
  obtain ⟨policies, hpolicies, h⟩ := Option.bind_eq_some_iff.1 h
  obtain ⟨bitmaps, -, h⟩ := Option.bind_eq_some_iff.1 h
  obtain ⟨entries, -, h⟩ := Option.bind_eq_some_iff.1 h
  obtain rfl := Option.some.inj h
  obtain ⟨hcounts, hoffsets⟩ := Directory.parse_lengths hd
  -- attribute `i` has the policy parsed under its own type
  have hpolicy (i : ℕ) (t : IndexType) (ht : d.indexTypes[i]? = some t) :
      ∃ off p, BinningPolicy.parse b off t = some p ∧ policies[i]? = some p := by
    have hlt : i < d.policyOffsets.length := by
      have := (List.getElem?_eq_some_iff.1 ht).1
      omega
    obtain ⟨p, hp, hi⟩ := (mapM_getElem? hpolicies).2 i (t, d.policyOffsets[i])
      (List.getElem?_zip_eq_some.2 ⟨ht, List.getElem?_eq_getElem hlt⟩)
    exact ⟨_, p, hp, hi⟩
  refine ⟨hcounts, fun i ht => ?_, fun i ht => ?_⟩
  · obtain ⟨off, p, hp, hi⟩ := hpolicy i _ ht
    obtain ⟨count, -, hp⟩ := Option.bind_eq_some_iff.1 hp
    obtain ⟨es, -, hp⟩ := Option.bind_eq_some_iff.1 hp
    exact ⟨es, by rw [← Option.some.inj hp] at hi; exact hi⟩
  · obtain ⟨off, p, hp, hi⟩ := hpolicy i _ ht
    obtain ⟨⟨boundaries, n⟩, hparse, hp⟩ := Option.bind_eq_some_iff.1 hp
    rw [← Option.some.inj hp] at hi
    exact ⟨boundaries, hi, hread boundaries off n hparse (List.mem_of_getElem? hi)⟩

/-- The two lookups of a query end well under the access `get`. -/
def SABIReader.LooksUp (get : BytesList → ℕ → Option Bytes) (r : SABIReader) (q : SABIQuery) :
    Prop :=
  r.queryCanMatchBy get q = some (r.queryCanMatch q) ∧
    ∀ clause ∈ q.clauseGroups, ∀ c ∈ clause,
      ∃ s, r.selectBinsBy get c = some s ∧ r.selectBins c = some s

theorem SABIReader.Consistent.looksUp {get : BytesList → ℕ → Option Bytes} {r : SABIReader}
    {q : SABIQuery} (h : r.Consistent get)
    (hidx : ∀ clause ∈ q.clauseGroups, ∀ c ∈ clause, c.attrIdx.toNat < r.indexTypes.length) :
    r.LooksUp get q :=
  ⟨h.queryCanMatchBy q, fun clause hclause c hc => h.selectBinsBy (hidx clause hclause c hc)⟩

/-! ### Validated queries -/

/-- Why a condition is not accepted. -/
def QueryCondition.Rejected (o : BitLSMOptions) (c : QueryCondition) : Prop :=
  o.attrSpecs.length ≤ c.attrIdx.toNat ∨
    ∃ spec, o.attrSpecs[c.attrIdx.toNat]? = some spec ∧
      (c.value.fits spec.physicalType = false ∨ spec.indexType = .equality ∧ c.op ≠ .equal)

theorem QueryCondition.rejected_of_not_ok {o : BitLSMOptions} {c : QueryCondition}
    (h : ¬∃ spec, c.Ok o spec) : c.Rejected o := by
  cases hs : o.attrSpecs[c.attrIdx.toNat]? with
  | none => exact Or.inl (List.getElem?_eq_none_iff.1 hs)
  | some spec =>
      right
      refine ⟨spec, hs, ?_⟩
      by_contra hok
      rw [not_or, Bool.not_eq_false] at hok
      exact h ⟨spec, hs, hok.1, fun he => by_contra fun hop => hok.2 ⟨he, hop⟩⟩

theorem BitLSMQuery.rejected {o : BitLSMOptions} {q : BitLSMQuery} (h : q.validate o ≠ .ok) :
    ∃ clause ∈ q.clauseGroups, clause = [] ∨ ∃ c ∈ clause, c.Rejected o := by
  rw [ne_eq, validate_eq_ok] at h
  push Not at h
  obtain ⟨clause, hclause, h⟩ := h
  refine ⟨clause, hclause, ?_⟩
  by_cases hnil : clause = []
  · exact Or.inl hnil
  · obtain ⟨c, hc, hbad⟩ := h hnil
    exact Or.inr ⟨c, hc, QueryCondition.rejected_of_not_ok fun ⟨spec, hspec⟩ => hbad spec hspec⟩

/-- A validated query is evaluated without a wrong alternative, an index out of
range or a read outside; a rejected one has a reason. -/
theorem validated_query_total (o : BitLSMOptions) (hschema : validateAttrSpecs o = .ok)
    (q : BitLSMQuery) :
    (q.validate o = .ok →
      (layoutBytes o.attrSpecs < 2 ^ 32 → ∀ row, IsRow o row →
        ∃ b, q.checkConditionIn row (.ofOptions o) = some b ∧
          q.checkCondition row (.ofOptions o) = some b) ∧
      (∃ cq, CompiledQuery.ofQuery q o = some cq ∧
        (layoutBytes o.attrSpecs < 2 ^ 32 → ∀ row, IsRow o row →
          ∃ b, cq.evalIn row = some b ∧ cq.eval row = some b)) ∧
      ∃ sq, encodeQuery q o = some sq ∧
        ∀ frozen mode blob r, SABIReader.parse frozen mode blob = some r →
          r.indexTypes = o.indexTypes →
          r.LooksUp BytesList.entryAt sq ∧ (r.EndsOrdered → r.LooksUp BytesList.getIn sq)) ∧
    (q.validate o ≠ .ok →
      ∃ clause ∈ q.clauseGroups, clause = [] ∨ ∃ c ∈ clause, c.Rejected o) := by
  refine ⟨fun hq => ⟨fun hlayout row hrow => ?_, ?_, ?_⟩, BitLSMQuery.rejected⟩
  · refine ⟨_, ?_, BitLSMQuery.checkCondition_eq row hschema hq⟩
    rw [BitLSMQuery.checkConditionIn_eq fun clause hclause c hc => ?_,
      BitLSMQuery.checkCondition_eq row hschema hq]
    obtain ⟨spec, hok⟩ := (BitLSMQuery.validate_eq_ok.1 hq clause hclause).2 c hc
    obtain ⟨a, hat, -⟩ := ValueLayout.exists_at hok.spec_eq
    exact ⟨a, hat, hrow.inside hschema hlayout hat⟩
  · obtain ⟨cq, hcq, hsafe⟩ := CompiledQuery.ofQuery_safe hq
    refine ⟨cq, hcq, fun hlayout row hrow => ?_⟩
    obtain ⟨b, hb⟩ := hsafe.eval row
    exact ⟨b, (hsafe.evalIn hschema hlayout hrow).trans hb, hb⟩
  · obtain ⟨sq, hsq, -⟩ := encodeQuery_spec hq
    refine ⟨sq, hsq, fun frozen mode blob r hparse htypes => ?_⟩
    have hidx : ∀ clause ∈ sq.clauseGroups, ∀ c ∈ clause,
        c.attrIdx.toNat < r.indexTypes.length := by
      intro clause hclause c hc
      simpa [htypes, BitLSMOptions.indexTypes] using (encodeQuery_attrs hq hsq).1 clause
          hclause c hc
    refine ⟨?_, fun hends => ?_⟩
    · exact (SABIReader.consistent_of_parse hparse fun boundaries _ _ _ _ =>
        BytesList.readable_entryAt).looksUp hidx
    · exact (SABIReader.consistent_of_parse hparse fun boundaries _ _ hlist hmem =>
        BytesList.readable_of_parse hlist (hends boundaries hmem)).looksUp hidx

/-- Two rows of a double and a one-byte string. -/
def doubleCalls : List BuilderCall :=
  [.onKeyAdded [1] .value [0, 1, 0, 0, 0, 0, 0, 0, 0, 0, 0, 0xF0, 0x3F, 97],
    .onKeyAdded [2] .value [0, 1, 0, 0, 0, 0, 0, 0, 0, 0, 0, 0, 0x40, 98], .addIndexEntry 0 40]

/-- The index of the two rows has a bin for each value. -/
theorem exists_parse_doubleCalls : ∃ blob r,
    (SABIBuilder.run Runtime.oneRow.hash (valueLayoutExtractor (.ofOptions doubleAndString))
      (SABISchema.fromOptions doubleAndString ⟨0x3FD0000000000000⟩) doubleCalls).bind
        (fun b => b.finish .oneRow) = some blob ∧
    SABIReader.parse Runtime.oneRow.frozen .resident blob = some r ∧
    r.indexTypes = doubleAndString.indexTypes ∧ r.EndsOrdered := by
  have hvalue : ((SABIBuilder.run Runtime.oneRow.hash
      (valueLayoutExtractor (.ofOptions doubleAndString))
      (SABISchema.fromOptions doubleAndString ⟨0x3FD0000000000000⟩) doubleCalls).bind
        fun b => b.finish .oneRow).bind (fun blob =>
          (SABIReader.parse Runtime.oneRow.frozen .resident blob).map fun r =>
            (r.indexTypes, r.binningPolicy)) =
      some (doubleAndString.indexTypes,
        [.range ⟨[191, 240, 0, 0, 0, 0, 0, 0, 192, 0, 0, 0, 0, 0, 0, 0, 192, 0, 0, 0, 0, 0, 0, 0],
          [8, 16, 24]⟩, .equality [([97], 0), ([98], 1)]]) := by
    decide +kernel
  obtain ⟨blob, hblob, hvalue⟩ := Option.bind_eq_some_iff.1 hvalue
  obtain ⟨r, hparse, hr⟩ := Option.map_eq_some_iff.1 hvalue
  obtain ⟨htypes, hpolicy⟩ := Prod.mk.inj hr
  refine ⟨blob, r, hblob, hparse, htypes, fun boundaries hmem => ?_⟩
  rw [hpolicy] at hmem
  simp only [List.mem_cons, BinningPolicy.range.injEq, reduceCtorEq, List.not_mem_nil,
    or_false] at hmem
  rw [hmem]
  decide

/-- A double and a one-byte string, then no payload, and the index of two such
rows. -/
theorem validated_query_total_between :
    let row : Bytes := [0, 1, 0, 0, 0, 0, 0, 0, 0, 0, 0, 0xF0, 0x3F, 97]
    IsRow doubleAndString row ∧
      (∃ b, betweenQuery.checkConditionIn row (.ofOptions doubleAndString) = some b) ∧
      (∃ cq b, CompiledQuery.ofQuery betweenQuery doubleAndString = some cq ∧
        cq.evalIn row = some b) ∧
      (∃ sq blob r, encodeQuery betweenQuery doubleAndString = some sq ∧
        SABIReader.parse Runtime.oneRow.frozen .resident blob = some r ∧
        r.indexTypes = doubleAndString.indexTypes ∧ r.LooksUp BytesList.entryAt sq ∧
        r.LooksUp BytesList.getIn sq) ∧
      ∃ clause ∈ [[]], clause = [] ∨ ∃ c ∈ clause, QueryCondition.Rejected doubleAndString c := by
  have hrow : IsRow doubleAndString [0, 1, 0, 0, 0, 0, 0, 0, 0, 0, 0, 0xF0, 0x3F, 97] :=
    ⟨[.float ⟨0x3FF0000000000000⟩, .bytes [97]], [], [], rfl, by decide⟩
  obtain ⟨hcheck, ⟨cq, hcq, heval⟩, sq, hsq, hreader⟩ :=
    (validated_query_total doubleAndString rfl betweenQuery).1 rfl
  obtain ⟨b, hb, -⟩ := hcheck (by decide) _ hrow
  obtain ⟨b', hb', -⟩ := heval (by decide) _ hrow
  obtain ⟨blob, r, -, hparse, htypes, hends⟩ := exists_parse_doubleCalls
  obtain ⟨hentry, hget⟩ := hreader _ _ _ _ hparse htypes
  exact ⟨hrow, ⟨b, hb⟩, ⟨cq, b', hcq, hb'⟩, ⟨sq, blob, r, hsq, hparse, htypes, hentry, hget hends⟩,
    (validated_query_total doubleAndString rfl ⟨[[]]⟩).2 (by decide)⟩

/-! ### A layout that wraps -/

/-- A run of equal fixed attributes whose slots lie in the buffer. -/
theorem encodeAttrs_replicate {layout : ValueLayout} {s : AttrSpec} {v : AttrView} {bs : Bytes}
    (hv : v ≠ .null) (hbytes : encodeFixed v s = some bs) (rest : List AttrView) {i n : ℕ}
    (st : EncodeState)
    (hat : ∀ j < n, layout.nullBit[i + j]? = some (-1) ∧ layout.isFixed[i + j]? = some true ∧
      layout.specs[i + j]? = some s ∧
      ∃ slot, layout.slot[i + j]? = some slot ∧ slot.toNat + bs.length ≤ st.out.length) :
    ∃ out, out.length = st.out.length ∧
      encodeAttrs layout st i (List.replicate n v ++ rest) =
        encodeAttrs layout { st with out } (i + n) rest := by
  induction n generalizing i st with
  | zero => exact ⟨st.out, rfl, rfl⟩
  | succ n ih =>
      obtain ⟨hnull, hfixed, hspec, slot, hslot, hroom⟩ := hat 0 n.succ_pos
      obtain ⟨out, hwrite⟩ := exists_writeAt st.out bs hroom
      have hlen := length_writeAt hwrite
      have hmark : encodeNull layout st.out i v = some st.out := by
        rw [Nat.add_zero] at hnull
        simp [encodeNull, hnull, hv]
      have hstep : encodeAttr layout st i v = some { st with out } :=
        encodeAttr_fixed hmark hfixed hslot hspec (by rw [if_neg hv, hbytes]) hwrite
      obtain ⟨out', hlen', hrun⟩ := @ih (i + 1) { st with out } fun j hj => by
        have := hat (j + 1) (by omega)
        rw [hlen]
        rwa [Nat.add_assoc, Nat.add_comm 1 j]
      refine ⟨out', hlen'.trans hlen, ?_⟩
      rw [List.replicate_succ, List.cons_append, encodeAttrs, hstep, ← Nat.add_assoc,
        Nat.add_right_comm i n 1, ← hrun]
      rfl

/-- A string, `n` blocks and a number in the last slot. -/
def overlapSpecs (n : ℕ) : List AttrSpec :=
  ⟨.equality, .varBinary, 0, false⟩ ::
    (List.replicate n ⟨.equality, .binary, 65534, false⟩ ++ [⟨.equality, .uint, 4, false⟩])

def overlapSchema (n : ℕ) : BitLSMOptions := ⟨UInt32.ofNat (n + 2), overlapSpecs n⟩

def overlapRow (n : ℕ) (block : Bytes) : List AttrView :=
  .bytes [] :: (List.replicate n (.bytes block) ++ [.uint 0xFFFFFFFF])

section Overlap

variable {n : ℕ} {block payload : Bytes}

theorem length_overlapSpecs : (overlapSpecs n).length = n + 2 := by
  rw [overlapSpecs, List.length_cons, List.length_append, List.length_replicate,
    List.length_singleton]

theorem overlapSpecs_block {j : ℕ} (hj : j < n) :
    (overlapSpecs n)[1 + j]? = some ⟨.equality, .binary, 65534, false⟩ := by
  rw [overlapSpecs, Nat.add_comm, List.getElem?_cons_succ,
    List.getElem?_append_left (by rwa [List.length_replicate]), List.getElem?_replicate_of_lt hj]

theorem overlapSpecs_last : (overlapSpecs n)[1 + n]? = some ⟨.equality, .uint, 4, false⟩ := by
  rw [overlapSpecs, Nat.add_comm, List.getElem?_cons_succ,
    List.getElem?_append_right (by rw [List.length_replicate]), List.length_replicate,
    Nat.sub_self]
  rfl

theorem fixedBytes_overlapSpecs {j : ℕ} (hj : j ≤ n) :
    fixedBytes ((overlapSpecs n).take (1 + j)) = 65534 * j := by
  rw [overlapSpecs, Nat.add_comm, List.take_succ_cons,
    List.take_append_of_le_length (by rwa [List.length_replicate]), List.take_replicate,
    min_eq_left hj]
  simp [fixedBytes, AttrSpec.isFixed, Nat.mul_comm]

theorem overlapSpecs_counts :
    variableCount (overlapSpecs n) = 1 ∧ nullableCount (overlapSpecs n) = 0 ∧
      fixedBytes (overlapSpecs n) = 65534 * n + 4 := by
  refine ⟨?_, ?_, ?_⟩
  · simp [variableCount, overlapSpecs, AttrSpec.isFixed, List.countP_replicate]
  · simp [nullableCount, overlapSpecs, List.countP_replicate]
  · simp [fixedBytes, overlapSpecs, AttrSpec.isFixed, Nat.mul_comm]

theorem eq_of_mem_overlapSpecs {s : AttrSpec} (hs : s ∈ overlapSpecs n) :
    s.valid = true ∧ s.nullable = false := by
  rw [overlapSpecs, List.mem_cons, List.mem_append, List.mem_replicate, List.mem_singleton] at hs
  rcases hs with rfl | ⟨-, rfl⟩ | rfl <;> exact ⟨rfl, rfl⟩

theorem validate_overlapSchema (hn : n = 65538) : validateAttrSpecs (overlapSchema n) = .ok := by
  refine validateAttrSpecs_eq_ok.2 ⟨?_, fun s hs => (eq_of_mem_overlapSpecs hs).1⟩
  rw [overlapSchema, length_overlapSpecs, UInt32.toNat_ofNat']
  omega

/-- The blocks use up the 32 bits of an offset, and the last slot wraps onto the
first. -/
structure Overlaps (n : ℕ) (l : ValueLayout) : Prop where
  specs : l.specs = overlapSpecs n
  isFixed : l.isFixed = (overlapSpecs n).map AttrSpec.isFixed
  nullBitmapBytes : l.nullBitmapBytes = 0
  variableBase : l.variableBase = 4
  nullBit : ∀ i < n + 2, l.nullBit[i]? = some (-1)
  first : l.slot[0]? = some 0
  block : ∀ j < n, ∃ slot, l.slot[1 + j]? = some slot ∧ slot.toNat = 4 + 65534 * j
  last : l.slot[1 + n]? = some 0

theorem overlaps (hn : n = 65538) : Overlaps n (.ofOptions (overlapSchema n)) := by
  obtain ⟨hvar, hnullable, hfixed⟩ := @overlapSpecs_counts n
  obtain ⟨hnVar, hnNull, hbit⟩ := LayoutCounts.foldl_eq (overlapSpecs n)
  rw [hvar] at hnVar
  rw [hnullable] at hnNull
  have hheader : (((overlapSpecs n).foldl LayoutCounts.add {}).nNullable + 7) / 8 = 0 := by
    rw [hnNull]
    rfl
  have hoff : (((overlapSpecs n).foldl LayoutCounts.add {}).nNullable + 7) / 8 +
      ((overlapSpecs n).foldl LayoutCounts.add {}).nVariable * 4 = 4 := by
    rw [hheader, hnVar]
    rfl
  obtain ⟨hbase, -, hslot⟩ := LayoutSlots.foldl_eq (overlapSpecs n) 4
  have hwrap (k m : ℕ) (h : (4 + k) % 2 ^ 32 = m) : (4 + UInt32.ofNat k).toNat = m := by
    rw [UInt32.toNat_add, UInt32.toNat_ofNat']
    have hfour : (4 : UInt32).toNat = 4 := rfl
    omega
  have hisFixed := ValueLayout.isFixed_ofOptions (overlapSchema n)
  constructor <;> simp only [ValueLayout.ofOptions, overlapSchema, hoff] at hisFixed ⊢
  case isFixed => exact hisFixed
  case nullBitmapBytes => exact hheader
  case variableBase =>
    rw [hbase, hfixed]
    exact UInt32.toNat_inj.1 (hwrap _ 4 (by omega))
  case nullBit =>
    intro i hi
    have hget : (overlapSpecs n)[i]? = some _ :=
      List.getElem?_eq_getElem (by rwa [length_overlapSpecs])
    rw [hbit i _ hget, if_neg]
    rw [(eq_of_mem_overlapSpecs (List.mem_of_getElem? hget)).2]
    exact Bool.false_ne_true
  case first => exact hslot 0 _ rfl
  case block =>
    intro j hj
    refine ⟨_, hslot _ _ (overlapSpecs_block hj), ?_⟩
    rw [fixedBytes_overlapSpecs hj.le]
    exact hwrap _ _ (by omega)
  case last =>
    have hlast := hslot _ _ (@overlapSpecs_last n)
    rw [fixedBytes_overlapSpecs le_rfl] at hlast
    exact hlast.trans (congrArg some (UInt32.toNat_inj.1 (hwrap _ 0 (by omega))))

theorem variableBytesOf_overlapRow :
    variableBytesOf ((overlapSpecs n).map AttrSpec.isFixed) (overlapRow n block) = some 0 := by
  have hblocks : variableBytesOf (List.replicate n true ++ [true])
      (List.replicate n (.bytes block) ++ [.uint 0xFFFFFFFF]) = some 0 := by
    induction n with
    | zero => rfl
    | succ n ih =>
        rw [List.replicate_succ, List.replicate_succ, List.cons_append, List.cons_append,
          variableBytesOf, ih]
        rfl
  rw [overlapSpecs, overlapRow, List.map_cons, List.map_append, List.map_replicate]
  show variableBytesOf (false :: (List.replicate n true ++ [true])) _ = _
  rw [variableBytesOf, hblocks]
  rfl

namespace Overlaps

variable {l : ValueLayout} (h : Overlaps n l) {out : Bytes}
include h

theorem encodeNull {v : AttrView} (hv : v ≠ .null) {i : ℕ} (hi : i < n + 2) :
    encodeNull l out i v = some out := by
  simp [BitLSM.encodeNull, h.nullBit i hi, hv]

/-- The string is empty, and its end is written over the first four bytes. -/
theorem encodeAttr_string (hroom : 4 ≤ out.length) :
    ∃ out', out'.length = out.length ∧
      encodeAttr l { out, variablePtr := 4 } 0 (.bytes []) =
        some { out := out', variablePtr := 4, variableSeen := 1 } := by
  obtain ⟨out₁, hwrite₁⟩ := exists_writeAt out [] hroom
  have hroom₁ : 0 + (leBytes 4 0).length ≤ out₁.length := by
    rw [length_leBytes, length_writeAt hwrite₁]
    exact hroom
  obtain ⟨out₂, hwrite₂⟩ := exists_writeAt out₁ (leBytes 4 0) hroom₁
  refine ⟨out₂, (length_writeAt hwrite₂).trans (length_writeAt hwrite₁), ?_⟩
  refine encodeAttr_variable (h.encodeNull (by simp) (by omega)) ?_ (Or.inr rfl) hwrite₁ ?_
  · rw [h.isFixed]
    rfl
  · rw [h.nullBitmapBytes]
    exact hwrite₂

/-- Each block stays in its slot. -/
theorem encodeAttrs_blocks (hn : n = 65538) (hblock : block.length = 65534)
    (hlen : out.length = 2 ^ 32) (rest : List AttrView) :
    ∃ out', out'.length = out.length ∧
      encodeAttrs l { out, variablePtr := 4, variableSeen := 1 } 1
          (List.replicate n (.bytes block) ++ rest) =
        encodeAttrs l { out := out', variablePtr := 4, variableSeen := 1 } (1 + n) rest := by
  have hbytes : encodeFixed (.bytes block) ⟨.equality, .binary, 65534, false⟩ = some block :=
    (HasAt.self block).readAt_eq hblock
  refine encodeAttrs_replicate (by simp) hbytes rest
    { out, variablePtr := 4, variableSeen := 1 } fun j hj => ?_
  obtain ⟨slot, hslot, hval⟩ := h.block j hj
  refine ⟨h.nullBit _ (by omega), ?_, ?_, slot, hslot, ?_⟩
  · rw [h.isFixed, List.getElem?_map, overlapSpecs_block hj]
    rfl
  · rw [h.specs, overlapSpecs_block hj]
  · show slot.toNat + block.length ≤ out.length
    omega

/-- The number overwrites the end of the string. -/
theorem encodeAttr_number (hroom : 4 ≤ out.length) :
    ∃ out', out'.length = out.length ∧ HasAt out' 0 (leBytes 4 0xFFFFFFFF) ∧
      encodeAttr l { out, variablePtr := 4, variableSeen := 1 } (1 + n) (.uint 0xFFFFFFFF) =
        some { out := out', variablePtr := 4, variableSeen := 1 } := by
  have hroom' : 0 + (leBytes 4 0xFFFFFFFF).length ≤ out.length := by
    rwa [length_leBytes, Nat.zero_add]
  obtain ⟨out', hwrite⟩ := exists_writeAt out (leBytes 4 0xFFFFFFFF) hroom'
  refine ⟨out', length_writeAt hwrite, hasAt_writeAt hwrite, ?_⟩
  have hspec : l.specs[1 + n]? = some ⟨.equality, .uint, 4, false⟩ := by
    rw [h.specs, overlapSpecs_last]
  refine encodeAttr_fixed (h.encodeNull (by simp) (by omega)) ?_ h.last hspec rfl hwrite
  rw [h.isFixed, List.getElem?_map, overlapSpecs_last]
  rfl

/-- The row is as long as a `uint32_t` counts, and its `var_end` entry is the
number. -/
theorem encodeValue (hn : n = 65538) (hblock : block.length = 65534)
    (hpayload : payload.length = 2 ^ 32 - 4) :
    ∃ row, encodeValue l (overlapRow n block) payload [] = some row ∧
      row.length = 2 ^ 32 ∧ HasAt row 0 (leBytes 4 0xFFFFFFFF) := by
  have hvars : variableBytesOf l.isFixed (overlapRow n block) = some 0 := by
    rw [h.isFixed, variableBytesOf_overlapRow]
  have hsize : (l.variableBase + 0).toNat + payload.length = 2 ^ 32 := by
    rw [h.variableBase, hpayload]
    rfl
  obtain ⟨out, hout⟩ : ∃ out : Bytes, List.replicate (2 ^ 32) 0 = out := ⟨_, rfl⟩
  have hlen : out.length = 2 ^ 32 := by rw [← hout, List.length_replicate]
  have hheader : writeAt out 0 (List.replicate l.nullBitmapBytes.toNat 0) = some out := by
    rw [h.nullBitmapBytes]
    simp [writeAt]
  have hroom : 4 ≤ out.length := by omega
  obtain ⟨out₁, hlen₁, hstring⟩ := h.encodeAttr_string hroom
  obtain ⟨out₂, hlen₂, hblocks⟩ := h.encodeAttrs_blocks hn hblock (hlen₁.trans hlen)
    [.uint 0xFFFFFFFF]
  have hroom₂ : 4 ≤ out₂.length := by omega
  obtain ⟨out₃, hlen₃, hend, hnumber⟩ := h.encodeAttr_number hroom₂
  have hroom₃ : 4 + payload.length ≤ out₃.length := by omega
  obtain ⟨row, hrow⟩ := exists_writeAt out₃ payload hroom₃
  have hattrs : encodeAttrs l { out, variablePtr := l.variableBase.toNat } 0
      (overlapRow n block) = some { out := out₃, variablePtr := 4, variableSeen := 1 } := by
    rw [overlapRow, encodeAttrs, h.variableBase]
    refine (congrArg (Option.bind · _) hstring).trans (hblocks.trans ?_)
    rw [encodeAttrs, hnumber]
    rfl
  refine ⟨row, ?_, ?_, hend.writeAt hrow (Or.inl (by rw [length_leBytes]))⟩
  · rw [BitLSM.encodeValue, hvars]
    simp only [Option.bind_eq_bind, Option.bind_some, hsize, List.take_nil, List.length_nil,
      Nat.sub_zero, List.nil_append, hout, hheader, hattrs, hrow]
  · rw [length_writeAt hrow]
    omega

/-- The string is taken to end three bytes behind the row. -/
theorem variableIn_eq_none {row : Bytes} (hlen : row.length = 2 ^ 32)
    (hend : HasAt row 0 (leBytes 4 0xFFFFFFFF)) :
    variableIn l.nullBitmapBytes l.variableBase row 0 = none := by
  have hstop : decodeFixed32 row 0 = some 0xFFFFFFFF := decodeFixed32_of_hasAt hend
  rw [variableIn, h.nullBitmapBytes, h.variableBase]
  show (decodeFixed32 row 0).bind _ = none
  rw [hstop]
  refine readAt_eq_none ?_
  rw [hlen]
  decide

end Overlaps

end Overlap

/-- A number in a slot that wraps onto the `var_end` array is taken for the end of
a string: an accepted query on an encoded row reads behind it. -/
theorem validated_query_reads_past_row :
    ∃ o want row, validateAttrSpecs o = .ok ∧ IsRow o row ∧
      BitLSMQuery.validate ⟨[[⟨0, .equal, .bytes want⟩]]⟩ o = .ok ∧ want.length = 2 ^ 32 - 1 ∧
      BitLSMQuery.checkConditionIn ⟨[[⟨0, .equal, .bytes want⟩]]⟩ row (.ofOptions o) = none ∧
      ∃ cq, CompiledQuery.ofQuery ⟨[[⟨0, .equal, .bytes want⟩]]⟩ o = some cq ∧
        cq.evalIn row = none := by
  obtain ⟨n, hn⟩ : ∃ n, n = 65538 := ⟨_, rfl⟩
  obtain ⟨block, hblock⟩ : ∃ block : Bytes, block.length = 65534 :=
    ⟨List.replicate 65534 0, List.length_replicate⟩
  obtain ⟨payload, hpayload⟩ : ∃ payload : Bytes, payload.length = 2 ^ 32 - 4 :=
    ⟨List.replicate (2 ^ 32 - 4) 0, List.length_replicate⟩
  obtain ⟨want, hwant⟩ : ∃ want : Bytes, want.length = 2 ^ 32 - 1 :=
    ⟨List.replicate (2 ^ 32 - 1) 0, List.length_replicate⟩
  have h := overlaps hn
  obtain ⟨row, hrow, hlen, hend⟩ := h.encodeValue hn hblock hpayload
  have hnone := h.variableIn_eq_none hlen hend
  have hspec : (overlapSchema n).attrSpecs[0]? = some ⟨.equality, .varBinary, 0, false⟩ := rfl
  have hbit := h.nullBit 0 (by omega)
  refine ⟨overlapSchema n, want, row, validate_overlapSchema hn,
    ⟨overlapRow n block, payload, [], ?_, hrow⟩, ?_, hwant, ?_, ?_⟩
  · rw [overlapRow, overlapSchema, length_overlapSpecs, List.length_cons, List.length_append,
      List.length_replicate, List.length_singleton]
  · refine BitLSMQuery.validate_eq_ok.2 fun clause hclause => ?_
    obtain rfl := List.mem_singleton.1 hclause
    refine ⟨List.cons_ne_nil _ _, fun c hc => ?_⟩
    obtain rfl := List.mem_singleton.1 hc
    exact ⟨_, hspec, rfl, fun _ => rfl⟩
  · have hdecode : decodeAttrIn (.ofOptions (overlapSchema n)) row 0 = none := by
      simp [decodeAttrIn, hbit, nullBitIn, hspec, AttrSpec.isFixed, h.first, hnone]
    simp [BitLSMQuery.checkConditionIn, checkClausesBy, checkClauseBy, cachedDecodeBy, hdecode]
  · simp [CompiledQuery.ofQuery, CompiledQuery.addClause, CompiledQuery.addPred, hbit, h.first,
      hspec, CompiledQuery.evalIn, CompiledQuery.evalClausesIn, CompiledQuery.evalRangeIn,
      CompiledQuery.evalPredIn, CompiledQuery.binaryAttrIn, nullBitIn, AttrSpec.isNumeric,
      AttrSpec.isFixed, hnone]

end BitLSM
