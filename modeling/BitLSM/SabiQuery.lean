import Mathlib.Data.List.ReduceOption
import BitLSM.Okey

/-!
Queries in the index's byte domain.

`encodeQuery` turns each condition on a range attribute into an interval of
byte strings and each condition on an equality attribute into the bytes to
look up. Single-condition clauses on one range attribute are intersected
into the first of them; members of a disjunction whose interval is empty
are dropped. An interval stands for a set of byte strings, and the meaning
of the encoded query is read off those sets.
-/

namespace BitLSM

open Wire

/-! ### Intervals -/

/-- `[]` is the least byte string, so a closed lower end at `[]` is
unbounded; the upper end has a flag of its own. -/
structure ByteInterval where
  lo : Bytes := []
  loOpen : Bool := false
  hi : Bytes := []
  hiOpen : Bool := false
  hiUnbounded : Bool := true
  deriving DecidableEq, Repr

namespace ByteInterval

def empty (w : ByteInterval) : Bool :=
  if w.hiUnbounded then false
  else
    let c := Bytes.compare w.lo w.hi
    0 < c || (c = 0 && (w.loOpen || w.hiOpen))

def intersectLo (w o : ByteInterval) : ByteInterval :=
  let lc := Bytes.compare o.lo w.lo
  if 0 < lc then { w with lo := o.lo, loOpen := o.loOpen }
  else if lc = 0 then { w with loOpen := w.loOpen || o.loOpen }
  else w

def intersectHi (w o : ByteInterval) : ByteInterval :=
  if o.hiUnbounded then w
  else if w.hiUnbounded then { w with hi := o.hi, hiOpen := o.hiOpen, hiUnbounded := false }
  else
    let c := Bytes.compare o.hi w.hi
    if c < 0 then { w with hi := o.hi, hiOpen := o.hiOpen }
    else if c = 0 then { w with hiOpen := w.hiOpen || o.hiOpen }
    else w

def intersect (w o : ByteInterval) : ByteInterval := (w.intersectLo o).intersectHi o

def fromOp (op : CompareOp) (bytes : Bytes) : ByteInterval :=
  match op with
  | .equal => { lo := bytes, hi := bytes, hiUnbounded := false }
  | .greaterEqual => { lo := bytes }
  | .greater => { lo := bytes, loOpen := true }
  | .lessEqual => { hi := bytes, hiUnbounded := false }
  | .less => { hi := bytes, hiOpen := true, hiUnbounded := false }

/-- `x` is above the lower end. -/
def aboveLo (w : ByteInterval) (x : Bytes) : Prop := if w.loOpen then w.lo < x else w.lo ≤ x

/-- `x` is below the upper end. -/
def belowHi (w : ByteInterval) (x : Bytes) : Prop :=
  w.hiUnbounded = true ∨ if w.hiOpen then x < w.hi else x ≤ w.hi

/-- The byte strings in the interval. -/
instance : Membership Bytes ByteInterval where
  mem w x := w.aboveLo x ∧ w.belowHi x

instance (w : ByteInterval) (x : Bytes) : Decidable (w.aboveLo x) := by
  unfold aboveLo
  infer_instance

instance (w : ByteInterval) (x : Bytes) : Decidable (w.belowHi x) := by
  unfold belowHi
  infer_instance

instance (x : Bytes) (w : ByteInterval) : Decidable (x ∈ w) :=
  inferInstanceAs (Decidable (w.aboveLo x ∧ w.belowHi x))

theorem mem_def {x : Bytes} {w : ByteInterval} : x ∈ w ↔ w.aboveLo x ∧ w.belowHi x := Iff.rfl

theorem nil_le (x : Bytes) : [] ≤ x := by
  cases x with
  | nil => exact le_rfl
  | cons a as => exact (List.nil_lt_cons a as).le

theorem mem_fromOp {op : CompareOp} {x bytes : Bytes} :
    x ∈ fromOp op bytes ↔ applyCompareOp op x bytes = true := by
  have hnil := nil_le x
  cases op with
  | equal =>
      simp only [mem_def, fromOp, aboveLo, belowHi, applyCompareOp, Bool.false_eq_true, if_false,
        false_or, beq_iff_eq]
      exact ⟨fun h => le_antisymm h.2 h.1, fun h => ⟨h.ge, h.le⟩⟩
  | lessEqual => simp [mem_def, fromOp, aboveLo, belowHi, applyCompareOp, hnil]
  | greaterEqual => simp [mem_def, fromOp, aboveLo, belowHi, applyCompareOp]
  | less => simp [mem_def, fromOp, aboveLo, belowHi, applyCompareOp, hnil]
  | greater => simp [mem_def, fromOp, aboveLo, belowHi, applyCompareOp]

theorem aboveLo.le {w : ByteInterval} {x : Bytes} (h : w.aboveLo x) : w.lo ≤ x := by
  unfold aboveLo at h
  split at h
  · exact h.le
  · exact h

theorem aboveLo_of_lt {w : ByteInterval} {x : Bytes} (h : w.lo < x) : w.aboveLo x := by
  unfold aboveLo
  split
  · exact h
  · exact h.le

theorem belowHi.le {w : ByteInterval} {x : Bytes} (h : w.belowHi x)
    (hw : w.hiUnbounded = false) : x ≤ w.hi := by
  simp only [belowHi, hw, Bool.false_eq_true, false_or] at h
  split at h
  · exact h.le
  · exact h

theorem belowHi_of_lt {w : ByteInterval} {x : Bytes} (h : x < w.hi) : w.belowHi x := by
  right
  split
  · exact h
  · exact h.le

theorem aboveLo_intersectLo {w o : ByteInterval} {x : Bytes} :
    (w.intersectLo o).aboveLo x ↔ w.aboveLo x ∧ o.aboveLo x := by
  unfold intersectLo
  rcases lt_trichotomy w.lo o.lo with h | h | h
  · -- the other lower end is the higher one
    simp only [Bytes.compare_pos, h, if_true]
    exact ⟨fun ho => ⟨aboveLo_of_lt (h.trans_le (aboveLo.le (w := o) ho)), ho⟩, And.right⟩
  · simp only [Bytes.compare_pos, h, lt_irrefl, if_false, Bytes.compare_eq_zero, if_true, aboveLo]
    cases w.loOpen <;> cases o.loOpen <;> simp
    · exact fun h => h.le
    · exact fun h => h.le
  · simp only [Bytes.compare_pos, h.not_gt, if_false, Bytes.compare_eq_zero, h.ne]
    exact ⟨fun hw => ⟨hw, aboveLo_of_lt (h.trans_le hw.le)⟩, And.left⟩

theorem belowHi_intersectHi {w o : ByteInterval} {x : Bytes} :
    (w.intersectHi o).belowHi x ↔ w.belowHi x ∧ o.belowHi x := by
  unfold intersectHi
  cases ho : o.hiUnbounded with
  | true => simp [belowHi, ho]
  | false =>
      cases hw : w.hiUnbounded with
      | true => simp [belowHi, ho, hw]
      | false =>
          simp only [Bool.false_eq_true, if_false]
          rcases lt_trichotomy o.hi w.hi with h | h | h
          · simp only [Bytes.compare_lt_zero, h, if_true]
            have hmem : ({ w with hi := o.hi, hiOpen := o.hiOpen, hiUnbounded := false } :
                ByteInterval).belowHi x ↔ o.belowHi x := by simp [belowHi, ho]
            rw [hmem]
            exact ⟨fun hx => ⟨belowHi_of_lt ((hx.le ho).trans_lt h), hx⟩, And.right⟩
          · simp only [Bytes.compare_lt_zero, h, lt_irrefl, if_false, Bytes.compare_eq_zero,
              if_true, belowHi, ho, hw, Bool.false_eq_true, false_or]
            cases w.hiOpen <;> cases o.hiOpen <;> simp
            · exact fun h => h.le
            · exact fun h => h.le
          · simp only [Bytes.compare_lt_zero, h.not_gt, if_false, Bytes.compare_eq_zero, h.ne']
            exact ⟨fun hx => ⟨hx, belowHi_of_lt ((hx.le hw).trans_lt h)⟩, And.left⟩

theorem aboveLo_intersectHi {w o : ByteInterval} {x : Bytes} :
    (w.intersectHi o).aboveLo x ↔ w.aboveLo x := by
  unfold intersectHi
  cases o.hiUnbounded <;> cases w.hiUnbounded <;>
    simp only [Bool.false_eq_true, if_false, if_true, aboveLo]
  split
  · rfl
  · split <;> rfl

theorem belowHi_intersectLo {w o : ByteInterval} {x : Bytes} :
    (w.intersectLo o).belowHi x ↔ w.belowHi x := by
  unfold intersectLo
  simp only []
  split
  · rfl
  · split <;> rfl

theorem mem_intersect {w o : ByteInterval} {x : Bytes} : x ∈ w.intersect o ↔ x ∈ w ∧ x ∈ o := by
  rw [intersect, mem_def, aboveLo_intersectHi, aboveLo_intersectLo, belowHi_intersectHi,
    belowHi_intersectLo, mem_def, mem_def]
  tauto

theorem not_mem_of_empty {w : ByteInterval} (h : w.empty = true) (x : Bytes) : x ∉ w := by
  rintro ⟨hlo, hhi⟩
  unfold empty at h
  cases hu : w.hiUnbounded with
  | true => simp [hu] at h
  | false =>
      simp only [hu, Bool.false_eq_true, if_false, Bool.or_eq_true, decide_eq_true_eq,
        Bytes.compare_pos, Bool.and_eq_true, Bytes.compare_eq_zero] at h
      have hle := hlo.le.trans (hhi.le hu)
      rcases h with hgt | ⟨heq, hopen | hopen⟩
      · exact absurd hle hgt.not_ge
      · rw [aboveLo, hopen, if_pos rfl] at hlo
        exact absurd (hlo.trans_le (hhi.le hu)) (heq ▸ lt_irrefl _)
      · simp only [belowHi, hu, Bool.false_eq_true, false_or, hopen, if_true] at hhi
        exact absurd (hlo.le.trans_lt hhi) (heq ▸ lt_irrefl _)

end ByteInterval

/-! ### Encoding -/

structure SABICondition where
  attrIdx : UInt32
  /-- Active on a range attribute. -/
  win : ByteInterval := {}
  /-- Active on an equality attribute. -/
  bytes : Bytes := []
  deriving DecidableEq, Repr

abbrev SABIOrClause := List SABICondition

structure SABIQuery where
  clauseGroups : List SABIOrClause := []
  unsat : Bool := false
  deriving DecidableEq, Repr

/-- The query so far, and where each merged attribute's clause stands in it. -/
structure EncodeQueryState where
  out : SABIQuery := {}
  mergedAt : List (UInt32 × ℕ) := []

/-- A single condition on a range attribute. -/
def encodeSingleton (st : EncodeQueryState) (c : QueryCondition) : Option EncodeQueryState :=
  let win := ByteInterval.fromOp c.op (comparandBytes c.value)
  match st.mergedAt.lookup c.attrIdx with
  | some i => do
      let clause ← st.out.clauseGroups[i]?
      let first ← clause.head?
      let win' := first.win.intersect win
      return { st with out := {
        clauseGroups := st.out.clauseGroups.set i ({ first with win := win' } :: clause.tail)
        unsat := st.out.unsat || win'.empty } }
  | none => some {
      out := {
        clauseGroups := st.out.clauseGroups ++ [[{ attrIdx := c.attrIdx, win }]]
        unsat := st.out.unsat || win.empty }
      mergedAt := (c.attrIdx, st.out.clauseGroups.length) :: st.mergedAt }

/-- One member of a disjunction; `none` when its interval is empty. -/
def encodeMemberAs (t : IndexType) (c : QueryCondition) : Option SABICondition :=
  match t with
  | .range =>
      let win := ByteInterval.fromOp c.op (comparandBytes c.value)
      if win.empty then none else some { attrIdx := c.attrIdx, win }
  | .equality => some { attrIdx := c.attrIdx, bytes := comparandBytes c.value }

def encodeMember (o : BitLSMOptions) (c : QueryCondition) : Option (Option SABICondition) :=
  o.attrSpecs[c.attrIdx.toNat]?.map fun spec => encodeMemberAs spec.indexType c

def encodeMembers (o : BitLSMOptions) (st : EncodeQueryState) (clause : OrClause) :
    Option EncodeQueryState := do
  let enc := (← clause.mapM (encodeMember o)).reduceOption
  return { st with out := {
    clauseGroups := st.out.clauseGroups ++ [enc]
    unsat := st.out.unsat || (enc.isEmpty && !clause.isEmpty) } }

def encodeClause (o : BitLSMOptions) (st : EncodeQueryState) (clause : OrClause) :
    Option EncodeQueryState :=
  match clause with
  | [c] => do
      let spec ← o.attrSpecs[c.attrIdx.toNat]?
      if spec.indexType = .range then encodeSingleton st c else encodeMembers o st clause
  | _ => encodeMembers o st clause

def encodeQuery (q : BitLSMQuery) (o : BitLSMOptions) : Option SABIQuery := do
  let st ← q.clauseGroups.foldlM (encodeClause o) {}
  return st.out

/-! ### Meaning

`attrs` is a row as the extractor delivers it. -/

/-- The index types SABI sees. -/
def BitLSMOptions.indexTypes (o : BitLSMOptions) : List IndexType :=
  o.attrSpecs.map AttrSpec.indexType

def SABICondition.holds (types : List IndexType) (attrs : List EncodedAttr)
    (c : SABICondition) : Bool :=
  match attrs[c.attrIdx.toNat]?, types[c.attrIdx.toNat]? with
  | some (some b), some .range => b ∈ c.win
  | some (some b), some .equality => b = c.bytes
  | _, _ => false

def clausesHold (types : List IndexType) (attrs : List EncodedAttr)
    (clauses : List SABIOrClause) : Bool :=
  clauses.all fun clause => clause.any (SABICondition.holds types attrs)

/-- Every clause has a condition whose attribute is not NULL and lies in the
interval, or equals the bytes. -/
def SABIQuery.meaning (q : SABIQuery) (types : List IndexType) (attrs : List EncodedAttr) :
    Bool :=
  clausesHold types attrs q.clauseGroups

/-- A condition of the original query, read in the byte domain. -/
def QueryCondition.holdsEncoded (attrs : List EncodedAttr) (c : QueryCondition) : Bool :=
  match attrs[c.attrIdx.toNat]? with
  | some (some b) => applyCompareOp c.op b (comparandBytes c.value)
  | _ => false

theorem clausesHold_append {types : List IndexType} {attrs : List EncodedAttr}
    {xs ys : List SABIOrClause} :
    clausesHold types attrs (xs ++ ys) =
      (clausesHold types attrs xs && clausesHold types attrs ys) := List.all_append

section Encode

variable {o : BitLSMOptions} {c : QueryCondition} {spec : AttrSpec}

theorem indexTypes_getElem? (hc : c.Ok o spec) :
    o.indexTypes[c.attrIdx.toNat]? = some spec.indexType := by
  simp [BitLSMOptions.indexTypes, hc.spec_eq]

/-- The interval of an operator accepts what the operator accepts. -/
theorem holds_fromOp (hc : c.Ok o spec) (hr : spec.indexType = .range)
    (attrs : List EncodedAttr) :
    SABICondition.holds o.indexTypes attrs
        { attrIdx := c.attrIdx, win := .fromOp c.op (comparandBytes c.value) } =
      c.holdsEncoded attrs := by
  unfold SABICondition.holds QueryCondition.holdsEncoded
  rw [indexTypes_getElem? hc, hr]
  rcases attrs[c.attrIdx.toNat]? with _ | _ | b
  · rfl
  · rfl
  · simp [ByteInterval.mem_fromOp]

/-- A condition whose interval is empty accepts nothing. -/
theorem holds_of_empty (hc : c.Ok o spec) (hr : spec.indexType = .range) {sc : SABICondition}
    (hidx : sc.attrIdx = c.attrIdx) (hempty : sc.win.empty = true) (attrs : List EncodedAttr) :
    SABICondition.holds o.indexTypes attrs sc = false := by
  unfold SABICondition.holds
  rw [hidx, indexTypes_getElem? hc, hr]
  rcases attrs[c.attrIdx.toNat]? with _ | _ | b
  · rfl
  · rfl
  · simpa using ByteInterval.not_mem_of_empty hempty b

theorem holds_intersect (hc : c.Ok o spec) (hr : spec.indexType = .range) {sc : SABICondition}
    (hidx : sc.attrIdx = c.attrIdx) (win : ByteInterval) (attrs : List EncodedAttr) :
    SABICondition.holds o.indexTypes attrs { sc with win := sc.win.intersect win } =
      (SABICondition.holds o.indexTypes attrs sc &&
        SABICondition.holds o.indexTypes attrs { attrIdx := c.attrIdx, win }) := by
  unfold SABICondition.holds
  simp only [hidx]
  rw [indexTypes_getElem? hc, hr]
  rcases attrs[c.attrIdx.toNat]? with _ | _ | b
  · rfl
  · rfl
  · simp [ByteInterval.mem_intersect]

/-- A member that is dropped accepts nothing. -/
theorem encodeMemberAs_holds (hc : c.Ok o spec) (attrs : List EncodedAttr) :
    (encodeMemberAs spec.indexType c).elim false (SABICondition.holds o.indexTypes attrs) =
      c.holdsEncoded attrs := by
  cases hr : spec.indexType with
  | range =>
      rw [← holds_fromOp hc hr attrs, encodeMemberAs]
      split
      · next hempty => exact (holds_of_empty hc hr rfl hempty attrs).symm
      · rfl
  | equality =>
      unfold QueryCondition.holdsEncoded
      rw [encodeMemberAs, Option.elim_some, SABICondition.holds, indexTypes_getElem? hc, hr,
        hc.equal hr]
      rcases attrs[c.attrIdx.toNat]? with _ | _ | b
      · rfl
      · rfl
      · exact (Bool.beq_eq_decide_eq b _).symm

theorem any_reduceOption {α : Type} (f : α → Bool) (l : List (Option α)) :
    l.reduceOption.any f = l.any fun m => m.elim false f := by
  induction l with
  | nil => rfl
  | cons m ms ih => cases m <;> simp [ih]

/-- A disjunction accepts what its members accept. -/
theorem mapM_encodeMember_spec {clause : OrClause} (hok : ∀ c ∈ clause, ∃ spec, c.Ok o spec) :
    ∃ ms, clause.mapM (encodeMember o) = some ms ∧ ∀ attrs,
      ms.reduceOption.any (SABICondition.holds o.indexTypes attrs) =
        clause.any (QueryCondition.holdsEncoded attrs) := by
  induction clause with
  | nil => exact ⟨[], rfl, fun _ => rfl⟩
  | cons c rest ih =>
      obtain ⟨spec, hc⟩ := hok c (by simp)
      obtain ⟨ms, hms, hany⟩ := ih fun c' hc' => hok c' (by simp [hc'])
      refine ⟨encodeMemberAs spec.indexType c :: ms, ?_, fun attrs => ?_⟩
      · simp [encodeMember, hc.spec_eq, hms]
      · rw [any_reduceOption, List.any_cons, ← any_reduceOption, hany attrs,
          encodeMemberAs_holds hc, List.any_cons]

theorem all_set {α : Type} (f : α → Bool) {l : List α} {i : ℕ} {x y : α} {b : Bool}
    (hx : l[i]? = some x) (hy : f y = (f x && b)) : (l.set i y).all f = (l.all f && b) := by
  induction l generalizing i with
  | nil => simp at hx
  | cons z zs ih =>
      cases i with
      | zero =>
          simp only [List.getElem?_cons_zero, Option.some.injEq] at hx
          subst hx
          simp only [List.set_cons_zero, List.all_cons, hy]
          cases f z <;> cases b <;> simp
      | succ i =>
          simp only [List.getElem?_cons_succ] at hx
          simp only [List.set_cons_succ, List.all_cons, ih hx, Bool.and_assoc]

end Encode

/-- The state after the clauses `done`. -/
structure EncodedSoFar (o : BitLSMOptions) (done : List OrClause) (st : EncodeQueryState) :
    Prop where
  meaning : ∀ attrs, clausesHold o.indexTypes attrs st.out.clauseGroups =
    done.all fun clause => clause.any (QueryCondition.holdsEncoded attrs)
  /-- A merged attribute's clause is a single condition on it. -/
  merged : ∀ a i, st.mergedAt.lookup a = some i →
    ∃ c, st.out.clauseGroups[i]? = some [c] ∧ c.attrIdx = a
  unsat : st.out.unsat = true →
    ∀ attrs, clausesHold o.indexTypes attrs st.out.clauseGroups = false

section Steps

variable {o : BitLSMOptions} {done : List OrClause} {st : EncodeQueryState}

theorem all_concat {α : Type} (f : α → Bool) (l : List α) (x : α) :
    (l ++ [x]).all f = (l.all f && f x) := by simp

/-- A first condition on an attribute opens a clause of its own. -/
theorem EncodedSoFar.open {c : QueryCondition} {spec : AttrSpec}
    (h : EncodedSoFar o done st) (hc : c.Ok o spec) (hr : spec.indexType = .range)
    {win : ByteInterval} (hwin : win = .fromOp c.op (comparandBytes c.value)) :
    EncodedSoFar o (done ++ [[c]]) {
      out := {
        clauseGroups := st.out.clauseGroups ++ [[{ attrIdx := c.attrIdx, win }]]
        unsat := st.out.unsat || win.empty }
      mergedAt := (c.attrIdx, st.out.clauseGroups.length) :: st.mergedAt } := by
  have hlast (attrs : List EncodedAttr) :
      clausesHold o.indexTypes attrs [[{ attrIdx := c.attrIdx, win }]] =
        SABICondition.holds o.indexTypes attrs { attrIdx := c.attrIdx, win } := by
    simp [clausesHold]
  refine ⟨fun attrs => ?_, fun a i hl => ?_, fun hunsat attrs => ?_⟩
  · rw [clausesHold_append, h.meaning, hlast, hwin, holds_fromOp hc hr, all_concat,
      List.any_cons, List.any_nil, Bool.or_false]
  · rw [List.lookup_cons] at hl
    cases hac : a == c.attrIdx with
    | true =>
        rw [hac] at hl
        obtain rfl := Option.some.inj hl
        exact ⟨{ attrIdx := c.attrIdx, win }, by simp, (eq_of_beq hac).symm⟩
    | false =>
        rw [hac] at hl
        obtain ⟨sc, hsc, hidx⟩ := h.merged a i hl
        exact ⟨sc, List.getElem?_append_left (List.getElem?_eq_some_iff.1 hsc).1 ▸ hsc, hidx⟩
  · rw [clausesHold_append, hlast]
    rcases Bool.or_eq_true_iff.1 hunsat with hold | hempty
    · rw [h.unsat hold, Bool.false_and]
    · rw [holds_of_empty hc hr rfl hempty, Bool.and_false]

/-- A later condition on the attribute narrows that clause. -/
theorem EncodedSoFar.narrow {c : QueryCondition} {spec : AttrSpec} {first : SABICondition}
    {i : ℕ} (h : EncodedSoFar o done st) (hc : c.Ok o spec) (hr : spec.indexType = .range)
    (hfirst : st.out.clauseGroups[i]? = some [first]) (hidx : first.attrIdx = c.attrIdx)
    {win : ByteInterval} (hwin : win = .fromOp c.op (comparandBytes c.value)) :
    EncodedSoFar o (done ++ [[c]]) { st with out := {
      clauseGroups := st.out.clauseGroups.set i [{ first with win := first.win.intersect win }]
      unsat := st.out.unsat || (first.win.intersect win).empty } } := by
  have hset (attrs : List EncodedAttr) {b : Bool}
      (hb : SABICondition.holds o.indexTypes attrs
          { first with win := first.win.intersect win } =
        (SABICondition.holds o.indexTypes attrs first && b)) :
      clausesHold o.indexTypes attrs (st.out.clauseGroups.set i
          [{ first with win := first.win.intersect win }]) =
        (clausesHold o.indexTypes attrs st.out.clauseGroups && b) := by
    refine all_set _ hfirst ?_
    rw [List.any_cons, List.any_nil, Bool.or_false, hb, List.any_cons, List.any_nil,
      Bool.or_false]
  refine ⟨fun attrs => ?_, fun a j hl => ?_, fun hunsat attrs => ?_⟩
  · rw [hset attrs (holds_intersect hc hr hidx win attrs), h.meaning, hwin, holds_fromOp hc hr,
      all_concat, List.any_cons, List.any_nil, Bool.or_false]
  · obtain ⟨sc, hsc, hsidx⟩ := h.merged a j hl
    rw [List.getElem?_set]
    split
    · next hij =>
        subst hij
        have hlt := (List.getElem?_eq_some_iff.1 hsc).1
        rw [hfirst] at hsc
        obtain rfl : first = sc := by simpa using hsc
        exact ⟨{ first with win := first.win.intersect win }, by simp [hlt], hsidx⟩
    · exact ⟨sc, hsc, hsidx⟩
  · rcases Bool.or_eq_true_iff.1 hunsat with hold | hempty
    · rw [hset attrs (holds_intersect hc hr hidx win attrs), h.unsat hold, Bool.false_and]
    · have hfalse : SABICondition.holds o.indexTypes attrs
          { first with win := first.win.intersect win } = false := by
        exact holds_of_empty hc hr (by exact hidx) (by exact hempty) attrs
      rw [hset attrs (b := false) (by rw [hfalse, Bool.and_false]), Bool.and_false]

theorem EncodedSoFar.singleton {c : QueryCondition} {spec : AttrSpec}
    (h : EncodedSoFar o done st) (hc : c.Ok o spec) (hr : spec.indexType = .range) :
    ∃ st', encodeSingleton st c = some st' ∧ EncodedSoFar o (done ++ [[c]]) st' := by
  unfold encodeSingleton
  cases hl : st.mergedAt.lookup c.attrIdx with
  | none => exact ⟨_, rfl, h.open hc hr rfl⟩
  | some i =>
      obtain ⟨first, hfirst, hidx⟩ := h.merged _ _ hl
      refine ⟨_, ?_, h.narrow hc hr hfirst hidx rfl⟩
      simp [hfirst]

theorem EncodedSoFar.members {clause : OrClause} (h : EncodedSoFar o done st)
    (hok : ∀ c ∈ clause, ∃ spec, c.Ok o spec) :
    ∃ st', encodeMembers o st clause = some st' ∧ EncodedSoFar o (done ++ [clause]) st' := by
  obtain ⟨ms, hms, hany⟩ := mapM_encodeMember_spec hok
  refine ⟨_, by rw [encodeMembers, hms]; rfl, ⟨fun attrs => ?_, fun a i hl => ?_,
    fun hunsat attrs => ?_⟩⟩
  · rw [clausesHold_append, h.meaning, all_concat, ← hany]
    simp [clausesHold]
  · obtain ⟨sc, hsc, hidx⟩ := h.merged a i hl
    exact ⟨sc, List.getElem?_append_left (List.getElem?_eq_some_iff.1 hsc).1 ▸ hsc, hidx⟩
  · rw [clausesHold_append]
    rcases Bool.or_eq_true_iff.1 hunsat with hold | hempty
    · rw [h.unsat hold, Bool.false_and]
    · have hnil : ms.reduceOption = [] := by
        simpa using (Bool.and_eq_true_iff.1 hempty).1
      simp [clausesHold, hnil]

theorem EncodedSoFar.clause {clause : OrClause} (h : EncodedSoFar o done st)
    (hok : ∀ c ∈ clause, ∃ spec, c.Ok o spec) :
    ∃ st', encodeClause o st clause = some st' ∧ EncodedSoFar o (done ++ [clause]) st' := by
  match clause with
  | [c] =>
      obtain ⟨spec, hc⟩ := hok c (by simp)
      rw [encodeClause, hc.spec_eq]
      by_cases hr : spec.indexType = .range
      · simpa [hr] using h.singleton hc hr
      · simpa [hr] using h.members hok
  | [] => exact h.members hok
  | _ :: _ :: _ => exact h.members hok

/-- The encoded query accepts the extracted rows whose attributes compare as
the query asks, and none when it is marked unsatisfiable. -/
theorem encodeQuery_spec {q : BitLSMQuery} (hq : q.validate o = .ok) :
    ∃ sq, encodeQuery q o = some sq ∧
      (∀ attrs, sq.meaning o.indexTypes attrs =
        q.clauseGroups.all fun clause => clause.any (QueryCondition.holdsEncoded attrs)) ∧
      (sq.unsat = true → ∀ attrs, sq.meaning o.indexTypes attrs = false) := by
  have hok := BitLSMQuery.validate_eq_ok.1 hq
  have hrun : ∀ (rest done : List OrClause) (st : EncodeQueryState),
      done ++ rest = q.clauseGroups → EncodedSoFar o done st →
      ∃ st', rest.foldlM (encodeClause o) st = some st' ∧
        EncodedSoFar o q.clauseGroups st' := by
    intro rest
    induction rest with
    | nil =>
        intro done st hsplit hdone
        rw [List.append_nil] at hsplit
        exact ⟨st, rfl, hsplit ▸ hdone⟩
    | cons clause rest ih =>
        intro done st hsplit hdone
        have hmem : clause ∈ q.clauseGroups := by simp [← hsplit]
        obtain ⟨st', hstep, hst'⟩ := hdone.clause (hok clause hmem).2
        obtain ⟨st'', hfold, hst''⟩ := ih (done ++ [clause]) st' (by simpa using hsplit) hst'
        exact ⟨st'', by rw [List.foldlM_cons, hstep]; exact hfold, hst''⟩
  obtain ⟨st, hfold, hst⟩ := hrun q.clauseGroups [] {} rfl
    ⟨fun _ => rfl, fun _ _ hl => by simp at hl, fun hu => by simp at hu⟩
  exact ⟨st.out, by rw [encodeQuery, hfold]; rfl, hst.meaning, hst.unsat⟩

end Steps

/-! ### The attributes of an encoded query -/

/-- Every condition is on one of the first `n` attributes. -/
def SABIQuery.AttrsBelow (n : ℕ) (sq : SABIQuery) : Prop :=
  ∀ clause ∈ sq.clauseGroups, ∀ c ∈ clause, c.attrIdx.toNat < n

section Attrs

variable {o : BitLSMOptions} {n : ℕ} {st st' : EncodeQueryState}

theorem encodeSingleton_attrs {c : QueryCondition} (hc : c.attrIdx.toNat < n)
    (hst : st.out.AttrsBelow n) (h : encodeSingleton st c = some st') :
    st'.out.AttrsBelow n ∧ st'.out.clauseGroups ≠ [] := by
  rw [encodeSingleton] at h
  split at h
  · obtain ⟨clause, hclause, h⟩ := Option.bind_eq_some_iff.1 h
    obtain ⟨first, hfirst, h⟩ := Option.bind_eq_some_iff.1 h
    obtain rfl := Option.some.inj h
    have hmem := List.mem_of_getElem? hclause
    refine ⟨fun clause' hclause' d hd => ?_, ?_⟩
    · rcases List.mem_or_eq_of_mem_set hclause' with hold | rfl
      · exact hst clause' hold d hd
      · rcases List.mem_cons.1 hd with rfl | hd
        · exact hst clause hmem first (List.mem_of_head? hfirst)
        · exact hst clause hmem d (List.mem_of_mem_tail hd)
    · intro hnil
      rw [List.set_eq_nil_iff] at hnil
      rw [hnil] at hmem
      cases hmem
  · obtain rfl := Option.some.inj h
    refine ⟨fun clause' hclause' d hd => ?_, by simp⟩
    rcases List.mem_append.1 hclause' with hold | hnew
    · exact hst clause' hold d hd
    · obtain rfl := List.mem_singleton.1 hnew
      obtain rfl := List.mem_singleton.1 hd
      exact hc

theorem encodeMemberAs_attrIdx {t : IndexType} {c : QueryCondition} {d : SABICondition}
    (h : encodeMemberAs t c = some d) : d.attrIdx = c.attrIdx := by
  cases t with
  | range =>
      rw [encodeMemberAs] at h
      split at h
      · cases h
      · rw [← Option.some.inj h]
  | equality => rw [← Option.some.inj h]

theorem encodeMembers_attrs {clause : OrClause} (hclause : ∀ c ∈ clause, c.attrIdx.toNat < n)
    (hst : st.out.AttrsBelow n) (h : encodeMembers o st clause = some st') :
    st'.out.AttrsBelow n ∧ st'.out.clauseGroups ≠ [] := by
  obtain ⟨members, hmembers, h⟩ := Option.bind_eq_some_iff.1 h
  obtain rfl := Option.some.inj h
  refine ⟨fun clause' hclause' d hd => ?_, by simp⟩
  rcases List.mem_append.1 hclause' with hold | hnew
  · exact hst clause' hold d hd
  · obtain rfl := List.mem_singleton.1 hnew
    obtain ⟨i, hi⟩ := List.mem_iff_getElem?.1 (List.reduceOption_mem_iff.1 hd)
    obtain ⟨hlen, hget⟩ := mapM_getElem? hmembers
    have hlt : i < clause.length := by
      rw [← hlen]
      exact (List.getElem?_eq_some_iff.1 hi).1
    obtain ⟨member, hmember, hi'⟩ := hget i _ (List.getElem?_eq_getElem hlt)
    obtain rfl := Option.some.inj (hi.symm.trans hi')
    obtain ⟨spec, -, hd⟩ := Option.map_eq_some_iff.1 hmember
    rw [encodeMemberAs_attrIdx hd]
    exact hclause _ (List.getElem_mem hlt)

theorem encodeClause_attrs {clause : OrClause} (hclause : ∀ c ∈ clause, c.attrIdx.toNat < n)
    (hst : st.out.AttrsBelow n) (h : encodeClause o st clause = some st') :
    st'.out.AttrsBelow n ∧ st'.out.clauseGroups ≠ [] := by
  rw [encodeClause.eq_def] at h
  split at h
  · next c =>
      obtain ⟨spec, -, h⟩ := Option.bind_eq_some_iff.1 h
      split at h
      · exact encodeSingleton_attrs (hclause c (by simp)) hst h
      · exact encodeMembers_attrs hclause hst h
  · exact encodeMembers_attrs hclause hst h

theorem encodeQuery_attrs {q : BitLSMQuery} {sq : SABIQuery} (hq : q.validate o = .ok)
    (h : encodeQuery q o = some sq) :
    sq.AttrsBelow o.attrSpecs.length ∧ (sq.clauseGroups = [] → q.clauseGroups = []) := by
  have hok := BitLSMQuery.validate_eq_ok.1 hq
  have hrun : ∀ (clauses : List OrClause) (st st' : EncodeQueryState),
      (∀ clause ∈ clauses, ∀ c ∈ clause, c.attrIdx.toNat < o.attrSpecs.length) →
      st.out.AttrsBelow o.attrSpecs.length → clauses.foldlM (encodeClause o) st = some st' →
      st'.out.AttrsBelow o.attrSpecs.length ∧ (clauses ≠ [] → st'.out.clauseGroups ≠ []) := by
    intro clauses
    induction clauses with
    | nil =>
        intro st st' _ hst h
        obtain rfl := Option.some.inj h
        exact ⟨hst, fun hne => absurd rfl hne⟩
    | cons clause clauses ih =>
        intro st st' hclauses hst h
        rw [List.foldlM_cons, Option.bind_eq_bind, Option.bind_eq_some_iff] at h
        obtain ⟨st₁, hst₁, h⟩ := h
        rw [List.forall_mem_cons] at hclauses
        obtain ⟨hattrs, hne⟩ := encodeClause_attrs hclauses.1 hst hst₁
        obtain ⟨hattrs', hne'⟩ := ih st₁ st' hclauses.2 hattrs h
        refine ⟨hattrs', fun _ => ?_⟩
        by_cases hnil : clauses = []
        · rw [hnil] at h
          obtain rfl := Option.some.inj h
          exact hne
        · exact hne' hnil
  obtain ⟨st, hfold, h⟩ := Option.bind_eq_some_iff.1 h
  obtain rfl := Option.some.inj h
  obtain ⟨hattrs, hne⟩ := hrun q.clauseGroups {} st (fun clause hclause c hc => by
    obtain ⟨spec, hspec⟩ := (hok clause hclause).2 c hc
    exact (List.getElem?_eq_some_iff.1 hspec.spec_eq).1)
    (fun clause hclause => by cases hclause) hfold
  exact ⟨hattrs, fun hnil => by_contra fun hq => hne hq hnil⟩

end Attrs

/-! ### Encoding preserves meaning -/

/-- No float attribute of the row and no float comparand of the query is NaN. -/
structure NaNFree (o : BitLSMOptions) (q : BitLSMQuery) (row : Bytes) : Prop where
  row : ∀ i d, decodeAttr (ValueLayout.ofOptions o) row i = some (.float d) → d.isNaN = false
  comparand : ∀ clause ∈ q.clauseGroups, ∀ c ∈ clause, ∀ d, c.value = .float d → d.isNaN = false

/-- Native comparison and comparison of encodings, for a decoded attribute. -/
theorem evalCondition_encoded {c : QueryCondition} {v : AttrView} {p : PhysicalType}
    {e : EncodedAttr} (hv : v = .null ∨ v.fits p = true) (hc : c.value.fits p = true)
    (he : encodeAttrView v = some e) :
    (evalCondition c v = some true →
        ∃ b, e = some b ∧ applyCompareOp c.op b (comparandBytes c.value) = true) ∧
      ((∀ d, v = .float d → d.isNaN = false) → (∀ d, c.value = .float d → d.isNaN = false) →
        ∀ b, e = some b →
          evalCondition c v = some (applyCompareOp c.op b (comparandBytes c.value))) := by
  obtain ⟨idx, op, value⟩ := c
  rcases hv with rfl | hv
  · obtain rfl := Option.some.inj he
    simp [evalCondition]
  · cases v <;> cases p <;> simp [AttrView.fits] at hv <;>
      cases value <;> simp [Comparand.fits] at hc <;> obtain rfl := Option.some.inj he
    case int.int.int x y => simp [evalCondition, comparandBytes, applyCompareOp_i64]
    case uint.uint.uint x y => simp [evalCondition, comparandBytes, applyCompareOp_u64]
    case float.float.float x y =>
      refine ⟨fun h => ⟨_, rfl, ?_⟩, fun hx hy b hb => ?_⟩
      · have htrue : applyCompareOp op x y = true := Option.some.inj h
        obtain ⟨hx, hy⟩ := not_isNaN_of_applyCompareOp htrue
        rwa [applyCompareOp_f64 op hx hy] at htrue
      · obtain rfl := Option.some.inj hb
        simp [evalCondition, comparandBytes, applyCompareOp_f64 op (hx x rfl) (hy y rfl)]
    all_goals simp [evalCondition, comparandBytes, applyCompareOp_bytes]

section Rows

variable {o : BitLSMOptions} {q : BitLSMQuery} {row : Bytes} {attrs : List EncodedAttr}

/-- The extracted row, attribute by attribute. -/
theorem extractAll_getElem? (hschema : validateAttrSpecs o = .ok)
    (hattrs : extractAll (ValueLayout.ofOptions o) row = some attrs) {c : QueryCondition}
    {spec : AttrSpec} (hc : c.Ok o spec) :
    ∃ v e, decodeAttr (ValueLayout.ofOptions o) row c.attrIdx = some v ∧
      (v = .null ∨ v.fits spec.physicalType = true) ∧
      encodeAttrView v = some e ∧ attrs[c.attrIdx.toNat]? = some e := by
  obtain ⟨attrs', hattrs', -, hget⟩ := extractAll_spec hschema row
  obtain rfl : attrs' = attrs := Option.some.inj (hattrs'.symm.trans hattrs)
  obtain ⟨a, hat, rfl⟩ := ValueLayout.exists_at hc.spec_eq
  obtain ⟨v, hdec, hfits⟩ := decodeAttr_fits hat row
  obtain ⟨v', e, hdec', he, hi⟩ := hget c.attrIdx (List.getElem?_eq_some_iff.1 hc.spec_eq).1
  obtain rfl : v' = v := Option.some.inj (hdec'.symm.trans hdec)
  exact ⟨v', e, hdec', hfits, he, hi⟩

theorem QueryCondition.holdsEncoded_of_holds (hschema : validateAttrSpecs o = .ok)
    (hattrs : extractAll (ValueLayout.ofOptions o) row = some attrs) {c : QueryCondition}
    {spec : AttrSpec} (hc : c.Ok o spec)
    (h : c.holds (ValueLayout.ofOptions o) row = true) : c.holdsEncoded attrs = true := by
  obtain ⟨v, e, hdec, hfits, he, hi⟩ := extractAll_getElem? hschema hattrs hc
  rw [QueryCondition.holds, hdec, Option.bind_some, beq_iff_eq] at h
  obtain ⟨b, rfl, hb⟩ := (evalCondition_encoded hfits hc.fits he).1 h
  rw [QueryCondition.holdsEncoded, hi]
  exact hb

theorem QueryCondition.holds_eq_holdsEncoded (hschema : validateAttrSpecs o = .ok)
    (hattrs : extractAll (ValueLayout.ofOptions o) row = some attrs) {c : QueryCondition}
    {spec : AttrSpec} (hc : c.Ok o spec) (hnan : NaNFree o q row)
    {clause : OrClause} (hclause : clause ∈ q.clauseGroups) (hmem : c ∈ clause) :
    c.holds (ValueLayout.ofOptions o) row = c.holdsEncoded attrs := by
  obtain ⟨v, e, hdec, hfits, he, hi⟩ := extractAll_getElem? hschema hattrs hc
  rw [QueryCondition.holds, hdec, Option.bind_some, QueryCondition.holdsEncoded, hi]
  cases e with
  | none =>
      have hnull : v = .null := by
        cases v <;> simp [encodeAttrView, numericToOkey] at he ⊢
      subst hnull
      rfl
  | some b =>
      rw [(evalCondition_encoded hfits hc.fits he).2
        (fun d hd => hnan.row c.attrIdx d (hd ▸ hdec))
        (hnan.comparand clause hclause c hmem) b rfl]
      show (some (applyCompareOp c.op b (comparandBytes c.value)) == some true) =
        applyCompareOp c.op b (comparandBytes c.value)
      cases applyCompareOp c.op b (comparandBytes c.value) <;> rfl

/-- A row the query accepts is accepted in the byte domain. -/
theorem clauses_holdEncoded_of_hold (hschema : validateAttrSpecs o = .ok)
    (hq : q.validate o = .ok)
    (hattrs : extractAll (ValueLayout.ofOptions o) row = some attrs)
    (h : (q.clauseGroups.all fun clause =>
      clause.any (QueryCondition.holds (ValueLayout.ofOptions o) row)) = true) :
    (q.clauseGroups.all fun clause =>
      clause.any (QueryCondition.holdsEncoded attrs)) = true := by
  have hok := BitLSMQuery.validate_eq_ok.1 hq
  rw [List.all_eq_true] at h ⊢
  intro clause hclause
  obtain ⟨c, hmem, hc⟩ := List.any_eq_true.1 (h clause hclause)
  obtain ⟨spec, hcok⟩ := (hok clause hclause).2 c hmem
  exact List.any_eq_true.2 ⟨c, hmem, c.holdsEncoded_of_holds hschema hattrs hcok hc⟩

theorem clauses_hold_eq_holdEncoded (hschema : validateAttrSpecs o = .ok)
    (hq : q.validate o = .ok)
    (hattrs : extractAll (ValueLayout.ofOptions o) row = some attrs) (hnan : NaNFree o q row) :
    (q.clauseGroups.all fun clause =>
        clause.any (QueryCondition.holds (ValueLayout.ofOptions o) row)) =
      q.clauseGroups.all fun clause => clause.any (QueryCondition.holdsEncoded attrs) := by
  have hok := BitLSMQuery.validate_eq_ok.1 hq
  have hcond : ∀ clause ∈ q.clauseGroups,
      clause.any (QueryCondition.holds (ValueLayout.ofOptions o) row) =
        clause.any (QueryCondition.holdsEncoded attrs) := by
    intro clause hclause
    rw [Bool.eq_iff_iff, List.any_eq_true, List.any_eq_true]
    refine exists_congr fun c => and_congr_right fun hmem => ?_
    obtain ⟨spec, hc⟩ := (hok clause hclause).2 c hmem
    rw [c.holds_eq_holdsEncoded hschema hattrs hc hnan hclause hmem]
  rw [Bool.eq_iff_iff, List.all_eq_true, List.all_eq_true]
  exact forall₂_congr fun clause hclause => by rw [hcond clause hclause]

/-- On every row the reference evaluator implies the encoded meaning, equals
it when no NaN is involved, and never accepts when the encoded query is
marked unsatisfiable. -/
theorem encodeQuery_preserves_meaning (hschema : validateAttrSpecs o = .ok)
    (hq : q.validate o = .ok) :
    ∃ sq, encodeQuery q o = some sq ∧ ∀ row, ∃ attrs b,
      extractAll (ValueLayout.ofOptions o) row = some attrs ∧
      q.checkCondition row (ValueLayout.ofOptions o) = some b ∧
      (NaNFree o q row → b = sq.meaning o.indexTypes attrs) ∧
      (b = true → sq.meaning o.indexTypes attrs = true) ∧
      (sq.unsat = true → b = false) := by
  obtain ⟨sq, hsq, hmeaning, hunsat⟩ := encodeQuery_spec hq
  refine ⟨sq, hsq, fun row => ?_⟩
  obtain ⟨attrs, hattrs, -, -⟩ := extractAll_spec hschema row
  have himp := clauses_holdEncoded_of_hold (q := q) hschema hq hattrs
  refine ⟨attrs, _, hattrs, BitLSMQuery.checkCondition_eq row hschema hq, ?_, ?_, ?_⟩
  · intro hnan
    rw [hmeaning, clauses_hold_eq_holdEncoded hschema hq hattrs hnan]
  · rw [hmeaning]
    exact himp
  · intro hu
    rw [← Bool.not_eq_true]
    intro h
    have hfalse := hunsat hu attrs
    rw [hmeaning, himp h] at hfalse
    exact absurd hfalse (by simp)

end Rows

/-- A nullable double with a range index and a string with an equality index. -/
def doubleAndString : BitLSMOptions :=
  ⟨2, [⟨.range, .float, 8, true⟩, ⟨.equality, .varBinary, 0, false⟩]⟩

/-- `0.5 <= x AND x < 2 AND (y = "a" OR y = "b")`. -/
def betweenQuery : BitLSMQuery :=
  ⟨[[⟨0, .greaterEqual, .float ⟨0x3FE0000000000000⟩⟩],
    [⟨0, .less, .float ⟨0x4000000000000000⟩⟩],
    [⟨1, .equal, .bytes [97]⟩, ⟨1, .equal, .bytes [98]⟩]]⟩

theorem encodeQuery_preserves_meaning_between :
    ∃ sq, encodeQuery betweenQuery doubleAndString = some sq ∧ ∀ row, ∃ attrs b,
      extractAll (ValueLayout.ofOptions doubleAndString) row = some attrs ∧
      betweenQuery.checkCondition row (ValueLayout.ofOptions doubleAndString) = some b ∧
      (NaNFree doubleAndString betweenQuery row →
        b = sq.meaning doubleAndString.indexTypes attrs) ∧
      (b = true → sq.meaning doubleAndString.indexTypes attrs = true) ∧
      (sq.unsat = true → b = false) :=
  encodeQuery_preserves_meaning rfl rfl

end BitLSM
