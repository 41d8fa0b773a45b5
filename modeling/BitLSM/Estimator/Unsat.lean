import BitLSM.Lib.Transition
import BitLSM.Estimator.Estimate
import BitLSM.Estimator.OkeyAxis

/-!
Estimates of queries that are known to match nothing.

`encodeQuery` marks a query when the interval algebra alone shows that no row
matches: the conditions of a disjunction are all empty, or the single conditions
on one attribute contradict each other. The iterators skip every file of such a
query. `estimate` does not read the mark; it multiplies the factors of the
clauses and windows that are left.
-/

namespace BitLSM

open Wire

/-! ### What makes a query unsatisfiable -/

namespace ByteInterval

theorem empty_iff {w : ByteInterval} :
    w.empty = true ↔ w.hiUnbounded = false ∧
      (w.hi < w.lo ∨ w.lo = w.hi ∧ (w.loOpen = true ∨ w.hiOpen = true)) := by
  unfold empty
  cases hu : w.hiUnbounded with
  | true => simp
  | false => simp [Bytes.compare_pos, Bytes.compare_eq_zero]

/-- Each end of `u` is the one of `w` or further in. -/
structure Tighter (u w : ByteInterval) : Prop where
  lo : w.lo < u.lo ∨ w.lo = u.lo ∧ (w.loOpen = true → u.loOpen = true)
  hi : w.hiUnbounded = false → u.hiUnbounded = false ∧
    (u.hi < w.hi ∨ u.hi = w.hi ∧ (w.hiOpen = true → u.hiOpen = true))

theorem Tighter.empty {u w : ByteInterval} (h : Tighter u w) (hempty : w.empty = true) :
    u.empty = true := by
  obtain ⟨hbounded, hends⟩ := empty_iff.1 hempty
  obtain ⟨hbounded', hhi⟩ := h.hi hbounded
  refine empty_iff.2 ⟨hbounded', ?_⟩
  rcases h.lo with hlo | ⟨hlo, hloOpen⟩ <;> rcases hhi with hhi | ⟨hhi, hhiOpen⟩ <;>
    rcases hends with hgt | ⟨heq, hopen⟩
  · exact Or.inl (hhi.trans (hgt.trans hlo))
  · exact Or.inl (hhi.trans (heq ▸ hlo))
  · exact Or.inl (hhi ▸ hgt.trans hlo)
  · exact Or.inl (hhi ▸ heq ▸ hlo)
  · exact Or.inl (hhi.trans (hlo ▸ hgt))
  · exact Or.inl (hlo ▸ heq ▸ hhi)
  · exact Or.inl (hhi ▸ hlo ▸ hgt)
  · exact Or.inr ⟨hlo ▸ hhi ▸ heq, hopen.imp hloOpen hhiOpen⟩

theorem lo_intersect (w o : ByteInterval) :
    (w.intersect o).lo = (w.intersectLo o).lo ∧
      (w.intersect o).loOpen = (w.intersectLo o).loOpen := by
  unfold intersect intersectHi
  simp only []
  split_ifs <;> exact ⟨rfl, rfl⟩

theorem hi_intersectLo (w o : ByteInterval) :
    (w.intersectLo o).hi = w.hi ∧ (w.intersectLo o).hiOpen = w.hiOpen ∧
      (w.intersectLo o).hiUnbounded = w.hiUnbounded := by
  unfold intersectLo
  simp only []
  split_ifs <;> exact ⟨rfl, rfl, rfl⟩

/-- An intersection is tighter than both intervals. -/
theorem intersect_tighter (w o : ByteInterval) :
    Tighter (w.intersect o) w ∧ Tighter (w.intersect o) o := by
  obtain ⟨hlo, hloOpen⟩ := lo_intersect w o
  obtain ⟨hhi, hhiOpen, hhiUnbounded⟩ := hi_intersectLo w o
  have hlower : (w.lo < (w.intersectLo o).lo ∨ w.lo = (w.intersectLo o).lo ∧
        (w.loOpen = true → (w.intersectLo o).loOpen = true)) ∧
      (o.lo < (w.intersectLo o).lo ∨ o.lo = (w.intersectLo o).lo ∧
        (o.loOpen = true → (w.intersectLo o).loOpen = true)) := by
    unfold intersectLo
    simp only [Bytes.compare_pos, Bytes.compare_eq_zero]
    rcases lt_trichotomy o.lo w.lo with hlt | heq | hgt
    · rw [if_neg hlt.not_gt, if_neg hlt.ne]
      exact ⟨Or.inr ⟨rfl, id⟩, Or.inl hlt⟩
    · rw [if_neg heq.not_gt, if_pos heq]
      exact ⟨Or.inr ⟨rfl, fun h => by simp [h]⟩, Or.inr ⟨heq, fun h => by simp [h]⟩⟩
    · rw [if_pos hgt]
      exact ⟨Or.inl hgt, Or.inr ⟨rfl, id⟩⟩
  have hupper : (w.hiUnbounded = false → (w.intersect o).hiUnbounded = false ∧
        ((w.intersect o).hi < w.hi ∨ (w.intersect o).hi = w.hi ∧
          (w.hiOpen = true → (w.intersect o).hiOpen = true))) ∧
      (o.hiUnbounded = false → (w.intersect o).hiUnbounded = false ∧
        ((w.intersect o).hi < o.hi ∨ (w.intersect o).hi = o.hi ∧
          (o.hiOpen = true → (w.intersect o).hiOpen = true))) := by
    unfold intersect intersectHi
    simp only [hhi, hhiOpen, hhiUnbounded, Bytes.compare_lt_zero, Bytes.compare_eq_zero]
    cases ho : o.hiUnbounded with
    | true => simp [hhi, hhiOpen, hhiUnbounded]
    | false =>
        cases hw : w.hiUnbounded with
        | true => simp
        | false =>
            rcases lt_trichotomy o.hi w.hi with hlt | heq | hgt
            · simp [hlt]
            · simp +contextual [heq]
            · simp [hgt.not_gt, hgt.ne', hhi, hhiOpen, hhiUnbounded, hw, hgt]
  rw [← hlo, ← hloOpen] at hlower
  exact ⟨⟨hlower.1, hupper.1⟩, hlower.2, hupper.2⟩

/-- An empty interval stays empty. -/
theorem empty_intersect {w : ByteInterval} (o : ByteInterval) (h : w.empty = true) :
    (w.intersect o).empty = true :=
  (intersect_tighter w o).1.empty h

/-- Intersecting into the unbounded interval copies. -/
theorem intersect_fromOp (op : CompareOp) (bytes : Bytes) :
    ({} : ByteInterval).intersect (fromOp op bytes) = fromOp op bytes := by
  have hlo : Bytes.compare bytes [] = 0 ∨ 0 < Bytes.compare bytes [] := by
    rw [Bytes.compare_eq_zero, Bytes.compare_pos]
    exact (nil_le bytes).eq_or_lt.imp Eq.symm id
  have hnil : Bytes.compare [] [] = 0 := Bytes.compare_eq_zero.2 rfl
  cases op with
  | lessEqual | less => simp [intersect, intersectLo, intersectHi, fromOp, hnil]
  | equal | greaterEqual | greater =>
      rcases hlo with hzero | hpos
      · obtain rfl := Bytes.compare_eq_zero.1 hzero
        simp [intersect, intersectLo, intersectHi, fromOp, hnil]
      · simp [intersect, intersectLo, intersectHi, fromOp, hpos]

end ByteInterval

section Unsat

variable (o : BitLSMOptions)

/-- The interval of a clause that is a single condition on the range attribute
`a`. -/
def singleOn (a : UInt32) (clause : OrClause) : Option ByteInterval :=
  match clause with
  | [c] =>
      if c.attrIdx = a ∧ o.indexTypes[a.toNat]? = some .range then
        some (.fromOp c.op (comparandBytes c.value))
      else none
  | _ => none

/-- What the single conditions on the attribute `a` have in common. -/
def commonWindow (clauses : List OrClause) (a : UInt32) : ByteInterval :=
  (clauses.filterMap (singleOn o a)).foldl ByteInterval.intersect {}

/-- A disjunction whose conditions are all met by no byte string. -/
def Vanishes (clause : OrClause) : Prop :=
  1 < clause.length ∧ ∀ c ∈ clause, o.indexTypes[c.attrIdx.toNat]? = some .range ∧
    (ByteInterval.fromOp c.op (comparandBytes c.value)).empty = true

/-- The state after the clauses `done`: what stands where, and why it is marked. -/
structure MarkedSoFar (done : List OrClause) (st : EncodeQueryState) : Prop where
  opened : ∀ a i, st.mergedAt.lookup a = some i →
    st.out.clauseGroups[i]? = some [{ attrIdx := a, win := commonWindow o done a }]
  unopened : ∀ a, st.mergedAt.lookup a = none → commonWindow o done a = {}
  unsat : st.out.unsat = true ↔ (∃ clause ∈ done, Vanishes o clause) ∨
    ∃ a, (commonWindow o done a).empty = true
  /-- Nothing is left of clauses that vanish. -/
  vanished : (∀ clause ∈ done, Vanishes o clause) → ∀ clause ∈ st.out.clauseGroups, clause = []

variable {o} {done : List OrClause} {st st' : EncodeQueryState}

theorem commonWindow_concat (clause : OrClause) (a : UInt32) :
    commonWindow o (done ++ [clause]) a =
      (singleOn o a clause).elim (commonWindow o done a) (commonWindow o done a).intersect := by
  rw [commonWindow, List.filterMap_append, List.foldl_append]
  cases hsingle : singleOn o a clause with
  | none => rw [List.filterMap_cons_none hsingle]; rfl
  | some w => rw [List.filterMap_cons_some hsingle]; rfl

theorem exists_vanishes_concat (clause : OrClause) :
    (∃ x ∈ done ++ [clause], Vanishes o x) ↔ (∃ x ∈ done, Vanishes o x) ∨ Vanishes o clause := by
  simp only [List.mem_append, List.mem_singleton, or_and_right, exists_or, exists_eq_left]

/-- A single condition on a range attribute narrows one common window, and the
query is marked when nothing is left of it. -/
theorem MarkedSoFar.singleton {c : QueryCondition} (h : MarkedSoFar o done st)
    (hrange : o.indexTypes[c.attrIdx.toNat]? = some .range)
    (hst' : encodeSingleton st c = some st') : MarkedSoFar o (done ++ [[c]]) st' := by
  obtain ⟨win, hwin⟩ : ∃ win, win = ByteInterval.fromOp c.op (comparandBytes c.value) := ⟨_, rfl⟩
  have hsame : commonWindow o (done ++ [[c]]) c.attrIdx =
      (commonWindow o done c.attrIdx).intersect win := by
    rw [commonWindow_concat, singleOn, if_pos ⟨rfl, hrange⟩, Option.elim_some, hwin]
  have hother {a : UInt32} (hne : c.attrIdx ≠ a) :
      commonWindow o (done ++ [[c]]) a = commonWindow o done a := by
    rw [commonWindow_concat, singleOn, if_neg fun hc => hne hc.1, Option.elim_none]
  have hsingle : ¬Vanishes o [c] := fun hc => absurd hc.1 (lt_irrefl 1)
  have hleft : ¬∀ clause ∈ done ++ [[c]], Vanishes o clause := fun h =>
    hsingle (h [c] (by simp))
  have hunsat : (st.out.unsat || (commonWindow o (done ++ [[c]]) c.attrIdx).empty) = true ↔
      (∃ clause ∈ done ++ [[c]], Vanishes o clause) ∨
        ∃ a, (commonWindow o (done ++ [[c]]) a).empty = true := by
    rw [Bool.or_eq_true, h.unsat, exists_vanishes_concat, or_iff_left hsingle, or_assoc]
    refine or_congr_right ⟨?_, ?_⟩
    · rintro (⟨a, ha⟩ | hc)
      · refine ⟨a, ?_⟩
        by_cases hne : c.attrIdx = a
        · rw [← hne, hsame]
          exact ByteInterval.empty_intersect win (hne ▸ ha)
        · rwa [hother hne]
      · exact ⟨_, hc⟩
    · rintro ⟨a, ha⟩
      by_cases hne : c.attrIdx = a
      · exact Or.inr (hne ▸ ha)
      · exact Or.inl ⟨a, hother hne ▸ ha⟩
  rw [encodeSingleton, ← hwin] at hst'
  cases hlookup : st.mergedAt.lookup c.attrIdx with
  | none =>
      simp only [hlookup, Option.some.injEq] at hst'
      subst hst'
      have hfirst : commonWindow o (done ++ [[c]]) c.attrIdx = win := by
        rw [hsame, h.unopened _ hlookup, hwin, ByteInterval.intersect_fromOp]
      refine ⟨fun a i hi => ?_, fun a ha => ?_, hfirst ▸ hunsat, fun h => absurd h hleft⟩
      · rw [List.lookup_cons] at hi
        cases hac : a == c.attrIdx with
        | true =>
            rw [hac] at hi
            obtain rfl := Option.some.inj hi
            obtain rfl := eq_of_beq hac
            rw [hfirst]
            simp
        | false =>
            rw [hac] at hi
            rw [hother fun heq => by simp [heq] at hac]
            have hold := h.opened a i hi
            rwa [List.getElem?_append_left (List.getElem?_eq_some_iff.1 hold).1]
      · rw [List.lookup_cons] at ha
        cases hac : a == c.attrIdx with
        | true => simp [hac] at ha
        | false =>
            rw [hac] at ha
            rw [hother fun heq => by simp [heq] at hac]
            exact h.unopened a ha
  | some i =>
      have hfirst := h.opened _ i hlookup
      simp only [hlookup, hfirst, Option.bind_eq_bind, Option.bind_some, List.head?_cons,
        List.tail_cons, Option.pure_def, Option.some.injEq] at hst'
      subst hst'
      refine ⟨fun a j hj => ?_, fun a ha => ?_, hsame ▸ hunsat, fun h => absurd h hleft⟩
      · rw [List.getElem?_set]
        have hold := h.opened a j hj
        by_cases hne : c.attrIdx = a
        · subst hne
          obtain rfl : i = j := Option.some.inj (hlookup.symm.trans hj)
          rw [if_pos rfl, if_pos (List.getElem?_eq_some_iff.1 hold).1, hsame]
        · -- another attribute's clause stands elsewhere
          have hij : i ≠ j := by
            rintro rfl
            rw [hfirst, Option.some.injEq, List.cons.injEq, SABICondition.mk.injEq] at hold
            exact hne hold.1.1
          rw [if_neg hij, hother hne, hold]
      · rw [hother fun heq => by simp [← heq, hlookup] at ha]
        exact h.unopened a ha

theorem reduceOption_mapM_eq_nil {α β : Type} {f : α → Option (Option β)} {l : List α}
    {ms : List (Option β)} (h : l.mapM f = some ms) :
    ms.reduceOption = [] ↔ ∀ x ∈ l, f x = some none := by
  induction l generalizing ms with
  | nil =>
      obtain rfl := Option.some.inj h
      simp
  | cons x l ih =>
      rw [List.mapM_cons] at h
      obtain ⟨m, hm, h⟩ := Option.bind_eq_some_iff.1 h
      obtain ⟨rest, hrest, h⟩ := Option.bind_eq_some_iff.1 h
      obtain rfl := Option.some.inj h
      rw [List.forall_mem_cons, ← ih hrest, hm]
      cases m <;> simp

theorem encodeMember_eq_none {c : QueryCondition} :
    encodeMember o c = some none ↔ o.indexTypes[c.attrIdx.toNat]? = some .range ∧
      (ByteInterval.fromOp c.op (comparandBytes c.value)).empty = true := by
  rw [encodeMember, BitLSMOptions.indexTypes, List.getElem?_map]
  cases o.attrSpecs[c.attrIdx.toNat]? with
  | none => simp
  | some spec => cases hrange : spec.indexType <;> simp [encodeMemberAs, hrange]

/-- A disjunction opens a clause of its own, and the query is marked when no
member is left. -/
theorem MarkedSoFar.members {clause : OrClause} (h : MarkedSoFar o done st)
    (hsingle : ∀ a, singleOn o a clause = none) (hone : ∀ c, clause = [c] →
      o.indexTypes[c.attrIdx.toNat]? ≠ some .range)
    (hst' : encodeMembers o st clause = some st') : MarkedSoFar o (done ++ [clause]) st' := by
  obtain ⟨ms, hms, hst'⟩ := Option.bind_eq_some_iff.1 hst'
  obtain rfl := Option.some.inj hst'
  have hcommon (a : UInt32) : commonWindow o (done ++ [clause]) a = commonWindow o done a := by
    rw [commonWindow_concat, hsingle, Option.elim_none]
  have hvanishes : (ms.reduceOption.isEmpty && !clause.isEmpty) = true ↔ Vanishes o clause := by
    rw [Bool.and_eq_true, List.isEmpty_iff, reduceOption_mapM_eq_nil hms, Vanishes,
      and_comm (a := 1 < clause.length)]
    simp only [encodeMember_eq_none]
    refine and_congr_right fun hall => ?_
    match clause with
    | [] => simp
    | [c] => exact absurd (hall c (List.mem_singleton_self c)).1 (hone c rfl)
    | _ :: _ :: _ => simp
  refine ⟨fun a i hi => ?_, fun a ha => (hcommon a).trans (h.unopened a ha), ?_, fun hall => ?_⟩
  · have hold := h.opened a i hi
    rw [hcommon]
    rwa [List.getElem?_append_left (List.getElem?_eq_some_iff.1 hold).1]
  · rw [Bool.or_eq_true, h.unsat, hvanishes, exists_vanishes_concat]
    simp only [hcommon]
    exact or_right_comm
  · rw [List.forall_mem_append, List.forall_mem_singleton, ← hvanishes, Bool.and_eq_true,
      List.isEmpty_iff] at hall
    exact List.forall_mem_append.2
      ⟨h.vanished hall.1, List.forall_mem_singleton.2 hall.2.1⟩

theorem MarkedSoFar.clause {clause : OrClause} (h : MarkedSoFar o done st)
    (hst' : encodeClause o st clause = some st') : MarkedSoFar o (done ++ [clause]) st' := by
  match clause with
  | [c] =>
      obtain ⟨spec, hspec, hst'⟩ := Option.bind_eq_some_iff.1 hst'
      have htypes : o.indexTypes[c.attrIdx.toNat]? = some spec.indexType := by
        rw [BitLSMOptions.indexTypes, List.getElem?_map, hspec, Option.map_some]
      split at hst'
      · next hrange => exact h.singleton (htypes.trans (congrArg some hrange)) hst'
      · next hrange =>
          have hne : o.indexTypes[c.attrIdx.toNat]? ≠ some .range := fun heq =>
            hrange (Option.some.inj (htypes.symm.trans heq))
          refine h.members (fun a => ?_) (fun d hd => ?_) hst'
          · rw [singleOn, if_neg]
            rintro ⟨rfl, heq⟩
            exact hne heq
          · obtain rfl := List.head_eq_of_cons_eq hd
            exact hne
  | [] => exact h.members (fun _ => rfl) (fun _ hc => by cases hc) hst'
  | _ :: _ :: _ => exact h.members (fun _ => rfl) (fun _ hc => by cases hc) hst'

/-- The state in which the encoding of a query ends. -/
theorem encodeQuery_marked {q : BitLSMQuery} {sq : SABIQuery} (hsq : encodeQuery q o = some sq) :
    ∃ st, st.out = sq ∧ MarkedSoFar o q.clauseGroups st := by
  obtain ⟨st, hrun, hst⟩ := Option.bind_eq_some_iff.1 hsq
  have hstart : MarkedSoFar o [] {} := by
    refine ⟨fun a i hi => ?_, fun a _ => rfl, ?_, by simp⟩
    · cases hi
    · simp [commonWindow, ByteInterval.empty]
  obtain ⟨done, hdone, hmarked⟩ := @Transition.run_induction _ _
    (fun clause st => encodeClause o st clause)
    (fun rest st => ∃ done, done ++ rest = q.clauseGroups ∧ MarkedSoFar o done st)
    (fun clause rest st st' ⟨done, hdone, hmarked⟩ hstep =>
      ⟨done ++ [clause], by simpa using hdone, hmarked.clause hstep⟩)
    _ _ _ ⟨[], rfl, hstart⟩ hrun
  rw [List.append_nil] at hdone
  exact ⟨st, Option.some.inj hst, hdone ▸ hmarked⟩

theorem exists_mem_intersectAt (a : UInt32) (win : ByteInterval)
    (ws : List (UInt32 × ByteInterval)) :
    ∃ w : ByteInterval, (a, w.intersect win) ∈ intersectAt a win ws := by
  induction ws with
  | nil => exact ⟨_, List.mem_singleton_self _⟩
  | cons entry ws ih =>
      obtain ⟨b, w⟩ := entry
      rw [intersectAt]
      split_ifs with hlt hgt
      · exact ⟨_, List.mem_cons_self⟩
      · obtain ⟨v, hv⟩ := ih
        exact ⟨v, List.mem_cons_of_mem _ hv⟩
      · obtain rfl : a = b :=
          UInt32.le_antisymm (UInt32.not_lt.1 hgt) (UInt32.not_lt.1 hlt)
        exact ⟨w, List.mem_cons_self⟩

/-- An empty window is narrowed to an empty one, or left alone. -/
theorem empty_intersectAt {a b : UInt32} {win w : ByteInterval}
    {ws : List (UInt32 × ByteInterval)} (hmem : (b, w) ∈ ws) (hempty : w.empty = true) :
    ∃ w', (b, w') ∈ intersectAt a win ws ∧ w'.empty = true := by
  induction ws with
  | nil => cases hmem
  | cons entry ws ih =>
      obtain ⟨c, v⟩ := entry
      rw [intersectAt]
      split_ifs with hlt hgt
      · exact ⟨w, List.mem_cons_of_mem _ hmem, hempty⟩
      · rcases List.mem_cons.1 hmem with heq | hmem
        · exact ⟨w, heq ▸ List.mem_cons_self, hempty⟩
        · obtain ⟨w', hw', hempty'⟩ := ih hmem
          exact ⟨w', List.mem_cons_of_mem _ hw', hempty'⟩
      · rcases List.mem_cons.1 hmem with heq | hmem
        · obtain ⟨rfl, rfl⟩ := Prod.mk.inj heq
          exact ⟨_, List.mem_cons_self, (ByteInterval.intersect_tighter w win).1.empty hempty⟩
        · exact ⟨w, List.mem_cons_of_mem _ hmem, hempty⟩

theorem empty_foldl_addWindow {types : List IndexType} {b : UInt32} {w : ByteInterval}
    (clauses : List SABIOrClause) {ws : List (UInt32 × ByteInterval)} (hmem : (b, w) ∈ ws)
    (hempty : w.empty = true) :
    ∃ w', (b, w') ∈ clauses.foldl (addWindow types) ws ∧ w'.empty = true := by
  induction clauses generalizing ws w with
  | nil => exact ⟨w, hmem, hempty⟩
  | cons clause clauses ih =>
      have hstep : ∃ w', (b, w') ∈ addWindow types ws clause ∧ w'.empty = true := by
        unfold addWindow
        split
        · split
          · exact empty_intersectAt hmem hempty
          · exact ⟨w, hmem, hempty⟩
        · exact ⟨w, hmem, hempty⟩
      obtain ⟨w', hw', hempty'⟩ := hstep
      exact ih hw' hempty'

/-- A single condition that nothing meets leaves an empty window. -/
theorem exists_empty_window {types : List IndexType} {c : SABICondition}
    (hrange : types[c.attrIdx.toNat]? = some .range) (hempty : c.win.empty = true)
    {clauses : List SABIOrClause} (hmem : [c] ∈ clauses) (ws : List (UInt32 × ByteInterval)) :
    ∃ w, (c.attrIdx, w) ∈ clauses.foldl (addWindow types) ws ∧ w.empty = true := by
  induction clauses generalizing ws with
  | nil => cases hmem
  | cons clause clauses ih =>
      rcases List.mem_cons.1 hmem with rfl | hmem
      · rw [List.foldl_cons, addWindow, if_pos hrange]
        obtain ⟨w, hw⟩ := exists_mem_intersectAt c.attrIdx c.win ws
        exact empty_foldl_addWindow clauses hw
          ((ByteInterval.intersect_tighter w c.win).2.empty hempty)
      · exact ih hmem _

/-- A contradiction between single conditions is an empty window of the encoded
query. -/
theorem MarkedSoFar.exists_empty_window (h : MarkedSoFar o done st) {a : UInt32}
    (hempty : (commonWindow o done a).empty = true) :
    ∃ w, (a, w) ∈ st.out.windows o.indexTypes ∧ w.empty = true := by
  cases hlookup : st.mergedAt.lookup a with
  | none =>
      rw [h.unopened a hlookup] at hempty
      cases hempty
  | some i =>
      have hrange : o.indexTypes[a.toNat]? = some .range := by
        by_contra hne
        have hnone : done.filterMap (singleOn o a) = [] := by
          refine List.filterMap_eq_nil_iff.2 fun clause _ => ?_
          unfold singleOn
          split
          · rw [if_neg fun hc => hne hc.2]
          · rfl
        rw [commonWindow, hnone] at hempty
        cases hempty
      exact BitLSM.exists_empty_window
        (c := { attrIdx := a, win := commonWindow o done a }) hrange hempty
        (List.mem_of_getElem? (h.opened a i hlookup)) []

end Unsat

/-! ### Estimates of unsatisfiable queries -/

/-- A query of which nothing is left has no factors. -/
theorem factors_eq_nil {r : Rounding} {types : List IndexType} {stats : GlobalStats}
    {sq : SABIQuery}
    (h : ∀ clause ∈ sq.clauseGroups, clause = []) : factors r types stats sq = [] := by
  have hclauses : sq.clauseGroups.filterMap (clauseFactor r types stats) = [] :=
    List.filterMap_eq_nil_iff.2 fun clause hmem => by rw [h clause hmem]; rfl
  have hwindows : ∀ ws, sq.clauseGroups.foldl (addWindow types) ws = ws := by
    generalize sq.clauseGroups = clauses at h
    induction clauses with
    | nil => exact fun ws => rfl
    | cons clause clauses ih =>
        rw [List.forall_mem_cons] at h
        obtain ⟨rfl, h⟩ := h
        exact ih h
  rw [factors, hclauses, SABIQuery.windows, hwindows]
  rfl

/-- A query is marked unsatisfiable exactly if a disjunction vanishes, or an
attribute's single conditions contradict each other, which leaves an empty window.
It is estimated at one row if the window of such an attribute is placed empty. Of
disjunctions that vanish nothing is left to estimate: a query of such is estimated
at all rows. -/
theorem estimate_unsat_oneRow (r : Rounding) {o : BitLSMOptions} {q : BitLSMQuery}
    (hq : q.validate o = .ok) {stats : GlobalStats} (hlive : stats.liveSstCount ≠ 0)
    (hphys : stats.physicalRows ≠ 0) (memtable : UInt64) :
    ∃ sq, encodeQuery q o = some sq ∧
      (sq.unsat = true ↔ (∃ clause ∈ q.clauseGroups, Vanishes o clause) ∨
        ∃ a, (commonWindow o q.clauseGroups a).empty = true) ∧
      (∀ a, (commonWindow o q.clauseGroups a).empty = true →
        ∃ w, (a, w) ∈ sq.windows o.indexTypes ∧ w.empty = true) ∧
      (sq.unsat = true → (∃ a w ord, (a, w) ∈ sq.windows o.indexTypes ∧ w.empty = true ∧
          stats.rangeOf a = some ord ∧ (ord.place w).hi ≤ (ord.place w).lo) →
        (estimate r o.indexTypes stats memtable sq).selectivity = stats.oneRow r) ∧
      ((∀ clause ∈ q.clauseGroups, Vanishes o clause) →
        (estimate r o.indexTypes stats memtable sq).selectivity = 1) := by
  obtain ⟨sq, hsq, -, -⟩ := encodeQuery_spec hq
  obtain ⟨st, rfl, hmarked⟩ := encodeQuery_marked hsq
  obtain ⟨hnonneg, hle⟩ := stats.oneRow_mem r hphys
  refine ⟨st.out, hsq, hmarked.unsat, fun a => hmarked.exists_empty_window, ?_, fun hall => ?_⟩
  · rintro - ⟨a, w, ord, hmem, -, hord, hempty⟩
    have hfactor : windowFactor r stats (a, w) = some 0 := by
      rw [windowFactor, hord, Option.map_some, if_pos hempty]
    have hzero : 0 ∈ factors r o.indexTypes stats st.out :=
      List.mem_append_right _ (List.mem_filterMap.2 ⟨_, hmem, hfactor⟩)
    rw [estimate_selectivity hlive hphys, foldl_mul_eq_zero hzero, max_eq_right hnonneg,
      min_eq_right hle]
  · rw [estimate_selectivity hlive hphys, factors_eq_nil (hmarked.vanished hall)]
    exact min_eq_left (le_max_left _ _)

/-- A file of one range attribute without tombstones. -/
def oneAttrFile (h : RangeAttrHistogram) (rows : UInt64) : LiveFile :=
  .indexed {
    dataEntries := some rows
    tombstoneCardinality := 0
    rangeHistogram := fun _ => some h
    equalityValueCounts := fun _ => none
    bitmapNums := [1] }

def oneAttrStats (ord : GlobalRangeStats) (rows : UInt64) : GlobalStats where
  range := [some ord]
  equality := [none]
  physicalRows := rows
  liveSstCount := 1

theorem rebuild_oneAttrFile {r : Rounding} {nthElement : List (Bytes × ℚ) → List (Bytes × ℚ)}
    {gridCells : UInt32} {h : RangeAttrHistogram} {ord : GlobalRangeStats}
    (hord : rebuildRange r gridCells [h] = some ord) (rows : UInt64) :
    rebuild r nthElement gridCells [.range] [oneAttrFile h rows] =
      some (oneAttrStats ord rows) := by
  have hslot : rebuildRangeSlot r gridCells 0 [{
      dataEntries := some rows
      tombstoneCardinality := 0
      rangeHistogram := fun _ => some h
      equalityValueCounts := fun _ => none
      bitmapNums := [1] }] = some (some ord) := by
    rw [rebuildRangeSlot]
    simp [hord]
  simp [rebuild, oneAttrFile, LiveFile.reader?, hslot, addFile, oneAttrStats]

/-- An integer with a range index. -/
def intSchema : BitLSMOptions := ⟨1, [⟨.range, .int, 8, false⟩]⟩

/-- A string with a range index. -/
def stringSchema : BitLSMOptions := ⟨1, [⟨.range, .varBinary, 0, false⟩]⟩

/-- `x >= lo AND x <= hi`. -/
def intBetween (lo hi : Int64) : BitLSMQuery :=
  ⟨[[⟨0, .greaterEqual, .int lo⟩], [⟨0, .lessEqual, .int hi⟩]]⟩

/-- The window of the two conditions. -/
def betweenWindow (lo hi : Int64) : ByteInterval :=
  (ByteInterval.fromOp .greaterEqual (comparandBytes (.int lo))).intersect
    (.fromOp .lessEqual (comparandBytes (.int hi)))

theorem encodeQuery_intBetween (lo hi : Int64) :
    encodeQuery (intBetween lo hi) intSchema =
      some ⟨[[{ attrIdx := 0, win := betweenWindow lo hi }]], (betweenWindow lo hi).empty⟩ := by
  have hfirst (b : Bytes) : (ByteInterval.fromOp .greaterEqual b).empty = false := rfl
  simp [encodeQuery, intBetween, intSchema, encodeClause, encodeSingleton, betweenWindow, hfirst]

/-- `s < "" OR s < ""`. -/
def belowEmpty : BitLSMQuery := ⟨[[⟨0, .less, .bytes []⟩, ⟨0, .less, .bytes []⟩]]⟩

/-- On an axis that keeps 500 and 300 apart, `x >= 500 AND x <= 300` is
estimated at one row of a thousand. -/
theorem estimate_unsat_oneRow_dense :
    ∃ stats sq, rebuild .exact id 1 intSchema.indexTypes [oneAttrFile denseHistogram 1000] =
        some stats ∧
      encodeQuery (intBetween 500 300) intSchema = some sq ∧ sq.unsat = true ∧
      (estimate .exact intSchema.indexTypes stats 0 sq).selectivity = 1 / 1000 := by
  obtain ⟨ord, hord, hempty⟩ := @exists_rebuildRange .exact 1 [denseHistogram]
    (fun ord => (ord.place (({} : ByteInterval).intersect (betweenWindow 500 300))).hi ≤
      (ord.place (({} : ByteInterval).intersect (betweenWindow 500 300))).lo) _
    (by decide +kernel)
  obtain ⟨sq, hsq, hunsat, -, hone, -⟩ := @estimate_unsat_oneRow .exact intSchema
    (intBetween 500 300) (by decide) (oneAttrStats ord 1000) (show (1 : UInt64) ≠ 0 by decide)
    (show (1000 : UInt64) ≠ 0 by decide) 0
  have hmarked := hunsat.2 (Or.inr ⟨0, by decide⟩)
  refine ⟨_, sq, rebuild_oneAttrFile hord 1000, hsq, hmarked, ?_⟩
  obtain rfl := Option.some.inj ((encodeQuery_intBetween 500 300).symm.trans hsq)
  exact hone hmarked ⟨0, _, ord, List.mem_singleton_self _, by decide, rfl, hempty⟩

/-- 260 rows with 130 values between 256 and 515. -/
def sparseRows : RangeAttrHistogram := { sparseHistogram with distinct := 130 }

/-- `s < "" OR s < ""` vanishes, and is estimated to match every row. And on an
axis that gives 300 and 301 one coordinate, `x >= 301 AND x <= 300` is a window
with the mass of a value. -/
theorem estimate_misses_unsat :
    (∃ stats sq, rebuild .exact id 1 stringSchema.indexTypes [oneAttrFile lettersHistogram 7] =
        some stats ∧
      belowEmpty.validate stringSchema = .ok ∧ encodeQuery belowEmpty stringSchema = some sq ∧
      sq.unsat = true ∧ (stats.rangeOf 0).isSome ∧ stats.oneRow .exact = 1 / 7 ∧
      (estimate .exact stringSchema.indexTypes stats 0 sq).selectivity = 1) ∧
    ∃ stats sq, rebuild .exact id 1 intSchema.indexTypes [oneAttrFile sparseRows 260] =
        some stats ∧
      (intBetween 301 300).validate intSchema = .ok ∧
      encodeQuery (intBetween 301 300) intSchema = some sq ∧
      sq.unsat = true ∧ (stats.rangeOf 0).isSome ∧ stats.oneRow .exact = 1 / 260 ∧
      2 / 260 ≤ (estimate .exact intSchema.indexTypes stats 0 sq).selectivity := by
  constructor
  · obtain ⟨ord, hord, -⟩ := rebuildRange_spec (List.cons_ne_nil lettersHistogram [])
      (show 1 ≤ (1 : UInt32).toNat by decide)
    have hsq : encodeQuery belowEmpty stringSchema = some ⟨[[]], true⟩ := by decide
    refine ⟨_, _, rebuild_oneAttrFile hord 7, by decide, hsq, rfl, rfl, rfl, ?_⟩
    rw [estimate_selectivity (show (1 : UInt64) ≠ 0 by decide) (show (7 : UInt64) ≠ 0 by decide)]
    exact min_eq_left (le_max_left _ _)
  · obtain ⟨ord, hord, hof⟩ := rebuildRange_spec (List.cons_ne_nil sparseRows [])
      (show 1 ≤ (1 : UInt32).toNat by decide)
    obtain ⟨win, hwin⟩ : ∃ win, win = ord.place (({} : ByteInterval).intersect
      (betweenWindow 301 300)) := ⟨_, rfl⟩
    have hplace : ¬win.hi ≤ win.lo ∧ win.point = true ∧ win.inSpan = true ∧ ord.ndv = 130 := by
      obtain ⟨ord', hord', hplace⟩ := @exists_rebuildRange .exact 1 [sparseRows]
        (fun ord =>
          ¬(ord.place (({} : ByteInterval).intersect (betweenWindow 301 300))).hi ≤
            (ord.place (({} : ByteInterval).intersect (betweenWindow 301 300))).lo ∧
          (ord.place (({} : ByteInterval).intersect (betweenWindow 301 300))).point = true ∧
          (ord.place (({} : ByteInterval).intersect (betweenWindow 301 300))).inSpan = true ∧
          ord.ndv = 130) _ (by decide +kernel)
      rwa [hwin, Option.some.inj (hord.symm.trans hord')]
    obtain ⟨hlt, hpoint, hspan, hndv⟩ := hplace
    -- a point has at least the mass of one value
    have hmass : 2 ≤ ord.pointAwareRangeMass .exact win := by
      have htotal : ord.total = 260 := by
        rw [hof.total]
        simp [totalCount, sparseRows, sparseHistogram]
      have hvalue : Rounding.exact.div 260 (Rounding.exact.ofNat (130 : UInt64).toNat) = 2 := by
        norm_num [show (130 : UInt64).toNat = 130 from rfl]
      rw [GlobalRangeStats.pointAwareRangeMass, hndv, htotal,
        if_pos ⟨hpoint, by decide, hspan⟩, hvalue]
      exact le_min (le_max_right _ _) (by norm_num)
    have hfactors : factors .exact intSchema.indexTypes (oneAttrStats ord 260)
        ⟨[[{ attrIdx := 0, win := betweenWindow 301 300 }]], (betweenWindow 301 300).empty⟩ =
        [ord.pointAwareRangeMass .exact win / 260] := by
      have hwindow : windowFactor .exact (oneAttrStats ord 260)
          (0, ({} : ByteInterval).intersect (betweenWindow 301 300)) =
          some (ord.pointAwareRangeMass .exact win / 260) := by
        rw [windowFactor, show (oneAttrStats ord 260).rangeOf 0 = some ord from rfl,
          Option.map_some, ← hwin, if_neg hlt]
        rfl
      exact List.filterMap_cons_some hwindow
    refine ⟨_, _, rebuild_oneAttrFile hord 260, by decide, encodeQuery_intBetween 301 300,
      by decide, rfl, rfl, ?_⟩
    rw [estimate_selectivity (show (1 : UInt64) ≠ 0 by decide)
      (show (260 : UInt64) ≠ 0 by decide), hfactors]
    refine le_min (by norm_num) (le_max_of_le_left ?_)
    rw [List.foldl_cons, List.foldl_nil, Rounding.exact_mul, one_mul]
    gcongr

end BitLSM
