import Mathlib.Data.Prod.Lex
import BitLSM.Lib.Search
import BitLSM.Builder.Intern

/-!
Binning an equality attribute.

Distinct values are spread over the bins, the most frequent first, each into
the bin with the least rows so far. The policy is the sorted list of values
with their bins; `dictBin` looks a value up in it, and a row's bin is that of
its value.
-/

namespace BitLSM

open Wire

/-- Remove the element of a priority queue that comes before all others. -/
def takeTop {α : Type} (before : α → α → Bool) : List α → Option (α × List α)
  | [] => none
  | x :: xs =>
      match takeTop before xs with
      | none => some (x, [])
      | some (y, ys) => if before y x then some (y, x :: ys) else some (x, xs)

/-- The order of pairs of integers. -/
def pairBefore (x y : ℕ × ℕ) : Bool := decide (x.1 < y.1 ∨ x.1 = y.1 ∧ x.2 < y.2)

/-- The order of `pair<string, uint32_t>`. -/
def entryBefore (x y : Bytes × ℕ) : Bool := decide (x.1 < y.1 ∨ x.1 = y.1 ∧ x.2 < y.2)

structure EqualityBinning where
  binning : List (Bytes × ℕ)
  binById : List ℕ
  /-- Rows in a bin, and the bin. -/
  minBinPq : List (ℕ × ℕ)

def EqualityBinning.step (b : EqualityAttrBuf) (s : EqualityBinning) (id : ℕ) :
    Option EqualityBinning := do
  let ((curBinCnt, binIdx), rest) ← takeTop pairBefore s.minBinPq
  return {
    binning := s.binning ++ [(b.valueOf id, binIdx)]
    binById := s.binById.set id binIdx
    minBinPq := ((curBinCnt + (b.countById.getD id 0).toNat) % 2 ^ 32, binIdx) :: rest }

/-- The sorted values with their bins, and the bin of each value id. -/
def setEqualityBinningPolicy (std : StdSort) (bins : ℕ) (b : EqualityAttrBuf) :
    Option (List (Bytes × ℕ) × List ℕ) := do
  let sortedIds := std.run (fun x y => decide (b.countById.getD y 0 < b.countById.getD x 0))
    (List.range b.valueById.length)
  let s ← sortedIds.foldlM (EqualityBinning.step b)
    { binning := []
      binById := List.replicate b.valueById.length 0
      minBinPq := (List.range bins).map fun j => (0, j) }
  return (std.run entryBefore s.binning, s.binById)

/-- The bin of the `k`-th value row. -/
def EqualityAttrBuf.rowBin (b : EqualityAttrBuf) (binById : List ℕ) (k : ℕ) : Option ℕ := do
  let id ← b.rowIds[k]?
  binById[id.toNat]?

/-- The bin of a value in a policy. -/
def dictBin (dict : List (Bytes × ℕ)) (v : Bytes) : ℕ :=
  ((dict.find? fun e => e.1 = v).map Prod.snd).getD 0

/-! ### The loop over the values -/

theorem takeTop_eq_some {α : Type} {before : α → α → Bool} {l : List α} (h : l ≠ []) :
    ∃ x rest, takeTop before l = some (x, rest) ∧ l.Perm (x :: rest) := by
  induction l with
  | nil => exact absurd rfl h
  | cons x xs ih =>
      rw [takeTop]
      by_cases hxs : xs = []
      · subst hxs
        exact ⟨x, [], rfl, List.Perm.refl _⟩
      · obtain ⟨y, ys, htop, hperm⟩ := ih hxs
        rw [htop]
        simp only []
        split
        · exact ⟨y, x :: ys, rfl, (hperm.cons x).trans (List.Perm.swap y x ys)⟩
        · exact ⟨x, xs, rfl, List.Perm.refl _⟩

theorem takeTop_perm {α : Type} {before : α → α → Bool} {l rest : List α} {x : α}
    (h : takeTop before l = some (x, rest)) : l.Perm (x :: rest) := by
  have hne : l ≠ [] := by
    rintro rfl
    cases h
  obtain ⟨y, ys, htop, hperm⟩ := @takeTop_eq_some _ before l hne
  obtain ⟨rfl, rfl⟩ := Prod.mk.inj (Option.some.inj (htop.symm.trans h))
  exact hperm

/-- The element taken has the least key, where `before` compares keys. -/
theorem takeTop_le {α β : Type} [LinearOrder β] {before : α → α → Bool} {key : α → β} {l : List α}
    (hkey : ∀ a ∈ l, ∀ b ∈ l, before a b = true ↔ key a < key b) {x : α} {rest : List α}
    (h : takeTop before l = some (x, rest)) : ∀ y ∈ rest, key x ≤ key y := by
  induction l generalizing x rest with
  | nil => cases h
  | cons a as ih =>
      have hkey' : ∀ b ∈ as, ∀ c ∈ as, before b c = true ↔ key b < key c := fun b hb c hc =>
        hkey b (List.mem_cons_of_mem a hb) c (List.mem_cons_of_mem a hc)
      rw [takeTop] at h
      rcases eq_or_ne as [] with rfl | hne
      · obtain ⟨rfl, rfl⟩ := Prod.mk.inj (Option.some.inj h)
        simp
      · obtain ⟨y, ys, htop, hperm⟩ := @takeTop_eq_some _ before as hne
        have hy : y ∈ as := hperm.mem_iff.2 (by simp)
        have hbefore := hkey y (List.mem_cons_of_mem a hy) a (List.mem_cons_self ..)
        rw [htop] at h
        simp only [] at h
        split at h
        · next hlt =>
            obtain ⟨rfl, rfl⟩ := Prod.mk.inj (Option.some.inj h)
            exact List.forall_mem_cons.2 ⟨(hbefore.1 hlt).le, ih hkey' htop⟩
        · next hge =>
            obtain ⟨rfl, rfl⟩ := Prod.mk.inj (Option.some.inj h)
            have hle : key a ≤ key y := not_lt.1 fun hlt => hge (hbefore.2 hlt)
            intro z hz
            rcases List.mem_cons.1 (hperm.mem_iff.1 hz) with rfl | hz
            · exact hle
            · exact hle.trans (ih hkey' htop z hz)

/-- The state after the ids `done`. -/
structure EqualityBinning.Ok (b : EqualityAttrBuf) (bins : ℕ) (s : EqualityBinning)
    (done : List ℕ) : Prop where
  binning : s.binning = done.map fun id => (b.valueOf id, s.binById.getD id 0)
  length : s.binById.length = b.valueById.length
  lt_bins : ∀ id ∈ done, s.binById.getD id 0 < bins
  queue : (s.minBinPq.map Prod.snd).Perm (List.range bins)

theorem EqualityBinning.Ok.step {b : EqualityAttrBuf} {bins : ℕ} {s : EqualityBinning}
    {done : List ℕ} (h : s.Ok b bins done) (hbins : 1 ≤ bins) {id : ℕ}
    (hid : id < b.valueById.length) (hnew : id ∉ done) :
    ∃ s', EqualityBinning.step b s id = some s' ∧ s'.Ok b bins (done ++ [id]) := by
  have hne : s.minBinPq ≠ [] := by
    intro hnil
    have hlen := h.queue.length_eq
    rw [hnil, List.length_range] at hlen
    simp at hlen
    omega
  obtain ⟨⟨cnt, bin⟩, rest, htop, hperm⟩ := @takeTop_eq_some _ pairBefore _ hne
  have hqueue := (hperm.map Prod.snd).symm.trans h.queue
  have hbin : bin < bins := List.mem_range.1 (hqueue.mem_iff.1 (by simp))
  -- the bins of earlier ids stay
  have hold : ∀ x ∈ done, (s.binById.set id bin).getD x 0 = s.binById.getD x 0 := by
    intro x hx
    have hxid : id ≠ x := fun heq => hnew (heq ▸ hx)
    rw [List.getD_eq_getElem?_getD, List.getElem?_set_ne hxid, ← List.getD_eq_getElem?_getD]
  have hself : (s.binById.set id bin).getD id 0 = bin := by
    rw [List.getD_eq_getElem?_getD, List.getElem?_set_self (by rw [h.length]; exact hid)]
    rfl
  refine ⟨_, by rw [EqualityBinning.step, htop]; rfl, ?_, by simpa using h.length, ?_, hqueue⟩
  · show s.binning ++ [_] = _
    rw [List.map_append, List.map_singleton, hself, h.binning]
    congr 1
    exact List.map_congr_left fun x hx => by rw [hold x hx]
  · intro x hx
    rcases List.mem_append.1 hx with hx | hx
    · show (s.binById.set id bin).getD x 0 < bins
      rw [hold x hx]
      exact h.lt_bins x hx
    · rw [List.mem_singleton.1 hx]
      show (s.binById.set id bin).getD id 0 < bins
      rw [hself]
      exact hbin

theorem EqualityBinning.Ok.steps {b : EqualityAttrBuf} {bins : ℕ} (hbins : 1 ≤ bins)
    (ids : List ℕ) : ∀ (done : List ℕ) (s : EqualityBinning), s.Ok b bins done →
      (done ++ ids).Nodup → (∀ id ∈ ids, id < b.valueById.length) →
      ∃ s', ids.foldlM (EqualityBinning.step b) s = some s' ∧ s'.Ok b bins (done ++ ids) := by
  induction ids with
  | nil => exact fun done s h _ _ => ⟨s, rfl, by simpa using h⟩
  | cons id ids ih =>
      intro done s h hnodup hlt
      have hnew : id ∉ done := fun hmem =>
        (List.nodup_append.1 hnodup).2.2 id hmem id (by simp) rfl
      obtain ⟨s₁, hstep, hs₁⟩ := h.step hbins (hlt id (by simp)) hnew
      obtain ⟨s', hfold, hs'⟩ := ih (done ++ [id]) s₁ hs₁ (by simpa using hnodup)
        fun x hx => hlt x (List.mem_cons_of_mem _ hx)
      exact ⟨s', by rw [List.foldlM_cons, hstep]; exact hfold, by simpa using hs'⟩

theorem EqualityBinning.start_ok (b : EqualityAttrBuf) (bins : ℕ) :
    EqualityBinning.Ok b bins
      { binning := [], binById := List.replicate b.valueById.length 0,
        minBinPq := (List.range bins).map fun j => (0, j) } [] :=
  ⟨rfl, by simp, by simp, by simp [Function.comp_def]⟩

/-- Whatever was interned, the loop succeeds with a bin for every id. -/
theorem setEqualityBinningPolicy_eq_some (std : StdSort) {bins : ℕ} (hbins : 1 ≤ bins)
    (b : EqualityAttrBuf) :
    ∃ ids s, ids.Perm (List.range b.valueById.length) ∧ EqualityBinning.Ok b bins s ids ∧
      setEqualityBinningPolicy std bins b = some (std.run entryBefore s.binning, s.binById) := by
  have hperm := std.perm (fun x y => decide (b.countById.getD y 0 < b.countById.getD x 0))
    (List.range b.valueById.length)
  obtain ⟨s, hfold, hs⟩ := EqualityBinning.Ok.steps hbins _ [] _ (EqualityBinning.start_ok b bins)
    (hperm.nodup_iff.2 List.nodup_range)
    fun id hid => List.mem_range.1 (hperm.mem_iff.1 hid)
  refine ⟨_, s, hperm, hs, ?_⟩
  rw [setEqualityBinningPolicy]
  simp only [hfold]
  rfl

theorem setEqualityBinningPolicy_lt {std : StdSort} {bins : ℕ} (hbins : 1 ≤ bins)
    {b : EqualityAttrBuf} {dict : List (Bytes × ℕ)} {binById : List ℕ}
    (h : setEqualityBinningPolicy std bins b = some (dict, binById)) : ∀ e ∈ dict, e.2 < bins := by
  obtain ⟨ids, s, -, hs, heq⟩ := setEqualityBinningPolicy_eq_some std hbins b
  rw [h, Option.some.injEq, Prod.mk.injEq] at heq
  intro e he
  rw [heq.1, (std.perm entryBefore s.binning).mem_iff, hs.binning] at he
  obtain ⟨id, hid, rfl⟩ := List.mem_map.1 he
  exact hs.lt_bins id hid

/-! ### The dictionary -/

/-- What a reader may rely on: the values that occur, in order, each with a
bin. -/
structure EqualityDict (vs : List Bytes) (bins : ℕ) (dict : List (Bytes × ℕ)) : Prop where
  ordered : (dict.map Prod.fst).Pairwise (· < ·)
  mem : ∀ v, v ∈ dict.map Prod.fst ↔ v ∈ vs
  lt_bins : ∀ e ∈ dict, e.2 < bins

theorem EqualityDict.dictBin_eq {vs : List Bytes} {bins : ℕ} {dict : List (Bytes × ℕ)}
    (h : EqualityDict vs bins dict) {v : Bytes} {bin : ℕ} (hmem : (v, bin) ∈ dict) :
    dictBin dict v = bin := by
  have hnodup : (dict.map Prod.fst).Nodup := h.ordered.imp ne_of_lt
  cases hfind : dict.find? (fun e => e.1 = v) with
  | none =>
      rw [List.find?_eq_none] at hfind
      exact absurd (decide_eq_true rfl) (hfind _ hmem)
  | some e =>
      have he : e.1 = v := by simpa using List.find?_some hfind
      have heq := List.inj_on_of_nodup_map hnodup (List.mem_of_find?_eq_some hfind) hmem he
      rw [dictBin, hfind, heq]
      rfl

theorem strictWeak_entryBefore : StrictWeak entryBefore :=
  strictWeak_key (f := fun e : Bytes × ℕ => toLex e) fun a b => by
    rw [entryBefore, decide_eq_true_eq, Prod.Lex.toLex_lt_toLex]

/-- Sorting entries with different values orders them by value. -/
theorem pairwise_entryBefore (std : StdSort) {entries : List (Bytes × ℕ)}
    (hnodup : (entries.map Prod.fst).Nodup) :
    ((std.run entryBefore entries).map Prod.fst).Pairwise (· < ·) := by
  have hperm := (std.perm entryBefore entries).map Prod.fst
  have hle : ((std.run entryBefore entries).map Prod.fst).Pairwise (· ≤ ·) := by
    rw [List.pairwise_map]
    refine (std.sorted _ entries strictWeak_entryBefore).imp fun {a b} h => ?_
    rw [entryBefore, decide_eq_false_iff_not, not_or] at h
    exact not_lt.1 h.1
  exact (hle.and (hperm.nodup_iff.2 hnodup)).imp fun h => lt_of_le_of_ne h.1 h.2

theorem setEqualityBinningPolicy_spec {hash : Bytes → UInt64} {vs : List Bytes}
    {b : EqualityAttrBuf} {bins : ℕ} (h : b.Interned hash vs) (std : StdSort) (hbins : 1 ≤ bins)
    (hrows : vs.length < 2 ^ 32) :
    ∃ dict binById, setEqualityBinningPolicy std bins b = some (dict, binById) ∧
      EqualityDict vs bins dict ∧
      ∀ k, b.rowBin binById k = (vs.map (dictBin dict))[k]? := by
  obtain ⟨ids, s, hperm, hs, hpolicy⟩ := setEqualityBinningPolicy_eq_some std hbins b
  have hfst : (s.binning.map Prod.fst).Perm (distinctValues vs) := by
    rw [hs.binning, List.map_map, ← h.map_valueOf]
    exact hperm.map b.valueOf
  have hdict : EqualityDict vs bins (std.run entryBefore s.binning) := by
    refine ⟨pairwise_entryBefore std (hfst.nodup_iff.2 (nodup_distinctValues vs)),
      fun v => ?_, fun e he => ?_⟩
    · rw [((std.perm entryBefore s.binning).map Prod.fst).mem_iff, hfst.mem_iff,
        mem_distinctValues]
    · rw [(std.perm entryBefore s.binning).mem_iff, hs.binning] at he
      obtain ⟨id, hid, rfl⟩ := List.mem_map.1 he
      exact hs.lt_bins id hid
  refine ⟨_, s.binById, hpolicy, hdict, fun k => ?_⟩
  rw [EqualityAttrBuf.rowBin, h.rowIds, List.getElem?_map, List.getElem?_map]
  cases hk : vs[k]? with
  | none => rfl
  | some v =>
      have hv : v ∈ distinctValues vs := mem_distinctValues.2 (List.mem_of_getElem? hk)
      have hlt := List.idxOf_lt_length_of_mem hv
      have hle := length_distinctValues_le vs
      have hget : (distinctValues vs)[(distinctValues vs).idxOf v]? = some v := by
        rw [List.getElem?_eq_getElem hlt, List.getElem_idxOf]
      have hid : (distinctValues vs).idxOf v ∈ ids := by
        rw [hperm.mem_iff, List.mem_range, h.length_values]
        exact hlt
      have hentry : (v, s.binById.getD ((distinctValues vs).idxOf v) 0) ∈
          std.run entryBefore s.binning := by
        rw [(std.perm entryBefore s.binning).mem_iff, hs.binning]
        exact List.mem_map.2 ⟨_, hid, by rw [h.valueOf_eq hget]⟩
      have hnat : (UInt32.ofNat ((distinctValues vs).idxOf v)).toNat =
          (distinctValues vs).idxOf v := by
        rw [UInt32.toNat_ofNat']
        omega
      have hbin : (distinctValues vs).idxOf v < s.binById.length := by
        rw [hs.length, h.length_values]
        exact hlt
      show s.binById[(UInt32.ofNat ((distinctValues vs).idxOf v)).toNat]? = _
      rw [hnat, Option.map_some, hdict.dictBin_eq hentry, List.getD_eq_getElem?_getD,
        List.getElem?_eq_getElem hbin]
      rfl

end BitLSM
