import BitLSM.Index
import BitLSM.Wrapped

/-!
The bitmap of a query.

`buildQueryBitmap` evaluates a query on the bins of one table: the union
over the bins of a condition and over the conditions of a clause, the
intersection over the clauses, minus the tombstones. The bins come from a
`BinSource`, which may fail; a failed load becomes the empty bitmap and an
error that the table iterator keeps.

The sources that deliver the bins of an index are compared with the index
itself: without an error, they give the same bitmap. That bitmap has every
row the query accepts, and value rows only.
-/

namespace BitLSM

open Wire

/-- Where the bins of a table come from. A failed load is `none` inside; an
access out of range is `none` outside. -/
structure BinSource (σ : Type) where
  bin : σ → ℕ → Option (Option Roaring × σ)
  binRange : σ → ℕ → ℕ → Option (Option (List Roaring) × σ)

/-- The source, and whether a load has failed so far. -/
structure BinLoads (σ : Type) where
  source : σ
  failed : Bool := false

namespace BinSource

variable {σ : Type}

/-- One bin; empty if it cannot be loaded. -/
def load (src : BinSource σ) (s : BinLoads σ) (flatIdx : ℕ) : Option (Roaring × BinLoads σ) :=
  match src.bin s.source flatIdx with
  | some (some view, source) => some (view, { s with source })
  | some (none, source) => some (∅, { source, failed := true })
  | none => none

/-- The union of a range of bins; empty if one cannot be loaded. -/
def loadRange (src : BinSource σ) (s : BinLoads σ) (first last : ℕ) :
    Option (Roaring × BinLoads σ) :=
  match src.binRange s.source first last with
  | some (some views, source) => some (views.foldl (· ∪ ·) ∅, { s with source })
  | some (none, source) => some (∅, { source, failed := true })
  | none => none

def getBitmapForSingleCondition (src : BinSource σ) (r : SABIReader) (s : BinLoads σ)
    (c : SABICondition) : Option (Roaring × BinLoads σ) :=
  match r.selectBins c with
  | some (some sel) =>
      if sel.first = sel.last then src.load s sel.first.toNat
      else src.loadRange s sel.first.toNat sel.last.toNat
  | some none => some (∅, s)
  | none => none

/-- The union of the conditions' bitmaps; nothing satisfies an empty clause. -/
def clauseBitmap (src : BinSource σ) (r : SABIReader) :
    BinLoads σ → List SABICondition → Option (Roaring × BinLoads σ)
  | s, [] => some (∅, s)
  | s, c :: clause =>
      match src.getBitmapForSingleCondition r s c with
      | some (bitmap, s) =>
          (src.clauseBitmap r s clause).map fun (rest, s) => (bitmap ∪ rest, s)
      | none => none

/-- `acc` is the intersection so far, `none` before the first clause. -/
def andClause (acc : Option Roaring) (bitmap : Roaring) : Roaring :=
  match acc with
  | some acc => acc ∩ bitmap
  | none => bitmap

/-- AND between clauses, until nothing is left. -/
def intersectClauses (src : BinSource σ) (r : SABIReader) :
    BinLoads σ → Option Roaring → List (List SABICondition) → Option (Roaring × BinLoads σ)
  | s, acc, [] => some (acc.getD ∅, s)
  | s, acc, clause :: clauses =>
      match src.clauseBitmap r s clause with
      | some (bitmap, s) =>
          if andClause acc bitmap = ∅ then some (∅, s)
          else src.intersectClauses r s (some (andClause acc bitmap)) clauses
      | none => none

/-- The tombstone bin, unless its cardinality says that it is empty. -/
def tombstone (src : BinSource σ) (r : SABIReader) (s : BinLoads σ) :
    Option (Roaring × BinLoads σ) :=
  match r.binCardinalities[r.totalBins]? with
  | some 0 => some (∅, s)
  | some _ => src.load s r.totalBins
  | none => none

def buildQueryBitmap (src : BinSource σ) (r : SABIReader) (s : BinLoads σ) (q : SABIQuery) :
    Option (Roaring × BinLoads σ) :=
  match src.tombstone r s with
  | some (tombstone, s) =>
      match q.clauseGroups with
      | [] =>
          -- an empty query is a full table scan
          some (Finset.range (r.dataEntriesCntPsum.getLastD 0).toNat \ tombstone, s)
      | clauses =>
          (src.intersectClauses r s none clauses).map fun (acc, s) => (acc \ tombstone, s)
  | none => none

/-- The bins a reader delivers, in either mode. -/
def ofReader (frozen : FrozenCodec) (env : BinEnv) (t : TableRep) (prefetch : Bool)
    (r : SABIReader) : BinSource BinWorld where
  bin w flatIdx := (r.bin frozen env t flatIdx prefetch w).map fun (out, w) => (out.view, w)
  binRange w first last := (r.binRange frozen env t first last [] [] prefetch w).map
    fun (out, w) => (if out.ok = true then some out.outViews else none, w)

end BinSource

/-! ### The bitmap of a query on an index -/

section Rows

variable (r : SABIReader) (bitmaps : List Roaring)

def binRows (first last : ℕ) : Roaring :=
  ((bitmaps.drop first).take (last + 1 - first)).foldl (· ∪ ·) ∅

def conditionRows (c : SABICondition) : Roaring :=
  match r.selectBins c with
  | some (some sel) => binRows bitmaps sel.first.toNat sel.last.toNat
  | _ => ∅

def clauseRows (clause : List SABICondition) : Roaring :=
  (clause.map (conditionRows r bitmaps)).foldr (· ∪ ·) ∅

def clausesRows : Option Roaring → List (List SABICondition) → Roaring
  | acc, [] => acc.getD ∅
  | acc, clause :: clauses =>
      clausesRows (some (BinSource.andClause acc (clauseRows r bitmaps clause))) clauses

/-- All rows for an empty query, else the rows of every clause, and never a
tombstone. -/
def queryRows (q : SABIQuery) : Roaring :=
  (match q.clauseGroups with
    | [] => Finset.range (r.dataEntriesCntPsum.getLastD 0).toNat
    | clauses => clausesRows r bitmaps none clauses) \
  bitmaps.getD r.totalBins ∅

end Rows

theorem mem_foldl_union {j : ℕ} (rs : List Roaring) (acc : Roaring) :
    j ∈ rs.foldl (· ∪ ·) acc ↔ j ∈ acc ∨ ∃ r ∈ rs, j ∈ r := by
  induction rs generalizing acc with
  | nil => simp
  | cons r rs ih => simp [ih, or_assoc]

theorem mem_binRows {bitmaps : List Roaring} {first last j : ℕ} :
    j ∈ binRows bitmaps first last ↔
      ∃ k bitmap, first ≤ k ∧ k ≤ last ∧ bitmaps[k]? = some bitmap ∧ j ∈ bitmap := by
  rw [binRows, mem_foldl_union]
  constructor
  · rintro (h | ⟨bitmap, hmem, hj⟩)
    · simp at h
    · obtain ⟨i, hi⟩ := List.mem_iff_getElem?.1 hmem
      rw [List.getElem?_take, List.getElem?_drop] at hi
      split at hi
      · exact ⟨first + i, bitmap, by omega, by omega, hi, hj⟩
      · cases hi
  · rintro ⟨k, bitmap, hfirst, hlast, hk, hj⟩
    refine Or.inr ⟨bitmap, List.mem_iff_getElem?.2 ⟨k - first, ?_⟩, hj⟩
    rw [List.getElem?_take, if_pos (by omega), List.getElem?_drop,
      show first + (k - first) = k by omega, hk]

theorem binRows_self {bitmaps : List Roaring} {i : ℕ} {bitmap : Roaring}
    (h : bitmaps[i]? = some bitmap) : binRows bitmaps i i = bitmap := by
  ext j
  rw [mem_binRows]
  constructor
  · rintro ⟨k, bitmap', hge, hle, hk, hj⟩
    obtain rfl : k = i := by omega
    rw [h, Option.some.injEq] at hk
    rwa [hk]
  · exact fun hj => ⟨i, bitmap, le_rfl, le_rfl, h, hj⟩

theorem mem_clauseRows {r : SABIReader} {bitmaps : List Roaring} {clause : List SABICondition}
    {j : ℕ} : j ∈ clauseRows r bitmaps clause ↔ ∃ c ∈ clause, j ∈ conditionRows r bitmaps c := by
  rw [clauseRows]
  induction clause with
  | nil => simp
  | cons c clause ih => simp [ih]

theorem mem_clausesRows {r : SABIReader} {bitmaps : List Roaring} {acc : Roaring}
    {clauses : List (List SABICondition)} {j : ℕ} :
    j ∈ clausesRows r bitmaps (some acc) clauses ↔
      j ∈ acc ∧ ∀ clause ∈ clauses, j ∈ clauseRows r bitmaps clause := by
  induction clauses generalizing acc with
  | nil => simp [clausesRows]
  | cons clause clauses ih => simp [clausesRows, BinSource.andClause, ih, and_assoc]

theorem clausesRows_empty (r : SABIReader) (bitmaps : List Roaring)
    (clauses : List (List SABICondition)) : clausesRows r bitmaps (some ∅) clauses = ∅ := by
  ext j
  simp [mem_clausesRows]

/-! ### Sources of bins -/

namespace BinSource

variable {σ : Type}

/-- A source that delivers the bins of an index or fails, and never fails
when `reliable` holds. -/
structure Serves (src : BinSource σ) (inv : σ → Prop) (reliable : Prop)
    (bitmaps : List Roaring) : Prop where
  bin : ∀ (s : σ) (i : ℕ) (bitmap : Roaring), inv s → bitmaps[i]? = some bitmap →
    ∃ view s', src.bin s i = some (view, s') ∧ inv s' ∧ (reliable → view ≠ none) ∧
      ∀ v, view = some v → v = bitmap
  binRange : ∀ (s : σ) (first last : ℕ), inv s → first ≤ last → last < bitmaps.length →
    ∃ views s', src.binRange s first last = some (views, s') ∧ inv s' ∧
      (reliable → views ≠ none) ∧
      ∀ vs, views = some vs → vs = (bitmaps.drop first).take (last + 1 - first)

/-- The outcome of a load from `s` that should give `bitmap`. -/
structure Delivers (inv : σ → Prop) (reliable : Prop) (s : BinLoads σ) (bitmap : Roaring)
    (out : Roaring × BinLoads σ) : Prop where
  inv : inv out.2.source
  sticky : s.failed = true → out.2.failed = true
  reliable : reliable → s.failed = false → out.2.failed = false
  exact : out.2.failed = false → out.1 = bitmap

/-- The conditions of a query have their bins in the index. -/
def Selected (r : SABIReader) (bitmaps : List Roaring) (c : SABICondition) : Prop :=
  ∃ sel, r.selectBins c = some sel ∧
    ∀ s, sel = some s → s.first.toNat ≤ s.last.toNat ∧ s.last.toNat < bitmaps.length

section Serves

variable {src : BinSource σ} {inv : σ → Prop} {reliable : Prop} {bitmaps : List Roaring}
  {r : SABIReader} {s : BinLoads σ}

theorem Delivers.trans {s' s'' : BinLoads σ} {b₁ b₁' b₂ b₂' b b' : Roaring}
    (h₁ : Delivers inv reliable s b₁ (b₁', s')) (h₂ : Delivers inv reliable s' b₂ (b₂', s''))
    (hout : b₁' = b₁ → b₂' = b₂ → b' = b) : Delivers inv reliable s b (b', s'') where
  inv := h₂.inv
  sticky := fun hs => h₂.sticky (h₁.sticky hs)
  reliable := fun hr hs => h₂.reliable hr (h₁.reliable hr hs)
  exact := fun hs => by
    have hs' : s'.failed = false := by
      rw [← Bool.not_eq_true]
      intro hfailed
      rw [h₂.sticky hfailed] at hs
      cases hs
    exact hout (h₁.exact hs') (h₂.exact hs)

theorem Delivers.refl (hs : inv s.source) (b : Roaring) : Delivers inv reliable s b (b, s) :=
  ⟨hs, id, fun _ => id, fun _ => rfl⟩

theorem Serves.load (h : src.Serves inv reliable bitmaps) (hs : inv s.source) {i : ℕ}
    {bitmap : Roaring} (hbitmap : bitmaps[i]? = some bitmap) :
    ∃ out, src.load s i = some out ∧ Delivers inv reliable s bitmap out := by
  obtain ⟨view, s', hbin, hinv, hreliable, hview⟩ := h.bin s.source i bitmap hs hbitmap
  rw [BinSource.load, hbin]
  cases view with
  | none => exact ⟨_, rfl, hinv, fun _ => rfl, fun hr => absurd rfl (hreliable hr), by simp⟩
  | some v => exact ⟨_, rfl, hinv, id, fun _ => id, fun _ => hview v rfl⟩

theorem Serves.loadRange (h : src.Serves inv reliable bitmaps) (hs : inv s.source)
    {first last : ℕ} (hle : first ≤ last) (hlast : last < bitmaps.length) :
    ∃ out, src.loadRange s first last = some out ∧
      Delivers inv reliable s (binRows bitmaps first last) out := by
  obtain ⟨views, s', hrange, hinv, hreliable, hviews⟩ := h.binRange s.source first last hs hle hlast
  rw [BinSource.loadRange, hrange]
  cases views with
  | none => exact ⟨_, rfl, hinv, fun _ => rfl, fun hr => absurd rfl (hreliable hr), by simp⟩
  | some vs => exact ⟨_, rfl, hinv, id, fun _ => id, fun _ => by rw [hviews vs rfl, binRows]⟩

theorem Serves.getBitmapForSingleCondition (h : src.Serves inv reliable bitmaps)
    (hs : inv s.source) {c : SABICondition} (hc : Selected r bitmaps c) :
    ∃ out, src.getBitmapForSingleCondition r s c = some out ∧
      Delivers inv reliable s (conditionRows r bitmaps c) out := by
  obtain ⟨sel, hsel, hbins⟩ := hc
  rw [BinSource.getBitmapForSingleCondition, conditionRows, hsel]
  cases sel with
  | none => exact ⟨_, rfl, Delivers.refl hs ∅⟩
  | some sel =>
      obtain ⟨hle, hlast⟩ := hbins sel rfl
      simp only []
      split
      · next heq =>
          rw [← heq] at hlast ⊢
          rw [binRows_self (List.getElem?_eq_getElem hlast)]
          exact h.load hs (List.getElem?_eq_getElem hlast)
      · exact h.loadRange hs hle hlast

theorem Serves.clauseBitmap (h : src.Serves inv reliable bitmaps) (hs : inv s.source)
    {clause : List SABICondition} (hclause : ∀ c ∈ clause, Selected r bitmaps c) :
    ∃ out, src.clauseBitmap r s clause = some out ∧
      Delivers inv reliable s (clauseRows r bitmaps clause) out := by
  induction clause generalizing s with
  | nil => exact ⟨_, rfl, Delivers.refl hs ∅⟩
  | cons c clause ih =>
      rw [List.forall_mem_cons] at hclause
      obtain ⟨⟨first, s'⟩, hfirst, hdel⟩ := h.getBitmapForSingleCondition hs hclause.1
      obtain ⟨⟨rest, s''⟩, hrest, hdel'⟩ := ih hdel.inv hclause.2
      refine ⟨(first ∪ rest, s''), by simp [BinSource.clauseBitmap, hfirst, hrest],
        hdel.trans hdel' ?_⟩
      rintro rfl rfl
      rfl

theorem Serves.intersectClauses (h : src.Serves inv reliable bitmaps) (hs : inv s.source)
    {clauses : List (List SABICondition)}
    (hclauses : ∀ clause ∈ clauses, ∀ c ∈ clause, Selected r bitmaps c) (acc : Option Roaring) :
    ∃ out, src.intersectClauses r s acc clauses = some out ∧
      Delivers inv reliable s (clausesRows r bitmaps acc clauses) out := by
  induction clauses generalizing s acc with
  | nil => exact ⟨_, rfl, Delivers.refl hs _⟩
  | cons clause clauses ih =>
      rw [List.forall_mem_cons] at hclauses
      obtain ⟨⟨bitmap, s'⟩, hbitmap, hdel⟩ := h.clauseBitmap hs hclauses.1
      rw [BinSource.intersectClauses, hbitmap, clausesRows]
      by_cases hempty : andClause acc bitmap = ∅
      · -- no later clause can add a row
        refine ⟨_, if_pos hempty, hdel.trans (Delivers.refl hdel.inv ∅) ?_⟩
        rintro rfl -
        rw [hempty, clausesRows_empty]
      · obtain ⟨⟨out, s''⟩, hout, hdel'⟩ := ih hdel.inv hclauses.2 (some (andClause acc bitmap))
        refine ⟨_, (if_neg hempty).trans hout, hdel.trans hdel' ?_⟩
        rintro rfl rfl
        rfl

theorem Serves.tombstone (h : src.Serves inv reliable bitmaps) (hs : inv s.source)
    (hlen : r.totalBins < bitmaps.length)
    (hcard : r.binCardinalities[r.totalBins]? =
      some (UInt32.ofNat (bitmaps.getD r.totalBins ∅).card))
    (hsmall : (bitmaps.getD r.totalBins ∅).card < 2 ^ 32) :
    ∃ out, src.tombstone r s = some out ∧
      Delivers inv reliable s (bitmaps.getD r.totalBins ∅) out := by
  have hget : bitmaps[r.totalBins]? = some (bitmaps.getD r.totalBins ∅) := by
    rw [List.getD_eq_getElem?_getD, List.getElem?_eq_getElem hlen]
    rfl
  rw [BinSource.tombstone, hcard]
  split
  · next hzero =>
      have hempty : bitmaps.getD r.totalBins ∅ = ∅ := by
        have hzero := congrArg UInt32.toNat (Option.some.inj hzero)
        rw [UInt32.toNat_ofNat', Nat.mod_eq_of_lt hsmall] at hzero
        exact Finset.card_eq_zero.1 hzero
      rw [hempty]
      exact ⟨_, rfl, Delivers.refl hs ∅⟩
  · exact h.load hs hget
  · next hnone => cases hnone

theorem Serves.buildQueryBitmap (h : src.Serves inv reliable bitmaps) (hs : inv s.source)
    {q : SABIQuery} (hq : ∀ clause ∈ q.clauseGroups, ∀ c ∈ clause, Selected r bitmaps c)
    (hlen : r.totalBins < bitmaps.length)
    (hcard : r.binCardinalities[r.totalBins]? =
      some (UInt32.ofNat (bitmaps.getD r.totalBins ∅).card))
    (hsmall : (bitmaps.getD r.totalBins ∅).card < 2 ^ 32) :
    ∃ out, src.buildQueryBitmap r s q = some out ∧
      Delivers inv reliable s (queryRows r bitmaps q) out := by
  obtain ⟨⟨tombstone, s'⟩, htombstone, hdel⟩ := h.tombstone hs hlen hcard hsmall
  rw [BinSource.buildQueryBitmap, htombstone, queryRows]
  cases hclauses : q.clauseGroups with
  | nil =>
      refine ⟨_, rfl, hdel.trans (Delivers.refl hdel.inv ∅) ?_⟩
      rintro rfl -
      rfl
  | cons clause clauses =>
      rw [hclauses] at hq
      obtain ⟨⟨acc, s''⟩, hacc, hdel'⟩ := h.intersectClauses hdel.inv hq none
      refine ⟨(acc \ tombstone, s''), by simp only [hacc, Option.map_some],
        hdel.trans hdel' ?_⟩
      rintro rfl rfl
      rfl

end Serves

theorem getElem?_range'_drop {α : Type} {l vs : List α} {first n : ℕ}
    (h : vs.map some = (List.range' first n).map (l[·]?)) : vs = (l.drop first).take n := by
  refine List.ext_getElem? fun k => ?_
  have hget := congrArg (·[k]?) h
  simp only [List.getElem?_map] at hget
  by_cases hk : k < n
  · rw [List.getElem?_take_of_lt hk, List.getElem?_drop]
    cases hv : vs[k]? with
    | none => simp [hv, hk] at hget
    | some v => simpa [hv, hk] using hget
  · rw [List.getElem?_eq_none (l := vs) (by
      have := congrArg List.length h
      simp at this
      omega), List.getElem?_eq_none (by simp; omega)]

/-- A reader delivers the bins of its blob; a resident one does not fail. -/
theorem ofReader_serves {frozen : FrozenCodec} {t : TableRep} {r : SABIReader}
    {bitmaps : List Roaring} (hmeta : r.mode = .metadata → BinsAt frozen t r bitmaps)
    (hres : r.mode = .resident → ∀ i < bitmaps.length, r.residentBin i = bitmaps[i]?)
    (env : BinEnv) (prefetch : Bool) :
    (ofReader frozen env t prefetch r).Serves
      (fun w => r.mode = .metadata → w.Sound t r bitmaps) (r.mode = .resident) bitmaps := by
  cases hmode : r.mode with
  | resident =>
      refine ⟨fun w i bitmap hw hbitmap => ?_, fun w first last hw hle hlast => ?_⟩
      · have hi := (List.getElem?_eq_some_iff.1 hbitmap).1
        refine ⟨some bitmap, w, ?_, hw, by simp, by simp⟩
        simp [ofReader, SABIReader.bin, hmode, hres hmode i hi, hbitmap]
      · have hviews : (List.range' first (last + 1 - first)).mapM r.residentBin =
            some ((bitmaps.drop first).take (last + 1 - first)) := by
          refine mapM_eq_some (by simp; omega) fun k i hk => ?_
          have hi := List.mem_range'_1.1 (List.mem_of_getElem? hk)
          have hlt := (List.getElem?_eq_some_iff.1 hk).1
          rw [List.length_range'] at hlt
          rw [List.getElem?_range' hlt, Nat.one_mul, Option.some.injEq] at hk
          have hget := List.getElem?_eq_getElem (show i < bitmaps.length by omega)
          exact ⟨bitmaps[i], by rw [List.getElem?_take_of_lt hlt, List.getElem?_drop, hk, hget],
            by rw [hres hmode i (by omega), hget]⟩
        refine ⟨_, w, ?_, hw, by simp, fun vs hvs => (Option.some.inj hvs).symm⟩
        simp [ofReader, SABIReader.binRange, hmode, hviews]
  | metadata =>
      have h := hmeta hmode
      refine ⟨fun w i bitmap hw hbitmap => ?_, fun w first last hw hle hlast => ?_⟩
      · have hi := (List.getElem?_eq_some_iff.1 hbitmap).1
        obtain ⟨out, w', hbin, hw', hview, -⟩ := h.bin_spec hmode (hw rfl) env hi prefetch
        refine ⟨out.view, w', by simp [ofReader, hbin], fun _ => hw', by simp, fun v hv => ?_⟩
        exact Option.some.inj ((hview v hv).symm.trans hbitmap)
      · obtain ⟨out, w', hrange, hw', hok, -⟩ :=
          h.binRange_spec hmode (hw rfl) env hle hlast [] [] prefetch
        refine ⟨_, w', by simp only [ofReader, hrange]; rfl, fun _ => hw', by simp,
          fun vs hvs => ?_⟩
        split at hvs
        · next htrue =>
            obtain ⟨pins, hout, -, hpins⟩ := hok htrue
            rw [← Option.some.inj hvs, hout, List.nil_append]
            refine getElem?_range'_drop ?_
            rw [List.map_map]
            exact hpins
        · cases hvs

end BinSource

/-! ### The rows of the bitmap -/

section Described

variable {r : SABIReader} {schema : SABISchema} {idx : BitmapIndex}
  {rows : List (Option (List EncodedAttr))} {q : SABIQuery}

theorem SABIReader.Describes.getD_totalBins {types : List IndexType} (h : r.Describes types idx) :
    idx.bitmaps.getD r.totalBins ∅ = idx.tombstoneBitmap := by
  have hlen : idx.attrBitmaps.flatten.length = r.totalBins := by
    have := h.totalBins
    simp only [BitmapIndex.bitmaps, List.length_append, List.length_singleton] at this
    omega
  simp [BitmapIndex.bitmaps, ← hlen]

theorem SABIReader.Describes.selected (h : r.Describes schema.indexTypes idx)
    (hidx : idx.Indexed schema rows) (hq : q.AttrsBelow schema.indexTypes.length) :
    ∀ clause ∈ q.clauseGroups, ∀ c ∈ clause, BinSource.Selected r idx.bitmaps c := by
  intro clause hclause c hc
  obtain ⟨sel, hsel, hselects⟩ := h.selectBins_spec hidx (hq clause hclause c hc)
  refine ⟨sel, hsel, fun s hs => ?_⟩
  obtain ⟨hle, hlt⟩ := hselects.inBins s hs
  have := h.totalBins
  omega

/-- The tombstones are fewer than the rows. -/
theorem BitmapIndex.Indexed.card_tombstones_le (hidx : idx.Indexed schema rows) :
    idx.tombstoneBitmap.card ≤ rows.length := by
  rw [← Finset.card_range rows.length]
  refine Finset.card_le_card fun j hj => ?_
  rw [Finset.mem_range]
  exact (List.getElem?_eq_some_iff.1 ((hidx.tombstones j).1 hj)).1

theorem SABIReader.Describes.cardinality (h : r.Describes schema.indexTypes idx) :
    r.binCardinalities[r.totalBins]? =
      some (UInt32.ofNat (idx.bitmaps.getD r.totalBins ∅).card) := by
  have hlen : r.totalBins < idx.bitmaps.length := by
    have := h.totalBins
    omega
  rw [h.binCardinalities, BitmapIndex.binCardinalities, List.getElem?_map,
    List.getD_eq_getElem?_getD, List.getElem?_eq_getElem hlen]
  rfl

/-- A condition's bitmap has the rows that satisfy it, and value rows only. -/
theorem SABIReader.Describes.conditionRows_spec (h : r.Describes schema.indexTypes idx)
    (hidx : idx.Indexed schema rows) {c : SABICondition}
    (hc : c.attrIdx.toNat < schema.indexTypes.length) :
    (∀ (j : ℕ) attrs, rows[j]? = some (some attrs) → c.holds schema.indexTypes attrs = true →
        j ∈ conditionRows r idx.bitmaps c) ∧
      ∀ j ∈ conditionRows r idx.bitmaps c, ∃ attrs, rows[j]? = some (some attrs) := by
  obtain ⟨sel, hsel, hselects⟩ := h.selectBins_spec hidx hc
  rw [conditionRows, hsel]
  constructor
  · intro j attrs hj hholds
    obtain ⟨s, k, bitmap, rfl, hfirst, hlast, hk, hmem⟩ := hselects.covers j attrs hj hholds
    exact mem_binRows.2 ⟨k, bitmap, hfirst, hlast, hk, hmem⟩
  · intro j hj
    cases sel with
    | none => simp at hj
    | some s =>
        obtain ⟨k, bitmap, hfirst, hlast, hk, hmem⟩ := mem_binRows.1 hj
        exact hselects.valueRows s rfl k bitmap j hfirst hlast hk hmem

/-- The bitmap of a query has every row that the query accepts; for a query
without clauses, every row that the index entries count. -/
theorem SABIReader.Describes.mem_queryRows (h : r.Describes schema.indexTypes idx)
    (hidx : idx.Indexed schema rows) (hq : q.AttrsBelow schema.indexTypes.length) {j : ℕ}
    {attrs : List EncodedAttr} (hj : rows[j]? = some (some attrs))
    (hmeaning : q.meaning schema.indexTypes attrs = true)
    (hpsum : q.clauseGroups = [] → j < (r.dataEntriesCntPsum.getLastD 0).toNat) :
    j ∈ queryRows r idx.bitmaps q := by
  have htombstone : j ∉ idx.tombstoneBitmap := by
    rw [hidx.tombstones, hj]
    simp
  have hclause (clause : List SABICondition) (hmem : clause ∈ q.clauseGroups) :
      j ∈ clauseRows r idx.bitmaps clause := by
    rw [SABIQuery.meaning, clausesHold, List.all_eq_true] at hmeaning
    obtain ⟨c, hc, hholds⟩ := List.any_eq_true.1 (hmeaning clause hmem)
    exact mem_clauseRows.2 ⟨c, hc,
      (h.conditionRows_spec hidx (hq clause hmem c hc)).1 j attrs hj hholds⟩
  rw [queryRows, h.getD_totalBins, Finset.mem_sdiff]
  refine ⟨?_, htombstone⟩
  cases hclauses : q.clauseGroups with
  | nil => exact Finset.mem_range.2 (hpsum hclauses)
  | cons clause clauses =>
      rw [hclauses, List.forall_mem_cons] at hclause
      exact mem_clausesRows.2 hclause

/-- It has value rows only. -/
theorem SABIReader.Describes.queryRows_valueRow (h : r.Describes schema.indexTypes idx)
    (hidx : idx.Indexed schema rows) (hq : q.AttrsBelow schema.indexTypes.length)
    (hpsum : (r.dataEntriesCntPsum.getLastD 0).toNat ≤ rows.length) {j : ℕ}
    (hj : j ∈ queryRows r idx.bitmaps q) : ∃ attrs, rows[j]? = some (some attrs) := by
  rw [queryRows, h.getD_totalBins, Finset.mem_sdiff] at hj
  obtain ⟨hj, htombstone⟩ := hj
  cases hclauses : q.clauseGroups with
  | nil =>
      rw [hclauses] at hj
      have hlt : j < rows.length := lt_of_lt_of_le (Finset.mem_range.1 hj) hpsum
      have hget := List.getElem?_eq_getElem hlt
      cases hrow : rows[j] with
      | none => exact absurd ((hidx.tombstones j).2 (hrow ▸ hget)) htombstone
      | some attrs => exact ⟨attrs, hrow ▸ hget⟩
  | cons clause clauses =>
      rw [hclauses] at hj
      obtain ⟨c, hc, hmem⟩ := mem_clauseRows.1 (mem_clausesRows.1 hj).1
      exact (h.conditionRows_spec hidx
        (hq clause (by rw [hclauses]; exact List.mem_cons_self) c hc)).2 j hmem

end Described

end BitLSM
