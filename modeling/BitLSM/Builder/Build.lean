import BitLSM.Builder.Columns

/-!
The index builder: rows in, bitmap index out.

`onKeyAdded` and `addIndexEntry` are the calls a table builder makes for
each entry and each data block; `buildIndex` is the first half of `Finish`,
which fixes the number of bins, the policies and the bitmaps. `Built` ties
a builder to the rows it was given, and `Indexed` is what the index then
says about them.
-/

namespace BitLSM

open Wire

/-- The schema visible to SABI. -/
structure SABISchema where
  indexTypes : List IndexType
  rho : Binary64

def SABISchema.fromOptions (o : BitLSMOptions) (rho : Binary64) : SABISchema where
  indexTypes := o.attrSpecs.map AttrSpec.indexType
  rho := rho

inductive ValueType where
  | value
  | deletion
  | singleDeletion
  deriving DecidableEq, Repr

structure SABIBuilder where
  schema : SABISchema
  columns : List AttrColumn
  tombstoneBitmap : Roaring := ∅
  dataEntriesCnt : UInt32 := 0
  indexEntriesCnt : UInt32 := 0
  indexBlob : Bytes := []

/-- A row as the extractor delivers it, from its key and value. -/
abbrev AttrExtractor := Bytes → Bytes → Option (List EncodedAttr)

/-- The extractor of a row layout; it reads the value only. -/
def valueLayoutExtractor (layout : ValueLayout) : AttrExtractor := fun _ value =>
  extractAll layout value

namespace SABIBuilder

def new (schema : SABISchema) : SABIBuilder where
  schema := schema
  columns := schema.indexTypes.map AttrColumn.new

def addIndexEntry (b : SABIBuilder) (offset size : UInt64) : SABIBuilder :=
  { b with
    indexBlob := b.indexBlob ++ putFixed32 b.dataEntriesCnt ++ putFixed32 offset.toUInt32 ++
      putFixed32 size.toUInt32
    indexEntriesCnt := b.indexEntriesCnt + 1 }

/-- Buffer a row's attributes, one per column. -/
def addAll (hash : Bytes → UInt64) (row : ℕ) : List AttrColumn → List EncodedAttr →
    Option (List AttrColumn)
  | [], [] => some []
  | c :: cs, a :: as => do
      let c' ← c.add hash row a
      let cs' ← addAll hash row cs as
      return c' :: cs'
  | _, _ => none

def onKeyAdded (hash : Bytes → UInt64) (extract : AttrExtractor) (b : SABIBuilder) (key : Bytes)
    (type : ValueType) (value : Bytes) : Option SABIBuilder :=
  match type with
  | .deletion | .singleDeletion => some { b with
      tombstoneBitmap := insert b.dataEntriesCnt.toNat b.tombstoneBitmap
      dataEntriesCnt := b.dataEntriesCnt + 1 }
  | .value => do
      let attrs ← extract key value
      let columns ← addAll hash b.dataEntriesCnt.toNat b.columns attrs
      return { b with columns, dataEntriesCnt := b.dataEntriesCnt + 1 }

end SABIBuilder

/-! ### Bins per attribute -/

/-- Bins handed out so far, the budget left and the gain of one more bin
for each attribute that may take it. -/
structure Budget where
  bitmapNums : List ℕ
  remaining : ℤ
  pq : List (Binary64 × ℕ)

namespace Budget

/-- `1.0 / (b * (b + 1))`, the product in 32 bits. -/
def gain (fpu : Fpu) (b : ℕ) : Binary64 :=
  fpu.div (fpu.ofNat 1) (fpu.ofNat (b * (b + 1) % 2 ^ 32))

/-- The greater of two entries is on top of the queue. -/
def before (x y : Binary64 × ℕ) : Bool := decide (y.1 < x.1 ∨ ¬x.1 < y.1 ∧ y.2 < x.2)

/-- Every iteration takes an entry off the queue or spends budget. -/
def loop (fpu : Fpu) (cardinality : List ℕ) : ℕ → Budget → Budget
  | 0, s => s
  | fuel + 1, s =>
      if 0 < s.remaining then
        match takeTop before s.pq with
        | none => s
        | some ((_, idx), rest) =>
            let n := s.bitmapNums.getD idx 0
            if cardinality.getD idx 0 ≤ n then loop fpu cardinality fuel { s with pq := rest }
            else loop fpu cardinality fuel {
              bitmapNums := s.bitmapNums.set idx (n + 1)
              remaining := s.remaining - 1
              pq := (gain fpu (n + 1), idx) :: rest }
      else s

/-- At least one bin each; further bins where they gain most. -/
def allocate (fpu : Fpu) (target : UInt32) (cardinality : List ℕ) : List ℕ :=
  let attrNum := cardinality.length
  (loop fpu cardinality (target.toNat + attrNum) {
    bitmapNums := List.replicate attrNum 1
    remaining := target.toInt32.toInt - attrNum
    pq := (List.range attrNum).map fun i => (gain fpu 1, i) }).bitmapNums

end Budget

structure BitmapIndex where
  bitmapNums : List ℕ
  binningPolicy : List BinningPolicy
  /-- The bins of each attribute. -/
  attrBitmaps : List (List Roaring)
  tombstoneBitmap : Roaring
  distinctCnts : List ℕ

/-- All bins in attribute order, the tombstones last. -/
def BitmapIndex.bitmaps (idx : BitmapIndex) : List Roaring :=
  idx.attrBitmaps.flatten ++ [idx.tombstoneBitmap]

namespace SABIBuilder

def binCounts (rt : Runtime) (b : SABIBuilder) : List ℕ :=
  let target := rt.fpu.toUInt32 (rt.fpu.div (rt.fpu.ofNat b.columns.length) b.schema.rho)
  Budget.allocate rt.fpu target
    (b.columns.map fun c => c.buf.cardinality rt.sort target.toNat)

/-- The policy and the bitmaps of one attribute. -/
def indexColumn (rt : Runtime) (b : SABIBuilder) (c : AttrColumn) (bins : ℕ) :
    Option (AttrBinning × List Roaring) := do
  let binning ← c.buf.setBinningPolicy rt bins
  let bitmaps ← fillBins b.dataEntriesCnt.toNat bins (c.nullRows ∪ b.tombstoneBitmap)
    binning.rowBin
  return (binning, bitmaps)

def buildIndex (rt : Runtime) (b : SABIBuilder) : Option BitmapIndex := do
  let bitmapNums := b.binCounts rt
  let attrs ← (b.columns.zip bitmapNums).mapM fun (c, bins) => b.indexColumn rt c bins
  return {
    bitmapNums
    binningPolicy := attrs.map fun a => a.1.policy
    attrBitmaps := attrs.map Prod.snd
    tombstoneBitmap := b.tombstoneBitmap
    distinctCnts := attrs.map fun a => a.1.distinct }

end SABIBuilder

/-! ### Every attribute has a bin -/

/-- The state after a bin for the attribute `idx` from the top of the queue. -/
def Budget.extend (fpu : Fpu) (s : Budget) (idx : ℕ) (rest : List (Binary64 × ℕ)) : Budget where
  bitmapNums := s.bitmapNums.set idx (s.bitmapNums.getD idx 0 + 1)
  remaining := s.remaining - 1
  pq := (gain fpu (s.bitmapNums.getD idx 0 + 1), idx) :: rest

/-- What the two kinds of iteration keep, the loop keeps. -/
theorem Budget.loop_keeps {fpu : Fpu} {cardinality : List ℕ} {P : Budget → Prop}
    (hdrop : ∀ s g idx rest, P s → takeTop before s.pq = some ((g, idx), rest) →
      cardinality.getD idx 0 ≤ s.bitmapNums.getD idx 0 → P { s with pq := rest })
    (hextend : ∀ s g idx rest, P s → 0 < s.remaining →
      takeTop before s.pq = some ((g, idx), rest) →
      s.bitmapNums.getD idx 0 < cardinality.getD idx 0 → P (s.extend fpu idx rest))
    (fuel : ℕ) {s : Budget} (h : P s) : P (loop fpu cardinality fuel s) := by
  induction fuel generalizing s with
  | zero => exact h
  | succ fuel ih =>
      rw [loop]
      split
      · next hrem =>
          split
          · exact h
          · next idx rest htop =>
              simp only []
              split
              · next hcard => exact ih (hdrop s _ idx rest h htop hcard)
              · next hcard => exact ih (hextend s _ idx rest h hrem htop (Nat.lt_of_not_le hcard))
      · exact h

theorem Budget.loop_bitmapNums (fpu : Fpu) (cardinality : List ℕ) (fuel : ℕ) (s : Budget)
    (h : ∀ n ∈ s.bitmapNums, 1 ≤ n) :
    (loop fpu cardinality fuel s).bitmapNums.length = s.bitmapNums.length ∧
      ∀ n ∈ (loop fpu cardinality fuel s).bitmapNums, 1 ≤ n := by
  refine loop_keeps (P := fun t => t.bitmapNums.length = s.bitmapNums.length ∧
    ∀ n ∈ t.bitmapNums, 1 ≤ n) (fun t _ _ _ ht _ _ => ht) ?_ fuel ⟨rfl, h⟩
  intro t _ idx rest ht _ _ _
  refine ⟨List.length_set.trans ht.1, fun n hn => ?_⟩
  rcases List.mem_or_eq_of_mem_set hn with hold | rfl
  · exact ht.2 n hold
  · omega

theorem SABIBuilder.binCounts_spec (rt : Runtime) (b : SABIBuilder) :
    (b.binCounts rt).length = b.columns.length ∧ ∀ n ∈ b.binCounts rt, 1 ≤ n := by
  rw [binCounts]
  simp only [Budget.allocate]
  obtain ⟨hlen, hpos⟩ := Budget.loop_bitmapNums rt.fpu _ _
    { bitmapNums := List.replicate _ 1, remaining := _, pq := _ }
    fun n hn => (List.mem_replicate.1 hn).2.ge
  exact ⟨hlen.trans (by simp), hpos⟩

/-- A bin is paid for from the budget. -/
theorem Budget.loop_le (fpu : Fpu) (cardinality : List ℕ) (fuel : ℕ) (s : Budget) (limit : ℤ)
    (h : ∀ n ∈ s.bitmapNums, n + max 0 s.remaining ≤ limit) :
    ∀ n ∈ (loop fpu cardinality fuel s).bitmapNums, (n : ℤ) ≤ limit := by
  have hloop := @loop_keeps fpu cardinality
    (fun t => ∀ n ∈ t.bitmapNums, n + max 0 t.remaining ≤ limit)
    (fun t _ _ _ ht _ _ => ht) ?_ fuel s h
  · intro n hn
    have := hloop n hn
    omega
  · intro t _ idx rest ht hrem _ _ n hn
    show n + max 0 (t.remaining - 1) ≤ limit
    by_cases hidx : idx < t.bitmapNums.length
    · rcases List.mem_or_eq_of_mem_set hn with hold | rfl
      · have := ht n hold
        omega
      · rw [List.getD_eq_getElem _ _ hidx]
        have := ht _ (List.getElem_mem hidx)
        omega
    · rw [extend, List.set_eq_of_length_le (by omega)] at hn
      have := ht n hn
      omega

theorem SABIBuilder.binCounts_lt (rt : Runtime) (b : SABIBuilder) :
    ∀ n ∈ b.binCounts rt, n < 2 ^ 31 := by
  intro n hn
  rw [binCounts] at hn
  simp only [Budget.allocate] at hn
  have hle := Budget.loop_le rt.fpu _ _ _ (2 ^ 31 - 1) (fun m hm => ?_) n hn
  · omega
  · obtain ⟨hpos, rfl⟩ := List.mem_replicate.1 hm
    have htop := Int32.toInt_lt (rt.fpu.toUInt32 (rt.fpu.div (rt.fpu.ofNat b.columns.length)
      b.schema.rho)).toInt32
    simp only []
    omega

/-! ### Rows -/

/-- The cells of attribute `i`; a tombstone is `none`. -/
def cells (i : ℕ) (rows : List (Option (List EncodedAttr))) : List (Option Bytes) :=
  rows.map fun r => r.bind fun attrs => attrs[i]?.join

theorem length_cells (i : ℕ) (rows : List (Option (List EncodedAttr))) :
    (cells i rows).length = rows.length := List.length_map _

theorem cells_concat (i : ℕ) (rows : List (Option (List EncodedAttr)))
    (r : Option (List EncodedAttr)) :
    cells i (rows ++ [r]) = cells i rows ++ [r.bind fun attrs => attrs[i]?.join] := by
  simp [cells]

/-- Fewer than `2 ^ 32` rows, and value bytes of every attribute. -/
structure RowsFit (rows : List (Option (List EncodedAttr))) : Prop where
  count : rows.length < 2 ^ 32
  bytes : ∀ i, (cells i rows).reduceOption.flatten.length < 2 ^ 32

theorem RowsFit.of_concat {rows : List (Option (List EncodedAttr))}
    {r : Option (List EncodedAttr)} (h : RowsFit (rows ++ [r])) : RowsFit rows := by
  refine ⟨?_, fun i => ?_⟩
  · have := h.count
    simp at this
    omega
  · have := h.bytes i
    rw [cells_concat, List.reduceOption_append, List.flatten_append, List.length_append] at this
    omega

/-- The column after the cells of attribute `i`. -/
structure AttrColumn.Ok (hash : Bytes → UInt64) (rows : List (Option (List EncodedAttr))) (i : ℕ)
    (c : AttrColumn) : Prop where
  buf : c.buf.Holds hash (cells i rows).reduceOption
  nullRows : ∀ j, j ∈ c.nullRows ↔ ∃ attrs, rows[j]? = some (some attrs) ∧ attrs[i]?.join = none

theorem AttrColumn.new_ok (hash : Bytes → UInt64) (i : ℕ) (t : IndexType) :
    (AttrColumn.new t).Ok hash [] i := by
  have hnone (j : ℕ) : j ∈ (∅ : Roaring) ↔ ∃ attrs : List EncodedAttr,
      ([] : List (Option (List EncodedAttr)))[j]? = some (some attrs) ∧ attrs[i]?.join = none := by
    simp
  cases t with
  | equality => exact ⟨.equality (EqualityAttrBuf.interned_nil hash), hnone⟩
  | range => exact ⟨.range RangeAttrBuf.pushed_nil, hnone⟩

/-- The distinct values have no more bytes than all values. -/
theorem length_flatten_distinctValues_le (vs : List Bytes) :
    (distinctValues vs).flatten.length ≤ vs.flatten.length := by
  induction vs using List.reverseRecOn with
  | nil => simp [distinctValues]
  | append_singleton vs v ih =>
      rw [distinctValues_concat]
      split
      · simp only [List.flatten_append, List.length_append]
        omega
      · simp only [List.flatten_append, List.length_append]
        omega

section Columns

variable {hash : Bytes → UInt64} {rows : List (Option (List EncodedAttr))} {i : ℕ}
  {c : AttrColumn}

/-- The NULL rows of one more row. -/
theorem null_concat_iff {r : Option (List EncodedAttr)} {j : ℕ} :
    (∃ attrs, (rows ++ [r])[j]? = some (some attrs) ∧ attrs[i]?.join = none) ↔
      (∃ attrs, rows[j]? = some (some attrs) ∧ attrs[i]?.join = none) ∨
        j = rows.length ∧ ∃ attrs, r = some attrs ∧ attrs[i]?.join = none := by
  rcases Nat.lt_trichotomy j rows.length with h | h | h
  · rw [List.getElem?_append_left h]
    simp [h.ne]
  · subst h
    rw [List.getElem?_concat_length]
    simp
  · rw [List.getElem?_eq_none (by simp; omega), List.getElem?_eq_none (by omega)]
    simp [h.ne']

theorem AttrColumn.Ok.tombstone (h : c.Ok hash rows i) : c.Ok hash (rows ++ [none]) i := by
  refine ⟨?_, fun j => ?_⟩
  · rw [cells_concat, List.reduceOption_append]
    simpa using h.buf
  · rw [null_concat_iff, h.nullRows]
    simp

theorem AttrColumn.Ok.add (h : c.Ok hash rows i) {attrs : List EncodedAttr} {a : EncodedAttr}
    (ha : attrs[i]? = some a) (hfit : RowsFit (rows ++ [some attrs])) :
    ∃ c', c.add hash rows.length a = some c' ∧ c'.Ok hash (rows ++ [some attrs]) i ∧
      c'.buf.indexType = c.buf.indexType := by
  have hjoin : attrs[i]?.join = a := by rw [ha]; rfl
  have hcells : (cells i (rows ++ [some attrs])).reduceOption =
      (cells i rows).reduceOption ++ a.toList := by
    rw [cells_concat, List.reduceOption_append, Option.bind_some, hjoin]
    cases a <;> rfl
  obtain ⟨buf, nullRows⟩ := c
  cases a with
  | none =>
      refine ⟨_, rfl, ⟨?_, fun j => ?_⟩, rfl⟩
      · rw [hcells]
        simpa using h.buf
      · show j ∈ insert rows.length nullRows ↔ _
        rw [Finset.mem_insert, null_concat_iff, h.nullRows, or_comm]
        simp [hjoin]
  | some v =>
      have hnull (j : ℕ) : j ∈ nullRows ↔ ∃ attrs',
          (rows ++ [some attrs])[j]? = some (some attrs') ∧
          attrs'[i]?.join = none := by
        rw [null_concat_iff, ← h.nullRows]
        simp [hjoin]
      have hbuf := h.buf
      cases hbuf with
      | @equality b hb =>
          have hbytes := hfit.bytes i
          rw [hcells] at hbytes
          obtain ⟨b', hintern, hb'⟩ := hb.intern v
            (lt_of_le_of_lt (length_flatten_distinctValues_le _) hbytes)
          refine ⟨⟨.equality b', nullRows⟩, by simp only [AttrColumn.add, hintern]; rfl,
            ⟨?_, hnull⟩, rfl⟩
          rw [hcells]
          exact .equality hb'
      | @range b hb =>
          refine ⟨_, rfl, ⟨?_, hnull⟩, rfl⟩
          rw [hcells]
          exact .range (hb.push v)

theorem SABIBuilder.addAll_spec {row : ℕ} {P : ℕ → AttrColumn → Prop} {cs : List AttrColumn}
    {as : List EncodedAttr} (hlen : cs.length = as.length)
    (h : ∀ (i : ℕ) c a, cs[i]? = some c → as[i]? = some a →
      ∃ c', c.add hash row a = some c' ∧ P i c') :
    ∃ cs', addAll hash row cs as = some cs' ∧ cs'.length = cs.length ∧
      ∀ (i : ℕ) c', cs'[i]? = some c' → P i c' := by
  induction cs generalizing as P with
  | nil =>
      obtain rfl : as = [] := List.length_eq_zero_iff.1 hlen.symm
      exact ⟨[], rfl, rfl, by simp⟩
  | cons c cs ih =>
      cases as with
      | nil => simp at hlen
      | cons a as =>
          obtain ⟨c', hc', hP⟩ := h 0 c a rfl rfl
          obtain ⟨cs', hcs', hlen', hPs⟩ := ih (P := fun i => P (i + 1)) (by simpa using hlen)
            fun i c a hc ha => h (i + 1) c a hc ha
          refine ⟨c' :: cs', by rw [addAll, hc', hcs']; rfl, by simp [hlen'], fun i d hd => ?_⟩
          cases i with
          | zero => exact Option.some.inj hd ▸ hP
          | succ i => exact hPs i d hd

end Columns

/-- The builder after `rows`. -/
structure SABIBuilder.Built (hash : Bytes → UInt64) (schema : SABISchema)
    (rows : List (Option (List EncodedAttr))) (b : SABIBuilder) : Prop where
  schema_eq : b.schema = schema
  cnt : b.dataEntriesCnt.toNat = rows.length
  tombstones : ∀ j, j ∈ b.tombstoneBitmap ↔ rows[j]? = some none
  widths : ∀ attrs, some attrs ∈ rows → attrs.length = schema.indexTypes.length
  types : b.columns.map (fun c => c.buf.indexType) = schema.indexTypes
  columns : ∀ (i : ℕ) c, b.columns[i]? = some c → c.Ok hash rows i

namespace SABIBuilder

variable {hash : Bytes → UInt64} {schema : SABISchema} {b : SABIBuilder}
  {rows : List (Option (List EncodedAttr))}

theorem built_new (hash : Bytes → UInt64) (schema : SABISchema) :
    (new schema).Built hash schema [] := by
  refine ⟨rfl, rfl, by simp [new], by simp, ?_, fun i c hc => ?_⟩
  · rw [new, List.map_map]
    conv_rhs => rw [← List.map_id schema.indexTypes]
    exact List.map_congr_left fun t _ => by cases t <;> rfl
  · rw [new, List.getElem?_map, Option.map_eq_some_iff] at hc
    obtain ⟨t, -, rfl⟩ := hc
    exact AttrColumn.new_ok hash i t

theorem Built.addIndexEntry (h : b.Built hash schema rows) (offset size : UInt64) :
    (b.addIndexEntry offset size).Built hash schema rows :=
  ⟨h.schema_eq, h.cnt, h.tombstones, h.widths, h.types, h.columns⟩

theorem Built.cnt_succ (h : b.Built hash schema rows) {r : Option (List EncodedAttr)}
    (hfit : RowsFit (rows ++ [r])) :
    (b.dataEntriesCnt + 1).toNat = (rows ++ [r]).length := by
  have hcount := hfit.count
  rw [List.length_append, List.length_singleton] at hcount ⊢
  rw [UInt32.toNat_add, h.cnt]
  show (_ + 1) % _ = _
  omega

theorem getElem?_concat_eq_none {r : Option (List EncodedAttr)} {j : ℕ} :
    (rows ++ [r])[j]? = some none ↔ rows[j]? = some none ∨ j = rows.length ∧ r = none := by
  rcases Nat.lt_trichotomy j rows.length with h | h | h
  · rw [List.getElem?_append_left h]
    simp [h.ne]
  · subst h
    rw [List.getElem?_concat_length]
    simp
  · rw [List.getElem?_eq_none (by simp; omega), List.getElem?_eq_none (by omega)]
    simp [h.ne']

theorem Built.tombstone (h : b.Built hash schema rows) (hfit : RowsFit (rows ++ [none])) :
    ({ b with
      tombstoneBitmap := insert b.dataEntriesCnt.toNat b.tombstoneBitmap
      dataEntriesCnt := b.dataEntriesCnt + 1 } : SABIBuilder).Built hash schema
        (rows ++ [none]) := by
  refine ⟨h.schema_eq, h.cnt_succ hfit, fun j => ?_, fun attrs hmem => ?_, h.types,
    fun i c hc => (h.columns i c hc).tombstone⟩
  · rw [getElem?_concat_eq_none, Finset.mem_insert, h.tombstones, h.cnt, or_comm]
    simp
  · exact h.widths attrs (by simpa using hmem)

theorem Built.value (h : b.Built hash schema rows) {attrs : List EncodedAttr}
    (hlen : attrs.length = schema.indexTypes.length) (hfit : RowsFit (rows ++ [some attrs])) :
    ∃ columns, addAll hash b.dataEntriesCnt.toNat b.columns attrs = some columns ∧
      ({ b with columns, dataEntriesCnt := b.dataEntriesCnt + 1 } : SABIBuilder).Built hash schema
        (rows ++ [some attrs]) := by
  have hcols : b.columns.length = attrs.length := by
    rw [hlen, ← h.types, List.length_map]
  have hcell (i : ℕ) (c : AttrColumn) (a : EncodedAttr) (hc : b.columns[i]? = some c)
      (ha : attrs[i]? = some a) : ∃ c', c.add hash b.dataEntriesCnt.toNat a = some c' ∧
        (c'.Ok hash (rows ++ [some attrs]) i ∧
          (b.columns.map fun c => c.buf.indexType)[i]? = some c'.buf.indexType) := by
    obtain ⟨c', hadd, hok, htype⟩ := (h.columns i c hc).add ha hfit
    refine ⟨c', by rw [h.cnt]; exact hadd, hok, ?_⟩
    rw [List.getElem?_map, hc, Option.map_some, htype]
  obtain ⟨columns, hadd, hcolumns, hok⟩ := addAll_spec hcols hcell
  refine ⟨columns, hadd, h.schema_eq, h.cnt_succ hfit, fun j => ?_, fun as hmem => ?_, ?_,
    fun i c hc => (hok i c hc).1⟩
  · rw [getElem?_concat_eq_none, h.tombstones]
    simp
  · rcases List.mem_append.1 hmem with hold | hnew
    · exact h.widths as hold
    · rw [List.mem_singleton, Option.some.injEq] at hnew
      rw [hnew, hlen]
  · rw [← h.types]
    refine List.ext_getElem? fun i => ?_
    rw [List.getElem?_map]
    cases hc : columns[i]? with
    | none =>
        rw [List.getElem?_eq_none_iff, hcolumns] at hc
        rw [List.getElem?_eq_none (by rw [List.length_map]; exact hc)]
        rfl
    | some c => exact (hok i c hc).2.symm

end SABIBuilder

/-! ### The index of the rows -/

/-- One attribute of an index: a row is in the bin of its value, and in no
other. -/
structure AttrIndexed (cells : List (Option Bytes)) (bins : ℕ) (policy : BinningPolicy)
    (bitmaps : List Roaring) (binOf : Bytes → ℕ) : Prop where
  bins_pos : 1 ≤ bins
  policy : policy.Bins cells.reduceOption bins binOf
  length : bitmaps.length = bins
  mem : ∀ b j, j ∈ bitmaps.getD b ∅ ↔ ∃ v, cells[j]? = some (some v) ∧ binOf v = b

/-- What an index says about the rows it was built from. -/
structure BitmapIndex.Indexed (schema : SABISchema) (rows : List (Option (List EncodedAttr)))
    (idx : BitmapIndex) : Prop where
  lengths : idx.bitmapNums.length = schema.indexTypes.length ∧
    idx.binningPolicy.length = schema.indexTypes.length ∧
    idx.attrBitmaps.length = schema.indexTypes.length
  attrs : ∀ i t, schema.indexTypes[i]? = some t → ∃ bins policy bitmaps binOf,
    idx.bitmapNums[i]? = some bins ∧ idx.binningPolicy[i]? = some policy ∧
    idx.attrBitmaps[i]? = some bitmaps ∧ policy.indexType = t ∧
    AttrIndexed (cells i rows) bins policy bitmaps binOf
  tombstones : ∀ j, j ∈ idx.tombstoneBitmap ↔ rows[j]? = some none

namespace SABIBuilder

variable {hash : Bytes → UInt64} {schema : SABISchema} {b : SABIBuilder}
  {rows : List (Option (List EncodedAttr))}

theorem Built.excluded (h : b.Built hash schema rows) {i : ℕ} {c : AttrColumn}
    (hc : b.columns[i]? = some c) : c.nullRows ∪ b.tombstoneBitmap = emptyCells (cells i rows) := by
  ext j
  rw [Finset.mem_union, (h.columns i c hc).nullRows, h.tombstones, mem_emptyCells, cells,
    List.getElem?_map]
  cases rows[j]? with
  | none => simp
  | some r => cases r <;> simp

theorem length_values_lt (h : RowsFit rows) (i : ℕ) :
    (cells i rows).reduceOption.length < 2 ^ 32 := by
  have hle := List.reduceOption_length_le (cells i rows)
  have hcount := h.count
  rw [length_cells] at hle
  omega

/-- The bitmaps of a column whose values were given bins. -/
theorem Built.indexColumn_eq (h : b.Built hash schema rows) {rt : Runtime} {i bins : ℕ}
    {c : AttrColumn} (hc : b.columns[i]? = some c) {binning : AttrBinning} {binOf : Bytes → ℕ}
    (hpolicy : c.buf.setBinningPolicy rt bins = some binning)
    (hlt : ∀ v ∈ (cells i rows).reduceOption, binOf v < bins)
    (hrow : ∀ k, binning.rowBin k = ((cells i rows).reduceOption.map binOf)[k]?) :
    ∃ bitmaps, b.indexColumn rt c bins = some (binning, bitmaps) ∧ bitmaps.length = bins ∧
      ∀ k j, j ∈ bitmaps.getD k ∅ ↔ ∃ v, (cells i rows)[j]? = some (some v) ∧ binOf v = k := by
  obtain ⟨bitmaps, hfill, hlength, hmem⟩ := @fillBins_spec (cells i rows) binOf bins
    (fun v hv => hlt v (List.reduceOption_mem_iff.2 hv)) binning.rowBin hrow
  rw [length_cells, ← h.cnt, ← h.excluded hc] at hfill
  refine ⟨bitmaps, ?_, hlength, hmem⟩
  rw [SABIBuilder.indexColumn, hpolicy]
  simp only [Option.bind_eq_bind, Option.bind_some, hfill]
  rfl

theorem Built.indexColumn (h : b.Built hash schema rows) (hfit : RowsFit rows) (rt : Runtime)
    {i bins : ℕ} {c : AttrColumn} (hc : b.columns[i]? = some c) (hbins : 1 ≤ bins) :
    ∃ binning bitmaps binOf, b.indexColumn rt c bins = some (binning, bitmaps) ∧
      binning.policy.indexType = c.buf.indexType ∧
      AttrIndexed (cells i rows) bins binning.policy bitmaps binOf := by
  obtain ⟨binning, binOf, hpolicy, hbinsOf, htype, hrow⟩ :=
    (h.columns i c hc).buf.setBinningPolicy rt hbins (length_values_lt hfit i) (hfit.bytes i)
  obtain ⟨bitmaps, hindex, hlength, hmem⟩ :=
    h.indexColumn_eq hc hpolicy (fun v hv => hbinsOf.lt_bins hbins hv) hrow
  exact ⟨binning, bitmaps, binOf, hindex, htype, hbins, hbinsOf, hlength, hmem⟩

/-- The column of a schema with one range attribute. -/
theorem Built.range_column (h : b.Built hash schema rows)
    (htypes : schema.indexTypes = [.range]) :
    ∃ c buf, b.columns = [c] ∧ c.buf = .range buf ∧ buf.Pushed (cells 0 rows).reduceOption := by
  have hlength := congrArg List.length h.types
  rw [List.length_map, htypes] at hlength
  obtain ⟨c, hcolumns⟩ := List.length_eq_one_iff.1 hlength
  have htype := h.types
  rw [hcolumns, htypes, List.map_singleton, List.singleton_inj] at htype
  have hbuf := (h.columns 0 c (by rw [hcolumns]; rfl)).buf
  cases hc : c.buf with
  | equality buf =>
      rw [hc] at htype
      cases htype
  | range buf =>
      rw [hc] at hbuf
      cases hbuf with
      | range hpushed => exact ⟨c, buf, hcolumns, hc, hpushed⟩

/-- `Finish` indexes the rows it was given. -/
theorem Built.buildIndex (h : b.Built hash schema rows) (hfit : RowsFit rows) (rt : Runtime) :
    ∃ idx, b.buildIndex rt = some idx ∧ idx.Indexed schema rows := by
  obtain ⟨hnums, hpos⟩ := b.binCounts_spec rt
  have hcols : b.columns.length = schema.indexTypes.length := by rw [← h.types, List.length_map]
  have hzip (i : ℕ) (c : AttrColumn) (hc : b.columns[i]? = some c) :
      ∃ bins, 1 ≤ bins ∧ (b.binCounts rt)[i]? = some bins ∧
        (b.columns.zip (b.binCounts rt))[i]? = some (c, bins) := by
    have hi : i < (b.binCounts rt).length := by
      rw [hnums]
      exact (List.getElem?_eq_some_iff.1 hc).1
    have hget := List.getElem?_eq_getElem hi
    exact ⟨_, hpos _ (List.getElem_mem hi), hget, List.getElem?_zip_eq_some.2 ⟨hc, hget⟩⟩
  obtain ⟨attrs, hattrs⟩ := mapM_isSome (f := fun (c, bins) => b.indexColumn rt c bins)
    (l := b.columns.zip (b.binCounts rt)) fun x hx => by
      obtain ⟨i, hi⟩ := List.mem_iff_getElem?.1 hx
      obtain ⟨hc, -⟩ := List.getElem?_zip_eq_some.1 hi
      obtain ⟨bins, hbins, -, hget⟩ := hzip i x.1 hc
      obtain ⟨binning, bitmaps, _, hindex, -⟩ := h.indexColumn hfit rt hc hbins
      rw [hi, Option.some.injEq] at hget
      exact ⟨(binning, bitmaps), by rw [hget]; exact hindex⟩
  obtain ⟨hlength, hget⟩ := mapM_getElem? hattrs
  have hattrsLen : attrs.length = schema.indexTypes.length := by
    rw [hlength, List.length_zip, hnums, Nat.min_self, hcols]
  refine ⟨_, by rw [SABIBuilder.buildIndex, hattrs]; rfl,
    ⟨by rw [← hcols]; exact hnums, by simpa using hattrsLen, by simpa using hattrsLen⟩, ?_,
    h.tombstones⟩
  intro i t ht
  rw [← h.types, List.getElem?_map, Option.map_eq_some_iff] at ht
  obtain ⟨c, hc, rfl⟩ := ht
  obtain ⟨bins, hbins, hnum, hzipped⟩ := hzip i c hc
  obtain ⟨binning, bitmaps, binOf, hindex, htype, hindexed⟩ := h.indexColumn hfit rt hc hbins
  obtain ⟨y, hy, hyget⟩ := hget i (c, bins) hzipped
  obtain rfl : (binning, bitmaps) = y := Option.some.inj (hindex.symm.trans hy)
  refine ⟨bins, binning.policy, bitmaps, binOf, hnum, ?_, ?_, htype, hindexed⟩
  · simp [hyget]
  · simp [hyget]

/-- The distinct counts of the index are those of the rows. -/
theorem Built.distinctCnts (h : b.Built hash schema rows) (hfit : RowsFit rows) {rt : Runtime}
    {idx : BitmapIndex} (hidx : b.buildIndex rt = some idx) {i : ℕ}
    (hi : i < schema.indexTypes.length) :
    idx.distinctCnts[i]? = some (cells i rows).reduceOption.toFinset.card := by
  obtain ⟨hnums, -⟩ := b.binCounts_spec rt
  have hcols : b.columns.length = schema.indexTypes.length := by rw [← h.types, List.length_map]
  obtain ⟨attrs, hattrs, hidx⟩ := Option.bind_eq_some_iff.1 hidx
  obtain rfl := Option.some.inj hidx
  obtain ⟨hlength, hget⟩ := mapM_getElem? hattrs
  have hc := List.getElem?_eq_getElem (show i < b.columns.length by omega)
  have hbins := List.getElem?_eq_getElem (show i < (b.binCounts rt).length by omega)
  obtain ⟨⟨binning, bitmaps⟩, hindex, hattr⟩ :=
    hget i (_, _) (List.getElem?_zip_eq_some.2 ⟨hc, hbins⟩)
  obtain ⟨binning', hpolicy, hindex⟩ := Option.bind_eq_some_iff.1 hindex
  obtain ⟨bitmaps', -, hindex⟩ := Option.bind_eq_some_iff.1 hindex
  cases hindex
  rw [List.getElem?_map, hattr]
  exact congrArg some ((h.columns i _ hc).buf.distinct_eq hpolicy (length_values_lt hfit i)
    (hfit.bytes i))

end SABIBuilder

/-! ### The shape of an index

This holds of every index that is built, however many rows it has. -/

structure BitmapIndex.Shaped (types : List IndexType) (idx : BitmapIndex) : Prop where
  attrBitmaps : idx.attrBitmaps.length = types.length
  bitmapNums : idx.attrBitmaps.map List.length = idx.bitmapNums
  policyTypes : idx.binningPolicy.map BinningPolicy.indexType = types
  distinctCnts : idx.distinctCnts.length = types.length
  policies : ∀ p ∈ idx.binningPolicy, p.Writable idx.attrBitmaps.flatten.length

theorem BinningPolicy.Writable.mono {bins bins' : ℕ} {p : BinningPolicy} (h : p.Writable bins)
    (hle : bins ≤ bins') : p.Writable bins' := by
  cases p with
  | equality entries => exact fun e he => lt_of_lt_of_le (h e he) hle
  | range boundaries => exact h

theorem length_le_flatten {α : Type} {l : List α} {ls : List (List α)} (h : l ∈ ls) :
    l.length ≤ ls.flatten.length := by
  induction ls with
  | nil => cases h
  | cons m ls ih =>
      rw [List.flatten_cons, List.length_append]
      rcases List.mem_cons.1 h with rfl | h
      · omega
      · have := ih h
        omega

theorem SABIBuilder.buildIndex_shaped {rt : Runtime} {b : SABIBuilder} {idx : BitmapIndex}
    (h : b.buildIndex rt = some idx) :
    idx.Shaped (b.columns.map fun c => c.buf.indexType) := by
  obtain ⟨hnums, hpos⟩ := b.binCounts_spec rt
  obtain ⟨attrs, hattrs, h⟩ := Option.bind_eq_some_iff.1 h
  obtain rfl := Option.some.inj h
  obtain ⟨hlength, hget⟩ := mapM_getElem? hattrs
  have hzip : (b.columns.zip (b.binCounts rt)).length = b.columns.length := by simp [hnums]
  -- the column and the bin count behind each result
  have hcolumn (i : ℕ) (a : AttrBinning × List Roaring) (ha : attrs[i]? = some a) :
      ∃ c bins, b.columns[i]? = some c ∧ (b.binCounts rt)[i]? = some bins ∧
        a.2.length = bins ∧ a.1.policy.Writable bins ∧
        a.1.policy.indexType = c.buf.indexType := by
    have hi : i < (b.columns.zip (b.binCounts rt)).length := by
      rw [← hlength]
      exact (List.getElem?_eq_some_iff.1 ha).1
    obtain ⟨⟨c, bins⟩, hzipped⟩ : ∃ x, (b.columns.zip (b.binCounts rt))[i]? = some x :=
      ⟨_, List.getElem?_eq_getElem hi⟩
    obtain ⟨hc, hbins⟩ := List.getElem?_zip_eq_some.1 hzipped
    obtain ⟨y, hy, hyget⟩ := hget i _ hzipped
    obtain rfl := Option.some.inj (ha.symm.trans hyget)
    obtain ⟨binning, hpolicy, hy⟩ := Option.bind_eq_some_iff.1 hy
    obtain ⟨bitmaps, hfill, hy⟩ := Option.bind_eq_some_iff.1 hy
    obtain rfl := Option.some.inj hy
    have hone := hpos bins (List.mem_of_getElem? hbins)
    exact ⟨c, bins, hc, hbins, (fillBins_shape hfill).1,
      AttrBuf.setBinningPolicy_writable hone hpolicy⟩
  refine ⟨by simpa [hzip] using hlength, ?_, ?_, by simpa [hzip] using hlength, fun p hp => ?_⟩
  · rw [List.map_map, ← List.map_id (b.binCounts rt)]
    refine map_eq_map (by rw [hlength, hzip, hnums]) fun i a ha => ?_
    obtain ⟨c, bins, -, hbins, hlen, -⟩ := hcolumn i a ha
    exact ⟨bins, hbins, hlen⟩
  · rw [List.map_map]
    refine map_eq_map (by rw [hlength, hzip]) fun i a ha => ?_
    obtain ⟨c, bins, hc, -, -, -, htype⟩ := hcolumn i a ha
    exact ⟨c, hc, htype⟩
  · obtain ⟨a, ha, rfl⟩ := List.mem_map.1 hp
    obtain ⟨i, hi⟩ := List.mem_iff_getElem?.1 ha
    obtain ⟨c, bins, -, -, hlen, hwritable, -⟩ := hcolumn i a hi
    refine hwritable.mono ?_
    rw [← hlen]
    exact length_le_flatten (List.mem_map_of_mem ha)

/-! ### Runs -/

inductive BuilderCall where
  | onKeyAdded (key : Bytes) (type : ValueType) (value : Bytes)
  | addIndexEntry (offset size : UInt64)

def BuilderCall.apply (hash : Bytes → UInt64) (extract : AttrExtractor) (b : SABIBuilder) :
    BuilderCall → Option SABIBuilder
  | .onKeyAdded key type value => b.onKeyAdded hash extract key type value
  | .addIndexEntry offset size => some (b.addIndexEntry offset size)

def SABIBuilder.run (hash : Bytes → UInt64) (extract : AttrExtractor) (schema : SABISchema)
    (calls : List BuilderCall) : Option SABIBuilder :=
  calls.foldlM (BuilderCall.apply hash extract) (new schema)

/-- The row a call adds to the table. -/
def BuilderCall.row? (extract : AttrExtractor) : BuilderCall → Option (Option (List EncodedAttr))
  | .onKeyAdded key .value value => some (some ((extract key value).getD []))
  | .onKeyAdded _ _ _ => some none
  | .addIndexEntry _ _ => none

def rowsOf (extract : AttrExtractor) (calls : List BuilderCall) :
    List (Option (List EncodedAttr)) :=
  calls.filterMap (BuilderCall.row? extract)

/-- Every value row extracts to one attribute per column. -/
def Extracts (extract : AttrExtractor) (schema : SABISchema) (calls : List BuilderCall) : Prop :=
  ∀ key value, .onKeyAdded key .value value ∈ calls →
    ∃ attrs, extract key value = some attrs ∧ attrs.length = schema.indexTypes.length

theorem SABIBuilder.run_built {hash : Bytes → UInt64} {extract : AttrExtractor}
    {schema : SABISchema} {calls : List BuilderCall} (hextract : Extracts extract schema calls)
    (hfit : RowsFit (rowsOf extract calls)) :
    ∃ b, run hash extract schema calls = some b ∧
      b.Built hash schema (rowsOf extract calls) := by
  induction calls using List.reverseRecOn with
  | nil => exact ⟨_, rfl, built_new hash schema⟩
  | append_singleton calls call ih =>
      have hprev : Extracts extract schema calls := fun key value hmem =>
        hextract key value (List.mem_append_left _ hmem)
      have hrun (b : SABIBuilder) (hb : run hash extract schema calls = some b) :
          run hash extract schema (calls ++ [call]) = call.apply hash extract b := by
        rw [run, List.foldlM_append, ← run, hb]
        simp
      rw [rowsOf, List.filterMap_append, ← rowsOf] at hfit ⊢
      cases call with
      | addIndexEntry offset size =>
          rw [List.filterMap_cons_none rfl, List.filterMap_nil, List.append_nil] at hfit ⊢
          obtain ⟨b, hb, hbuilt⟩ := ih hprev hfit
          exact ⟨_, hrun b hb, hbuilt.addIndexEntry offset size⟩
      | onKeyAdded key type value =>
          cases type with
          | value =>
              obtain ⟨attrs, hattrs, hlen⟩ := hextract key value (by simp)
              have hrow : [BuilderCall.onKeyAdded key .value value].filterMap
                  (BuilderCall.row? extract) = [some attrs] := by
                simp [BuilderCall.row?, hattrs]
              rw [hrow] at hfit ⊢
              obtain ⟨b, hb, hbuilt⟩ := ih hprev hfit.of_concat
              obtain ⟨columns, hadd, hbuilt'⟩ := hbuilt.value hlen hfit
              refine ⟨_, ?_, hbuilt'⟩
              rw [hrun b hb, BuilderCall.apply, onKeyAdded, hattrs]
              simp only [Option.bind_eq_bind, Option.bind_some, hadd]
              rfl
          | deletion =>
              obtain ⟨b, hb, hbuilt⟩ := ih hprev hfit.of_concat
              exact ⟨_, hrun b hb, hbuilt.tombstone hfit⟩
          | singleDeletion =>
              obtain ⟨b, hb, hbuilt⟩ := ih hprev hfit.of_concat
              exact ⟨_, hrun b hb, hbuilt.tombstone hfit⟩

/-! ### Index entries -/

/-- The number of rows before a data block's end, and the block's handle. -/
structure IndexEntry where
  psum : ℕ
  offset : UInt64
  size : UInt64
  deriving DecidableEq, Repr

def IndexEntry.put (e : IndexEntry) : Bytes :=
  putFixed32 (UInt32.ofNat e.psum) ++ putFixed32 e.offset.toUInt32 ++ putFixed32 e.size.toUInt32

@[simp] theorem IndexEntry.length_put (e : IndexEntry) : e.put.length = 12 := by
  simp [IndexEntry.put]

theorem length_flatMap_put (es : List IndexEntry) :
    (es.flatMap IndexEntry.put).length = 12 * es.length := by
  induction es with
  | nil => rfl
  | cons e es ih =>
      rw [List.flatMap_cons, List.length_append, ih, IndexEntry.length_put, List.length_cons]
      omega

/-- Rows and index entries so far. -/
def layoutStep (st : ℕ × List IndexEntry) : BuilderCall → ℕ × List IndexEntry
  | .onKeyAdded _ _ _ => (st.1 + 1, st.2)
  | .addIndexEntry offset size => (st.1, st.2 ++ [⟨st.1, offset, size⟩])

def tableLayout (calls : List BuilderCall) : ℕ × List IndexEntry :=
  calls.foldl layoutStep (0, [])

/-- What every run keeps, however many rows it has. -/
structure SABIBuilder.Reached (schema : SABISchema) (calls : List BuilderCall)
    (b : SABIBuilder) : Prop where
  schema_eq : b.schema = schema
  types : b.columns.map (fun c => c.buf.indexType) = schema.indexTypes
  cnt : b.dataEntriesCnt = UInt32.ofNat (tableLayout calls).1
  blob : b.indexBlob = (tableLayout calls).2.flatMap IndexEntry.put
  entriesCnt : b.indexEntriesCnt = UInt32.ofNat (tableLayout calls).2.length
  tombstones : ∀ j ∈ b.tombstoneBitmap, j < 2 ^ 32

theorem AttrColumn.add_indexType {hash : Bytes → UInt64} {row : ℕ} {c c' : AttrColumn}
    {a : EncodedAttr} (h : c.add hash row a = some c') : c'.buf.indexType = c.buf.indexType := by
  obtain ⟨buf, nullRows⟩ := c
  cases a with
  | none =>
      obtain rfl := Option.some.inj h
      rfl
  | some v =>
      cases buf with
      | range b =>
          obtain rfl := Option.some.inj h
          rfl
      | equality b =>
          obtain ⟨b', -, h⟩ := Option.bind_eq_some_iff.1 h
          obtain rfl := Option.some.inj h
          rfl

theorem SABIBuilder.addAll_types {hash : Bytes → UInt64} {row : ℕ} {cs cs' : List AttrColumn}
    {as : List EncodedAttr} (h : addAll hash row cs as = some cs') :
    cs'.map (fun c => c.buf.indexType) = cs.map fun c => c.buf.indexType := by
  induction cs generalizing as cs' with
  | nil =>
      cases as with
      | nil =>
          obtain rfl := Option.some.inj h
          rfl
      | cons a as => cases h
  | cons c cs ih =>
      cases as with
      | nil => cases h
      | cons a as =>
          rw [addAll, Option.bind_eq_bind, Option.bind_eq_some_iff] at h
          obtain ⟨c', hc', h⟩ := h
          obtain ⟨cs₁, hcs, h⟩ := Option.bind_eq_some_iff.1 h
          obtain rfl := Option.some.inj h
          rw [List.map_cons, List.map_cons, ih hcs, AttrColumn.add_indexType hc']

theorem ofNat_add_one (n : ℕ) : UInt32.ofNat n + 1 = UInt32.ofNat (n + 1) := by
  rw [← UInt32.toNat_inj, UInt32.toNat_add, UInt32.toNat_ofNat', UInt32.toNat_ofNat']
  show (_ + 1) % _ = _
  omega

theorem SABIBuilder.run_reached {hash : Bytes → UInt64} {extract : AttrExtractor}
    {schema : SABISchema} {calls : List BuilderCall} {b : SABIBuilder}
    (h : run hash extract schema calls = some b) : b.Reached schema calls := by
  induction calls using List.reverseRecOn generalizing b with
  | nil =>
      obtain rfl := Option.some.inj h
      exact ⟨rfl, (built_new hash schema).types, rfl, rfl, rfl, by simp [new]⟩
  | append_singleton calls call ih =>
      rw [run, List.foldlM_append, ← run, Option.bind_eq_bind, Option.bind_eq_some_iff] at h
      obtain ⟨b₀, hb₀, h⟩ := h
      have hold := ih hb₀
      have hlayout : tableLayout (calls ++ [call]) = layoutStep (tableLayout calls) call := by
        rw [tableLayout, List.foldl_append]
        rfl
      simp only [List.foldlM_cons, List.foldlM_nil, Option.bind_eq_bind, Option.pure_def,
        Option.bind_fun_some] at h
      cases call with
      | addIndexEntry offset size =>
          obtain rfl := Option.some.inj h
          refine ⟨hold.schema_eq, hold.types, by rw [hlayout]; exact hold.cnt, ?_, ?_,
            hold.tombstones⟩
          · rw [hlayout, addIndexEntry, layoutStep, List.flatMap_append, ← hold.blob, hold.cnt]
            simp [IndexEntry.put]
          · rw [hlayout, addIndexEntry, layoutStep, List.length_append, hold.entriesCnt]
            exact ofNat_add_one _
      | onKeyAdded key type value =>
          have hcnt : b₀.dataEntriesCnt + 1 =
              UInt32.ofNat (layoutStep (tableLayout calls) (.onKeyAdded key type value)).1 := by
            rw [hold.cnt]
            exact ofNat_add_one _
          cases type with
          | value =>
              obtain ⟨attrs, -, h⟩ := Option.bind_eq_some_iff.1 h
              obtain ⟨columns, hadd, h⟩ := Option.bind_eq_some_iff.1 h
              obtain rfl := Option.some.inj h
              exact ⟨hold.schema_eq, (addAll_types hadd).trans hold.types, by rw [hlayout, ← hcnt],
                by rw [hlayout]; exact hold.blob, by rw [hlayout]; exact hold.entriesCnt,
                hold.tombstones⟩
          | deletion =>
              obtain rfl := Option.some.inj h
              exact ⟨hold.schema_eq, hold.types, by rw [hlayout, ← hcnt],
                by rw [hlayout]; exact hold.blob, by rw [hlayout]; exact hold.entriesCnt,
                (Finset.forall_mem_insert _ _ _).2 ⟨b₀.dataEntriesCnt.toNat_lt, hold.tombstones⟩⟩
          | singleDeletion =>
              obtain rfl := Option.some.inj h
              exact ⟨hold.schema_eq, hold.types, by rw [hlayout, ← hcnt],
                by rw [hlayout]; exact hold.blob, by rw [hlayout]; exact hold.entriesCnt,
                (Finset.forall_mem_insert _ _ _).2 ⟨b₀.dataEntriesCnt.toNat_lt, hold.tombstones⟩⟩

/-- Row ids are 32-bit numbers. -/
theorem SABIBuilder.Reached.ids_lt {rt : Runtime} {schema : SABISchema} {calls : List BuilderCall}
    {b : SABIBuilder} {idx : BitmapIndex} (h : b.Reached schema calls)
    (hidx : b.buildIndex rt = some idx) : ∀ r ∈ idx.bitmaps, ∀ j ∈ r, j < 2 ^ 32 := by
  obtain ⟨attrs, hattrs, hidx⟩ := Option.bind_eq_some_iff.1 hidx
  obtain rfl := Option.some.inj hidx
  intro r hr
  rcases List.mem_append.1 hr with hr | hr
  · obtain ⟨bitmaps, hmem, hr⟩ := List.mem_flatten.1 hr
    obtain ⟨a, ha, rfl⟩ := List.mem_map.1 hmem
    obtain ⟨i, hi⟩ := List.mem_iff_getElem?.1 ha
    obtain ⟨hlength, hget⟩ := mapM_getElem? hattrs
    have hlt := (List.getElem?_eq_some_iff.1 hi).1
    rw [hlength] at hlt
    obtain ⟨⟨c, bins⟩, hzipped⟩ : ∃ x, (b.columns.zip (b.binCounts rt))[i]? = some x :=
      ⟨_, List.getElem?_eq_getElem hlt⟩
    obtain ⟨y, hy, hyget⟩ := hget i _ hzipped
    obtain rfl := Option.some.inj (hi.symm.trans hyget)
    obtain ⟨binning, -, hy⟩ := Option.bind_eq_some_iff.1 hy
    obtain ⟨bitmaps, hfill, hy⟩ := Option.bind_eq_some_iff.1 hy
    obtain rfl := Option.some.inj hy
    exact fun j hj => ((fillBins_shape hfill).2 r hr j hj).trans b.dataEntriesCnt.toNat_lt
  · obtain rfl := List.mem_singleton.1 hr
    exact h.tombstones

end BitLSM
