import BitLSM.Reader.SpanPlan

/-!
The span prefetch of a scan.

`PlanAndSubmit` submits one asynchronous read for each run of its plan, and
`TryConsume` later copies any part of a run out of its buffer. File positions
are `uint64_t`, and their sums wrap.

A slot owns its buffer, and `data` is a view of it. Copying out of a buffer
that was freed, or beyond the view, is undefined and `none`. As long as no sum
wraps, the slots behave like those of `SABIReader.tryConsume`.
-/

namespace BitLSM

open Wire

/-! ### The slots -/

inductive SpanState where
  | submitted
  | populated
  | dead
  deriving DecidableEq, Repr

/-- One run in flight. -/
structure SpanSlot where
  /-- What the prefetch buffer has received; `none` once it is freed. -/
  buf : Option Bytes
  offset : UInt64
  len : UInt64
  remaining : UInt64
  state : SpanState
  /-- How much of the buffer the slice shows. -/
  data : ℕ := 0

namespace SpanSlot

/-- The `memcpy` out of the slice. -/
def read (slot : SpanSlot) (pos len : ℕ) : Option Bytes := do
  let bytes ← slot.buf
  readAt (bytes.take slot.data) pos len

/-- The buffer is freed once as many bytes as the run has were copied. -/
def drain (slot : SpanSlot) (remaining : UInt64) : SpanSlot :=
  if remaining = 0 then { slot with remaining, data := 0, buf := none, state := .dead }
  else { slot with remaining }

/-- Copy `[offset, offset + len)`. -/
def copy (slot : SpanSlot) (offset len : UInt64) : Option (Bytes × SpanSlot) := do
  let bytes ← slot.read (offset - slot.offset).toNat len.toNat
  return (bytes,
    slot.drain (slot.remaining - if slot.remaining < len then slot.remaining else len))

/-- The first touch polls the whole run. -/
def poll (env : BinEnv) (t : TableRep) (moment : ℕ) (slot : SpanSlot) : Option SpanSlot :=
  (if env.polls moment then readAt t.file slot.offset.toNat slot.len.toNat else none).map
    fun result => { slot with buf := some result, data := result.length, state := .populated }

/-- Serve a range that lies in the slot's. -/
def serve (env : BinEnv) (t : TableRep) (moment : ℕ) (offset len : UInt64) (slot : SpanSlot) :
    Option (Option Bytes × SpanSlot) :=
  match slot.state with
  | .dead => some (none, slot)
  | .populated => (slot.copy offset len).map fun out => (some out.1, out.2)
  | .submitted =>
      match slot.poll env t moment with
      | none => some (none, { slot with state := .dead, buf := none })
      | some slot => (slot.copy offset len).map fun out => (some out.1, out.2)

end SpanSlot

/-- The slots of a scan, and the moment. -/
structure SpanPrefetch where
  slots : List SpanSlot := []
  moment : ℕ := 0

namespace SpanPrefetch

def tryConsumeSlots (env : BinEnv) (t : TableRep) (moment : ℕ) (offset len : UInt64) :
    List SpanSlot → Option (Option Bytes × List SpanSlot)
  | [] => some (none, [])
  | slot :: slots =>
      if offset < slot.offset ∨ slot.offset + slot.len < offset + len then do
        let (bytes, slots) ← tryConsumeSlots env t moment offset len slots
        return (bytes, slot :: slots)
      else (slot.serve env t moment offset len).map fun out => (out.1, out.2 :: slots)

def tryConsume (env : BinEnv) (t : TableRep) (offset len : UInt64) (p : SpanPrefetch) :
    Option (Option Bytes × SpanPrefetch) :=
  (tryConsumeSlots env t p.moment offset len p.slots).map fun out =>
    (out.1, ⟨out.2, p.moment + 1⟩)

/-- A slot for the run of bins `a` to `b`. A refused read, or one that is no
longer possible, leaves none. -/
def submit (env : BinEnv) (t : TableRep) (r : SABIReader) (p : SpanPrefetch) (run : BinSelection) :
    Option SpanPrefetch := do
  let (off, len) ← r.runExtent run.first.toNat run.last.toNat
  let offset := UInt64.ofNat (t.udiOff + off)
  let len := UInt64.ofNat len
  let slot : SpanSlot := ⟨some [], offset, len, len, .submitted, 0⟩
  match env.submits p.moment with
  | .dropped => return { p with moment := p.moment + 1 }
  | .inFlight => return ⟨p.slots ++ [slot], p.moment + 1⟩
  | .ready =>
      match readAt t.file offset.toNat len.toNat with
      | none => return { p with moment := p.moment + 1 }
      | some result =>
          return ⟨p.slots ++
            [{ slot with buf := some result, data := result.length, state := .populated }],
            p.moment + 1⟩

def kMaxSlots : ℕ := 64

def planAndSubmit (std : StdSort) (env : BinEnv) (t : TableRep) (r : SABIReader)
    (asyncReadUnavailable : Bool) (cached : UInt32 → Bool) (selections : List BinSelection)
    (p : SpanPrefetch) : Option SpanPrefetch :=
  if asyncReadUnavailable then some p
  else do
    let runs ← planRuns std cached selections
    if runs.length < 2 then return p
    (runs.take kMaxSlots).foldlM (submit env t r) p

end SpanPrefetch

/-! ### Against slots without wrap -/

namespace SpanSlot

/-- The slot in numbers, with the bytes its slice shows. -/
def abs (slot : SpanSlot) : PrefetchSlot where
  offset := slot.offset.toNat
  len := slot.len.toNat
  remaining := slot.remaining.toNat
  state := match slot.state with
    | .submitted => .submitted
    | .populated => .populated ((slot.buf.getD []).take slot.data)
    | .dead => .dead

/-- The run ends where a `uint64_t` still counts, and a slice has its buffer. -/
structure Live (slot : SpanSlot) : Prop where
  range : slot.offset.toNat + slot.len.toNat < 2 ^ 64
  buffer : slot.state = .populated → slot.buf ≠ none

variable {slot : SpanSlot} {offset len : UInt64}

theorem toNat_remaining (x y : UInt64) :
    (x - if x < y then x else y).toNat = x.toNat - min y.toNat x.toNat := by
  split
  · next h =>
      rw [UInt64.lt_iff_toNat_lt] at h
      rw [UInt64.sub_self, UInt64.toNat_zero]
      omega
  · next h =>
      rw [UInt64.lt_iff_toNat_lt] at h
      rw [UInt64.toNat_sub_of_le _ _ (UInt64.le_iff_toNat_le.2 (by omega))]
      omega

theorem drain_abs (slot : SpanSlot) (remaining : UInt64) :
    (slot.drain remaining).abs =
      { slot.abs with
        remaining := remaining.toNat
        state := if remaining.toNat = 0 then .dead else slot.abs.state } := by
  have hzero : remaining = 0 ↔ remaining.toNat = 0 := UInt64.toNat_inj.symm
  by_cases h0 : remaining = 0
  · simp only [drain, if_pos h0, if_pos (hzero.1 h0), abs]
  · simp only [drain, if_neg h0, if_neg (mt hzero.2 h0), abs]

theorem drain_live (h : slot.Live) (remaining : UInt64) : (slot.drain remaining).Live := by
  rw [drain]
  split
  · exact ⟨h.range, by rintro ⟨⟩⟩
  · exact ⟨h.range, h.buffer⟩

theorem copy_abs (hstate : slot.state = .populated) {bytes : Bytes} (hbuf : slot.buf = some bytes)
    (hlo : slot.offset ≤ offset) :
    (slot.copy offset len).map (fun out => (out.1, out.2.abs)) =
      slot.abs.copy (bytes.take slot.data) offset.toNat len.toNat := by
  have hpos : (offset - slot.offset).toNat = offset.toNat - slot.abs.offset :=
    UInt64.toNat_sub_of_le _ _ hlo
  have hdata : slot.abs.state = .populated (bytes.take slot.data) := by
    simp only [abs, hstate, hbuf, Option.getD_some]
  rw [copy, PrefetchSlot.copy, read, hbuf, hpos]
  simp only [Option.bind_eq_bind, Option.bind_some, Option.pure_def]
  cases readAt (bytes.take slot.data) (offset.toNat - slot.abs.offset) len.toNat with
  | none => rfl
  | some xs =>
      rw [Option.bind_some, Option.bind_some, Option.map_some, drain_abs, toNat_remaining,
        hdata]
      rfl

theorem copy_live (h : slot.Live) {out : Bytes × SpanSlot}
    (hcopy : slot.copy offset len = some out) : out.2.Live := by
  obtain ⟨bytes, -, hcopy⟩ := Option.bind_eq_some_iff.1 hcopy
  rw [← Option.some.inj hcopy]
  exact drain_live h _

/-- A slot around the range, in front of any others. -/
theorem serve_abs (h : slot.Live) (hlo : slot.offset ≤ offset)
    (hhi : offset.toNat + len.toNat ≤ slot.offset.toNat + slot.len.toNat) (env : BinEnv)
    (t : TableRep) (moment : ℕ) (slots : List PrefetchSlot) :
    (slot.serve env t moment offset len).map (fun out => (out.1, out.2.abs :: slots)) =
      SABIReader.tryConsume env t moment offset.toNat len.toNat (slot.abs :: slots) := by
  have hin : ¬(offset.toNat < slot.abs.offset ∨
      slot.abs.offset + slot.abs.len < offset.toNat + len.toNat) :=
    not_or.2 ⟨not_lt.2 (UInt64.le_iff_toNat_le.1 hlo), not_lt.2 hhi⟩
  rw [SABIReader.tryConsume, if_neg hin]
  cases hstate : slot.state with
  | dead =>
      have hdead : slot.abs.state = .dead := by simp only [abs, hstate]
      simp only [serve, hstate, hdead, Option.map_some]
  | populated =>
      obtain ⟨bytes, hbuf⟩ := Option.ne_none_iff_exists'.1 (h.buffer hstate)
      have hdata : slot.abs.state = .populated (bytes.take slot.data) := by
        simp only [abs, hstate, hbuf, Option.getD_some]
      simp only [serve, hstate, hdata, ← copy_abs hstate hbuf hlo]
      cases slot.copy offset len <;> rfl
  | submitted =>
      have hflight : slot.abs.state = .submitted := by simp only [abs, hstate]
      have hpoll : slot.poll env t moment =
          (if env.polls moment then readAt t.file slot.abs.offset slot.abs.len else none).map
            fun result =>
              { slot with buf := some result, data := result.length, state := .populated } := rfl
      simp only [serve, hstate, hflight, hpoll]
      cases (if env.polls moment then readAt t.file slot.abs.offset slot.abs.len else none) with
      | none => simp [abs]
      | some result =>
          -- the slot as it is after the poll
          have hcopy := @copy_abs
            { slot with buf := some result, data := result.length, state := .populated }
            offset len rfl result rfl hlo
          rw [List.take_length] at hcopy
          have habs : slot.abs.copy result offset.toNat len.toNat =
              Option.map (fun out => (out.1, out.2.abs)) (copy
                { slot with buf := some result, data := result.length, state := .populated }
                offset len) := hcopy.symm
          simp only [Option.map_some, habs]
          cases copy { slot with buf := some result, data := result.length, state := .populated }
            offset len <;> rfl

theorem serve_live (h : slot.Live) {env : BinEnv} {t : TableRep} {moment : ℕ}
    {out : Option Bytes × SpanSlot} (hserve : slot.serve env t moment offset len = some out) :
    out.2.Live := by
  rw [serve] at hserve
  split at hserve
  · rw [← Option.some.inj hserve]
    exact h
  · obtain ⟨copied, hcopy, rfl⟩ := Option.map_eq_some_iff.1 hserve
    exact copy_live h hcopy
  · split at hserve
    · rw [← Option.some.inj hserve]
      exact ⟨h.range, by rintro ⟨⟩⟩
    · next polled hpoll =>
        have hpolled : polled.Live := by
          obtain ⟨result, -, rfl⟩ := Option.map_eq_some_iff.1 hpoll
          exact ⟨h.range, by simp⟩
        obtain ⟨copied, hcopy, rfl⟩ := Option.map_eq_some_iff.1 hserve
        exact copy_live hpolled hcopy

/-- What holds of every slot, whatever calls came before. -/
structure Sound (t : TableRep) (slot : SpanSlot) : Prop where
  live : slot.Live
  bytes : slot.abs.Sound t

end SpanSlot

namespace SpanPrefetch

theorem tryConsumeSlots_abs {slots : List SpanSlot} (hlive : ∀ slot ∈ slots, slot.Live)
    {offset len : UInt64} (hrange : offset.toNat + len.toNat < 2 ^ 64) (env : BinEnv) (t : TableRep)
    (moment : ℕ) :
    (tryConsumeSlots env t moment offset len slots).map
        (fun out => (out.1, out.2.map SpanSlot.abs)) =
      SABIReader.tryConsume env t moment offset.toNat len.toNat (slots.map SpanSlot.abs) := by
  induction slots with
  | nil => rfl
  | cons slot slots ih =>
      rw [List.forall_mem_cons] at hlive
      have hstop : (slot.offset + slot.len).toNat = slot.offset.toNat + slot.len.toNat := by
        rw [UInt64.toNat_add]
        exact Nat.mod_eq_of_lt hlive.1.range
      have hsum : (offset + len).toNat = offset.toNat + len.toNat := by
        rw [UInt64.toNat_add]
        exact Nat.mod_eq_of_lt hrange
      have hiff : (offset < slot.offset ∨ slot.offset + slot.len < offset + len) ↔
          offset.toNat < slot.abs.offset ∨
            slot.abs.offset + slot.abs.len < offset.toNat + len.toNat := by
        rw [UInt64.lt_iff_toNat_lt, UInt64.lt_iff_toNat_lt, hstop, hsum]
        rfl
      rw [tryConsumeSlots, List.map_cons]
      by_cases hout : offset < slot.offset ∨ slot.offset + slot.len < offset + len
      · rw [if_pos hout, SABIReader.tryConsume, if_pos (hiff.1 hout), ← ih hlive.2]
        cases tryConsumeSlots env t moment offset len slots <;> rfl
      · rw [if_neg hout]
        have hin := mt hiff.2 hout
        rw [not_or, not_lt, not_lt] at hin
        rw [← SpanSlot.serve_abs hlive.1 (UInt64.le_iff_toNat_le.2 hin.1) hin.2 env t moment]
        cases slot.serve env t moment offset len <;> rfl

theorem tryConsumeSlots_live {slots : List SpanSlot} (hlive : ∀ slot ∈ slots, slot.Live)
    {offset len : UInt64} {env : BinEnv} {t : TableRep} {moment : ℕ}
    {out : Option Bytes × List SpanSlot}
    (hout : tryConsumeSlots env t moment offset len slots = some out) :
    ∀ slot ∈ out.2, slot.Live := by
  induction slots generalizing out with
  | nil =>
      rw [← Option.some.inj hout]
      exact hlive
  | cons slot slots ih =>
      rw [List.forall_mem_cons] at hlive
      rw [tryConsumeSlots] at hout
      split at hout
      · obtain ⟨rest, hrest, hout⟩ := Option.bind_eq_some_iff.1 hout
        rw [← Option.some.inj hout]
        exact List.forall_mem_cons.2 ⟨hlive.1, ih hlive.2 hrest⟩
      · obtain ⟨served, hserve, rfl⟩ := Option.map_eq_some_iff.1 hout
        exact List.forall_mem_cons.2 ⟨SpanSlot.serve_live hlive.1 hserve, hlive.2⟩

/-- A call ends well, and what it copies is in the file. -/
theorem tryConsume_spec {t : TableRep} {p : SpanPrefetch} (hp : ∀ slot ∈ p.slots, slot.Sound t)
    {offset len : UInt64} (hrange : offset.toNat + len.toNat < 2 ^ 64) (env : BinEnv) :
    ∃ bytes p', p.tryConsume env t offset len = some (bytes, p') ∧
      (∀ slot ∈ p'.slots, slot.Sound t) ∧
      ∀ xs, bytes = some xs → readAt t.file offset.toNat len.toNat = some xs := by
  have hlive : ∀ slot ∈ p.slots, slot.Live := fun slot hslot => (hp slot hslot).live
  have hsound : ∀ slot ∈ p.slots.map SpanSlot.abs, slot.Sound t := by
    rw [List.forall_mem_map]
    exact fun slot hslot => (hp slot hslot).bytes
  obtain ⟨bytes, slots', heq, hsound', hbytes⟩ :=
    BitLSM.tryConsume_spec hsound env p.moment offset.toNat len.toNat
  rw [← tryConsumeSlots_abs hlive hrange] at heq
  obtain ⟨out, hout, hpair⟩ := Option.map_eq_some_iff.1 heq
  obtain ⟨rfl, rfl⟩ := Prod.mk.inj hpair
  refine ⟨out.1, ⟨out.2, p.moment + 1⟩, by rw [tryConsume, hout]; rfl, fun slot hslot => ?_, hbytes⟩
  exact ⟨tryConsumeSlots_live hlive hout slot hslot,
    hsound' _ (List.mem_map_of_mem hslot)⟩

/-! ### Any sequence of calls -/

variable {frozen : FrozenCodec} {t : TableRep} {r : SABIReader} {bitmaps : List Roaring}

theorem submit_spec (h : BinsAt frozen t r bitmaps) (hfile : t.file.length < 2 ^ 64) (env : BinEnv)
    {p : SpanPrefetch} (hp : ∀ slot ∈ p.slots, slot.Sound t) {run : BinSelection}
    (hproper : run.first ≤ run.last) (hlast : run.last.toNat ≤ r.totalBins) :
    ∃ p', submit env t r p run = some p' ∧ ∀ slot ∈ p'.slots, slot.Sound t := by
  obtain ⟨start, stop, -, hlt, hextent, hroom⟩ := h.runBytes hproper hlast
  have hoffset : (UInt64.ofNat (t.udiOff + start)).toNat = t.udiOff + start := by
    rw [UInt64.toNat_ofNat']
    omega
  have hlen : (UInt64.ofNat (stop - start)).toNat = stop - start := by
    rw [UInt64.toNat_ofNat']
    omega
  have hpush (slot : SpanSlot) (hslot : slot.Sound t) : ∀ s ∈ p.slots ++ [slot], s.Sound t := by
    intro s hs
    rcases List.mem_append.1 hs with hmem | hmem
    · exact hp s hmem
    · exact List.mem_singleton.1 hmem ▸ hslot
  have hrange : (UInt64.ofNat (t.udiOff + start)).toNat + (UInt64.ofNat (stop - start)).toNat <
      2 ^ 64 := by omega
  rw [submit, hextent]
  simp only [Option.bind_eq_bind, Option.bind_some]
  split
  · exact ⟨_, rfl, hp⟩
  · exact ⟨_, rfl, hpush _ ⟨⟨hrange, by simp⟩, by rintro data ⟨⟩⟩⟩
  · split
    · exact ⟨_, rfl, hp⟩
    · next result hresult =>
        refine ⟨_, rfl, hpush _ ⟨⟨hrange, by simp⟩, fun data hdata => ?_⟩⟩
        obtain rfl : (result.take result.length) = data := SlotState.populated.inj hdata
        rw [List.take_length]
        exact hresult

theorem foldlM_submit_spec (h : BinsAt frozen t r bitmaps) (hfile : t.file.length < 2 ^ 64)
    (env : BinEnv) {runs : List BinSelection}
    (hruns : ∀ run ∈ runs, run.first ≤ run.last ∧ run.last.toNat ≤ r.totalBins)
    {p : SpanPrefetch} (hp : ∀ slot ∈ p.slots, slot.Sound t) :
    ∃ p', runs.foldlM (submit env t r) p = some p' ∧ ∀ slot ∈ p'.slots, slot.Sound t := by
  induction runs generalizing p with
  | nil => exact ⟨p, rfl, hp⟩
  | cons run runs ih =>
      rw [List.forall_mem_cons] at hruns
      obtain ⟨p₁, hsubmit, hp₁⟩ := submit_spec h hfile env hp hruns.1.1 hruns.1.2
      obtain ⟨p₂, hfold, hp₂⟩ := ih hruns.2 hp₁
      exact ⟨p₂, by rw [List.foldlM_cons, hsubmit]; exact hfold, hp₂⟩

theorem planAndSubmit_spec (h : BinsAt frozen t r bitmaps) (hfile : t.file.length < 2 ^ 64)
    (std : StdSort) (env : BinEnv) (asyncReadUnavailable : Bool) (cached : UInt32 → Bool)
    {selections : List BinSelection} (hsel : InBins r.totalBins selections) {p : SpanPrefetch}
    (hp : ∀ slot ∈ p.slots, slot.Sound t) :
    ∃ p', p.planAndSubmit std env t r asyncReadUnavailable cached selections = some p' ∧
      ∀ slot ∈ p'.slots, slot.Sound t := by
  have hbins := h.totalBins_lt
  obtain ⟨runs, hruns, hplan⟩ := planRuns_spec std cached fun s hs =>
    ⟨(hsel s hs).1, lt_of_le_of_lt (hsel s hs).2 hbins⟩
  have htake : ∀ run ∈ runs.take kMaxSlots, run.first ≤ run.last ∧
      run.last.toNat ≤ r.totalBins :=
    fun run hrun => hplan.inBins hsel run (List.mem_of_mem_take hrun)
  obtain ⟨p', hfold, hp'⟩ := foldlM_submit_spec h hfile env htake hp
  rw [planAndSubmit]
  split
  · exact ⟨p, rfl, hp⟩
  · rw [hruns]
    simp only [Option.bind_eq_bind, Option.bind_some]
    split
    · exact ⟨p, rfl, hp⟩
    · exact ⟨p', hfold, hp'⟩

end SpanPrefetch

inductive SpanCall where
  | planAndSubmit (asyncReadUnavailable : Bool) (cached : UInt32 → Bool)
      (selections : List BinSelection)
  | tryConsume (offset len : UInt64)

/-- Bins of the table, and a range whose end a `uint64_t` holds. -/
def SpanCall.InRange (bins : ℕ) : SpanCall → Prop
  | planAndSubmit _ _ selections => InBins bins selections
  | tryConsume offset len => offset.toNat + len.toNat < 2 ^ 64

namespace SpanPrefetch

/-- The copied bytes, if any, and the state after the call. -/
def call (std : StdSort) (env : BinEnv) (t : TableRep) (r : SABIReader) (p : SpanPrefetch) :
    SpanCall → Option (Option Bytes × SpanPrefetch)
  | .planAndSubmit asyncReadUnavailable cached selections =>
      (p.planAndSubmit std env t r asyncReadUnavailable cached selections).map (none, ·)
  | .tryConsume offset len => p.tryConsume env t offset len

def callAll (std : StdSort) (env : BinEnv) (t : TableRep) (r : SABIReader) :
    SpanPrefetch → List SpanCall → Option (List (Option Bytes) × SpanPrefetch)
  | p, [] => some ([], p)
  | p, c :: calls => do
      let (bytes, p) ← p.call std env t r c
      let (rest, p) ← callAll std env t r p calls
      return (bytes :: rest, p)

variable {frozen : FrozenCodec} {t : TableRep} {r : SABIReader} {bitmaps : List Roaring}

theorem call_spec (h : BinsAt frozen t r bitmaps) (hfile : t.file.length < 2 ^ 64) (std : StdSort)
    (env : BinEnv) {p : SpanPrefetch} (hp : ∀ slot ∈ p.slots, slot.Sound t) {c : SpanCall}
    (hc : c.InRange r.totalBins) :
    ∃ bytes p', p.call std env t r c = some (bytes, p') ∧ (∀ slot ∈ p'.slots, slot.Sound t) ∧
      ∀ offset len xs, c = .tryConsume offset len → bytes = some xs →
        readAt t.file offset.toNat len.toNat = some xs := by
  cases c with
  | planAndSubmit asyncReadUnavailable cached selections =>
      obtain ⟨p', hplan, hp'⟩ :=
        planAndSubmit_spec h hfile std env asyncReadUnavailable cached hc hp
      exact ⟨none, p', by rw [call, hplan]; rfl, hp', by simp⟩
  | tryConsume offset len =>
      obtain ⟨bytes, p', hconsume, hp', hbytes⟩ := tryConsume_spec hp hc env
      refine ⟨bytes, p', hconsume, hp', ?_⟩
      rintro _ _ xs ⟨⟩ hxs
      exact hbytes xs hxs

theorem callAll_spec (h : BinsAt frozen t r bitmaps) (hfile : t.file.length < 2 ^ 64)
    (std : StdSort) (env : BinEnv) {calls : List SpanCall}
    (hcalls : ∀ c ∈ calls, c.InRange r.totalBins) {p : SpanPrefetch}
    (hp : ∀ slot ∈ p.slots, slot.Sound t) :
    ∃ outs p', p.callAll std env t r calls = some (outs, p') ∧
      ∀ (k : ℕ) offset len xs, calls[k]? = some (.tryConsume offset len) →
        outs[k]? = some (some xs) → readAt t.file offset.toNat len.toNat = some xs := by
  induction calls generalizing p with
  | nil => exact ⟨[], p, rfl, by simp⟩
  | cons c calls ih =>
      rw [List.forall_mem_cons] at hcalls
      obtain ⟨bytes, p₁, hcall, hp₁, hbytes⟩ := call_spec h hfile std env hp hcalls.1
      obtain ⟨outs, p₂, hrest, houts⟩ := ih hcalls.2 hp₁
      refine ⟨bytes :: outs, p₂, by rw [callAll, hcall]; simp [hrest], fun k offset len xs
          hk hx => ?_⟩
      cases k with
      | zero => exact hbytes offset len xs (Option.some.inj hk) (Option.some.inj hx)
      | succ k => exact houts k offset len xs hk hx

end SpanPrefetch

/-- The plan is exact, and what is served is in the file. -/
theorem spanPrefetch_exact {frozen : FrozenCodec} {t : TableRep} {r : SABIReader}
    {bitmaps : List Roaring} (h : BinsAt frozen t r bitmaps) (hfile : t.file.length < 2 ^ 64)
    (std : StdSort) :
    (∀ (cached : UInt32 → Bool) (selections : List BinSelection), InBins r.totalBins selections →
      ∃ runs, planRuns std cached selections = some runs ∧
        (∀ run ∈ runs, run.first ≤ run.last) ∧
        runs.Pairwise (fun a b => a.last.toNat + 1 < b.first.toNat) ∧
        (∀ i, Selected runs i ↔ Selected selections i ∧ cached i = false) ∧
        (∀ run ∈ runs, ∃ start stop, r.RunBytes run start stop ∧ start < stop ∧
          r.runExtent run.first.toNat run.last.toNat = some (start, stop - start)) ∧
        runs.Pairwise (fun a b => ∀ start stop start' stop', r.RunBytes a start stop →
          r.RunBytes b start' stop' → stop ≤ start')) ∧
    ∀ (env : BinEnv) (calls : List SpanCall), (∀ c ∈ calls, c.InRange r.totalBins) →
      ∃ outs p, SpanPrefetch.callAll std env t r {} calls = some (outs, p) ∧
        ∀ (k : ℕ) offset len xs, calls[k]? = some (.tryConsume offset len) →
          outs[k]? = some (some xs) → readAt t.file offset.toNat len.toNat = some xs := by
  refine ⟨fun cached selections hsel => ?_, fun env calls hcalls =>
    SpanPrefetch.callAll_spec h hfile std env hcalls (by simp)⟩
  have hbins := h.totalBins_lt
  obtain ⟨runs, hruns, hplan⟩ := planRuns_spec std cached fun s hs =>
    ⟨(hsel s hs).1, lt_of_le_of_lt (hsel s hs).2 hbins⟩
  have hin := hplan.inBins hsel
  refine ⟨runs, hruns, hplan.proper, hplan.separated, hplan.exact, fun run hrun => ?_, ?_⟩
  · obtain ⟨start, stop, hbytes, hlt, hextent, -⟩ := h.runBytes (hin run hrun).1 (hin run hrun).2
    exact ⟨start, stop, hbytes, hlt, hextent⟩
  · refine hplan.separated.imp_of_mem fun {a b} _ hb hab start stop start' stop' ha hb' => ?_
    have hproper := UInt32.le_iff_toNat_le.1 (hin b hb).1
    exact h.runBytes_disjoint (by omega) (hproper.trans (hin b hb).2) ha hb'

/-- The whole value under two range attributes: two bins and the tombstones. -/
def twiceSchema : SABISchema where
  indexTypes := [.range, .range]
  rho := ⟨0x3FF0000000000000⟩

def twiceExtractor : AttrExtractor := fun _ value => some [some value, some value]

/-- Every read is submitted and arrives. -/
def BinEnv.prompt : BinEnv := { BinEnv.calm with submits := fun _ => .inFlight }

/-- A plan of two runs, bin 1 being cached, and one call. -/
def twoRunCalls (offset len : UInt64) : List SpanCall :=
  [.planAndSubmit false (fun i => i == 1) [⟨1, 2⟩, ⟨0, 1⟩], .tryConsume offset len]

theorem parse_twice :
    ((SABIBuilder.run Runtime.oneRow.hash twiceExtractor twiceSchema oneRowCalls).bind
      fun b => (b.buildIndex .oneRow).bind fun idx => (b.finish .oneRow).bind fun blob =>
        (SABIReader.parse Runtime.oneRow.frozen .metadata blob).map fun r =>
          (idx.regionEnd Runtime.oneRow.frozen 1, blob.length, r.totalBins,
            decide ((SpanPrefetch.callAll .insertion .prompt ⟨blob, 0⟩ r {} (twoRunCalls 96 4)).map
              (fun served => served.1) = some [none, some [0xC6, 0x35, 0, 0]]),
            (SpanPrefetch.callAll .insertion .prompt ⟨blob, 0⟩ r {}
              (twoRunCalls 18446744073709551611 5)).isNone)) = some (128, 254, 2, true, true) := by
  decide +kernel

/-- The second run, the tombstones, is served. -/
theorem spanPrefetch_exact_twice : ∃ b blob r runs,
    SABIBuilder.run Runtime.oneRow.hash twiceExtractor twiceSchema oneRowCalls = some b ∧
    b.finish .oneRow = some blob ∧
    SABIReader.parse Runtime.oneRow.frozen .metadata blob = some r ∧
    planRuns .insertion (fun i => i == 1) [⟨1, 2⟩, ⟨0, 1⟩] = some runs ∧
    (∀ i, Selected runs i ↔ Selected [⟨1, 2⟩, ⟨0, 1⟩] i ∧ (i == 1) = false) ∧
    (SpanPrefetch.callAll .insertion .prompt ⟨blob, 0⟩ r {} (twoRunCalls 96 4)).map
      (fun served => served.1) = some [none, some [0xC6, 0x35, 0, 0]] ∧
    readAt blob 96 4 = some [0xC6, 0x35, 0, 0] := by
  obtain ⟨b, hrun, h⟩ := Option.bind_eq_some_iff.1 parse_twice
  obtain ⟨idx, hidx, h⟩ := Option.bind_eq_some_iff.1 h
  obtain ⟨blob, hfinish, h⟩ := Option.bind_eq_some_iff.1 h
  obtain ⟨r, hmeta, h⟩ := Option.map_eq_some_iff.1 h
  simp only [Prod.mk.injEq] at h
  obtain ⟨hend, hlen, htotal, hserved, -⟩ := h
  have hserved := of_decide_eq_true hserved
  have hlt : blob.length < 2 ^ 32 := by omega
  have hreached := SABIBuilder.run_reached hrun
  obtain ⟨out, blob', hfinish', hwritten⟩ := hreached.finish_written hidx
    (hend.trans_le (by decide))
  obtain rfl := Option.some.inj (hfinish'.symm.trans hfinish)
  obtain ⟨-, hoffsets, hsizes, -⟩ := hwritten.parse_bins (hreached.shaped hidx) hlt hmeta
  have hbins : BinsAt _ ⟨blob', 0⟩ r idx.bitmaps :=
    hwritten.binsAt hoffsets hsizes (HasAt.self blob')
  have hsel : InBins r.totalBins [⟨1, 2⟩, ⟨0, 1⟩] := by
    rw [htotal, InBins]
    decide
  obtain ⟨hplan, hserve⟩ := spanPrefetch_exact hbins (hlt.trans (by decide)) .insertion
  obtain ⟨runs, hruns, -, -, hexact, -⟩ := hplan (fun i => i == 1) _ hsel
  have hrange : (96 : UInt64).toNat + (4 : UInt64).toNat < 2 ^ 64 := by decide
  obtain ⟨outs, p, hcalls, houts⟩ := hserve .prompt (twoRunCalls 96 4)
    (List.forall_mem_cons.2 ⟨hsel, List.forall_mem_singleton.2 hrange⟩)
  refine ⟨b, blob', r, runs, hrun, hfinish, hmeta, hruns, hexact, hserved, ?_⟩
  rw [hcalls] at hserved
  obtain rfl : outs = _ := Option.some.inj hserved
  exact houts 1 96 4 _ rfl rfl

/-- The end of a range wraps to zero, the first slot takes the range for its own,
and bytes far behind its buffer are copied. -/
theorem spanPrefetch_end_wraps : ∃ b blob r,
    SABIBuilder.run Runtime.oneRow.hash twiceExtractor twiceSchema oneRowCalls = some b ∧
    b.finish .oneRow = some blob ∧
    SABIReader.parse Runtime.oneRow.frozen .metadata blob = some r ∧
    InBins r.totalBins [⟨1, 2⟩, ⟨0, 1⟩] ∧
    SpanPrefetch.callAll .insertion .prompt ⟨blob, 0⟩ r {}
      (twoRunCalls 18446744073709551611 5) = none := by
  obtain ⟨b, hrun, h⟩ := Option.bind_eq_some_iff.1 parse_twice
  obtain ⟨idx, -, h⟩ := Option.bind_eq_some_iff.1 h
  obtain ⟨blob, hfinish, h⟩ := Option.bind_eq_some_iff.1 h
  obtain ⟨r, hmeta, h⟩ := Option.map_eq_some_iff.1 h
  simp only [Prod.mk.injEq] at h
  obtain ⟨-, -, htotal, -, hnone⟩ := h
  refine ⟨b, blob, r, hrun, hfinish, hmeta, ?_, Option.isNone_iff_eq_none.1 hnone⟩
  rw [htotal, InBins]
  decide

end BitLSM
