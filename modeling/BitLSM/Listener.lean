import BitLSM.Schema
import BitLSM.Lib.Transition

/-!
Column families, their estimators and the stats listener.

Threads call `CreateColumnFamily`, `DropColumnFamily`, the listener's `Notify`
and, at the ends, the constructor and the destructor. A step is one critical
section or a part of it with the lock still held: `cfMu` is the registry's
lock and `mu` the listener's. Handles and estimators are numbered as they are
made, so a number stands for one object and never for a later one.
-/

namespace BitLSM

/-- A `ColumnFamilyHandle`. It owns its estimator. -/
structure CfHandle where
  name : String
  id : ℕ
  estimator : Option ℕ
  deriving DecidableEq, Repr

/-- An estimator and the column family it was built for. -/
structure EstimatorObj where
  cf : ℕ
  alive : Bool
  deriving DecidableEq, Repr

/-- What a column family is created from. -/
structure CfSpec where
  name : String
  options : BitLSMOptions
  enableEstimator : Bool
  deriving DecidableEq, Repr

/-- Where a thread is. -/
inductive Pc where
  | idle
  /-- In `RegisterColumnFamily`, with the families still to register and their
  ids. Holds `cfMu`. -/
  | registering (todo : List (CfSpec × ℕ))
  /-- The registry owns handle `h`; next its estimator is armed under `id`. -/
  | arming (h id : ℕ) (todo : List (CfSpec × ℕ))
  /-- In `DropColumnFamily`, which has taken `h` out of the registry. -/
  | disarming (h : ℕ)
  | dropping (h : ℕ)
  | resetting (h : ℕ)
  | freeing (h : ℕ)
  /-- In `Notify`, about to call `NotifyChange`. Holds `mu`. -/
  | notifying (e : ℕ)
  /-- In the destructor, with the handles still to go through. -/
  | destructing (todo : List ℕ)
  deriving DecidableEq

/-- Outside every call of the database. -/
def Pc.quiet : Pc → Bool
  | .idle => true
  | .notifying _ => true
  | _ => false

/-- What only one thread works on: the handle a drop has taken, or, in the
destructor, everything. -/
def Pc.claim : Pc → Option (Option ℕ)
  | .disarming h => some (some h)
  | .dropping h => some (some h)
  | .resetting h => some (some h)
  | .freeing h => some (some h)
  | .destructing _ => some none
  | _ => none

/-- The handle a thread is about to use. -/
def Pc.uses : Pc → Option ℕ
  | .arming h _ _ => some h
  | .disarming h => some h
  | .dropping h => some h
  | .resetting h => some h
  | .freeing h => some h
  | .destructing (h :: _) => some h
  | _ => none

inductive Phase where
  | unopened
  | opening
  | running
  | closing
  | closed
  deriving DecidableEq, Repr

structure CfState where
  threads : List Pc
  phase : Phase := .unopened
  registry : List (String × ℕ) := []
  handles : ℕ → Option CfHandle := fun _ => none
  estimators : ℕ → Option EstimatorObj := fun _ => none
  /-- The listener's `targets_`. -/
  targets : ℕ → Option ℕ := fun _ => none
  defaultCf : Option ℕ := none
  cfMu : Option ℕ := none
  mu : Option ℕ := none
  nextHandle : ℕ := 0
  nextEstimator : ℕ := 0
  /-- Column family ids RocksDB has given out. -/
  usedIds : List ℕ := []
  /-- Handles that were passed to `DropColumnFamily`. -/
  dropped : List ℕ := []
  /-- Column families whose drop has completed its `Disarm`. -/
  disarmed : List ℕ := []

namespace CfState

def lookup (s : CfState) (name : String) : Option ℕ :=
  (s.registry.find? fun p => p.1 = name).map Prod.snd

def setPc (s : CfState) (t : ℕ) (pc : Pc) : CfState := { s with threads := s.threads.set t pc }

/-- Destroy an estimator. -/
def kill (s : CfState) (e : Option ℕ) : ℕ → Option EstimatorObj := fun x =>
  if some x = e then (s.estimators x).map fun o => { o with alive := false } else s.estimators x

/-! ### Calls that begin -/

/-- The constructor, once `DB::Open` has returned the ids. -/
def openDb (s : CfState) (t : ℕ) (descriptors : List (CfSpec × ℕ)) : Option CfState :=
  if s.phase = .unopened ∧ s.cfMu = none ∧ (descriptors.map fun d => d.1.name).Nodup ∧
      (descriptors.map Prod.snd).Nodup ∧ "default" ∈ descriptors.map (fun d => d.1.name) ∧
      (∀ d ∈ descriptors, validateAttrSpecs d.1.options = .ok) then
    some ({ s with
      phase := .opening
      cfMu := some t
      usedIds := descriptors.map Prod.snd }.setPc t (.registering descriptors))
  else none

/-- `created` is RocksDB's answer: a new id, or a failure. -/
def create (s : CfState) (t : ℕ) (spec : CfSpec) (created : Option ℕ) : Option CfState :=
  if s.phase = .running ∧ s.cfMu = none then
    if (s.lookup spec.name).isSome then some s
    else if validateAttrSpecs spec.options ≠ .ok then some s
    else
      match created with
      | none => some s
      | some id =>
          if id ∈ s.usedIds then none
          else some ({ s with cfMu := some t, usedIds := id :: s.usedIds }.setPc t
            (.registering [(spec, id)]))
  else none

/-- A handle may be passed in once. The lookup and the removal are one critical
section. -/
def drop (s : CfState) (t h : ℕ) : Option CfState :=
  if s.phase = .running ∧ s.cfMu = none ∧ h ∉ s.dropped then
    let s := { s with dropped := h :: s.dropped }
    if s.defaultCf = some h then some s
    else
      match s.handles h with
      | none => none
      | some o =>
          if s.lookup o.name ≠ some h then some s
          else some ({ s with registry := s.registry.filter fun p => p.1 ≠ o.name }.setPc t
            (.disarming h))
  else none

def notify (s : CfState) (t cf : ℕ) : Option CfState :=
  if s.mu = none then
    match s.targets cf with
    | none => some s
    | some e => some ({ s with mu := some t }.setPc t (.notifying e))
  else none

/-- The destructor, when only `Notify` may still run. -/
def destruct (s : CfState) (t : ℕ) : Option CfState :=
  if s.phase = .running ∧ s.mu = none ∧ s.threads.all Pc.quiet then
    some ({ s with phase := .closing, targets := fun _ => none }.setPc t
      (.destructing (s.registry.map Prod.snd)))
  else none

/-! ### Calls that go on -/

/-- `RegisterColumnFamily` up to the `emplace`, and the handle that is then
registered. A name that is there keeps its handle, and the new one is
destroyed. -/
def emplace (s : CfState) (spec : CfSpec) (id : ℕ) : CfState × ℕ :=
  match s.lookup spec.name with
  | some h => (s, h)
  | none =>
      ({ s with
          registry := s.registry ++ [(spec.name, s.nextHandle)]
          handles := Function.update s.handles s.nextHandle
            (some ⟨spec.name, id, if spec.enableEstimator then some s.nextEstimator else none⟩)
          estimators :=
            if spec.enableEstimator then
              Function.update s.estimators s.nextEstimator (some ⟨id, true⟩)
            else s.estimators
          nextHandle := s.nextHandle + 1
          nextEstimator := s.nextEstimator + 1 }, s.nextHandle)

/-- The registrations are done: the lock is released. -/
def registered (s : CfState) : CfState :=
  { s with
    cfMu := none
    phase := .running
    defaultCf := if s.phase = .opening then s.lookup "default" else s.defaultCf }

def arm (s : CfState) (h id : ℕ) : Option CfState :=
  match s.handles h with
  | none => none
  | some o =>
      match o.estimator with
      | none => some s
      | some e =>
          if s.mu = none then some { s with targets := Function.update s.targets id (some e) }
          else none

def disarm (s : CfState) (h : ℕ) : Option CfState :=
  match s.handles h with
  | none => none
  | some o =>
      if s.mu = none then
        some { s with
          targets := Function.update s.targets o.id none
          disarmed := o.id :: s.disarmed }
      else none

/-- `estimator_.reset()` of handle `h`. -/
def reset (s : CfState) (h : ℕ) : Option CfState :=
  match s.handles h with
  | none => none
  | some o =>
      some { s with
        handles := Function.update s.handles h (some { o with estimator := none })
        estimators := s.kill o.estimator }

/-- The next step of a call. -/
def go (s : CfState) (t : ℕ) : Pc → Option CfState
  | .idle => none
  | .registering [] => some (s.setPc t .idle).registered
  | .registering ((spec, id) :: todo) =>
      let (s, h) := s.emplace spec id
      some (s.setPc t (.arming h id todo))
  | .arming h id todo => (s.arm h id).map fun s => s.setPc t (.registering todo)
  | .disarming h => (s.disarm h).map fun s => s.setPc t (.dropping h)
  -- RocksDB may fail to drop the family; the rest is done all the same
  | .dropping h => some (s.setPc t (.resetting h))
  | .resetting h => (s.reset h).map fun s => s.setPc t (.freeing h)
  | .freeing h => some { s.setPc t .idle with handles := Function.update s.handles h none }
  | .notifying _ => some { s.setPc t .idle with mu := none }
  | .destructing [] =>
      some { s.setPc t .idle with phase := .closed, registry := [], handles := fun _ => none }
  | .destructing (h :: todo) => (s.reset h).map fun s => s.setPc t (.destructing todo)

inductive Call where
  | openDb (descriptors : List (CfSpec × ℕ))
  | create (spec : CfSpec) (created : Option ℕ)
  | drop (h : ℕ)
  | notify (cf : ℕ)
  | destruct
  /-- The call in progress makes its next step. -/
  | go

def step (action : ℕ × Call) (s : CfState) : Option CfState :=
  match s.threads[action.1]?, action.2 with
  | some .idle, .openDb descriptors => s.openDb action.1 descriptors
  | some .idle, .create spec created => s.create action.1 spec created
  | some .idle, .drop h => s.drop action.1 h
  | some .idle, .notify cf => s.notify action.1 cf
  | some .idle, .destruct => s.destruct action.1
  | some pc, .go => s.go action.1 pc
  | _, _ => none

/-! ### What every state satisfies -/

/-- The families still to be registered: their ids and names are new. -/
structure TodoOk (s : CfState) (todo : List (CfSpec × ℕ)) : Prop where
  ids : (todo.map Prod.snd).Nodup
  names : (todo.map fun d => d.1.name).Nodup
  fresh : ∀ d ∈ todo, d.2 ∈ s.usedIds ∧ d.2 ∉ s.disarmed ∧
    (∀ h o, s.handles h = some o → o.id ≠ d.2) ∧ ∀ p ∈ s.registry, p.1 ≠ d.1.name

/-- Handle `h` was taken out of the registry and is still there. -/
def Taken (s : CfState) (h : ℕ) (o : CfHandle) : Prop :=
  s.phase = .running ∧ h ∈ s.dropped ∧ s.handles h = some o ∧ ∀ p ∈ s.registry, p.2 ≠ h

/-- What is known when thread `t` is at `pc`. -/
def PcOk (s : CfState) (t : ℕ) : Pc → Prop
  | .idle => True
  | .registering todo => s.cfMu = some t ∧ (s.phase = .opening ∨ s.phase = .running) ∧ s.TodoOk todo
  | .arming h id todo => s.cfMu = some t ∧ (s.phase = .opening ∨ s.phase = .running) ∧
      s.TodoOk todo ∧ ∃ o, s.handles h = some o ∧ o.id = id ∧ (o.name, h) ∈ s.registry
  | .disarming h => ∃ o, s.Taken h o
  | .dropping h => ∃ o, s.Taken h o ∧ o.id ∈ s.disarmed
  | .resetting h => ∃ o, s.Taken h o ∧ o.id ∈ s.disarmed
  | .freeing h => ∃ o, s.Taken h o ∧ o.estimator = none
  | .notifying e => s.mu = some t ∧ ∃ id, s.targets id = some e
  | .destructing todo => s.phase = .closing ∧ ∀ h ∈ todo, ∃ o, s.handles h = some o

structure Inv (s : CfState) : Prop where
  unopened : s.phase = .unopened → s.usedIds = []
  /-- A handle is there until it is dropped. -/
  undropped : ∀ h < s.nextHandle, h ∉ s.dropped → s.phase ≠ .closed → ∃ o, s.handles h = some o
  /-- A handle's estimator is alive and was built for the handle's family. -/
  owned : ∀ h o e, s.handles h = some o → o.estimator = some e → s.estimators e = some ⟨o.id, true⟩
  ids : ∀ h₁ h₂ o₁ o₂, s.handles h₁ = some o₁ → s.handles h₂ = some o₂ → o₁.id = o₂.id → h₁ = h₂
  used : ∀ h o, s.handles h = some o → o.id ∈ s.usedIds
  newHandle : ∀ h o, s.handles h = some o → h < s.nextHandle
  newEstimator : ∀ e o, s.estimators e = some o → e < s.nextEstimator
  registered : ∀ p ∈ s.registry, ∃ o, s.handles p.2 = some o ∧ o.name = p.1 ∧ o.id ∉ s.disarmed
  /-- What is armed belongs to a handle, under the handle's id. -/
  armed : ∀ id e, s.targets id = some e →
    ∃ h o, s.handles h = some o ∧ o.id = id ∧ o.estimator = some e
  disarmed : ∀ id ∈ s.disarmed, s.targets id = none ∧ id ∈ s.usedIds
  closed : s.phase = .closing ∨ s.phase = .closed → ∀ id, s.targets id = none
  pcs : ∀ (t : ℕ) pc, s.threads[t]? = some pc → s.PcOk t pc
  unique : ∀ (t₁ t₂ : ℕ) (pc₁ pc₂ : Pc) x, s.threads[t₁]? = some pc₁ → s.threads[t₂]? = some pc₂ →
    pc₁.claim = some x → pc₂.claim = some x → t₁ = t₂

theorem getElem?_setPc {s : CfState} {t u : ℕ} {pc pc' : Pc}
    (h : (s.setPc t pc').threads[u]? = some pc) :
    (u = t ∧ pc = pc') ∨ (u ≠ t ∧ s.threads[u]? = some pc) := by
  rw [setPc, List.getElem?_set] at h
  grind


theorem todoOk_setPc {s : CfState} {t : ℕ} {pc : Pc} {todo : List (CfSpec × ℕ)} :
    (s.setPc t pc).TodoOk todo ↔ s.TodoOk todo :=
  ⟨fun h => ⟨h.ids, h.names, h.fresh⟩, fun h => ⟨h.ids, h.names, h.fresh⟩⟩

theorem pcOk_setPc {s : CfState} {t u : ℕ} {pc pc' : Pc} :
    (s.setPc t pc').PcOk u pc ↔ s.PcOk u pc := by
  cases pc with
  | registering todo => simp only [PcOk, todoOk_setPc]; rfl
  | arming h id todo => simp only [PcOk, todoOk_setPc]; rfl
  | _ => rfl

/-- A thread moves on and nothing else changes. -/
theorem Inv.setPc {s : CfState} {t : ℕ} {pc : Pc} (h : s.Inv) (hpc : s.PcOk t pc)
    (hunique : ∀ (u : ℕ) (pc' : Pc) x, u ≠ t → s.threads[u]? = some pc' → pc.claim = some x →
      pc'.claim ≠ some x) : (s.setPc t pc).Inv where
  __ := h
  pcs u pc' hu := by
    rw [pcOk_setPc]
    rcases getElem?_setPc hu with ⟨rfl, rfl⟩ | ⟨-, hu⟩
    · exact hpc
    · exact h.pcs u pc' hu
  unique t₁ t₂ pc₁ pc₂ x h₁ h₂ hx₁ hx₂ := by
    rcases getElem?_setPc h₁ with ⟨ht₁, hpc₁⟩ | ⟨hne₁, h₁'⟩ <;>
      rcases getElem?_setPc h₂ with ⟨ht₂, hpc₂⟩ | ⟨hne₂, h₂'⟩
    · exact ht₁.trans ht₂.symm
    · exact absurd hx₂ (hunique t₂ pc₂ x hne₂ h₂' (hpc₁ ▸ hx₁))
    · exact absurd hx₁ (hunique t₁ pc₁ x hne₁ h₁' (hpc₂ ▸ hx₂))
    · exact h.unique t₁ t₂ pc₁ pc₂ x h₁' h₂' hx₁ hx₂

/-- A call returns. -/
theorem Inv.setIdle {s : CfState} (h : s.Inv) (t : ℕ) : (s.setPc t .idle).Inv :=
  h.setPc trivial (by simp [Pc.claim])

theorem reset_eq_some {s s' : CfState} {h : ℕ} (hs : s.reset h = some s') :
    ∃ o, s.handles h = some o ∧ s' = { s with
      handles := Function.update s.handles h (some { o with estimator := none })
      estimators := s.kill o.estimator } := by
  rw [reset] at hs
  cases ho : s.handles h with
  | none => simp [ho] at hs
  | some o => exact ⟨o, rfl, by simpa [ho, eq_comm] using hs⟩

theorem disarm_eq_some {s s' : CfState} {h : ℕ} (hs : s.disarm h = some s') :
    ∃ o, s.handles h = some o ∧ s.mu = none ∧ s' = { s with
      targets := Function.update s.targets o.id none
      disarmed := o.id :: s.disarmed } := by
  rw [disarm] at hs
  cases ho : s.handles h with
  | none => simp [ho] at hs
  | some o =>
      simp only [ho] at hs
      split at hs
      · next hmu => exact ⟨o, rfl, hmu, (Option.some.inj hs).symm⟩
      · cases hs

theorem arm_eq_some {s s' : CfState} {h id : ℕ} (hs : s.arm h id = some s') :
    ∃ o, s.handles h = some o ∧ (s' = s ∨ ∃ e, o.estimator = some e ∧ s.mu = none ∧
      s' = { s with targets := Function.update s.targets id (some e) }) := by
  rw [arm] at hs
  cases ho : s.handles h with
  | none => simp [ho] at hs
  | some o =>
      refine ⟨o, rfl, ?_⟩
      cases he : o.estimator with
      | none =>
          simp only [ho, he, Option.some.injEq] at hs
          exact Or.inl hs.symm
      | some e =>
          simp only [ho, he] at hs
          split at hs
          · next hmu => exact Or.inr ⟨e, rfl, hmu, (Option.some.inj hs).symm⟩
          · cases hs

/-- The estimator of a handle that nothing is armed for is destroyed. -/
theorem Inv.reset {s s' : CfState} {h : ℕ} (hinv : s.Inv) (hs : s.reset h = some s')
    (hsafe : ∀ o, s.handles h = some o → s.targets o.id = none) : s'.Inv := by
  obtain ⟨hunop, hundr, howned, hids, hused, hnewh, hnewe, hreg, harmed, hdis, hclosed, hpcs,
    huniq⟩ := hinv
  obtain ⟨o, ho, rfl⟩ := reset_eq_some hs
  have hnone := hsafe o ho
  constructor <;> simp only [Function.update_apply, kill]
  case pcs =>
    intro u pc hu
    have hpc := hpcs u pc hu
    cases pc <;> simp only [PcOk, Taken, Function.update_apply] at hpc ⊢ <;> grind [TodoOk]
  case unique => exact huniq
  all_goals grind

theorem Inv.arm {s s' : CfState} {h id : ℕ} (hinv : s.Inv) (hs : s.arm h id = some s')
    (hid : ∀ o, s.handles h = some o → o.id = id) (hopen : s.phase = .opening ∨ s.phase = .running)
    (hnew : id ∉ s.disarmed) : s'.Inv := by
  obtain ⟨o, ho, rfl | ⟨e, he, hmu, rfl⟩⟩ := arm_eq_some hs
  · exact hinv
  obtain ⟨hunop, hundr, howned, hids, hused, hnewh, hnewe, hreg, harmed, hdis, hclosed, hpcs,
    huniq⟩ := hinv
  have := hid o ho
  constructor <;> simp only [Function.update_apply]
  case pcs =>
    intro u pc hu
    have hpc := hpcs u pc hu
    cases pc <;> simp only [PcOk, Taken, Function.update_apply] at hpc ⊢ <;> grind [TodoOk]
  case unique => exact huniq
  all_goals grind

theorem Inv.disarm {s s' : CfState} {h : ℕ} (hinv : s.Inv) (hs : s.disarm h = some s')
    (htaken : ∀ p ∈ s.registry, p.2 ≠ h) : s'.Inv := by
  obtain ⟨hunop, hundr, howned, hids, hused, hnewh, hnewe, hreg, harmed, hdis, hclosed, hpcs,
    huniq⟩ := hinv
  obtain ⟨o, ho, hmu, rfl⟩ := disarm_eq_some hs
  constructor <;> simp only [Function.update_apply]
  case pcs =>
    intro u pc hu
    have hpc := hpcs u pc hu
    cases pc <;> simp only [PcOk, Taken, Function.update_apply] at hpc ⊢ <;> grind [TodoOk]
  case unique => exact huniq
  all_goals grind

theorem TodoOk.emplace_eq {s : CfState} {spec : CfSpec} {id : ℕ} {todo : List (CfSpec × ℕ)}
    (htodo : s.TodoOk ((spec, id) :: todo)) : s.emplace spec id =
      ({ s with
          registry := s.registry ++ [(spec.name, s.nextHandle)]
          handles := Function.update s.handles s.nextHandle
            (some ⟨spec.name, id, if spec.enableEstimator then some s.nextEstimator else none⟩)
          estimators :=
            if spec.enableEstimator then
              Function.update s.estimators s.nextEstimator (some ⟨id, true⟩)
            else s.estimators
          nextHandle := s.nextHandle + 1
          nextEstimator := s.nextEstimator + 1 }, s.nextHandle) := by
  have hlookup : s.lookup spec.name = none := by
    rw [lookup, Option.map_eq_none_iff, List.find?_eq_none]
    intro p hp
    simpa using (htodo.fresh (spec, id) List.mem_cons_self).2.2.2 p hp
  rw [emplace, hlookup]

theorem TodoOk.emplace {s : CfState} {spec : CfSpec} {id : ℕ} {todo : List (CfSpec × ℕ)}
    (htodo : s.TodoOk ((spec, id) :: todo)) : (s.emplace spec id).1.TodoOk todo := by
  rw [htodo.emplace_eq]
  obtain ⟨hnodup, hnames, hfresh⟩ := htodo
  simp only [List.map_cons, List.nodup_cons, List.mem_map, not_exists, not_and] at hnodup hnames
  refine ⟨hnodup.2, hnames.2, fun d hd => ?_⟩
  obtain ⟨hd₁, hd₂, hd₃, hd₄⟩ := hfresh d (List.mem_cons_of_mem _ hd)
  refine ⟨hd₁, hd₂, ?_, ?_⟩ <;> simp only [Function.update_apply] <;> grind

theorem Inv.emplace {s : CfState} {t : ℕ} {spec : CfSpec} {id : ℕ} {todo : List (CfSpec × ℕ)}
    (hinv : s.Inv) (ht : s.threads[t]? = some (.registering todo))
    (htodo : s.TodoOk ((spec, id) :: todo)) : (s.emplace spec id).1.Inv := by
  have htail := htodo.emplace
  obtain ⟨hidUsed, hidNew, hidFresh, -⟩ := htodo.fresh _ List.mem_cons_self
  obtain ⟨hunop, hundr, howned, hids, hused, hnewh, hnewe, hreg, harmed, hdis, hclosed, hpcs,
    huniq⟩ := hinv
  have hmu := (hpcs t _ ht).1
  rw [htodo.emplace_eq] at htail ⊢
  constructor <;> simp only [Function.update_apply]
  case pcs =>
    intro u pc hu
    have hpc := hpcs u pc hu
    cases pc with
    | idle => trivial
    | registering todo' =>
        obtain rfl : u = t := Option.some.inj (hpc.1.symm.trans hmu)
        obtain rfl : todo' = todo := by simpa [ht, eq_comm] using hu
        exact ⟨hpc.1, hpc.2.1, htail⟩
    | arming h id' todo' =>
        obtain rfl : u = t := Option.some.inj (hpc.1.symm.trans hmu)
        simp [ht] at hu
    | _ =>
        simp only [PcOk, Taken, Function.update_apply] at hpc ⊢
        grind
  case registered =>
    intro p hp
    rcases List.mem_append.1 hp with hp | hp
    · obtain ⟨o, ho, ho'⟩ := hreg p hp
      exact ⟨o, by rw [if_neg (hnewh _ _ ho).ne]; exact ho, ho'⟩
    · obtain rfl := List.mem_singleton.1 hp
      exact ⟨_, if_pos rfl, rfl, hidNew⟩
  case unique => exact huniq
  all_goals grind

/-- A lock nobody holds is taken for a new family. -/
theorem Inv.lockCf {s : CfState} {t : ℕ} (hinv : s.Inv) (hmu : s.cfMu = none) {phase : Phase}
    (hphase : phase = s.phase ∧ s.phase = .running ∨ s.phase = .unopened ∧ phase = .opening)
    {usedIds : List ℕ}
    (hused : s.usedIds ⊆ usedIds) : { s with phase, cfMu := some t, usedIds }.Inv := by
  obtain ⟨hunop, hundr, howned, hids, hused', hnewh, hnewe, hreg, harmed, hdis, hclosed, hpcs,
    huniq⟩ := hinv
  constructor
  case pcs =>
    intro u pc hu
    have hpc := hpcs u pc hu
    cases pc <;> simp only [PcOk, Taken] at hpc ⊢ <;> grind
  case unique => exact huniq
  all_goals grind

/-- A lock whose holder has left its critical section is released. -/
theorem Inv.unlockCf {s : CfState} {t : ℕ} (hinv : s.Inv) (hmu : s.cfMu = some t)
    (ht : s.threads[t]? = some .idle) (hphase : s.phase = .opening ∨ s.phase = .running) :
    s.registered.Inv := by
  obtain ⟨hunop, hundr, howned, hids, hused, hnewh, hnewe, hreg, harmed, hdis, -, hpcs,
      huniq⟩ := hinv
  refine ⟨?_, ?_, howned, hids, hused, hnewh, hnewe, hreg, harmed, hdis, ?_, fun u pc hu =>
      ?_, huniq⟩
  · simp [CfState.registered]
  · exact fun h hh hnot _ => hundr h hh hnot (by rcases hphase with hphase | hphase <;>
      simp [hphase])
  · simp [CfState.registered]
  · have hpc := hpcs u pc hu
    cases pc <;> simp only [PcOk, Taken, CfState.registered] at hpc hu ⊢ <;> grind

theorem Inv.unregister {s : CfState} {name : String} (hinv : s.Inv) (hmu : s.cfMu = none) :
    { s with registry := s.registry.filter fun p => p.1 ≠ name }.Inv := by
  obtain ⟨hunop, hundr, howned, hids, hused, hnewh, hnewe, hreg, harmed, hdis, hclosed, hpcs,
    huniq⟩ := hinv
  constructor
  case pcs =>
    intro u pc hu
    have hpc := hpcs u pc hu
    cases pc <;> simp only [PcOk, Taken] at hpc ⊢ <;> grind
  case unique => exact huniq
  all_goals grind

theorem Inv.noteDrop {s : CfState} (hinv : s.Inv) (h : ℕ) :
    { s with dropped := h :: s.dropped }.Inv := by
  obtain ⟨hunop, hundr, howned, hids, hused, hnewh, hnewe, hreg, harmed, hdis, hclosed, hpcs,
    huniq⟩ := hinv
  refine ⟨hunop, fun x hx hnot => hundr x hx fun hmem => hnot (List.mem_cons_of_mem _ hmem), howned,
    hids, hused, hnewh, hnewe, hreg, harmed, hdis, hclosed, fun u pc hu => ?_, huniq⟩
  have hpc := hpcs u pc hu
  cases pc <;> simp only [PcOk, Taken] at hpc ⊢ <;> grind [TodoOk]

theorem Inv.free {s : CfState} {h : ℕ} (hinv : s.Inv) {o : CfHandle} (ho : s.Taken h o)
    (he : o.estimator = none)
    (hnone : ∀ (u : ℕ) (pc : Pc), s.threads[u]? = some pc → pc.claim ≠ some (some h)) :
    { s with handles := Function.update s.handles h none }.Inv := by
  obtain ⟨hunop, hundr, howned, hids, hused, hnewh, hnewe, hreg, harmed, hdis, hclosed, hpcs,
    huniq⟩ := hinv
  obtain ⟨hphase, hdropped, hh, hreg'⟩ := ho
  constructor <;> simp only [Function.update_apply]
  case pcs =>
    intro u pc hu
    have hpc := hpcs u pc hu
    have := hnone u pc hu
    cases pc <;> simp only [PcOk, Taken, Function.update_apply] at hpc ⊢ <;>
      grind [TodoOk, Pc.claim]
  case unique => exact huniq
  all_goals grind

theorem Inv.lockMu {s : CfState} {t : ℕ} (hinv : s.Inv) (hmu : s.mu = none) :
    { s with mu := some t }.Inv := by
  obtain ⟨hunop, hundr, howned, hids, hused, hnewh, hnewe, hreg, harmed, hdis, hclosed, hpcs,
    huniq⟩ := hinv
  refine ⟨hunop, hundr, howned, hids, hused, hnewh, hnewe, hreg, harmed, hdis, hclosed,
    fun u pc hu => ?_, huniq⟩
  have hpc := hpcs u pc hu
  cases pc <;> simp only [PcOk, Taken] at hpc ⊢ <;> grind [TodoOk]

theorem Inv.unlockMu {s : CfState} {t : ℕ} (hinv : s.Inv) (hmu : s.mu = some t)
    (ht : s.threads[t]? = some .idle) : { s with mu := none }.Inv := by
  obtain ⟨hunop, hundr, howned, hids, hused, hnewh, hnewe, hreg, harmed, hdis, hclosed, hpcs,
    huniq⟩ := hinv
  refine ⟨hunop, hundr, howned, hids, hused, hnewh, hnewe, hreg, harmed, hdis, hclosed,
    fun u pc hu => ?_, huniq⟩
  have hpc := hpcs u pc hu
  cases pc <;> simp only [PcOk, Taken] at hpc ⊢ <;> grind [TodoOk]

theorem Inv.disarmAll {s : CfState} (hinv : s.Inv) (hphase : s.phase = .running)
    (hmu : s.mu = none)
    (hquiet : s.threads.all Pc.quiet = true) :
    { s with phase := .closing, targets := fun _ => none }.Inv := by
  obtain ⟨hunop, hundr, howned, hids, hused, hnewh, hnewe, hreg, harmed, hdis, hclosed, hpcs,
    huniq⟩ := hinv
  rw [List.all_eq_true] at hquiet
  constructor
  case pcs =>
    intro u pc hu
    have hpc := hpcs u pc hu
    have hq := hquiet pc (List.mem_of_getElem? hu)
    cases pc <;> simp only [PcOk, Taken, Pc.quiet] at hpc hq ⊢ <;> grind
  case unique => exact huniq
  all_goals grind

theorem Inv.close {s : CfState} (hinv : s.Inv) (hphase : s.phase = .closing)
    (hnone : ∀ (u : ℕ) (pc : Pc), s.threads[u]? = some pc → pc.claim ≠ some none) :
    { s with phase := .closed, registry := [], handles := fun _ => none }.Inv := by
  obtain ⟨hunop, hundr, howned, hids, hused, hnewh, hnewe, hreg, harmed, hdis, hclosed, hpcs,
    huniq⟩ := hinv
  have htargets := hclosed (Or.inl hphase)
  constructor
  case pcs =>
    intro u pc hu
    have hpc := hpcs u pc hu
    have := hnone u pc hu
    cases pc <;> simp only [PcOk, Taken, Pc.claim] at hpc this ⊢ <;> grind
  case unique => exact huniq
  all_goals grind

/-! ### Steps -/

theorem setPc_setPc (s : CfState) (t : ℕ) (pc pc' : Pc) :
    (s.setPc t pc).setPc t pc' = s.setPc t pc' := by
  simp [setPc]

theorem emplace_setPc (s : CfState) (t : ℕ) (pc : Pc) (spec : CfSpec) (id : ℕ) :
    (s.setPc t pc).emplace spec id = ((s.emplace spec id).1.setPc t pc, (s.emplace spec id).2) := by
  show (match s.lookup spec.name with | some h => _ | none => _) = _
  rw [emplace]
  cases s.lookup spec.name <;> rfl

theorem getElem?_setPc_self {s : CfState} {t : ℕ} {pc pc' : Pc} (h : s.threads[t]? = some pc) :
    (s.setPc t pc').threads[t]? = some pc' := by
  have := (List.getElem?_eq_some_iff.1 h).1
  rw [setPc, List.getElem?_set_self this]

theorem go_inv {s s' : CfState} {t : ℕ} {pc : Pc} (hinv : s.Inv) (ht : s.threads[t]? = some pc)
    (hs : s.go t pc = some s') : s'.Inv := by
  have hpc := hinv.pcs t pc ht
  have hother (u : ℕ) (pc' : Pc) (x : Option ℕ) (hne : u ≠ t) (hu : s.threads[u]? = some pc')
      (hx : pc.claim = some x) : pc'.claim ≠ some x := fun hx' =>
    hne (hinv.unique u t pc' pc x hu ht hx' hx)
  cases pc with
  | idle => cases hs
  | registering todo =>
      obtain ⟨hmu, hphase, htodo⟩ := hpc
      cases todo with
      | nil =>
          cases hs
          exact (hinv.setIdle t).unlockCf hmu (getElem?_setPc_self ht) hphase
      | cons d todo =>
          obtain ⟨spec, id⟩ := d
          obtain rfl : (s.emplace spec id).1.setPc t (.arming (s.emplace spec id).2 id todo) = s' :=
            Option.some.inj hs
          have htail : s.TodoOk todo := ⟨(List.nodup_cons.1 htodo.ids).2,
            (List.nodup_cons.1 htodo.names).2, fun d hd => htodo.fresh d
                (List.mem_cons_of_mem _ hd)⟩
          have hmoved : (s.setPc t (.registering todo)).Inv :=
            hinv.setPc ⟨hmu, hphase, htail⟩ (by simp [Pc.claim])
          have hself : (s.setPc t (.registering todo)).threads[t]? = some (.registering todo) :=
            getElem?_setPc_self ht
          have hplaced := hmoved.emplace hself (todoOk_setPc.2 htodo)
          rw [← setPc_setPc _ t (.registering todo)]
          rw [emplace_setPc] at hplaced
          refine hplaced.setPc ?_ (by simp [Pc.claim])
          rw [pcOk_setPc]
          refine ⟨?_, ?_, htodo.emplace, ?_⟩ <;> rw [htodo.emplace_eq]
          · exact hmu
          · exact hphase
          · exact ⟨_, Function.update_self .., rfl, List.mem_append_right _ List.mem_cons_self⟩
  | arming h id todo =>
      obtain ⟨hmu, hphase, htodo, o, ho, hid, hreg⟩ := hpc
      obtain ⟨mid, hmid, rfl⟩ := Option.map_eq_some_iff.1 hs
      obtain ⟨o', ho', -, hnew⟩ := hinv.registered _ hreg
      obtain rfl : o = o' := Option.some.inj (ho.symm.trans ho')
      have harmed := hinv.arm hmid
        (fun o' ho' => by rw [← Option.some.inj (ho.symm.trans ho'), hid]) hphase (hid ▸ hnew)
      refine harmed.setPc ?_ (by simp [Pc.claim])
      obtain ⟨-, -, rfl | ⟨e, -, -, rfl⟩⟩ := arm_eq_some hmid
      · exact ⟨hmu, hphase, htodo⟩
      · exact ⟨hmu, hphase, htodo.ids, htodo.names, htodo.fresh⟩
  | disarming h =>
      obtain ⟨o, hphase, hdropped, ho, hreg⟩ := hpc
      obtain ⟨mid, hmid, rfl⟩ := Option.map_eq_some_iff.1 hs
      have hdisarmed := hinv.disarm hmid hreg
      obtain ⟨o', ho', -, rfl⟩ := disarm_eq_some hmid
      obtain rfl : o = o' := Option.some.inj (ho.symm.trans ho')
      exact hdisarmed.setPc ⟨o, ⟨hphase, hdropped, ho, hreg⟩, List.mem_cons_self⟩ hother
  | dropping h =>
      cases hs
      exact hinv.setPc hpc hother
  | resetting h =>
      obtain ⟨o, ⟨hphase, hdropped, ho, hreg⟩, hdis⟩ := hpc
      obtain ⟨mid, hmid, rfl⟩ := Option.map_eq_some_iff.1 hs
      have hreset := hinv.reset hmid fun o' ho' => by
        rw [← Option.some.inj (ho.symm.trans ho')]
        exact (hinv.disarmed o.id hdis).1
      obtain ⟨o', -, rfl⟩ := reset_eq_some hmid
      exact hreset.setPc ⟨_, ⟨hphase, hdropped, Function.update_self .., hreg⟩, rfl⟩ hother
  | freeing h =>
      obtain ⟨o, htaken, he⟩ := hpc
      cases hs
      refine (hinv.setIdle t).free htaken he fun u pc' hu => ?_
      rcases getElem?_setPc hu with ⟨-, rfl⟩ | ⟨hne, hu⟩
      · simp [Pc.claim]
      · exact hother u pc' _ hne hu rfl
  | notifying e =>
      cases hs
      exact (hinv.setIdle t).unlockMu hpc.1 (getElem?_setPc_self ht)
  | destructing todo =>
      obtain ⟨hphase, htodo⟩ := hpc
      cases todo with
      | nil =>
          cases hs
          refine (hinv.setIdle t).close hphase fun u pc' hu => ?_
          rcases getElem?_setPc hu with ⟨-, rfl⟩ | ⟨hne, hu⟩
          · simp [Pc.claim]
          · exact hother u pc' _ hne hu rfl
      | cons h todo =>
          obtain ⟨mid, hmid, rfl⟩ := Option.map_eq_some_iff.1 hs
          have hreset := hinv.reset hmid fun o _ => hinv.closed (Or.inl hphase) o.id
          obtain ⟨o, -, rfl⟩ := reset_eq_some hmid
          refine hreset.setPc ⟨hphase, fun x hx => ?_⟩ hother
          simp only [Function.update_apply]
          split
          · exact ⟨_, rfl⟩
          · exact htodo x (List.mem_cons_of_mem _ hx)

theorem lookup_eq_some {s : CfState} {name : String} {h : ℕ} (hl : s.lookup name = some h) :
    (name, h) ∈ s.registry := by
  obtain ⟨p, hp, rfl⟩ := Option.map_eq_some_iff.1 hl
  have hname : p.1 = name := by simpa using List.find?_some hp
  exact hname ▸ List.mem_of_find?_eq_some hp

theorem openDb_inv {s s' : CfState} {t : ℕ} {descriptors : List (CfSpec × ℕ)} (hinv : s.Inv)
    (hs : s.openDb t descriptors = some s') : s'.Inv := by
  unfold openDb at hs
  split at hs
  case isFalse => cases hs
  next hguard =>
  obtain ⟨hphase, hmu, hnames, hids, -, -⟩ := hguard
  obtain rfl := Option.some.inj hs
  have hused := hinv.unopened hphase
  have hnone (h : ℕ) (o : CfHandle) : s.handles h ≠ some o := fun ho => by
    simpa [hused] using hinv.used h o ho
  refine (hinv.lockCf hmu (Or.inr ⟨hphase, rfl⟩) (by simp [hused])).setPc ?_ (by simp [Pc.claim])
  refine ⟨rfl, Or.inl rfl, hids, hnames, fun d hd => ⟨List.mem_map_of_mem hd, ?_, ?_, ?_⟩⟩
  · intro hdis
    simpa [hused] using (hinv.disarmed d.2 hdis).2
  · exact fun h o ho => absurd ho (hnone h o)
  · intro p hp
    obtain ⟨o, ho, -⟩ := hinv.registered p hp
    exact absurd ho (hnone _ _)

theorem create_inv {s s' : CfState} {t : ℕ} {spec : CfSpec} {created : Option ℕ} (hinv : s.Inv)
    (hs : s.create t spec created = some s') : s'.Inv := by
  unfold create at hs
  split at hs
  case isFalse => cases hs
  next hguard =>
  obtain ⟨hphase, hmu⟩ := hguard
  split at hs
  · exact Option.some.inj hs ▸ hinv
  next hlookup =>
  split at hs
  · exact Option.some.inj hs ▸ hinv
  cases created with
  | none => exact Option.some.inj hs ▸ hinv
  | some id =>
      simp only [] at hs
      split at hs
      · cases hs
      · next hfresh =>
          obtain rfl := Option.some.inj hs
          refine (hinv.lockCf hmu (Or.inl ⟨rfl, hphase⟩) (List.subset_cons_self _ _)).setPc ?_
            (by simp [Pc.claim])
          refine ⟨rfl, Or.inr hphase, by simp, by simp, ?_⟩
          rintro d hd
          obtain rfl := List.mem_singleton.1 hd
          refine ⟨List.mem_cons_self, fun hd => hfresh (hinv.disarmed id hd).2,
            fun h o ho (heq : o.id = id) => hfresh (heq ▸ hinv.used h o ho), fun p hp heq => ?_⟩
          simp only [lookup, Option.isSome_map, List.find?_isSome, decide_eq_true_eq, not_exists,
            not_and] at hlookup
          exact hlookup p hp heq

theorem drop_inv {s s' : CfState} {t h : ℕ} (hinv : s.Inv) (hs : s.drop t h = some s') :
    s'.Inv := by
  unfold drop at hs
  split at hs
  case isFalse => cases hs
  next hguard =>
  obtain ⟨hphase, hmu, -⟩ := hguard
  have hnoted := hinv.noteDrop h
  simp only [] at hs
  split at hs
  · exact Option.some.inj hs ▸ hnoted
  cases ho : s.handles h with
  | none => simp [ho] at hs
  | some o =>
      simp only [ho] at hs
      split at hs
      · exact Option.some.inj hs ▸ hnoted
      next hlookup =>
      obtain rfl := Option.some.inj hs
      have hreg := lookup_eq_some (not_not.1 hlookup)
      refine (hnoted.unregister hmu).setPc ⟨o, hphase, List.mem_cons_self, ho, ?_⟩ ?_
      · -- an entry of another name is for another handle
        intro p hp heq
        obtain ⟨hmem, hname⟩ := List.mem_filter.1 hp
        obtain ⟨o', ho', hname', -⟩ := hinv.registered p hmem
        obtain rfl : o = o' := Option.some.inj (ho.symm.trans (heq ▸ ho'))
        simp [hname'] at hname
      · -- a handle in the registry is taken by nobody
        intro u pc x _ hu hclaim hclaim'
        obtain rfl : some h = x := Option.some.inj hclaim
        have hpc := hinv.pcs u pc hu
        cases pc <;> simp only [Pc.claim, PcOk, Taken] at hclaim' hpc <;> grind

theorem notify_inv {s s' : CfState} {t cf : ℕ} (hinv : s.Inv) (hs : s.notify t cf = some s') :
    s'.Inv := by
  rw [notify] at hs
  split at hs
  case isFalse => cases hs
  next hmu =>
  cases htarget : s.targets cf with
  | none =>
      rw [htarget] at hs
      exact Option.some.inj hs ▸ hinv
  | some e =>
      rw [htarget] at hs
      obtain rfl := Option.some.inj hs
      exact (hinv.lockMu hmu).setPc ⟨rfl, cf, htarget⟩ (by simp [Pc.claim])

theorem destruct_inv {s s' : CfState} {t : ℕ} (hinv : s.Inv) (hs : s.destruct t = some s') :
    s'.Inv := by
  rw [destruct] at hs
  split at hs
  case isFalse => cases hs
  next hguard =>
  obtain ⟨hphase, hmu, hquiet⟩ := hguard
  obtain rfl := Option.some.inj hs
  refine (hinv.disarmAll hphase hmu hquiet).setPc ⟨rfl, ?_⟩ ?_
  · intro h hh
    obtain ⟨p, hp, rfl⟩ := List.mem_map.1 hh
    obtain ⟨o, ho, -⟩ := hinv.registered p hp
    exact ⟨o, ho⟩
  · intro u pc x _ hu _ hclaim
    have := List.all_eq_true.1 hquiet pc (List.mem_of_getElem? hu)
    cases pc <;> simp [Pc.claim, Pc.quiet] at hclaim this

theorem step_inv (action : ℕ × Call) (s s' : CfState) (hinv : s.Inv)
    (hs : step action s = some s') : s'.Inv := by
  obtain ⟨t, call⟩ := action
  unfold step at hs
  split at hs
  · exact openDb_inv hinv hs
  · exact create_inv hinv hs
  · exact drop_inv hinv hs
  · exact notify_inv hinv hs
  · exact destruct_inv hinv hs
  · next ht _ => exact go_inv hinv ht hs
  · cases hs

/-- Before the constructor, with `n` threads. -/
def init (n : ℕ) : CfState where
  threads := List.replicate n .idle

theorem init_inv (n : ℕ) : (init n).Inv := by
  have hidle (t : ℕ) (pc : Pc) (ht : (init n).threads[t]? = some pc) : pc = .idle :=
    List.eq_of_mem_replicate (List.mem_of_getElem? ht)
  constructor
  case pcs =>
    intro t pc ht
    rw [hidle t pc ht]
    trivial
  case unique =>
    intro t₁ t₂ pc₁ pc₂ x h₁ _ hx
    rw [hidle t₁ pc₁ h₁] at hx
    cases hx
  all_goals simp [init]

/-- No dead object is reached. -/
structure Safe (s : CfState) : Prop where
  /-- What is armed is alive and belongs to the family it is armed under. -/
  armed : ∀ id e, s.targets id = some e → s.estimators e = some ⟨id, true⟩
  /-- What `NotifyChange` is called on is alive, and its family's drop has not
  passed `Disarm`. -/
  notified : ∀ (t : ℕ) e, s.threads[t]? = some (.notifying e) →
    ∃ id, s.estimators e = some ⟨id, true⟩ ∧ id ∉ s.disarmed
  disarmed : ∀ id ∈ s.disarmed, s.targets id = none
  /-- The handles that are used, and those that may still be dropped, exist. -/
  handles : ∀ (t : ℕ) (pc : Pc) h, s.threads[t]? = some pc → pc.uses = some h →
    (s.handles h).isSome = true
  undropped : ∀ h < s.nextHandle, h ∉ s.dropped → s.phase ≠ .closed → (s.handles h).isSome = true

theorem Inv.safe {s : CfState} (h : s.Inv) : s.Safe := by
  have harmed (id e : ℕ) (he : s.targets id = some e) : s.estimators e = some ⟨id, true⟩ := by
    obtain ⟨x, o, ho, rfl, hest⟩ := h.armed id e he
    exact h.owned x o e ho hest
  refine ⟨harmed, fun t e ht => ?_, fun id hid => (h.disarmed id hid).1, fun t pc x ht hx => ?_,
    fun x hx hnot hphase => Option.isSome_iff_exists.2 (h.undropped x hx hnot hphase)⟩
  · -- the target found under `mu` is still armed
    obtain ⟨-, id, he⟩ := h.pcs t _ ht
    refine ⟨id, harmed id e he, fun hdis => ?_⟩
    rw [(h.disarmed id hdis).1] at he
    cases he
  · have hpc := h.pcs t pc ht
    rw [Option.isSome_iff_exists]
    cases pc with
    | arming y _ _ =>
        obtain ⟨-, -, -, o, ho, -⟩ := hpc
        cases hx
        exact ⟨o, ho⟩
    | disarming y =>
        obtain ⟨o, -, -, ho, -⟩ := hpc
        cases hx
        exact ⟨o, ho⟩
    | dropping y =>
        obtain ⟨o, ⟨-, -, ho, -⟩, -⟩ := hpc
        cases hx
        exact ⟨o, ho⟩
    | resetting y =>
        obtain ⟨o, ⟨-, -, ho, -⟩, -⟩ := hpc
        cases hx
        exact ⟨o, ho⟩
    | freeing y =>
        obtain ⟨o, ⟨-, -, ho, -⟩, -⟩ := hpc
        cases hx
        exact ⟨o, ho⟩
    | destructing todo =>
        cases todo with
        | nil => cases hx
        | cons y todo =>
            cases hx
            exact hpc.2 x List.mem_cons_self
    | _ => cases hx

theorem listener_safe {n : ℕ} {actions : List (ℕ × Call)} {s : CfState}
    (hrun : Transition.run step (init n) actions = some s) : s.Safe :=
  (Transition.invariant step_inv (init_inv n) hrun).safe

/-- Thread 0 opens the database, creates a family and drops it; thread 1 is
notified of the family in between and after. -/
def dropUnderNotify : List (ℕ × Call) :=
  [(0, .openDb [(⟨"default", ⟨0, []⟩, true⟩, 0)]), (0, .go), (0, .go), (0, .go),
    (0, .create ⟨"a", ⟨0, []⟩, true⟩ (some 1)), (0, .go), (1, .notify 1), (0, .go), (0, .go),
    (1, .notify 1), (0, .drop 1), (1, .go), (0, .go), (1, .notify 1), (0, .go), (0, .go), (0, .go),
    (0, .destruct), (0, .go), (1, .notify 0), (0, .go)]

theorem listener_safe_dropUnderNotify : ∃ s,
    Transition.run step (init 2) dropUnderNotify = some s ∧ s.Safe := by
  obtain ⟨s, hs⟩ : ∃ s, Transition.run step (init 2) dropUnderNotify = some s :=
    Option.isSome_iff_exists.1 (by decide)
  exact ⟨s, hs, listener_safe hs⟩

end CfState

end BitLSM
