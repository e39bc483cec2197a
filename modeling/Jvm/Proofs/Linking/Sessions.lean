import Mathlib
import Jvm.Linking.Initialization
import Jvm.Proofs.Linking.Consistency

/-! # Sessions

A session is a run of requests to a registry and of initializations. The steps of initialization are left to
a driver, which looks at all that has happened and decides what to do next: it may ask for anything itself,
initializations included, and end a step with any outcome. `Orderly` says in which order things may happen:
which changes of the registry follow each other, and when the two steps of a class are performed. -/

namespace Jvm.Linking

/-! ## What happens in a session -/

/-- Whether a request leaves alone what has been loaded and how far classes are initialized. -/
def Request.Lasting : Request → Prop
  | .update _ change => ∀ s : ClassState, (change s).init = s.init
  | .teardown _ => False
  | _ => True

/-- What is asked for in a session. -/
inductive Move where
  | request (request : Request) (lasting : request.Lasting)
  | prepare (id : ClassId)

/-- What can be seen of a session. -/
inductive Event where
  | changed (before after : Registry)
  | constants (id : ClassId)
  | initializer (id : ClassId) (clinit : Method)
  | answered (id : ClassId) (outcome : Except Fault Unit)

/-- How a step of initialization goes on. -/
inductive Continuation where
  | move (move : Move)
  | finish (outcome : Except Fault Unit)

/-- Who performs the steps of initialization, and decides by all that has happened, the latest first. -/
structure Driver where
  next : List Event → Continuation

/-- The state of a session. -/
structure Session where
  registry : Registry
  past : List Event

namespace Session

/-- A session in which nothing has happened. -/
def start : Session := ⟨.empty, []⟩

/-- The session after something has happened. -/
def note (s : Session) (e : Event) : Session := { s with past := e :: s.past }

/-- The session with another registry. -/
def change (s : Session) (r : Registry) : Session := ⟨r, .changed s.registry r :: s.past⟩

end Session

/-- A part of a session. It fails when it is cut off. -/
abbrev Watched := EStateM Unit Session

instance : MonadStateOf Registry Watched where
  get := do return (← getThe Session).registry
  set r := modifyThe Session (·.change r)
  modifyGet f := modifyGetThe Session fun s =>
    let (a, r) := f s.registry
    (a, s.change r)

/-- What is asked for happens. -/
def Move.perform (paths : ClassPaths) (prepare : ClassId → Watched (Except Fault Unit)) :
    Move → Watched Unit
  | request q _ => modifyThe Registry (q.apply paths)
  | .prepare id => do
    if id < (← getThe Registry).table.size then
      let outcome ← prepare id
      modifyThe Session (·.note (.answered id outcome))

namespace Driver

variable (d : Driver) (paths : ClassPaths)

/-- A step of initialization, which is cut off after some moves. -/
def follow (prepare : ClassId → Watched (Except Fault Unit)) : Nat → Watched (Except Fault Unit)
  | 0 => throw ()
  | n + 1 => do
    match d.next (← getThe Session).past with
    | .finish outcome => return outcome
    | .move m =>
      m.perform paths prepare
      follow prepare n

/-- The steps of initialization. -/
def steps (prepare : ClassId → Watched (Except Fault Unit)) (n : Nat) : Initializer Watched where
  constants id := do
    modifyThe Session (·.note (.constants id))
    d.follow paths prepare n
  run id clinit := do
    modifyThe Session (·.note (.initializer id clinit))
    d.follow paths prepare n

/-- Initializes a class. The run is cut off where a step takes more than some moves, or where
initializations are nested deeper. -/
def prepare : Nat → ClassId → Watched (Except Fault Unit)
  | 0, _ => throw ()
  | n + 1, id => initializeClass (d.steps paths (prepare n) n) id

/-- One thing after the other happens. -/
def perform (n : Nat) : List Move → Watched Unit
  | [] => return
  | m :: moves => do
    m.perform paths (d.prepare paths n)
    perform n moves

/-- The session after some moves, or where it is cut off. -/
def after (n : Nat) (moves : List Move) : Session :=
  match d.perform paths n moves .start with
  | .ok _ s => s
  | .error _ s => s

end Driver

/-! ## The order of events -/

/-- How far a class is initialized changes in one of these ways. -/
inductive InitState.Moves : InitState → InitState → Prop
  | stays (state : InitState) : Moves state state
  | begins : Moves .linked .initializing
  | succeeds : Moves .initializing .initialized
  | fails (e : Fault) : Moves .initializing (.failed e)

/-- The registry in which the initialization of a class has got to some point. -/
def Registry.setInit (r : Registry) (id : ClassId) (state : InitState) : Registry :=
  r.modifyState id fun s => { s with init := state }

/-- How a registry changes in a session. -/
inductive Registry.Changes (paths : ClassPaths) (r : Registry) : Registry → Prop
  | request (q : Request) (lasting : q.Lasting) : r.Changes paths (q.apply paths r)
  | setInit {id : ClassId} {c : LinkedClass} {state : InitState} (hc : r.table.class? id = some c)
    (h : (r.initState id).Moves state) : r.Changes paths (r.setInit id state)

/-- Whether the initialization of a class began while that of another one was running. -/
def BeganWithin (past : List Event) (id other : ClassId) : Prop :=
  ∃ r r', .changed r r' ∈ past ∧ r.initState id = .linked ∧ r'.initState id = .initializing ∧
    r.initState other = .initializing

/-- Whether the initialization of a superclass has failed after one below it began from within. -/
def FailedWithin (r : Registry) (past : List Event) (id above : ClassId) : Prop :=
  ∃ e below, r.initState above = .failed e ∧ below ∈ r.table.chain id ∧ above ∈ r.table.chain below ∧
    below ≠ above ∧ BeganWithin past below above

/-- How far a class above another one is initialized when the other one is, or runs its initializer. -/
inductive ReadyBelow (r : Registry) (past : List Event) (id above : ClassId) : Prop
  | initialized (h : r.initState above = .initialized)
  | enclosing (h : r.initState above = .initializing) (began : BeganWithin past id above)
  | failed (h : FailedWithin r past id above)

/-- Whether all superclasses are ready for a class. -/
def SuperclassesReady (r : Registry) (past : List Event) (id : ClassId) : Prop :=
  ∀ above ∈ r.table.chain id, above ≠ id → ReadyBelow r past id above

/-- What the end of an initialization tells about the class: it is initialized, or being initialized further
out, or it has failed in the same way. -/
def Registry.Answers (r : Registry) (id : ClassId) : Except Fault Unit → Prop
  | .ok () => r.initState id = .initialized ∨ r.initState id = .initializing
  | .error e => r.initState id = .failed e

/-- What may happen, and leads to a registry. -/
inductive Orderly (paths : ClassPaths) : Registry → List Event → Prop
  | start : Orderly paths .empty []
  | changed {r r' : Registry} {past : List Event} (h : Orderly paths r past)
    (hchanges : r.Changes paths r') : Orderly paths r' (.changed r r' :: past)
  | constants {r : Registry} {past : List Event} {id : ClassId} (h : Orderly paths r past)
    (hid : r.initState id = .initializing) (hfirst : .constants id ∉ past)
    (hinitializer : ∀ clinit, .initializer id clinit ∉ past) : Orderly paths r (.constants id :: past)
  | initializer {r : Registry} {past : List Event} {id : ClassId} {clinit : Method}
    (h : Orderly paths r past) (hid : r.initState id = .initializing)
    (hconstants : .constants id ∈ past) (hfirst : ∀ m, .initializer id m ∉ past)
    (hready : ∀ c, r.table.class? id = some c → c.isInterface = false →
      SuperclassesReady r past id) :
    Orderly paths r (.initializer id clinit :: past)
  | answered {r : Registry} {past : List Event} {id : ClassId} {outcome : Except Fault Unit}
    (h : Orderly paths r past) (houtcome : r.Answers id outcome) :
    Orderly paths r (.answered id outcome :: past)

/-! ## What requests leave alone -/

/-- How far a class is initialized when it is entered. -/
def LinkedClass.startState (c : LinkedClass) : InitState := if c.isArray then .initialized else .linked

/-- How a registry changes whatever is asked of it. -/
structure Registry.Lasts (r r' : Registry) : Prop where
  wellFormed : r'.WellFormed
  toExtends : r.Extends r'
  states : ∀ id c, r.table.class? id = some c → r'.initState id = r.initState id
  fresh : ∀ id c, r.table.class? id = none → r'.table.class? id = some c → r'.initState id = c.startState

namespace Registry

variable {r r₁ r₂ : Registry} {id : ClassId} {c : LinkedClass}

theorem initState_of_state? {s : ClassState} (h : r.state? id = some s) : r.initState id = s.init := by
  rw [initState, h]; rfl

theorem initState_of_class?_eq_none (hr : r.Linked) (h : r.table.class? id = none) :
    r.initState id = .linked := by
  have hle : r.states.size ≤ id := by
    rw [hr.states]
    exact Array.getElem?_eq_none_iff.1 h
  rw [initState, state?, Array.getElem?_eq_none hle]
  rfl

/-- A class that is more than linked is there. -/
theorem exists_of_initState (hr : r.Linked) (h : r.initState id ≠ .linked) :
    ∃ c, r.table.class? id = some c := by
  cases hc : r.table.class? id with
  | some c => exact ⟨c, rfl⟩
  | none => exact absurd (initState_of_class?_eq_none hr hc) h

theorem Extends.trans (h₁ : r.Extends r₁) (h₂ : r₁.Extends r₂) : r.Extends r₂ :=
  ⟨h₁.table.trans h₂.table, fun key result h => h₂.loaded key result (h₁.loaded key result h)⟩

theorem Lasts.refl (hr : r.WellFormed) : r.Lasts r :=
  ⟨hr, ⟨.refl _, fun _ _ => id⟩, fun _ _ _ => rfl, fun _ _ hnone hc => by rw [hnone] at hc; cases hc⟩

theorem Lasts.trans (h₁ : r.Lasts r₁) (h₂ : r₁.Lasts r₂) : r.Lasts r₂ where
  wellFormed := h₂.wellFormed
  toExtends := h₁.toExtends.trans h₂.toExtends
  states id c hc := (h₂.states id c (h₁.toExtends.table id c hc)).trans (h₁.states id c hc)
  fresh id c hnone hc := by
    cases hc₁ : r₁.table.class? id with
    | none => exact h₂.fresh id c hc₁ hc
    | some d =>
      obtain rfl := Option.some.inj ((h₂.toExtends.table id d hc₁).symm.trans hc)
      exact (h₂.states id d hc₁).trans (h₁.fresh id d hnone hc₁)

/-- Whatever is asked of a well-formed registry lasts. -/
def Lasting (r r' : Registry) : Prop := r.WellFormed → r.Lasts r'

instance : IsTrans Registry Lasting :=
  ⟨fun _ _ _ h₁ h₂ hr => (h₁ hr).trans (h₂ (h₁ hr).wellFormed)⟩

/-- New classes start as far initialized as they have to be. -/
theorem LinksTo.fresh (h : r.LinksTo r₁) (hr : r.Linked) (hr₁ : r₁.Linked) {id : ClassId} {c : LinkedClass}
    (hnone : r.table.class? id = none) (hc : r₁.table.class? id = some c) :
    r₁.initState id = c.startState := by
  obtain ⟨s, hs⟩ := hr₁.exists_state hc
  have hstate : r.state? id = none := by
    refine Array.getElem?_eq_none ?_
    rw [hr.states]
    exact Array.getElem?_eq_none_iff.1 hnone
  rw [initState_of_state? hs, ((h.started hr.states).2 id c s hstate hc hs).2]
  rfl

theorem LinksTo.lasts (h : r.LinksTo r₁) (hr : r.WellFormed) (hloads : r.Loads [] r₁) : r.Lasts r₁ where
  wellFormed := ⟨hloads.linked, h.buildsOn.built hr.built⟩
  toExtends := hloads.grows.toExtends
  states id c hc := by
    obtain ⟨s, hs⟩ := hr.linked.exists_state hc
    rw [initState_of_state? hs, initState_of_state? (h.state? hs)]
  fresh _ _ := h.fresh hr.linked hloads.linked

theorem initState_modifyState {change : ClassState → ClassState}
    (hchange : ∀ s : ClassState, (change s).init = s.init) (i : ClassId) :
    (r.modifyState i change).initState id = r.initState id := by
  cases hs : r.state? id with
  | none =>
    have hnone : (r.modifyState i change).state? id = none := by
      rw [state?, modifyState, Array.getElem?_modify, show r.states[id]? = none from hs]
      simp
    rw [initState, initState, hnone, hs]
  | some s =>
    rw [initState_of_state? hs, initState_of_state? (exists_of_state? change hs)]
    split
    · exact hchange s
    · rfl

theorem WellFormed.congr (hr : r.WellFormed) (hstates : r₁.states.size = r.states.size)
    (htable : r₁.table = r.table) (hloaded : r₁.loaded = r.loaded) : r₁.WellFormed :=
  ⟨hr.linked.congr hstates htable hloaded, htable ▸ hr.built⟩

theorem lasts_of_eq (hr : r.WellFormed) (hstates : r₁.states.size = r.states.size)
    (htable : r₁.table = r.table) (hloaded : r₁.loaded = r.loaded)
    (hinit : ∀ id, r₁.initState id = r.initState id) : r.Lasts r₁ where
  wellFormed := hr.congr hstates htable hloaded
  toExtends := ⟨htable ▸ .refl _, fun _ _ h => hloaded ▸ h⟩
  states id _ _ := hinit id
  fresh id c hnone hc := by rw [htable, hnone] at hc; cases hc

theorem lasts_modifyState (hr : r.WellFormed) (i : ClassId) {change : ClassState → ClassState}
    (hchange : ∀ s : ClassState, (change s).init = s.init) : r.Lasts (r.modifyState i change) :=
  lasts_of_eq hr (by simp [modifyState]) rfl rfl fun _ => initState_modifyState hchange i

end Registry

/-- Loading and resolving last. -/
theorem admits_lasting (paths : ClassPaths) : Linker.Admits paths Registry.Lasting where
  refl _ hr := .refl hr
  load loader name r := by
    have hbuilds := builds_load paths [] loader name r
    rcases h : loadClass paths loader name r with ⟨id, r'⟩ | ⟨e, r'⟩
    · exact Linker.meets_of_ok h (fun hr => (hbuilds.of_eq_ok h).1.lasts hr
        ((meets_load paths [] loader name hr.linked).of_eq_ok h).1) trivial
    · exact Linker.meets_of_error h fun hr => (hbuilds.of_eq_error h).lasts hr
        ((meets_load paths [] loader name hr.linked).of_eq_error h)
  resolved r id change hresolved _ _ hr :=
    Registry.lasts_modifyState hr id fun s => by rw [hresolved s]

theorem Request.Lasting.lasts {paths : ClassPaths} {r : Registry} {q : Request} (h : q.Lasting)
    (hr : r.WellFormed) : r.Lasts (q.apply paths r) := by
  refine (admits_lasting paths).apply ?_ ?_ ?_ hr
  · rintro id change rfl hr
    exact Registry.lasts_modifyState hr id h
  · exact fun _ _ hr => Registry.lasts_of_eq hr rfl rfl rfl fun _ => rfl
  · rintro held rfl
    exact h.elim

/-! ## Requests without a teardown -/

/-- How a registry changes as long as it forgets nothing. -/
def Registry.Persists (r r' : Registry) : Prop := r.WellFormed → r'.WellFormed ∧ r.Extends r'

instance : IsTrans Registry Registry.Persists where
  trans _ _ _ h₁ h₂ hr := by
    obtain ⟨hr₁, hext₁⟩ := h₁ hr
    obtain ⟨hr₂, hext₂⟩ := h₂ hr₁
    exact ⟨hr₂, hext₁.trans hext₂⟩

theorem Registry.persists_of_eq {r r' : Registry} (hstates : r'.states.size = r.states.size)
    (htable : r'.table = r.table) (hloaded : r'.loaded = r.loaded) : r.Persists r' :=
  fun hr => ⟨hr.congr hstates htable hloaded, htable ▸ .refl _, fun _ _ h => hloaded ▸ h⟩

theorem admits_persists (paths : ClassPaths) : Linker.Admits paths Registry.Persists where
  refl r := Registry.persists_of_eq rfl rfl rfl
  load loader name r := by
    have hlasting := (admits_lasting paths).load loader name r
    rcases h : loadClass paths loader name r with ⟨id, r'⟩ | ⟨e, r'⟩
    · refine Linker.meets_of_ok h (fun hr => ?_) trivial
      exact ⟨((hlasting.of_eq_ok h).1 hr).wellFormed, ((hlasting.of_eq_ok h).1 hr).toExtends⟩
    · refine Linker.meets_of_error h fun hr => ?_
      exact ⟨(hlasting.of_eq_error h hr).wellFormed, (hlasting.of_eq_error h hr).toExtends⟩
  resolved r id change _ _ _ := Registry.persists_of_eq (by simp [Registry.modifyState]) rfl rfl

theorem persists_apply {paths : ClassPaths} (r : Registry) {q : Request}
    (hq : ∀ held, q ≠ .teardown held) : r.Persists (q.apply paths r) :=
  (admits_persists paths).apply
    (fun _ _ _ => Registry.persists_of_eq (by simp [Registry.modifyState]) rfl rfl)
    (fun _ _ => Registry.persists_of_eq rfl rfl rfl) fun held h => absurd h (hq held)

theorem persists_foldl {paths : ClassPaths} : ∀ {requests : List Request} (r : Registry),
    (∀ held, .teardown held ∉ requests) → r.Persists (requests.foldl (Request.apply paths) r)
  | [], r, _ => (admits_persists paths).refl r
  | q :: requests, r, hno => by
    have hfirst : r.Persists (q.apply paths r) :=
      persists_apply r fun held h => hno held (h ▸ List.mem_cons_self)
    exact IsTrans.trans _ _ _ hfirst <|
      persists_foldl (q.apply paths r) fun held h => hno held (List.mem_cons_of_mem q h)

theorem wellFormed_of_no_teardown {paths : ClassPaths} {requests : List Request}
    (hno : ∀ held, .teardown held ∉ requests) : (Registry.after paths requests).WellFormed :=
  (persists_foldl .empty hno Registry.wellFormed_empty).1

/-- What a request has recorded lasts as long as there is no teardown. -/
theorem extends_after {paths : ClassPaths} {requests later : List Request}
    (hno : ∀ held, .teardown held ∉ requests) (hlater : ∀ held, .teardown held ∉ later)
    {q : Request} (hq : ∀ held, q ≠ .teardown held) :
    (Registry.after paths (requests ++ q :: later)).WellFormed ∧
      (q.apply paths (Registry.after paths requests)).Extends
        (Registry.after paths (requests ++ q :: later)) := by
  rw [Registry.after, List.foldl_append, List.foldl_cons]
  exact persists_foldl _ hlater (persists_apply _ hq (wellFormed_of_no_teardown hno)).1

end Jvm.Linking
