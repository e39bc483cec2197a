import Jvm.Linking.Registry

/-! # Initialization

A class is initialized once, after its superclasses: its string constants are put in, then its initializer
runs. While that goes on the class counts as ready for whoever runs it; afterwards it is ready or has
failed for good. What the two steps do is up to the caller, and they may initialize further classes. -/

namespace Jvm.Linking

/-- The steps of initialization that are left to the caller. -/
structure Initializer (m : Type → Type) where
  constants : ClassId → m (Except Fault Unit)
  run : ClassId → Method → m (Except Fault Unit)

/-- The failure of a class whose initialization ended with a fault. Faults that name a class already, or
that end the thread, are kept. -/
def initializationFault (className : String) (e : Fault) : Fault :=
  match e with
  | .initialization _ _ | .internal _ | .outOfMemory _ | .stackOverflow => e
  | e => .initialization className e.message

/-- The name of class initializers. -/
def classInitializerName : String := "<clinit>"

/-- The superclass that is initialized before a class; interfaces have none. -/
def initializedBefore? (t : ClassTable) (id : ClassId) : Option ClassId :=
  (t.class? id).bind fun c => if c.isInterface then none else c.superclass

theorem initializedBefore?_lt {t : ClassTable} {id s : ClassId}
    (h : initializedBefore? t id = some s) : s < id := by
  obtain ⟨c, hc, hs⟩ := Option.bind_eq_some_iff.1 h
  split at hs
  · cases hs
  · exact ClassTable.superOf?_lt (t := t) (by simp [ClassTable.superOf?, hc, hs])

variable {m : Type → Type} [Monad m] [MonadStateOf Registry m]

/-- Sets how far a class is initialized. -/
def setInitState (id : ClassId) (state : InitState) : m Unit :=
  modifyThe Registry fun r => r.modifyState id fun s => { s with init := state }

/-- Initializes a class and its superclasses. -/
def initializeClass (steps : Initializer m) (id : ClassId) : m (Except Fault Unit) := do
  let r ← getThe Registry
  match r.initState id with
  | .initialized | .initializing => return .ok ()
  | .failed e => return .error e
  | .linked =>
    setInitState id .initializing
    let above ← match _h : initializedBefore? r.table id with
      | some s => initializeClass steps s
      | none => pure (.ok ())
    let constants ← match above with
      | .ok () => steps.constants id
      | failure => pure failure
    let outcome ← match constants, r.table.declaredMethod? id classInitializerName "()V" with
      | .ok (), some clinit => steps.run id clinit
      | outcome, _ => pure outcome
    match outcome with
    | .ok () =>
      setInitState id .initialized
      return .ok ()
    | .error e =>
      let e := initializationFault (r.table.nameOf id) e
      setInitState id (.failed e)
      return .error e
termination_by id
decreasing_by exact initializedBefore?_lt _h

end Jvm.Linking
