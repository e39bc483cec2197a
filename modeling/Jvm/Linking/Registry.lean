import Std.Data.HashMap
import Jvm.Linking.Table

/-! # The registry

The linked classes with what changes about them while a program runs: how far they are initialized, their
static fields, their class objects, and the references of their constant pools that have been resolved.
For each loader and name the registry records how loading came out, and never loads again. -/

namespace Jvm.Linking

open ClassFile

/-- How far a class is initialized. -/
inductive InitState where
  | linked
  | initializing
  | initialized
  -- Its initialization failed; every later use fails in the same way.
  | failed (e : Fault)
deriving DecidableEq, Inhabited, Repr

/-- Results by pool index, as far as they are known. -/
abbrev Cache (α : Type) := Array (Option α)

namespace Cache

variable {α : Type}

/-- Nothing known for any of `n` indices. -/
def empty (n : Nat) : Cache α := Array.replicate n none

/-- What is known for an index. -/
def find? (known : Cache α) (index : UInt16) : Option α := known[index.toNat]?.join

/-- Records a result, unless one is known. -/
def record (known : Cache α) (index : UInt16) (a : α) : Cache α :=
  known.modify index.toNat fun old => old.or (some a)

/-- What is known, as far as a condition holds for it. -/
def keep (known : Cache α) (p : α → Bool) : Cache α := known.map (·.filter p)

/-- The failures that are known, and of the rest what a condition holds for. -/
def keepResults (known : Cache (Except Fault α)) (p : α → Bool) : Cache (Except Fault α) :=
  known.keep fun
    | .ok a => p a
    | .error _ => true

end Cache

/-- What changes about a class. -/
structure ClassState where
  init : InitState
  statics : Array Value
  classObject : Option Ref
  classRefs : Cache (Except Fault ClassId)
  fieldRefs : Cache (Except Fault ClassTable.ResolvedField)
  methodRefs : Cache (Except Fault Method)
  strings : Cache Ref
deriving Inhabited

/-- The state of a class just linked. -/
def ClassState.start (init : InitState) (statics : Array Value) (poolSize : Nat) : ClassState :=
  ⟨init, statics, none, .empty poolSize, .empty poolSize, .empty poolSize, .empty poolSize⟩

/-- The objects that a class keeps alive. -/
def ClassState.roots (s : ClassState) : List Ref :=
  s.statics.toList.filterMap Value.object? ++ s.classObject.toList ++ s.strings.toList.filterMap id

/-- The state of a class without what it knows about the members of classes that are gone. -/
def ClassState.forget (s : ClassState) (stays : ClassId → Bool) : ClassState :=
  { s with
    classRefs := s.classRefs.keepResults stays
    fieldRefs := s.fieldRefs.keepResults fun f => stays f.owner
    methodRefs := s.methodRefs.keepResults fun m => stays m.owner }

/-- A loader and the name of a class requested from it. -/
abbrev Key := Loader × String

/-- The registry. -/
structure Registry where
  table : ClassTable
  states : Array ClassState
  loaded : Std.HashMap Key (Except Fault ClassId)
  interned : Std.HashMap String Ref

namespace Registry

/-- A registry without classes. -/
def empty : Registry := ⟨.empty, #[], {}, {}⟩

instance : Inhabited Registry := ⟨empty⟩

/-- The class of a number. -/
def class? (r : Registry) (id : ClassId) : Option LinkedClass := r.table.class? id

/-- The state of a class. -/
def state? (r : Registry) (id : ClassId) : Option ClassState := r.states[id]?

/-- Changes the state of a class. -/
def modifyState (r : Registry) (id : ClassId) (f : ClassState → ClassState) : Registry :=
  { r with states := r.states.modify id f }

/-- Enters a linked class, whose parents have to be there. -/
def add (r : Registry) (c : LinkedClass) (state : ClassState) : Except Fault (ClassId × Registry) :=
  if known : ∀ p ∈ c.parents, p < r.table.size then
    .ok (r.table.size, { r with table := r.table.push c known, states := r.states.push state })
  else .error (.internal ("class " ++ c.name ++ " is linked before its parents"))

/-- The class that a loader has linked under a name. -/
def found? (r : Registry) (loader : Loader) (name : String) : Option ClassId :=
  match r.loaded[(loader, name)]? with
  | some (.ok id) => some id
  | _ => none

/-- The classes of all names that loading came out well for. -/
def loadedClasses (r : Registry) : List ClassId :=
  r.loaded.toList.filterMap fun (_, result) => result.toOption

/-- How far a class is initialized. -/
def initState (r : Registry) (id : ClassId) : InitState :=
  ((r.state? id).map (·.init)).getD .linked

/-- A static field. -/
def getStatic? (r : Registry) (id : ClassId) (slot : Nat) : Option Value :=
  (r.state? id).bind (·.statics[slot]?)

/-- The registry after an assignment to a static field; none if there is no such field. -/
def setStatic? (r : Registry) (id : ClassId) (slot : Nat) (v : Value) : Option Registry :=
  if (r.getStatic? id slot).isSome then
    some (r.modifyState id fun s => { s with statics := s.statics.setIfInBounds slot v })
  else none

/-- The class object of a class. -/
def classObject? (r : Registry) (id : ClassId) : Option Ref := (r.state? id).bind (·.classObject)

/-- Makes an object the class object of a class, unless it has one. -/
def setClassObject (r : Registry) (id : ClassId) (object : Ref) : Registry :=
  r.modifyState id fun s => { s with classObject := s.classObject.or (some object) }

/-- The string object of a constant. -/
def string? (r : Registry) (id : ClassId) (index : UInt16) : Option Ref :=
  (r.state? id).bind (·.strings.find? index)

/-- Records the string object of a constant, unless one is known. -/
def recordString (r : Registry) (id : ClassId) (index : UInt16) (object : Ref) : Registry :=
  r.modifyState id fun s => { s with strings := s.strings.record index object }

/-- The string that stands for a text. -/
def interned? (r : Registry) (text : String) : Option Ref := r.interned[text]?

/-- Makes a string stand for a text, unless one does. -/
def intern (r : Registry) (text : String) (object : Ref) : Registry :=
  { r with interned := r.interned.insertIfNew text object }

/-- The objects that the registry keeps alive. -/
def roots (r : Registry) : List Ref :=
  (r.loadedClasses.flatMap fun id => ((r.state? id).map (·.roots)).getD [])
    ++ r.interned.toList.map (·.2)

/-- Forgets how loading came out and which strings stand for their text. Of the classes there are, those
in `held` stay, and what they are built from: objects of these classes are still around. References to the
others have to be resolved anew. -/
def teardown (r : Registry) (held : List ClassId) : Registry :=
  let stays := r.table.markParents <|
    held.foldl (·.setIfInBounds · true) (Array.replicate r.table.size false)
  { r with
    states := r.states.map (·.forget fun id => stays.getD id false)
    loaded := {}
    interned := {} }

end Registry

end Jvm.Linking
