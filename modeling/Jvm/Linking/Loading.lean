import Jvm.ClassFile.References
import Jvm.CoreClasses
import Jvm.Linking.Layout
import Jvm.Linking.Registry

/-! # Loading

Loading a class finds its class file, loads the classes above it and links it. A request of the program
goes to the core classes first. The classes being loaded are kept on a stack, and a class that is requested
while it is on the stack is circular. Every class file in use makes one more key of the class paths busy,
and an array class asks for classes with fewer dimensions, so loading ends. -/

namespace Jvm.Linking

open ClassFile Assembly

/-- A computation on the registry. -/
abbrev Linker := EStateM Fault Registry

namespace Linker

/-- The result of a pure step. -/
def ofExcept {α : Type} : Except Fault α → Linker α
  | .ok a => pure a
  | .error e => throw e

/-- The outcome of a computation, which itself does not fail. -/
def attempt {α : Type} (x : Linker α) : Linker (Except Fault α) := fun r =>
  match x r with
  | .ok a r => .ok (.ok a) r
  | .error e r => .ok (.error e) r

/-- The class of a number, which has to be there. -/
def getClass (id : ClassId) : Linker LinkedClass := do
  match (← get).class? id with
  | some c => return c
  | none => throw (.internal ("no class numbered " ++ toString id))

/-- Enters a linked class. -/
def publish (c : LinkedClass) (init : InitState) (statics : Array Value) : Linker ClassId := do
  let (id, r) ← ofExcept ((← get).add c (.start init statics c.pool.size))
  set r
  return id

end Linker

/-! ## Linking a class file -/

/-- Checks that a class may extend another one. -/
def checkSuperclass (name superName : String) (isInterface : Bool) (s : LinkedClass) :
    Except Fault Unit := do
  if s.isInterface then
    throw (.incompatibleClassChange ("class " ++ name ++ " has interface " ++ superName
      ++ " as super class"))
  if s.isArray then
    throw (.classFormat ("class " ++ name ++ " has array class " ++ superName ++ " as super class"))
  if s.access.isFinal then throw (.verify ("cannot inherit from final class " ++ superName))
  if isInterface && superName != objectName then
    throw (.classFormat ("interface " ++ name ++ " must have " ++ objectName ++ " as super class"))

/-- Loads the superclass that a class file names; only the object class has none. -/
def linkSuperclass (load : String → Linker ClassId) (name : String) (c : ClassFile) :
    Linker (Option ClassId) := do
  match ← Linker.ofExcept c.superName with
  | some superName =>
    let id ← load superName
    Linker.ofExcept (checkSuperclass name superName c.access.isInterface (← Linker.getClass id))
    return some id
  | none =>
    if name = objectName then return none
    throw (.classFormat ("class " ++ name ++ " has no super class"))

/-- Loads a superinterface. -/
def linkInterface (load : String → Linker ClassId) (name interfaceName : String) :
    Linker ClassId := do
  let id ← load interfaceName
  if !(← Linker.getClass id).isInterface then
    throw (.incompatibleClassChange ("class " ++ name ++ " can not implement " ++ interfaceName
      ++ ", because it is not an interface"))
  return id

/-- The flag of classes without instances of their own. -/
def abstractMask : UInt16 := 0x0400

/-- A verified method as a declared method of the class numbered `self`. -/
def VerifiedMethod.declare (m : VerifiedMethod) (self : ClassId) (className : String)
    (inInterface : Bool) : Method :=
  ⟨self, className, m.name, m.descriptor, m.type, m.access, m.code, none, inInterface⟩

/-- The class that gets the number `self` from a class file, with its static fields, once the classes
above it are linked. -/
def linkedClass (self : ClassId) (loader : Loader) (name : String) (c : ClassFile)
    (superclass : Option (ClassId × LinkedClass)) (interfaces : List (ClassId × LinkedClass)) :
    Except Fault (LinkedClass × Array Value) := do
  let isInterface := c.access.isInterface
  let inheritedFields := (superclass.map (·.2.template)).getD #[]
  let fields ← layOutFields c.pool inheritedFields c.fields
  let verified ← c.methods.mapM (verifyMethod c.pool name isInterface)
  let inheritedMethods :=
    if isInterface then .empty else (superclass.map (·.2.methodTable)).getD .empty
  let declared := verified.map (·.declare self name isInterface)
  let methods ← layOutMethods self inheritedMethods declared (interfaces.map (·.2))
  return ({
    name, loader
    access := if isInterface then c.access.with_ abstractMask else c.access
    kind := if isInterface then .interface else .ordinary
    superclass := superclass.map (·.1)
    interfaces := interfaces.map (·.1)
    fields := fields.fields.reverse
    template := fields.template
    methods := methods.methods.reverse
    methodTable := methods.table
    pool := c.pool
    source := c.sourceFile? }, fields.statics)

/-- Links a class file that was found under a name. -/
def link (load : String → Linker ClassId) (loader : Loader) (expected : String) (c : ClassFile) :
    Linker ClassId := do
  let name ← Linker.ofExcept c.name
  if name != expected then
    throw (.classNotFound (expected ++ " (wrong name: " ++ name ++ ")"))
  let superclass ← linkSuperclass load name c
  let interfaceNames ← Linker.ofExcept c.interfaceNames
  let interfaces ← interfaceNames.mapM (linkInterface load name)
  let numbered (id : ClassId) : Linker (ClassId × LinkedClass) := do
    return (id, ← Linker.getClass id)
  let superclass ← superclass.mapM numbered
  let interfaces ← interfaces.mapM numbered
  let self := (← get).table.size
  let (linked, statics) ←
    Linker.ofExcept (linkedClass self loader name c superclass interfaces)
  Linker.publish linked .linked statics

/-! ## Array classes -/

/-- The primitive type that a field type is. -/
def primitive? : FieldType → Option Primitive
  | .byte => some .byte
  | .char => some .char
  | .double => some .double
  | .float => some .float
  | .int => some .int
  | .long => some .long
  | .short => some .short
  | .boolean => some .boolean
  | .object _ | .array _ => none

/-- What the name of an array class says about its elements. -/
inductive ElementName where
  | primitive (type : Primitive)
  | reference (name : String)
deriving DecidableEq, Inhabited, Repr

/-- The elements of the array class of a name. -/
def elementName? (name : String) : Option ElementName :=
  match name.toList with
  | '[' :: rest =>
    match FieldType.ofChars? ('[' :: rest) with
    | some (.array (.object _)) => some (.reference (String.ofList (rest.drop 1).dropLast))
    | some (.array (.array _)) => some (.reference (String.ofList rest))
    | some (.array element) => (primitive? element).map .primitive
    | _ => none
  | _ => none

/-- The length of the name of an array class; other names count for nothing. -/
def weight (name : String) : Nat :=
  if name.toList.head? = some '[' then name.toList.length else 0

/-- Whether a name is that of an array class. -/
def isArrayName (name : String) : Bool := name.toList.head? == some '['

theorem weight_pos {name : String} (h : isArrayName name = true) : 0 < weight name := by
  unfold weight
  rw [if_pos (by simpa [isArrayName] using h)]
  cases hn : name.toList <;> simp_all [isArrayName]

theorem weight_le_length (name : String) : weight name ≤ name.toList.length := by
  unfold weight; split <;> omega

/-- The name of an element class counts for less. -/
theorem weight_lt_of_elementName? {name element : String}
    (h : elementName? name = some (.reference element)) : weight element < weight name := by
  have shorter : element.toList.length < name.toList.length ∧ name.toList.head? = some '[' := by
    unfold elementName? at h
    split at h
    · next rest hn =>
      split at h
      · cases h; simp [hn]; omega
      · cases h; simp [hn]
      · rw [Option.map_eq_some_iff] at h; obtain ⟨_, _, h⟩ := h; cases h
      · cases h
    · cases h
  have := weight_le_length element
  unfold weight at this ⊢
  rw [if_pos shorter.2]
  omega

/-- The flags of array classes: public, final and abstract. -/
def arrayAccess : Access := ⟨0x0411⟩

/-- Links the array class of a name with elements of a component type. -/
def linkArray (loader : Loader) (name : String) (component : Component)
    (object cloneable serializable : ClassId) : Linker ClassId := do
  Linker.publish {
    name, loader
    access := arrayAccess
    kind := .array component
    superclass := some object
    interfaces := [cloneable, serializable]
    fields := []
    template := #[]
    methods := []
    methodTable := (← Linker.getClass object).methodTable
    pool := ⟨#[]⟩
    source := none } .initialized #[]

/-! ## Requests -/

/-- The loaders and names that have class files. -/
def ClassPaths.keys (p : ClassPaths) : List Key :=
  p.boot.names.map (Loader.boot, ·) ++ p.app.names.map (Loader.app, ·)

/-- The number of keys that are not on a stack. -/
def ClassPaths.idle (p : ClassPaths) (stack : List Key) : Nat := p.keys.countP (!stack.contains ·)

/-- A narrower test counts fewer if it leaves an element out. -/
theorem countP_lt {α : Type} {p q : α → Bool} {xs : List α} {a : α} (mem : a ∈ xs)
    (out : p a = false) (counted : q a = true) (narrower : ∀ x, p x = true → q x = true) :
    xs.countP p < xs.countP q := by
  induction xs with
  | nil => cases mem
  | cons x rest ih =>
    have mono : rest.countP p ≤ rest.countP q := List.countP_mono_left fun x _ => narrower x
    rw [List.countP_cons, List.countP_cons]
    rcases List.mem_cons.1 mem with rfl | mem
    · simp [out, counted]; omega
    · have := ih mem
      have := narrower x
      cases hp : p x
      · simp_all; omega
      · simp_all

theorem ClassPaths.idle_cons_le (p : ClassPaths) (key : Key) (stack : List Key) :
    p.idle (key :: stack) ≤ p.idle stack :=
  List.countP_mono_left fun k _ => by simp

theorem ClassPaths.mem_keys {p : ClassPaths} {loader : Loader} {name : String} {bytes : List UInt8}
    (h : (p.ofLoader loader).find name = .ok (some bytes)) : (loader, name) ∈ p.keys := by
  have := (p.ofLoader loader).known name bytes h
  cases loader <;> simp_all [keys, ofLoader]

/-- Putting a name with a class file on the stack leaves fewer keys idle. -/
theorem ClassPaths.idle_cons_lt {p : ClassPaths} {loader : Loader} {name : String}
    {bytes : List UInt8} {stack : List Key} (fresh : (loader, name) ∉ stack)
    (h : (p.ofLoader loader).find name = .ok (some bytes)) :
    p.idle ((loader, name) :: stack) < p.idle stack :=
  countP_lt (p.mem_keys h) (by simp) (by simpa using fresh) fun k => by simp

/-- A pair is below another one if its first part is not greater and its second part is below. -/
theorem lex_of_le {a a' : Nat} {b b' : Nat × Nat} (ha : a' ≤ a)
    (hb : Prod.Lex (· < ·) (· < ·) b' b) :
    Prod.Lex (· < ·) (Prod.Lex (· < ·) (· < ·)) (a', b') (a, b) := by
  rcases Nat.lt_or_eq_of_le ha with h | rfl
  · exact .left _ _ h
  · exact .right _ hb

/-- The rank of a request to a loader, above that of the definitions it asks for. -/
def loadRank : Loader → Nat
  | .boot => 1
  | .app => 3

/-- The rank of a definition by a loader. -/
def defineRank : Loader → Nat
  | .boot => 0
  | .app => 2

mutual

/-- Loads a class for a loader; the program's loader asks for a core class first. -/
def load (paths : ClassPaths) (stack : List Key) (loader : Loader) (name : String) :
    Linker ClassId :=
  match loader with
  | .boot => define paths stack .boot name
  | .app =>
    tryCatch (define paths stack .boot name) fun e =>
      match e with
      | .classNotFound _ => define paths stack .app name
      | e => throw e
termination_by (paths.idle stack, weight name, loadRank loader)
decreasing_by
  all_goals exact lex_of_le (Nat.le_refl _) (.right _ (by simp [loadRank, defineRank]))

/-- The class that a loader defines under a name; the outcome of the first attempt counts. -/
def define (paths : ClassPaths) (stack : List Key) (loader : Loader) (name : String) :
    Linker ClassId := do
  match (← get).loaded[(loader, name)]? with
  | some result => Linker.ofExcept result
  | none =>
    if _fresh : (loader, name) ∈ stack then throw (.classCircularity name)
    else
      let result ← Linker.attempt <|
        if _array : isArrayName name then do
          let stack := (loader, name) :: stack
          let component : Component ⊕ ClassId ← match _h : elementName? name with
            | none => throw (.classNotFound name)
            | some (.primitive type) =>
              match loader with
              | .boot => pure (.inl (.primitive type))
              | .app => .inr <$> load paths stack .boot name
            | some (.reference element) => do
              let component ← load paths stack loader element
              match loader, (← Linker.getClass component).loader with
              | .app, .boot => .inr <$> load paths stack .boot name
              | _, _ => pure (.inl (.reference component))
          match component with
          | .inr id => return id
          | .inl component =>
            let object ← load paths stack .boot objectName
            let cloneable ← load paths stack .boot CoreClasses.cloneableName
            let serializable ← load paths stack .boot CoreClasses.serializableName
            linkArray loader name component object cloneable serializable
        else
          match _known : (paths.ofLoader loader).find name with
          | .error text => throw (.classNotFound (name ++ " (" ++ text ++ ")"))
          | .ok none => throw (.classNotFound name)
          | .ok (some bytes) => do
            let c ← Linker.ofExcept (ClassFile.parse bytes)
            link (fun n => load paths ((loader, name) :: stack) loader n) loader name c
      modify fun r => { r with loaded := r.loaded.insert (loader, name) result }
      Linker.ofExcept result
termination_by (paths.idle stack, weight name, defineRank loader)
decreasing_by
  · exact lex_of_le (paths.idle_cons_le _ _) (.left _ _ (weight_pos _array))
  · exact lex_of_le (paths.idle_cons_le _ _) (.left _ _ (weight_pos _array))
  · exact lex_of_le (paths.idle_cons_le _ _) (.left _ _ (weight_pos _array))
  · exact lex_of_le (paths.idle_cons_le _ _) (.right _ (by simp [loadRank, defineRank]))
  · exact lex_of_le (paths.idle_cons_le _ _) (.left _ _ (weight_lt_of_elementName? (by assumption)))
  · exact lex_of_le (paths.idle_cons_le _ _) (.right _ (by simp [loadRank, defineRank]))
  · exact .left _ _ (ClassPaths.idle_cons_lt _fresh _known)

end

end Jvm.Linking
