import Jvm.Execution.Natives.Host

/-! # Calls

Calling a method enters a frame for its code, or runs its native implementation to the end. A call of a
synchronized method holds the monitor of the receiver, or of the class object, until it ends. Which method
a call of an instance method selects depends on the instruction and on the class of the receiver. -/

namespace Jvm.Execution

open Linking ClassFile

/-- How an instruction leaves the thread. -/
inductive Flow where
  | next
  | moved
  | done (result : Option Value)
deriving DecidableEq, Inhabited, Repr

/-- How many values a call takes, the receiver included. -/
def argCount (m : Method) : Nat := m.type.params.length + if m.isStatic then 0 else 1

/-- Whether a value is a result of a method that gives back a type. -/
def fitsResult : Option FieldType → Option Value → Bool
  | none, none => true
  | some .long, some (.long _) | some .float, some (.float _) | some .double, some (.double _) => true
  | some (.object _), some v | some (.array _), some v => v.isReference
  | some .int, some (.int _) | some .short, some (.int _) | some .char, some (.int _)
  | some .byte, some (.int _) | some .boolean, some (.int _) => true
  | _, _ => false

namespace VM

/-- The receiver of a call. -/
def receiver (m : Method) : List Value → VM Ref
  | .ref r :: _ => return r
  | .null :: _ => throw Abrupt.nullPointer
  | _ => fail (.verify ("missing receiver for " ++ m.text))

/-- Enters the monitor that a call of a synchronized method holds. -/
def enterCallMonitor (m : Method) (args : List Value) : VM (Option Ref) := do
  if !m.isSynchronized then return none
  let object ←
    if m.isStatic then pinning (objectsIn args) (classObjectOf m.owner) else receiver m args
  enterMonitor object
  note (.entered object)
  return some object

/-- Enters a frame for a method. -/
def pushFrame (m : Method) (args : List Value) : VM Unit := do
  if (← readThe Context).env.maxFrames ≤ (← depth) then fail .stackOverflow
  match m.code with
  | some code =>
    let monitor ← enterCallMonitor m args
    modifyThe Machine fun s => { s with frames := s.frames.push (.enter m code args monitor) }
  | none =>
    fail (if m.isAbstract then .abstractMethod m.text
      else .internal (m.text ++ " has no code"))

/-- Complains about the result of a native method that is not of the declared type. -/
def checkResult (m : Method) (result : Option Value) : VM Unit := do
  if !fitsResult m.type.result result then
    fail (.linkage ("native " ++ m.text ++ " returned "
      ++ (result.map Value.typeName).getD "nothing"))

/-- Runs an implementation of a native method, holding the monitor of the call. -/
def runNative (native : Native) (m : Method) (args : List Value) : VM (Option Value) := do
  let monitor ← enterCallMonitor m args
  let result ← attempt (native.run args)
  let released ← match monitor with
    | some r => attempt (leaveCallMonitor r)
    | none => pure (.ok ())
  let value ← MonadExcept.ofExcept result
  MonadExcept.ofExcept released
  return value

/-- Calls a native method. Its arguments are held meanwhile. -/
def callNative (m : Method) (args : List Value) : VM (Option Value) := do
  match (← readThe Context).env.natives.find? m with
  | none => fail (.unsatisfiedLink m.text)
  | some native =>
    let result ← pinning (objectsIn args) (runNative native m args)
    checkResult m result
    return result

/-- Calls a method from the current frame. -/
def enter (m : Method) (args : List Value) : VM Flow := do
  if m.isNative then
    if let some v ← callNative m args then push v
    return .next
  else
    pushFrame m args
    return .moved

/-! ## Selection -/

/-- Fails because a reference and what it names disagree. -/
def incompatible {α : Type} (what : String) : VM α := fail (.incompatibleClassChange what)

/-- Resolves the method at a pool index of the current class. -/
def methodAt (index : UInt16) : VM Method := do
  let current ← currentClass
  link (resolveMethod · current index)

/-- Resolves the instance method at a pool index of the current class. -/
def instanceMethodAt (index : UInt16) : VM Method := do
  let m ← methodAt index
  if m.isStatic then incompatible ("Expected non-static method " ++ m.text)
  return m

/-- Pops the arguments of a call of a method. -/
def popArgsOf (m : Method) : VM (List Value) := onFrame (Frame.popArgs (argCount m))

/-- Calls a method that has been selected. -/
def enterSelected (m : Method) (args : List Value) : VM Flow := do
  if m.isAbstract then fail (.abstractMethod m.text)
  enter m args

/-- Whether a call in a class of a method that another class declares goes to a superclass. -/
def isSuperCall (t : ClassTable) (current : ClassId) (c owner : LinkedClass) (ownerId : ClassId) :
    Bool :=
  c.access.isSuper && !owner.isInterface && ownerId != current && t.isSubclass current ownerId

/-- The method that a special call selects: the resolved one, except that a call of a superclass method is
looked up again from the direct superclass. -/
def selectSpecial (m : Method) : VM Method := do
  if m.name == "<init>" || m.isPrivate then return m
  let current ← currentClass
  let c ← getClass current
  let t ← table
  if !isSuperCall t current c (← getClass m.owner) m.owner then return m
  return ((c.superclass.bind t.class?).bind (·.virtual? m.name m.descriptor)).getD m

/-- The method that a virtual call selects for receivers of a class: the one in the slot of the resolved
method, unless the slot holds another signature. -/
def selectVirtual? (c : LinkedClass) (m : Method) : Option Method :=
  ((m.slot.bind (c.vtable[·]?)).filter (·.hasSignature m.name m.descriptor)).or
    (c.virtual? m.name m.descriptor)

/-- The method that an interface call selects for receivers of a class. -/
def selectInterface (id : ClassId) (m : Method) : VM Method := do
  let c ← getClass id
  let owner ← getClass m.owner
  if owner.isInterface && !(← table).isAssignable id m.owner then
    incompatible ("Class " ++ dotted c.name ++ " does not implement the requested interface "
      ++ dotted owner.name)
  match c.virtual? m.name m.descriptor with
  | some selected => return selected
  | none => incompatible (dotted c.name ++ " has no implementation of " ++ m.text)

/-! ## Calling instructions -/

/-- Calls the static method at a pool index. -/
def invokeStatic (index : UInt16) : VM Flow := do
  let m ← methodAt index
  if !m.isStatic then incompatible ("Expected static method " ++ m.text)
  ensureInitialized m.owner
  enter m (← popArgsOf m)

/-- Calls a constructor, a private method or a superclass method. -/
def invokeSpecial (index : UInt16) : VM Flow := do
  let m ← instanceMethodAt index
  let selected ← selectSpecial m
  let args ← popArgsOf m
  let _ ← receiver m args
  enterSelected selected args

/-- Calls the method that the class of the receiver selects. -/
def invokeVirtual (index : UInt16) : VM Flow := do
  let m ← instanceMethodAt index
  let args ← popArgsOf m
  let this ← receiver m args
  if m.isPrivate then enterSelected m args
  else
    match selectVirtual? (← getClass (← classOf this)) m with
    | some selected => enterSelected selected args
    | none => fail (.abstractMethod m.text)

/-- Calls the method that the class of the receiver has for an interface method. -/
def invokeInterface (index : UInt16) : VM Flow := do
  let m ← instanceMethodAt index
  let args ← popArgsOf m
  let this ← receiver m args
  if m.isPrivate then enterSelected m args
  else enterSelected (← selectInterface (← classOf this) m) args

/-- Leaves the current frame with a result, which goes to the frame below it, or to the caller if `base`
frames are left. -/
def returnFrom (base : Nat) (result : Option Value) : VM Flow := do
  match (← getThe Machine).frames.top? with
  | none => fail (.internal "return without a frame")
  | some f =>
    modifyThe Machine fun m => { m with frames := m.frames.pop }
    if let some monitor := f.monitor then leaveCallMonitor monitor
    if (← depth) == base then return .done result
    onFrame do
      modify fun f => { f with pc := f.pc + 1 }
      if let some v := result then Frame.push v
    return .moved

end VM

end Jvm.Execution
