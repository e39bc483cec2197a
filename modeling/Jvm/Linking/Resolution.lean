import Jvm.Linking.Loading

/-! # Resolution

A reference of a constant pool is resolved by loading the class it names and looking the member up there.
The outcome of the first attempt is kept for each index, failures too. -/

namespace Jvm.Linking

open ClassFile Assembly

/-- Loads a class on behalf of a running program, with no other class being loaded. -/
def loadClass (paths : ClassPaths) (loader : Loader) (name : String) : Linker ClassId :=
  load paths [] loader name

/-- The name of the class of arrays with elements of a class. -/
def arrayNameOf (c : LinkedClass) : String :=
  if c.isArray then "[" ++ c.name else "[L" ++ c.name ++ ";"

/-- The class of arrays with elements of a class. -/
def arrayClassOf (paths : ClassPaths) (component : ClassId) : Linker ClassId := do
  let c ← Linker.getClass component
  loadClass paths c.loader (arrayNameOf c)

/-- The class of arrays with elements of a primitive type. -/
def primitiveArrayClass (paths : ClassPaths) (element : Primitive) : Linker ClassId :=
  loadClass paths .boot (String.ofList ['[', element.letter])

namespace Resolution

/-- A cache of the references of one kind. -/
structure Place (α : Type) where
  get : ClassState → Cache (Except Fault α)
  modify : (Cache (Except Fault α) → Cache (Except Fault α)) → ClassState → ClassState

/-- The class references. -/
def classes : Place ClassId where
  get := (·.classRefs)
  modify f s := { s with classRefs := f s.classRefs }

/-- The field references. -/
def fields : Place ClassTable.ResolvedField where
  get := (·.fieldRefs)
  modify f s := { s with fieldRefs := f s.fieldRefs }

/-- The method references. -/
def methods : Place Method where
  get := (·.methodRefs)
  modify f s := { s with methodRefs := f s.methodRefs }

/-- The result kept for an index of a class; otherwise the result of looking it up, which is kept from
then on. -/
def remembered {α : Type} (place : Place α) (source : ClassId) (index : UInt16)
    (lookUp : Linker α) : Linker α := do
  match ((← get).state? source).bind fun s => (place.get s).find? index with
  | some result => Linker.ofExcept result
  | none =>
    let result ← Linker.attempt lookUp
    modify fun r => r.modifyState source (place.modify (·.record index result))
    Linker.ofExcept result

/-- Finds the class at a pool index. -/
def findClass (paths : ClassPaths) (c : LinkedClass) (index : UInt16) : Linker ClassId := do
  loadClass paths c.loader (← Linker.ofExcept (c.pool.className index))

/-- Finds the field at a pool index. -/
def findField (paths : ClassPaths) (c : LinkedClass) (index : UInt16) :
    Linker ClassTable.ResolvedField := do
  let m ← Linker.ofExcept (c.pool.member index)
  let id ← loadClass paths c.loader m.owner
  match (← get).table.field? id m.name m.descriptor with
  | some f => return f
  | none => throw (.noSuchField (m.owner ++ "." ++ m.name ++ ":" ++ m.descriptor))

/-- Looks a method of an interface up: a declared one, one of the object class, one above the
superinterfaces. -/
def findInterfaceMethod (paths : ClassPaths) (id : ClassId) (name descriptor : String) :
    Linker (Option Method) := do
  match (← get).table.declaredMethod? id name descriptor with
  | some m => return some m
  | none =>
    let object ← loadClass paths .boot objectName
    let table := (← get).table
    let m := (table.declaredMethod? object name descriptor).filter fun m =>
      !m.isStatic && !m.isPrivate
    return m.or (table.interfaceMethod? id name descriptor)

/-- Whether a constant refers to a method of an interface. -/
def isInterfaceRef : Constant → Bool
  | .interfaceMethodRef _ _ => true
  | _ => false

/-- Looks a method up in the class that a reference names, which has to be of the kind that the reference
says. -/
def findMethodIn (paths : ClassPaths) (id : ClassId) (inInterface : Bool) (m : Member) :
    Linker (Option Method) := do
  let c ← Linker.getClass id
  match inInterface, c.isInterface with
  | true, false =>
    throw (.incompatibleClassChange ("found class " ++ c.name ++ ", but interface was expected"))
  | false, true =>
    throw (.incompatibleClassChange ("found interface " ++ c.name ++ ", but class was expected"))
  | true, true => findInterfaceMethod paths id m.name m.descriptor
  | false, false => return (← get).table.method? id m.name m.descriptor

/-- Finds the method at a pool index. -/
def findMethod (paths : ClassPaths) (c : LinkedClass) (index : UInt16) : Linker Method := do
  let inInterface := isInterfaceRef (← Linker.ofExcept (c.pool.get index))
  let m ← Linker.ofExcept (c.pool.member index)
  let id ← loadClass paths c.loader m.owner
  match ← findMethodIn paths id inInterface m with
  | some method => return method
  | none => throw (.noSuchMethod (m.owner ++ "." ++ m.name ++ m.descriptor))

end Resolution

/-- Resolves the class at a pool index of a class. -/
def resolveClass (paths : ClassPaths) (source : ClassId) (index : UInt16) : Linker ClassId :=
  Resolution.remembered Resolution.classes source index do
    Resolution.findClass paths (← Linker.getClass source) index

/-- Resolves the field at a pool index of a class. -/
def resolveField (paths : ClassPaths) (source : ClassId) (index : UInt16) :
    Linker ClassTable.ResolvedField :=
  Resolution.remembered Resolution.fields source index do
    Resolution.findField paths (← Linker.getClass source) index

/-- Resolves the method at a pool index of a class. -/
def resolveMethod (paths : ClassPaths) (source : ClassId) (index : UInt16) : Linker Method :=
  Resolution.remembered Resolution.methods source index do
    Resolution.findMethod paths (← Linker.getClass source) index

end Jvm.Linking
