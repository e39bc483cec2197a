import Jvm.Linking.Table
import Jvm.Linking.Verification

/-! # Layout

The places of fields and methods in a linked class. Instance fields follow those of the superclass, static
fields are counted by themselves. The method table begins with that of the superclass; a declared method
takes the slot of its name and descriptor or a new one, and methods of superinterfaces fill in what is
missing. -/

namespace Jvm.Linking

open ClassFile

/-! ## Fields -/

/-- Fields laid out so far. -/
structure FieldLayout where
  fields : List Field
  template : Array Value
  statics : Array Value

/-- The value of a static field before any assignment, from the constant it names. String constants are
put in when the class is initialized. -/
def constantFieldValue (c : Constant) (type : FieldType) (name : String) : Except Fault Value :=
  let mismatch : Except Fault Value :=
    .error (.classFormat ("ConstantValue of field " ++ name ++ " is " ++ c.tagName
      ++ ", which does not match its type " ++ type.text))
  match c, type with
  | .integer v, .int | .integer v, .short | .integer v, .char | .integer v, .byte
  | .integer v, .boolean => .ok (.int v)
  | .long v, .long => .ok (.long v)
  | .float bits, .float => .ok (.float bits)
  | .double bits, .double => .ok (.double bits)
  | .string _, .object cls => if cls = "java/lang/String" then .ok .null else mismatch
  | _, _ => mismatch

/-- Lays a field out behind others. -/
def FieldLayout.add (pool : ConstantPool) (l : FieldLayout) (m : MemberInfo) :
    Except Fault FieldLayout := do
  let name ← pool.utf8 m.name
  let descriptor ← pool.utf8 m.descriptor
  let type ← FieldType.parse descriptor
  if m.access.isStatic then
    let constant := m.constantValue?
    let value ← match constant with
      | some index => do constantFieldValue (← pool.get index) type name
      | none => pure type.defaultValue
    return { l with
      fields := ⟨name, descriptor, type, m.access, l.statics.size, constant⟩ :: l.fields
      statics := l.statics.push value }
  else
    return { l with
      fields := ⟨name, descriptor, type, m.access, l.template.size, none⟩ :: l.fields
      template := l.template.push type.defaultValue }

/-- Lays the fields of a class out behind those of its superclass. -/
def layOutFields (pool : ConstantPool) (inherited : Array Value) (members : List MemberInfo) :
    Except Fault FieldLayout :=
  members.foldlM (FieldLayout.add pool) ⟨[], inherited, #[]⟩

/-! ## Methods -/

/-- Methods laid out so far. -/
structure MethodLayout where
  methods : List Method
  table : MethodTable

/-- Lays a declared method out behind others. -/
def MethodLayout.add (l : MethodLayout) (m : Method) : Except Fault MethodLayout :=
  if m.isVirtual then
    match l.table.slot? m.name m.descriptor with
    | some slot =>
      let m := { m with slot := some slot }
      match l.table.methods[slot]?.filter fun old => old.owner != m.owner && old.isFinal with
      | some overridden =>
        .error (.linkage (m.text ++ " overrides final method in " ++ overridden.className))
      | none => .ok ⟨m :: l.methods, l.table.replace slot m⟩
    | none =>
      let m := { m with slot := some l.table.methods.size }
      .ok ⟨m :: l.methods, l.table.push m⟩
  else .ok { l with methods := m :: l.methods }

/-- Whether a method table entry of the class numbered `self` gives way to another method of its name and
descriptor: one without an implementation that comes from a superinterface does to one with an
implementation. -/
def givesWay (self : ClassId) (old new : Method) : Bool :=
  old.owner != self && old.inInterface && old.isAbstract && !new.isAbstract

/-- Adds a method of a superinterface to the method table of the class numbered `self`. -/
def inheritMethod (self : ClassId) (table : MethodTable) (m : Method) : MethodTable :=
  match table.slot? m.name m.descriptor with
  | none => table.push m
  | some slot =>
    if (table.methods[slot]?.filter (givesWay self · m)).isSome then table.replace slot m
    else table

/-- Lays the methods of the class numbered `self` out: behind the method table of its superclass the
declared methods, and behind those the methods of the superinterfaces. -/
def layOutMethods (self : ClassId) (inherited : MethodTable) (declared : List Method)
    (interfaces : List LinkedClass) : Except Fault MethodLayout := do
  let l ← declared.foldlM MethodLayout.add ⟨[], inherited⟩
  let inheritAll (table : MethodTable) (i : LinkedClass) : MethodTable :=
    i.vtable.foldl (inheritMethod self) table
  return { l with table := interfaces.foldl inheritAll l.table }

end Jvm.Linking
