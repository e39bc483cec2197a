import Jvm.Bytecode.Decode
import Jvm.ClassFile.Access
import Jvm.ClassFile.Basic
import Jvm.ClassFile.Descriptor
import Jvm.Linking.ClassPath

/-! # Linked classes

A linked class is what running code works with: decoded methods, fields with their slots, a table of the
methods that calls select from. Classes refer to each other by number. -/

namespace Jvm.Linking

open ClassFile

/-- The number of a class. -/
abbrev ClassId := Nat

/-- The component type of an array class. -/
inductive Component where
  | primitive (type : Primitive)
  | reference (cls : ClassId)
deriving DecidableEq, Inhabited, Repr

/-- The element kind of arrays with a component type. -/
def Component.elementKind : Component → ElementKind
  | primitive type => .primitive type
  | reference _ => .reference

/-- The kinds of classes. -/
inductive ClassKind where
  | ordinary
  | interface
  | array (component : Component)
deriving DecidableEq, Inhabited, Repr

/-- A declared field. -/
structure Field where
  name : String
  descriptor : String
  type : FieldType
  access : Access
  slot : Nat
  constant : Option UInt16
deriving DecidableEq, Inhabited, Repr

/-- Whether a field belongs to the class. -/
def Field.isStatic (f : Field) : Bool := f.access.isStatic

/-- An exception handler, in instruction indices. -/
structure Handler where
  start : Nat
  stop : Nat
  handler : Nat
  -- The pool index of the caught class; none catches everything.
  catchType : Option UInt16
deriving DecidableEq, Inhabited, Repr

/-- Whether a handler covers an instruction. -/
def Handler.covers (h : Handler) (pc : Nat) : Bool := h.start ≤ pc && pc < h.stop

/-- The checked code of a method. -/
structure Code where
  maxStack : Nat
  maxLocals : Nat
  body : Bytecode.Body
  handlers : List Handler
  lines : List LineRow
deriving DecidableEq, Inhabited, Repr

/-- Of a row and a later one, the one that begins later; the later one if they begin together. -/
def laterRow (best : Option LineRow) (row : LineRow) : Option LineRow :=
  match best with
  | some b => if b.start ≤ row.start then some row else best
  | none => some row

/-- The source line of an instruction. -/
def Code.line? (c : Code) (index : Nat) : Option UInt16 := do
  let pc ← c.body.pcOf? index
  let row ← (c.lines.filter fun row => row.start ≤ pc).foldl laterRow none
  return row.line

/-- A declared method. -/
structure Method where
  owner : ClassId
  className : String
  name : String
  descriptor : String
  type : MethodType
  access : Access
  -- The code; none for abstract and native methods.
  code : Option Code
  -- The place in the method table of the declaring class; none for methods that are not selected by
  -- the class of the receiver.
  slot : Option Nat
  inInterface : Bool
deriving DecidableEq, Inhabited, Repr

namespace Method

/-- A method as it is shown in messages. -/
def text (m : Method) : String := m.className ++ "." ++ m.name ++ m.descriptor

/-- Whether a method belongs to the class. -/
def isStatic (m : Method) : Bool := m.access.isStatic

/-- Whether a method has no implementation. -/
def isAbstract (m : Method) : Bool := m.access.isAbstract

/-- Whether a method is implemented outside the class file. -/
def isNative (m : Method) : Bool := m.access.isNative

/-- Whether only the declaring class sees a method. -/
def isPrivate (m : Method) : Bool := m.access.isPrivate

/-- Whether a method must not be overridden. -/
def isFinal (m : Method) : Bool := m.access.isFinal

/-- Whether a call of the method holds a monitor. -/
def isSynchronized (m : Method) : Bool := m.access.isSynchronized

/-- Whether a name is that of an instance or class initializer. -/
def isInitializerName (name : String) : Bool := name.toList.head? == some '<'

/-- Whether calls select the method by the class of the receiver. -/
def isVirtual (m : Method) : Bool := !m.isStatic && !m.isPrivate && !isInitializerName m.name

/-- Whether a method has a name and a descriptor. -/
def hasSignature (m : Method) (name descriptor : String) : Bool :=
  m.name == name && m.descriptor == descriptor

/-- The local slots of the arguments, with one for the receiver. -/
def argSlots (m : Method) : Nat := m.type.argSlots + if m.isStatic then 0 else 1

end Method

/-- Slots by name and descriptor: for each name the descriptors in the order in which they came. -/
abbrev MethodIndex := List (String × List (String × Nat))

namespace MethodIndex

/-- The slot of a name and descriptor. -/
def slot? (index : MethodIndex) (name descriptor : String) : Option Nat :=
  (index.lookup name).bind (·.lookup descriptor)

/-- Adds the slot of a name and descriptor behind the others of the name. -/
def add (name descriptor : String) (slot : Nat) : MethodIndex → MethodIndex
  | [] => [(name, [(descriptor, slot)])]
  | (other, slots) :: rest =>
    if other = name then (other, slots ++ [(descriptor, slot)]) :: rest
    else (other, slots) :: add name descriptor slot rest

end MethodIndex

/-- The methods that calls select from by the class of the receiver. -/
structure MethodTable where
  methods : Array Method
  index : MethodIndex
deriving DecidableEq, Inhabited, Repr

namespace MethodTable

/-- A table without methods. -/
def empty : MethodTable := ⟨#[], []⟩

/-- The slot of a name and descriptor. -/
def slot? (t : MethodTable) (name descriptor : String) : Option Nat := t.index.slot? name descriptor

/-- The method of a name and descriptor. -/
def method? (t : MethodTable) (name descriptor : String) : Option Method :=
  (t.slot? name descriptor).bind (t.methods[·]?)

/-- Puts a method into a new slot. -/
def push (t : MethodTable) (m : Method) : MethodTable where
  methods := t.methods.push m
  index := t.index.add m.name m.descriptor t.methods.size

/-- Puts a method into a slot in place of another one of its name and descriptor. -/
def replace (t : MethodTable) (slot : Nat) (m : Method) : MethodTable :=
  { t with methods := t.methods.setIfInBounds slot m }

end MethodTable

/-- A linked class. -/
structure LinkedClass where
  name : String
  loader : Loader
  access : Access
  kind : ClassKind
  superclass : Option ClassId
  interfaces : List ClassId
  fields : List Field
  template : Array Value
  methods : List Method
  methodTable : MethodTable
  pool : ConstantPool
  source : Option String
deriving DecidableEq, Inhabited, Repr

namespace LinkedClass

/-- Whether a class is an interface. -/
def isInterface (c : LinkedClass) : Bool := c.kind == .interface

/-- The component type of an array class. -/
def component? (c : LinkedClass) : Option Component :=
  match c.kind with
  | .array component => some component
  | _ => none

/-- Whether a class is one of arrays. -/
def isArray (c : LinkedClass) : Bool := c.component?.isSome

/-- Whether a class has no instances of its own. -/
def isAbstract (c : LinkedClass) : Bool := c.access.isAbstract || c.isInterface

/-- The classes that a class is built from. -/
def parents (c : LinkedClass) : List ClassId :=
  c.superclass.toList ++ c.interfaces ++
    match c.kind with
    | .array (.reference component) => [component]
    | _ => []

/-- The declared field of a name and descriptor. -/
def field? (c : LinkedClass) (name descriptor : String) : Option Field :=
  c.fields.find? fun f => f.name == name && f.descriptor == descriptor

/-- The declared method of a name and descriptor. -/
def method? (c : LinkedClass) (name descriptor : String) : Option Method :=
  c.methods.find? (·.hasSignature name descriptor)

/-- The methods of the method table by slot. -/
def vtable (c : LinkedClass) : Array Method := c.methodTable.methods

/-- The slot of a name and descriptor in the method table. -/
def slot? (c : LinkedClass) (name descriptor : String) : Option Nat :=
  c.methodTable.slot? name descriptor

/-- The method that a call of a name and descriptor selects for instances of the class. -/
def virtual? (c : LinkedClass) (name descriptor : String) : Option Method :=
  c.methodTable.method? name descriptor

/-- The slots of the method table whose methods have no implementation. -/
def abstractSlots (c : LinkedClass) : List Nat :=
  (c.vtable.toList.zipIdx.filter (·.1.isAbstract)).map (·.2)

end LinkedClass

end Jvm.Linking
