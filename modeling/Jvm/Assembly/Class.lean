import Jvm.Assembly.Code

/-! # Assembling classes

A class is built by calls, each of which adds a part to it or changes it, in any order (`build`). A class that is
described by its names, flags, constants and members is built part by part (`ClassText.assemble`). -/

namespace Jvm.Assembly

open ClassFile

/-- The initial value of a constant field. -/
inductive FieldValue where
  | int (v : Int32)
  | long (v : Int64)
  | float (bits : UInt32)
  | double (bits : UInt64)
  | string (s : String)
deriving DecidableEq, Inhabited, Repr

/-- The constant of an initial value. -/
def FieldValue.entry : FieldValue → Entry
  | int v => .integer v
  | long v => .long v
  | float bits => .float bits
  | double bits => .double bits
  | string s => .string s

/-- A field to assemble. -/
structure FieldText where
  access : Access
  name : String
  descriptor : String
  value : Option FieldValue
deriving DecidableEq, Inhabited, Repr

/-- A method to assemble. -/
structure MethodText where
  access : Access
  name : String
  descriptor : String
  -- The code; none for a method without a body.
  code : Option (List Statement)
deriving DecidableEq, Inhabited, Repr

/-- A call on a class under construction. -/
inductive Call where
  | access (access : Access)
  | major (version : UInt16)
  | source (file : String)
  | interface (name : String)
  | constant (e : Entry)
  | field (f : FieldText)
  | method (m : MethodText)
deriving DecidableEq, Inhabited, Repr

/-- A class to assemble. -/
structure ClassText where
  name : String
  superName : Option String
  access : Access
  major : UInt16
  source : Option String
  interfaces : List String
  constants : List Entry
  fields : List FieldText
  methods : List MethodText
deriving DecidableEq, Inhabited, Repr

/-- The calls that build a class: flags and version, then what it names, and its members at the end. -/
def ClassText.calls (c : ClassText) : List Call :=
  .access c.access :: .major c.major :: (c.source.toList.map .source ++ c.interfaces.map .interface
    ++ c.constants.map .constant ++ c.fields.map .field ++ c.methods.map .method)

/-- The flags of a public class that selects superclass calls anew. -/
def defaultAccess : Access := ⟨0x0021⟩

/-- The major version unless one is set. -/
def defaultMajor : UInt16 := 52

/-- The object class. -/
def objectName : String := "java/lang/Object"

/-- A public class below the object class, without members. -/
def ClassText.ofName (name : String) : ClassText :=
  ⟨name, some objectName, defaultAccess, defaultMajor, none, [], [], [], []⟩

/-- A written member: flags, the indices of name and descriptor, and attributes. -/
structure WrittenMember where
  access : Access
  name : UInt16
  descriptor : UInt16
  attributes : List (UInt16 × List UInt8)
deriving DecidableEq, Inhabited, Repr

/-- A class under construction, all parts that have been added with the latest one first. Its constants are kept by
the writer. -/
structure ClassDraft where
  access : Access
  major : UInt16
  thisClass : UInt16
  -- The pool index of the superclass; 0 for none.
  superClass : UInt16
  interfaces : List UInt16
  fields : List WrittenMember
  methods : List WrittenMember
  attributes : List (UInt16 × List UInt8)
deriving DecidableEq, Inhabited, Repr

/-- A step of assembly, which may fail. -/
abbrev Writer := StateT Pool (Except Fault)

/-- The bytes of a list of attributes. -/
def attributeBytes (attributes : List (UInt16 × List UInt8)) : List UInt8 :=
  bytes2 attributes.length.toUInt16 ++ attributes.flatMap fun (name, body) =>
    bytes2 name ++ bytes4 body.length.toUInt32 ++ body

/-- The bytes of a list of members. -/
def memberBytes (members : List WrittenMember) : List UInt8 :=
  bytes2 members.length.toUInt16 ++ members.flatMap fun m =>
    bytes2 m.access.bits ++ bytes2 m.name ++ bytes2 m.descriptor ++ attributeBytes m.attributes

namespace Writer

/-- A step on the pool alone. -/
def onPool {α : Type} (b : Pool.Build α) : Writer α := fun p => .ok (b p)

/-- Writes a field. The value comes first among its constants. -/
def field (f : FieldText) : Writer WrittenMember := do
  let attributes ← match f.value with
    | none => pure []
    | some v => do
      let index ← onPool (Pool.entry v.entry)
      let name ← onPool (Pool.utf8 "ConstantValue")
      pure [(name, bytes2 index)]
  let name ← onPool (Pool.utf8 f.name)
  let descriptor ← onPool (Pool.utf8 f.descriptor)
  return ⟨f.access, name, descriptor, attributes⟩

/-- Writes a method. -/
def method (m : MethodText) : Writer WrittenMember := do
  match m.code with
  | none =>
    let name ← onPool (Pool.utf8 m.name)
    let descriptor ← onPool (Pool.utf8 m.descriptor)
    return ⟨m.access, name, descriptor, []⟩
  | some statements =>
    let type ← MethodType.parse m.descriptor
    let argSlots := type.argSlots + (if m.access.isStatic then 0 else 1)
    let name ← onPool (Pool.utf8 m.name)
    let descriptor ← onPool (Pool.utf8 m.descriptor)
    let codeName ← onPool (Pool.utf8 "Code")
    let (code, pool) ← assemble (← get) argSlots.toUInt16 statements
    set pool
    return ⟨m.access, name, descriptor, [(codeName, code)]⟩

/-- Begins a class: a public one, with the version that is written unless one is set. -/
def start (name : String) (superName : Option String) : Writer ClassDraft := do
  let thisClass ← onPool (Pool.classRef name)
  let superClass ← match superName with
    | some s => onPool (Pool.classRef s)
    | none => pure 0
  return ⟨defaultAccess, defaultMajor, thisClass, superClass, [], [], [], []⟩

/-- Carries out a call. -/
def call (d : ClassDraft) : Call → Writer ClassDraft
  | .access access => return { d with access }
  | .major major => return { d with major }
  | .source file => do
    let name ← onPool (Pool.utf8 "SourceFile")
    let index ← onPool (Pool.utf8 file)
    return { d with attributes := (name, bytes2 index) :: d.attributes }
  | .interface name => do
    let index ← onPool (Pool.classRef name)
    return { d with interfaces := index :: d.interfaces }
  | .constant e => do
    let _ ← onPool (Pool.entry e)
    return d
  | .field f => do return { d with fields := (← field f) :: d.fields }
  | .method m => do return { d with methods := (← method m) :: d.methods }

/-- Begins a class and carries out calls. -/
def calls (name : String) (superName : Option String) (calls : List Call) : Writer ClassDraft := do
  calls.foldlM call (← start name superName)

end Writer

/-- The bytes of a class with the constants of a pool. -/
def ClassDraft.bytes (d : ClassDraft) (pool : Pool) : List UInt8 :=
  bytes4 magic ++ bytes2 0 ++ bytes2 d.major ++ pool.bytes
    ++ bytes2 d.access.bits ++ bytes2 d.thisClass ++ bytes2 d.superClass
    ++ bytes2 d.interfaces.length.toUInt16 ++ d.interfaces.reverse.flatMap bytes2
    ++ memberBytes d.fields.reverse ++ memberBytes d.methods.reverse ++ attributeBytes d.attributes.reverse

/-- The class file of the class that calls build. -/
def build (name : String) (superName : Option String) (calls : List Call) : Except Fault (List UInt8) := do
  let (d, pool) ← Writer.calls name superName calls .empty
  if pool.overflow then throw (.classFormat "constant pool overflow")
  return d.bytes pool

/-- The class file of a class. -/
def ClassText.assemble (c : ClassText) : Except Fault (List UInt8) := build c.name c.superName c.calls

end Jvm.Assembly
