import Jvm.ClassFile.Access
import Jvm.ClassFile.Constant

/-! # Class files

The contents of a class file as they are laid out, with cross references kept as pool indices. -/

namespace Jvm.ClassFile

/-- A row of an exception table, in byte offsets. -/
structure HandlerRow where
  start : UInt16
  stop : UInt16
  handler : UInt16
  -- The pool index of the caught class; 0 catches everything.
  catchType : UInt16
deriving DecidableEq, Inhabited, Repr

/-- A row of a line number table. -/
structure LineRow where
  start : UInt16
  line : UInt16
deriving DecidableEq, Inhabited, Repr

mutual

/-- The body of an attribute. -/
inductive Attribute where
  | code (maxStack maxLocals : UInt16) (code : List UInt8) (handlers : List HandlerRow)
      (attributes : List NamedAttribute)
  | constantValue (index : UInt16)
  | exceptions (classes : List UInt16)
  | sourceFile (index : UInt16)
  | lineNumbers (rows : List LineRow)
  | other (bytes : List UInt8)

/-- An attribute with the pool index of its name. -/
inductive NamedAttribute where
  | mk (name : UInt16) (body : Attribute)

end

namespace NamedAttribute

/-- The pool index of the attribute's name. -/
def name : NamedAttribute → UInt16
  | mk name _ => name

/-- The attribute's body. -/
def body : NamedAttribute → Attribute
  | mk _ body => body

end NamedAttribute

/-- The code of a method, with the attributes it carries. -/
structure CodeAttribute where
  maxStack : UInt16
  maxLocals : UInt16
  code : List UInt8
  handlers : List HandlerRow
  attributes : List NamedAttribute

/-- All line rows of the code, table after table. -/
def CodeAttribute.lines (c : CodeAttribute) : List LineRow :=
  c.attributes.flatMap fun a =>
    match a.body with
    | .lineNumbers rows => rows
    | _ => []

/-- A field or a method. -/
structure MemberInfo where
  access : Access
  name : UInt16
  descriptor : UInt16
  attributes : List NamedAttribute

namespace MemberInfo

/-- The pool index of a field's initial value. -/
def constantValue? (m : MemberInfo) : Option UInt16 :=
  m.attributes.findSome? fun a =>
    match a.body with
    | .constantValue i => some i
    | _ => none

/-- A method's code. -/
def code? (m : MemberInfo) : Option CodeAttribute :=
  m.attributes.findSome? fun a =>
    match a.body with
    | .code maxStack maxLocals code handlers attributes =>
      some { maxStack, maxLocals, code, handlers, attributes }
    | _ => none

/-- The pool indices of a method's declared exceptions. -/
def declaredExceptions (m : MemberInfo) : List UInt16 :=
  (m.attributes.findSome? fun a =>
    match a.body with
    | .exceptions classes => some classes
    | _ => none).getD []

end MemberInfo

end Jvm.ClassFile

namespace Jvm

open ClassFile in
/-- A class file. -/
structure ClassFile where
  minor : UInt16
  major : UInt16
  pool : ConstantPool
  access : Access
  thisClass : UInt16
  -- The pool index of the superclass; 0 for none.
  superClass : UInt16
  interfaces : List UInt16
  fields : List MemberInfo
  methods : List MemberInfo
  attributes : List NamedAttribute

namespace ClassFile

/-- The first bytes of every class file. -/
def magic : UInt32 := 0xCAFEBABE

/-- The least major version that is read. -/
def minMajor : UInt16 := 45

/-- The greatest major version that is read. -/
def maxMajor : UInt16 := 65

/-- The name of the class. -/
def name (c : ClassFile) : Except Fault String := c.pool.className c.thisClass

/-- The name of the superclass, if there is one. -/
def superName (c : ClassFile) : Except Fault (Option String) :=
  if c.superClass = 0 then .ok none else (c.pool.className c.superClass).map some

/-- The names of the direct superinterfaces. -/
def interfaceNames (c : ClassFile) : Except Fault (List String) :=
  c.interfaces.mapM c.pool.className

/-- The source file that the class names. -/
def sourceFile? (c : ClassFile) : Option String :=
  c.attributes.findSome? fun a =>
    match a.body with
    | .sourceFile i => (c.pool.utf8 i).toOption
    | _ => none

/-- The declared method of a name and descriptor. -/
def method? (c : ClassFile) (name descriptor : String) : Option MemberInfo :=
  c.methods.find? fun m =>
    (c.pool.utf8 m.name).toOption == some name
      && (c.pool.utf8 m.descriptor).toOption == some descriptor

end ClassFile

end Jvm
