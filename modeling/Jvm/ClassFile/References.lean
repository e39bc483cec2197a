import Jvm.ClassFile.Descriptor
import Jvm.ClassFile.Parse

/-! # Cross references of class files

Every index of a class file has to lead to a constant of the kind its place needs, every descriptor has
to be one, and no two fields or methods may share name and descriptor. `ClassFile.parse` reads a class
file and makes these checks. -/

namespace Jvm.ClassFile

/-- The constants that a method handle of a kind may refer to. -/
def handleTags (kind : UInt8) : List UInt8 :=
  if 1 ≤ kind && kind ≤ 4 then [Tags.fieldRef]
  else if kind = 5 || kind = 8 then [Tags.methodRef]
  else if kind = 9 then [Tags.interfaceMethodRef]
  else [Tags.methodRef, Tags.interfaceMethodRef]

/-- Checks the indices inside a constant. -/
def checkConstant (pool : ConstantPool) (index : UInt16) (c : Constant) : Except Fault Unit := do
  let context := "constant pool entry " ++ toString index
  let expect (i : UInt16) (tag : UInt8) : Except Fault Unit := do
    let _ ← pool.expectTag i tag context
  match c with
  | .classRef name => expect name Tags.utf8
  | .string text => expect text Tags.utf8
  | .fieldRef owner nt | .methodRef owner nt | .interfaceMethodRef owner nt =>
    expect owner Tags.classRef
    expect nt Tags.nameAndType
  | .nameAndType name descriptor =>
    expect name Tags.utf8
    expect descriptor Tags.utf8
  | .methodType descriptor => expect descriptor Tags.utf8
  | .methodHandle kind target =>
    let tag := (← pool.get target).tag
    if !(handleTags kind).contains tag then
      throw (.classFormat (context ++ ": method handle kind " ++ toString kind
        ++ " references tag " ++ toString tag))
  | .invokeDynamic _ nt => expect nt Tags.nameAndType
  | _ => pure ()

/-- Checks the descriptor of a member reference. -/
def checkMemberRef (pool : ConstantPool) (index : UInt16) (c : Constant) : Except Fault Unit := do
  match c with
  | .fieldRef _ _ => let _ ← FieldType.parse (← pool.member index).descriptor
  | .methodRef _ _ | .interfaceMethodRef _ _ =>
    let _ ← MethodType.parse (← pool.member index).descriptor
  | _ => pure ()

mutual

/-- Checks the indices of an attribute's body. -/
def checkBody (pool : ConstantPool) : Attribute → Except Fault Unit
  | .constantValue index => do
    let c ← pool.get index
    if !c.isFieldValue then
      throw (.classFormat ("ConstantValue references " ++ c.tagName ++ " entry "
        ++ toString index))
  | .exceptions classes =>
    classes.forM fun i => do let _ ← pool.expectTag i Tags.classRef "Exceptions attribute"
  | .sourceFile index => do let _ ← pool.expectTag index Tags.utf8 "SourceFile attribute"
  | .code _ _ _ handlers attributes => do
    handlers.forM fun h => do
      if h.catchType != 0 then
        let _ ← pool.expectTag h.catchType Tags.classRef "exception table"
    checkAttributes pool attributes
  | .lineNumbers _ | .other _ => pure ()

/-- Checks the indices of an attribute. -/
def checkAttribute (pool : ConstantPool) : NamedAttribute → Except Fault Unit
  | .mk name body => do
    let _ ← pool.expectTag name Tags.utf8 "attribute name"
    checkBody pool body

/-- Checks the indices of a list of attributes. -/
def checkAttributes (pool : ConstantPool) : List NamedAttribute → Except Fault Unit
  | [] => pure ()
  | a :: rest => do
    checkAttribute pool a
    checkAttributes pool rest

end

/-- Checks members in order; `seen` holds the names and descriptors before them, `parse` reads a
descriptor and `duplicate` words the complaint about a second member. -/
def checkMembers (pool : ConstantPool) (parse : String → Except Fault Unit)
    (duplicate : String → String → String) (seen : List (String × String)) :
    List MemberInfo → Except Fault Unit
  | [] => pure ()
  | m :: rest => do
    let name ← pool.utf8 m.name
    let descriptor ← pool.utf8 m.descriptor
    parse descriptor
    if seen.contains (name, descriptor) then throw (.classFormat (duplicate name descriptor))
    checkAttributes pool m.attributes
    checkMembers pool parse duplicate ((name, descriptor) :: seen) rest

/-- Checks all cross references of a class file. -/
def checkReferences (c : ClassFile) : Except Fault Unit := do
  let pool := c.pool
  pool.usable.forM fun (i, entry) => checkConstant pool i entry
  pool.usable.forM fun (i, entry) => checkMemberRef pool i entry
  let _ ← pool.expectTag c.thisClass Tags.classRef "this_class"
  if c.superClass != 0 then
    let _ ← pool.expectTag c.superClass Tags.classRef "super_class"
  c.interfaces.forM fun i => do let _ ← pool.expectTag i Tags.classRef "interfaces"
  checkMembers pool (fun d => do let _ ← FieldType.parse d)
    (fun name descriptor => "duplicate field " ++ name ++ " " ++ descriptor) [] c.fields
  checkMembers pool (fun d => do let _ ← MethodType.parse d)
    (fun name descriptor => "duplicate method " ++ name ++ descriptor) [] c.methods
  checkAttributes pool c.attributes

/-- The class file that some bytes hold. -/
def parse (bytes : List UInt8) : Except Fault ClassFile :=
  match readClass (bytes.length + 1) (Cursor.ofBytes bytes) with
  | .ok c _ => do
    checkReferences c
    return c
  | .error e _ => .error e

end Jvm.ClassFile
