import Jvm.Linking.Class

/-! # Verification of methods

The checks that one method allows by itself: its flags, its code, the range of its locals, the constants
that its instructions name, its returns and its exception table. Types on the operand stack are not
followed. A method that passes comes with its code in decoded form. -/

namespace Jvm.Linking

open ClassFile Bytecode

/-- A method that has passed verification. -/
structure VerifiedMethod where
  name : String
  descriptor : String
  type : MethodType
  access : Access
  -- The code; none for abstract and native methods.
  code : Option Code

namespace Verification

/-- The kind of value that a method of a result type returns. -/
def returnKind : Option FieldType → Option LocalKind
  | none => none
  | some .long => some .long
  | some .float => some .float
  | some .double => some .double
  | some (.object _) | some (.array _) => some .reference
  | some _ => some .int

/-- A check whose failure is a text. -/
abbrev Check := Except String

/-- A check of a constant pool, with the text of its fault. -/
def ofFault {α : Type} : Except Fault α → Check α
  | .ok a => .ok a
  | .error e => .error e.message

/-- Checks that the constant at an index has one of some tags. -/
def expectTags (pool : ConstantPool) (index : UInt16) (allowed : List UInt8) (what : String) :
    Check Unit := do
  let c ← ofFault (pool.get index)
  if !allowed.contains c.tag then
    throw (what ++ " operand #" ++ toString index ++ " is " ++ c.tagName ++ ", expected tag "
      ++ " or tag ".intercalate (allowed.map toString))

/-- Checks that a member reference names no initializer. -/
def noInitializer (pool : ConstantPool) (index : UInt16) : Check Unit := do
  let m ← ofFault (pool.member index)
  if Method.isInitializerName m.name then
    throw (m.name ++ " may only be invoked with invokespecial")

/-- The tag of a long. -/
def longTag : UInt8 := 5

/-- The tag of a double. -/
def doubleTag : UInt8 := 6

/-- The tag of a computed call site. -/
def invokeDynamicTag : UInt8 := 18

/-- Checks the constant that the operation of a pool use names. -/
def checkUse (pool : ConstantPool) (index : UInt16) : PoolUse → Check Unit
  | .getStatic | .putStatic | .getField | .putField =>
    expectTags pool index [Tags.fieldRef] "field access"
  | .invokeVirtual => do
    expectTags pool index [Tags.methodRef] "invokevirtual"
    noInitializer pool index
  | .invokeStatic => do
    expectTags pool index [Tags.methodRef, Tags.interfaceMethodRef] "invokestatic"
    noInitializer pool index
  | .invokeSpecial => do
    expectTags pool index [Tags.methodRef, Tags.interfaceMethodRef] "invokespecial"
    let m ← ofFault (pool.member index)
    if m.name = "<clinit>" then throw "invokespecial of <clinit>"
  | .new | .newReferenceArray | .checkCast | .instanceOf =>
    expectTags pool index [Tags.classRef] "class operand"

/-- The number of array dimensions that a class name spells. -/
def dimensionsOf (name : String) : Nat := (name.toList.takeWhile (· == '[')).length

/-- Checks the constant that an operation names. -/
def checkConstantUse (pool : ConstantPool) : Operation → Check Unit
  | .ldc index => do
    let c ← ofFault (pool.get index)
    if !c.isLoadable || c.isWide then
      throw ("ldc operand #" ++ toString index ++ " is " ++ c.tagName)
  | .ldc2 index => expectTags pool index [longTag, doubleTag] "ldc2_w"
  | .pooled use index => checkUse pool index use
  | .invokeInterface index count => do
    expectTags pool index [Tags.interfaceMethodRef] "invokeinterface"
    noInitializer pool index
    let m ← ofFault (pool.member index)
    let type ← ofFault (MethodType.parse m.descriptor)
    if count.toNat != type.argSlots + 1 then
      throw ("invokeinterface count " ++ toString count ++ " does not match " ++ m.descriptor)
  | .invokeDynamic index => expectTags pool index [invokeDynamicTag] "invokedynamic"
  | .newMultiArray index dimensions => do
    expectTags pool index [Tags.classRef] "multianewarray"
    let name ← ofFault (pool.className index)
    if dimensionsOf name < dimensions.toNat then
      throw ("multianewarray of " ++ name ++ " with " ++ toString dimensions ++ " dimensions")
  | _ => pure ()

/-- Checks that the local slots of an operation are there. -/
def checkLocals (maxLocals : Nat) (insn : Instruction) : Check Unit :=
  match insn.operation.localAccess? with
  | some (index, width) =>
    if maxLocals < index.toNat + width then
      throw ("local " ++ toString index ++ " out of range at pc " ++ toString insn.pc
        ++ " (max_locals " ++ toString maxLocals ++ ")")
    else pure ()
  | none => pure ()

/-- Checks that a return gives back what the descriptor says. -/
def checkReturn (expected : Option LocalKind) (insn : Instruction) : Check Unit :=
  match insn.operation with
  | .leave kind =>
    if kind != expected then
      throw (kind.elim "Void" LocalKind.name ++ " return at pc " ++ toString insn.pc
        ++ " does not match descriptor")
    else pure ()
  | _ => pure ()

/-- Checks an instruction of a method. -/
def checkInstruction (pool : ConstantPool) (maxLocals : Nat) (expected : Option LocalKind)
    (insn : Instruction) : Check Unit := do
  checkLocals maxLocals insn
  checkReturn expected insn
  match checkConstantUse pool insn.operation with
  | .ok _ => pure ()
  | .error text => throw ("pc " ++ toString insn.pc ++ ": " ++ text)

/-- Finds the instructions that a row of an exception table speaks of. -/
def handler (body : Body) (row : HandlerRow) : Check Handler :=
  let catchType := if row.catchType = 0 then none else some row.catchType
  let bad : Check Handler :=
    throw ("bad exception table entry [" ++ toString row.start ++ ", " ++ toString row.stop
      ++ ") -> " ++ toString row.handler)
  match body.indexOf? row.start.toNat, body.boundary? row.stop.toNat,
      body.indexOf? row.handler.toNat with
  | some start, some stop, some handler =>
    if start < stop then pure ⟨start, stop, handler, catchType⟩ else bad
  | _, _, _ => bad

/-- Checks the code of a method. -/
def code (pool : ConstantPool) (access : Access) (type : MethodType) (source : CodeAttribute) :
    Check Code := do
  let body ← match decode source.code with
    | .ok body => pure body
    | .error e => throw e.message
  let maxLocals := source.maxLocals.toNat
  let argSlots := type.argSlots + if access.isStatic then 0 else 1
  if maxLocals < argSlots then
    throw ("max_locals " ++ toString maxLocals ++ " is smaller than the " ++ toString argSlots
      ++ " argument slots")
  body.instructions.toList.forM (checkInstruction pool maxLocals (returnKind type.result))
  let handlers ← source.handlers.mapM (handler body)
  return ⟨source.maxStack.toNat, maxLocals, body, handlers, source.lines⟩

/-- The flags that an abstract method must not have: private, static and final. -/
def notAbstractMask : UInt16 := 0x001A

/-- Checks the flags, the name and the code of a method. -/
def methodCode (pool : ConstantPool) (inInterface : Bool) (name : String) (type : MethodType)
    (m : MemberInfo) : Check (Option Code) := do
  let access := m.access
  if access.isAbstract && access.has notAbstractMask then
    throw "abstract method with final, private or static"
  if inInterface && name == "<init>" then throw "interface declares an instance initializer"
  if name == "<init>" && (type.result.isSome || access.isStatic) then
    throw "instance initializer must be a non-static void method"
  if name == "<clinit>" && type.result.isSome then throw "static initializer must return void"
  match m.code?, access.isAbstract || access.isNative with
  | some _, true => throw "abstract or native method has a Code attribute"
  | none, false => throw "missing Code attribute"
  | none, true => return none
  | some source, false => return some (← code pool access type source)

end Verification

/-- Verifies a method of a class. -/
def verifyMethod (pool : ConstantPool) (className : String) (inInterface : Bool) (m : MemberInfo) :
    Except Fault VerifiedMethod := do
  let name ← pool.utf8 m.name
  let descriptor ← pool.utf8 m.descriptor
  let type ← MethodType.parse descriptor
  match Verification.methodCode pool inInterface name type m with
  | .ok code => return ⟨name, descriptor, type, m.access, code⟩
  | .error text =>
    throw (.verify (className ++ "." ++ name ++ descriptor ++ ": " ++ text))

end Jvm.Linking
