import Jvm.ClassFile.Basic
import Jvm.ClassFile.Cursor
import Jvm.Text.ModifiedUtf8

/-! # Reading class files

The layout of a class file, read from front to back: version, constants, flags, supertypes, members,
attributes, and nothing behind them. Each attribute is read inside the bytes it declares and has to use
all of them. -/

namespace Jvm.ClassFile

open Reader

/-- Reads a text of `length` bytes. -/
def readText (length : Nat) : Reader String := do
  match Text.ModifiedUtf8.decode (← bytes length) with
  | .ok s => return s
  | .error at_ => malformed ("malformed modified UTF-8 at byte " ++ toString at_)

/-- Reads a constant, its tag first; `index` is its place in the pool. -/
def readConstant (index : Nat) : Reader Constant := do
  let tag ← u1
  match tag.toNat with
  | 1 =>
    let length ← u2
    return .utf8 (← readText length.toNat)
  | 3 => return .integer (← i4)
  | 4 => return .float (← u4)
  | 5 => return .long (← i8)
  | 6 => return .double (← u8)
  | 7 => return .classRef (← u2)
  | 8 => return .string (← u2)
  | 9 => return .fieldRef (← u2) (← u2)
  | 10 => return .methodRef (← u2) (← u2)
  | 11 => return .interfaceMethodRef (← u2) (← u2)
  | 12 => return .nameAndType (← u2) (← u2)
  | 15 =>
    let kind ← u1
    if kind < 1 || 9 < kind then
      malformed ("invalid method handle kind " ++ toString kind ++ " at constant pool index "
        ++ toString index)
    return .methodHandle kind (← u2)
  | 16 => return .methodType (← u2)
  | 18 => return .invokeDynamic (← u2) (← u2)
  | other =>
    malformed ("unrecognised constant pool tag " ++ toString other ++ " at index "
      ++ toString index)

/-- Reads constants until the pool has `count` indices; `fuel` bounds how many. -/
def readConstants (count : Nat) (entries : Array Constant) : Nat → Reader (Array Constant)
  | 0 => pure entries
  | fuel + 1 => do
    if count ≤ entries.size then return entries
    let index := entries.size
    let c ← readConstant index
    let entries := entries.push c
    if c.isWide then
      if count ≤ entries.size then
        malformed ("8-byte constant at index " ++ toString index ++ " overruns the constant pool")
      readConstants count (entries.push .unusable) fuel
    else readConstants count entries fuel

/-- Reads a constant pool. -/
def readPool : Reader ConstantPool := do
  let count := (← u2).toNat
  if count = 0 then malformed "constant pool count is zero"
  return ⟨← readConstants count #[.unusable] count⟩

/-- Reads a row of an exception table. -/
def readHandler : Reader HandlerRow := do return ⟨← u2, ← u2, ← u2, ← u2⟩

/-- Reads a row of a line number table. -/
def readLine : Reader LineRow := do return ⟨← u2, ← u2⟩

/-- Reads an attribute's body of `length` bytes by its name; `nested` reads the attributes inside. -/
def readBody (nested : Reader (List NamedAttribute)) (name : String) (length : Nat) :
    Reader Attribute := do
  match name with
  | "Code" =>
    let maxStack ← u2
    let maxLocals ← u2
    let length ← u4
    if length = 0 || 0xFFFF < length then
      malformed ("invalid code length " ++ toString length)
    let code ← bytes length.toNat
    let handlers ← counted readHandler
    return .code maxStack maxLocals code handlers (← nested)
  | "ConstantValue" => return .constantValue (← u2)
  | "Exceptions" => return .exceptions (← counted u2)
  | "SourceFile" => return .sourceFile (← u2)
  | "LineNumberTable" => return .lineNumbers (← counted readLine)
  | _ => return .other (← bytes length)

/-- Reads a list of attributes. The depth bounds how far code attributes are nested; each lies inside
the bytes of the one around it, so the length of the file is always enough. -/
def readAttributes (pool : ConstantPool) : Nat → Reader (List NamedAttribute)
  | 0 => throw (.internal "attributes nested too deeply")
  | depth + 1 => counted do
    let nameIndex ← u2
    let length := (← u4).toNat
    let name ← Reader.ofExcept (pool.utf8 nameIndex)
    let inner ← sub length
    let (body, left) ← within inner (readBody (readAttributes pool depth) name length)
    if !left.atEnd then
      malformed (name ++ " attribute declares " ++ toString length ++ " bytes but uses "
        ++ toString left.offset)
    return .mk nameIndex body

/-- Reads a field or a method. -/
def readMember (pool : ConstantPool) (depth : Nat) : Reader MemberInfo := do
  return ⟨⟨← u2⟩, ← u2, ← u2, ← readAttributes pool depth⟩

/-- The eight hexadecimal digits of a 32-bit number. -/
def hex8 (n : UInt32) : String :=
  let digits := Nat.toDigits 16 n.toNat
  String.ofList (List.replicate (8 - digits.length) '0' ++ digits)

/-- Reads a whole class file. -/
def readClass (depth : Nat) : Reader ClassFile := do
  let found ← u4
  if found != magic then malformed ("bad magic 0x" ++ hex8 found)
  let minor ← u2
  let major ← u2
  if major < minMajor || maxMajor < major then
    malformed ("unsupported class file version " ++ toString major ++ "." ++ toString minor)
  let pool ← readPool
  let access : Access := ⟨← u2⟩
  let thisClass ← u2
  let superClass ← u2
  let interfaces ← counted u2
  let fields ← counted (readMember pool depth)
  let methods ← counted (readMember pool depth)
  let attributes ← readAttributes pool depth
  let left ← get
  if !left.atEnd then
    malformed (toString left.remaining ++ " trailing bytes after class attributes")
  return {
    minor, major, pool, access, thisClass, superClass, interfaces, fields, methods, attributes }

end Jvm.ClassFile
