import Jvm.Fault

/-! # Constant pools

The numbered constants of a class file. Index 0 and the index behind every long or double are not
usable. Every access checks the index and the kind of the entry it finds. -/

namespace Jvm.ClassFile

/-- An entry of a constant pool; entries refer to each other by index. Floats are bit patterns. -/
inductive Constant where
  | unusable
  | utf8 (text : String)
  | integer (v : Int32)
  | float (bits : UInt32)
  | long (v : Int64)
  | double (bits : UInt64)
  | classRef (name : UInt16)
  | string (text : UInt16)
  | fieldRef (owner nameAndType : UInt16)
  | methodRef (owner nameAndType : UInt16)
  | interfaceMethodRef (owner nameAndType : UInt16)
  | nameAndType (name descriptor : UInt16)
  | methodHandle (kind : UInt8) (target : UInt16)
  | methodType (descriptor : UInt16)
  | invokeDynamic (bootstrap nameAndType : UInt16)
deriving DecidableEq, Inhabited, Repr

namespace Constant

/-- The tag byte of an entry; 0 where there is none. -/
def tag : Constant → UInt8
  | unusable => 0
  | utf8 _ => 1
  | integer _ => 3
  | float _ => 4
  | long _ => 5
  | double _ => 6
  | classRef _ => 7
  | string _ => 8
  | fieldRef _ _ => 9
  | methodRef _ _ => 10
  | interfaceMethodRef _ _ => 11
  | nameAndType _ _ => 12
  | methodHandle _ _ => 15
  | methodType _ => 16
  | invokeDynamic _ _ => 18

/-- The name of an entry's kind in messages. -/
def tagName : Constant → String
  | unusable => "unusable"
  | utf8 _ => "Utf8"
  | integer _ => "Integer"
  | float _ => "Float"
  | long _ => "Long"
  | double _ => "Double"
  | classRef _ => "Class"
  | string _ => "String"
  | fieldRef _ _ => "Fieldref"
  | methodRef _ _ => "Methodref"
  | interfaceMethodRef _ _ => "InterfaceMethodref"
  | nameAndType _ _ => "NameAndType"
  | methodHandle _ _ => "MethodHandle"
  | methodType _ => "MethodType"
  | invokeDynamic _ _ => "InvokeDynamic"

/-- Whether an entry takes two indices. -/
def isWide : Constant → Bool
  | long _ | double _ => true
  | _ => false

/-- Whether an entry stands for a value that can be loaded. -/
def isLoadable : Constant → Bool
  | integer _ | float _ | long _ | double _ | classRef _ | string _ | methodHandle _ _
  | methodType _ => true
  | _ => false

/-- Whether an entry can be the initial value of a field. -/
def isFieldValue : Constant → Bool
  | integer _ | float _ | long _ | double _ | string _ => true
  | _ => false

end Constant

namespace Tags

/-- The tag of a text. -/
def utf8 : UInt8 := 1

/-- The tag of a class. -/
def classRef : UInt8 := 7

/-- The tag of a field reference. -/
def fieldRef : UInt8 := 9

/-- The tag of a method reference. -/
def methodRef : UInt8 := 10

/-- The tag of an interface method reference. -/
def interfaceMethodRef : UInt8 := 11

/-- The tag of a name and descriptor. -/
def nameAndType : UInt8 := 12

end Tags

/-- A member reference, spelt out. -/
structure Member where
  owner : String
  name : String
  descriptor : String
deriving DecidableEq, Inhabited, Repr

/-- The constants of a class file by index. -/
structure ConstantPool where
  entries : Array Constant
deriving DecidableEq, Inhabited, Repr

namespace ConstantPool

/-- The number of indices. -/
def size (p : ConstantPool) : Nat := p.entries.size

/-- The usable entries with their indices. -/
def usable (p : ConstantPool) : List (UInt16 × Constant) :=
  (p.entries.toList.zipIdx.filter fun (c, _) => c != .unusable).map fun (c, i) => (i.toUInt16, c)

/-- The usable entry at an index. -/
def get (p : ConstantPool) (i : UInt16) : Except Fault Constant :=
  match p.entries[i.toNat]? with
  | none | some .unusable =>
    .error (.classFormat ("invalid constant pool index " ++ toString i ++ " (pool size "
      ++ toString p.size ++ ")"))
  | some c => .ok c

/-- The usable entry at an index, if there is one. -/
def get? (p : ConstantPool) (i : UInt16) : Option Constant := (p.get i).toOption

/-- Fails unless the entry at an index has a tag; `context` says who asks. -/
def expectTag (p : ConstantPool) (i : UInt16) (tag : UInt8) (context : String) :
    Except Fault Constant := do
  let c ← p.get i
  if c.tag != tag then
    throw (.classFormat (context ++ ": constant pool index " ++ toString i ++ " is " ++ c.tagName
      ++ ", expected tag " ++ toString tag))
  return c

/-- The complaint about an entry of the wrong kind. -/
def wrongKind (i : UInt16) (c : Constant) (expected : String) : Fault :=
  .classFormat ("constant pool index " ++ toString i ++ " is " ++ c.tagName ++ ", expected "
    ++ expected)

/-- The text at an index. -/
def utf8 (p : ConstantPool) (i : UInt16) : Except Fault String := do
  match ← p.get i with
  | .utf8 s => return s
  | c => throw (wrongKind i c "Utf8")

/-- The name of the class at an index. -/
def className (p : ConstantPool) (i : UInt16) : Except Fault String := do
  match ← p.get i with
  | .classRef name => p.utf8 name
  | c => throw (wrongKind i c "Class")

/-- The name and descriptor at an index. -/
def nameAndType (p : ConstantPool) (i : UInt16) : Except Fault (String × String) := do
  match ← p.get i with
  | .nameAndType name descriptor => return (← p.utf8 name, ← p.utf8 descriptor)
  | c => throw (wrongKind i c "NameAndType")

/-- The member that the reference at an index spells. -/
def member (p : ConstantPool) (i : UInt16) : Except Fault Member := do
  match ← p.get i with
  | .fieldRef owner nt | .methodRef owner nt | .interfaceMethodRef owner nt =>
    let (name, descriptor) ← p.nameAndType nt
    return { owner := ← p.className owner, name, descriptor }
  | c => throw (wrongKind i c "member reference")

end ConstantPool

end Jvm.ClassFile
