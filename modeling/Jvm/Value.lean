import Jvm.Decimal.Layout
import Jvm.Text.Hex

/-! # Values

What a slot of an operand stack, a local-variable table, an instance or a class can hold. Floats are
kept as bit patterns, so two values are equal exactly when they are the same slot contents; the
comparison of numbers is `Value.sameNumber`. -/

namespace Jvm

/-- A reference to an object: the number of its heap slot. -/
structure Ref where
  index : Nat
deriving DecidableEq, Hashable, Inhabited, Repr

/-- The reference to a slot that a host names; slots have 32-bit numbers there. -/
def Ref.ofNumber (n : UInt32) : Ref := ⟨n.toNat⟩

/-- A reference as it is shown in messages. -/
def Ref.text (r : Ref) : String := "@" ++ Text.Hex.digits r.index

/-- The contents of a slot. -/
inductive Value where
  | int (v : Int32)
  | long (v : Int64)
  | float (bits : UInt32)
  | double (bits : UInt64)
  | null
  | ref (r : Ref)
  | returnAddress (target : Nat)
  | top
deriving DecidableEq, Inhabited, Repr

namespace Value

/-- A long or a double, which counts as two words. -/
def isWide : Value → Bool
  | long _ | double _ => true
  | _ => false

/-- The number of words a value counts for. -/
def words (v : Value) : Nat := if v.isWide then 2 else 1

/-- Null or a reference. -/
def isReference : Value → Bool
  | null | ref _ => true
  | _ => false

/-- The object a value refers to. -/
def object? : Value → Option Ref
  | ref r => some r
  | _ => none

/-- A reference value; none is null. -/
def ofObject : Option Ref → Value
  | some r => ref r
  | none => null

/-- The word used for a value's type in messages. -/
def typeName : Value → String
  | int _ => "int"
  | long _ => "long"
  | float _ => "float"
  | double _ => "double"
  | null => "null"
  | ref _ => "reference"
  | returnAddress _ => "returnAddress"
  | top => "top"

/-- A value as it is shown in messages. -/
def text : Value → String
  | int v => toString v.toInt
  | long v => toString v.toInt ++ "L"
  | float bits => Decimal.plain.write Decimal.single bits.toNat ++ "f"
  | double bits => Decimal.plain.write Decimal.double bits.toNat ++ "d"
  | null => "null"
  | ref r => r.text
  | returnAddress target => "ret:" ++ toString target
  | top => "<top>"

/-- Equality with floats compared as numbers: a NaN differs from itself, and the zeros are equal. -/
def sameNumber : Value → Value → Bool
  | float a, float b => Float32.ofBits a == Float32.ofBits b
  | double a, double b => Float.ofBits a == Float.ofBits b
  | a, b => a == b

theorem isReference_ofObject (o : Option Ref) : (ofObject o).isReference = true := by
  cases o <;> rfl

end Value

end Jvm
