/-! # Element types

The primitive types, the element types of arrays, and the way array elements are accessed. -/

namespace Jvm

/-- The primitive types. -/
inductive Primitive where
  | boolean | char | float | double | byte | short | int | long
deriving DecidableEq, Inhabited, Repr

namespace Primitive

/-- The type with a number in a `newarray` instruction. -/
def ofCode? (code : UInt8) : Option Primitive :=
  match code.toNat with
  | 4 => some boolean
  | 5 => some char
  | 6 => some float
  | 7 => some double
  | 8 => some byte
  | 9 => some short
  | 10 => some int
  | 11 => some long
  | _ => none

/-- The letter of a type in descriptors. -/
def letter : Primitive → Char
  | boolean => 'Z'
  | char => 'C'
  | float => 'F'
  | double => 'D'
  | byte => 'B'
  | short => 'S'
  | int => 'I'
  | long => 'J'

/-- The name of a type in listings. -/
def name : Primitive → String
  | boolean => "Boolean"
  | char => "Char"
  | float => "Float"
  | double => "Double"
  | byte => "Byte"
  | short => "Short"
  | int => "Int"
  | long => "Long"

end Primitive

/-- The types that array loads and stores tell apart; `byte` serves boolean arrays too. -/
inductive ElementAccess where
  | int | long | float | double | reference | byte | char | short
deriving DecidableEq, Inhabited, Repr

/-- The name of an access in messages. -/
def ElementAccess.name : ElementAccess → String
  | .int => "Int"
  | .long => "Long"
  | .float => "Float"
  | .double => "Double"
  | .reference => "Reference"
  | .byte => "Byte"
  | .char => "Char"
  | .short => "Short"

/-- The element types of arrays. -/
inductive ElementKind where
  | primitive (type : Primitive)
  | reference
deriving DecidableEq, Inhabited, Repr

namespace ElementKind

/-- How elements of a kind are accessed. -/
def access : ElementKind → ElementAccess
  | primitive .boolean | primitive .byte => .byte
  | primitive .char => .char
  | primitive .short => .short
  | primitive .int => .int
  | primitive .long => .long
  | primitive .float => .float
  | primitive .double => .double
  | reference => .reference

/-- The bytes that an element counts for. -/
def bytes : ElementKind → Nat
  | primitive .boolean | primitive .byte => 1
  | primitive .char | primitive .short => 2
  | primitive .int | primitive .float => 4
  | primitive .long | primitive .double | reference => 8

/-- The name of a kind. -/
def name : ElementKind → String
  | primitive type => type.name
  | reference => "Reference"

/-- All kinds. -/
def all : List ElementKind :=
  reference :: [Primitive.boolean, .byte, .char, .short, .int, .long, .float, .double].map primitive

/-- The kind of a name, in whatever case. -/
def ofName? (name : String) : Option ElementKind := all.find? (·.name.toLower == name.toLower)

end ElementKind

end Jvm
