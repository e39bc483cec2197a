import Jvm.Fault
import Jvm.Value

/-! # Descriptors

The compact type texts of class files: `I`, `[J`, `Ljava/lang/String;` for fields and `(I[J)V` for
methods. Reading and writing are inverse on the texts of the grammar, which allows at most 255 array
dimensions and class names without `.`, `[` and `;`. -/

namespace Jvm.ClassFile

/-- The type of a field, a parameter or a result. -/
inductive FieldType where
  | byte
  | char
  | double
  | float
  | int
  | long
  | short
  | boolean
  | object (name : String)
  | array (component : FieldType)
deriving DecidableEq, Inhabited, Repr

namespace FieldType

/-- The name of a type's kind. -/
def kind : FieldType → String
  | byte => "Byte"
  | char => "Char"
  | double => "Double"
  | float => "Float"
  | int => "Int"
  | long => "Long"
  | short => "Short"
  | boolean => "Boolean"
  | object _ => "Object"
  | array _ => "Array"

/-- The greatest number of array dimensions. -/
def maxDimensions : Nat := 255

/-- The characters of a type's descriptor. -/
def chars : FieldType → List Char
  | byte => ['B']
  | char => ['C']
  | double => ['D']
  | float => ['F']
  | int => ['I']
  | long => ['J']
  | short => ['S']
  | boolean => ['Z']
  | object name => 'L' :: (name.toList ++ [';'])
  | array component => '[' :: component.chars

/-- The descriptor of a type. -/
def text (t : FieldType) : String := String.ofList t.chars

/-- A class name that a descriptor can hold. -/
def isClassName (name : List Char) : Bool :=
  !name.isEmpty && !name.contains '.' && !name.contains '['

/-- Reads a type that is no array from the front of a text. -/
def readElement : List Char → Option (FieldType × List Char)
  | 'B' :: rest => some (byte, rest)
  | 'C' :: rest => some (char, rest)
  | 'D' :: rest => some (double, rest)
  | 'F' :: rest => some (float, rest)
  | 'I' :: rest => some (int, rest)
  | 'J' :: rest => some (long, rest)
  | 'S' :: rest => some (short, rest)
  | 'Z' :: rest => some (boolean, rest)
  | 'L' :: rest =>
    let name := rest.takeWhile (· != ';')
    match rest.dropWhile (· != ';') with
    | ';' :: rest => if isClassName name then some (object (String.ofList name), rest) else none
    | _ => none
  | _ => none

/-- A type inside `n` array dimensions. -/
def arrayOf (t : FieldType) : Nat → FieldType
  | 0 => t
  | n + 1 => array (t.arrayOf n)

/-- Reads a type from the front of a text. -/
def read (cs : List Char) : Option (FieldType × List Char) :=
  let dimensions := (cs.takeWhile (· == '[')).length
  if maxDimensions < dimensions then none
  else (readElement (cs.dropWhile (· == '['))).map fun (t, rest) => (t.arrayOf dimensions, rest)

/-- The type that a whole text describes. -/
def ofChars? (cs : List Char) : Option FieldType :=
  match read cs with
  | some (t, []) => some t
  | _ => none

/-- The local-variable slots of a type. -/
def slots : FieldType → Nat
  | long | double => 2
  | _ => 1

/-- Whether values of the type are references. -/
def isReference : FieldType → Bool
  | object _ | array _ => true
  | _ => false

/-- The value of a variable of the type before any assignment. -/
def defaultValue : FieldType → Value
  | byte | char | int | short | boolean => .int 0
  | long => .long 0
  | float => .float 0
  | double => .double 0
  | object _ | array _ => .null

/-- The class of the values of a reference type: the name of an object type, the descriptor of an
array type. -/
def className? : FieldType → Option String
  | object name => some name
  | t@(array _) => some t.text
  | _ => none

end FieldType

/-- The types of a method's parameters and result. -/
structure MethodType where
  params : List FieldType
  -- The result type; none for `void`.
  result : Option FieldType
deriving DecidableEq, Inhabited, Repr

namespace MethodType

/-- The characters of a method descriptor. -/
def chars (m : MethodType) : List Char :=
  '(' :: (m.params.flatMap FieldType.chars ++ ')' :: (m.result.elim ['V'] FieldType.chars))

/-- A method descriptor. -/
def text (m : MethodType) : String := String.ofList m.chars

/-- Reads parameter types up to the closing parenthesis; `fuel` bounds their number. -/
def readParams : Nat → List Char → Option (List FieldType × List Char)
  | _, ')' :: rest => some ([], rest)
  | 0, _ => none
  | fuel + 1, cs =>
    match FieldType.read cs with
    | some (t, rest) => (readParams fuel rest).map fun (ts, rest) => (t :: ts, rest)
    | none => none

/-- The method type that a whole text describes. -/
def ofChars? : List Char → Option MethodType
  | '(' :: cs =>
    match readParams cs.length cs with
    | some (params, ['V']) => some ⟨params, none⟩
    | some (params, rest) => (FieldType.ofChars? rest).map fun t => ⟨params, some t⟩
    | none => none
  | _ => none

/-- The local-variable slots of the parameters. -/
def argSlots (m : MethodType) : Nat := m.params.foldr (fun t n => t.slots + n) 0

/-- The operand-stack words of the result. -/
def resultSlots (m : MethodType) : Nat := m.result.elim 0 FieldType.slots

end MethodType

/-- The complaint about a text that is no descriptor. -/
def invalidDescriptor (text : String) : Fault :=
  .classFormat ("invalid descriptor \"" ++ text ++ "\"")

/-- Reads a field descriptor. -/
def FieldType.parse (text : String) : Except Fault FieldType :=
  match FieldType.ofChars? text.toList with
  | some t => .ok t
  | none => .error (invalidDescriptor text)

/-- Reads a method descriptor. -/
def MethodType.parse (text : String) : Except Fault MethodType :=
  match MethodType.ofChars? text.toList with
  | some t => .ok t
  | none => .error (invalidDescriptor text)

end Jvm.ClassFile
