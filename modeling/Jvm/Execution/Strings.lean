import Jvm.Execution.Machine
import Jvm.Text.Utf16

/-! # Strings

A string is an instance whose first field holds an array of chars, the code units of its text. -/

namespace Jvm.Execution

open Linking

/-- The place of a string's chars among its fields. -/
def charsSlot : Nat := 0

namespace VM

/-- The code units of a string. -/
def readChars (string : Ref) : VM (List UInt16) := do
  let cls := (← table).nameOf (← classOf string)
  if cls != CoreClasses.stringName then
    fail (.internal (string.text ++ " is a " ++ cls ++ ", not a string"))
  match ← getField string charsSlot with
  | .ref chars =>
    match (← elements chars).chars? with
    | some units => return units
    | none => fail (.internal ("value of " ++ string.text ++ " is not a char[]"))
  | _ => return []

/-- The text of a string. -/
def readString (string : Ref) : VM String := do return Text.Utf16.decode (← readChars string)

/-- Creates a string of code units. -/
def newStringOfUnits (units : List UInt16) : VM Ref := do
  let charArray ← link (primitiveArrayClass · .char)
  let cls ← coreClass CoreClasses.stringName
  let chars ← allocate (.object charArray (.array (.ofChars units)))
  let string ← pinning [chars] (newInstance cls)
  setField string charsSlot (.ref chars)
  return string

/-- Creates a string. -/
def newString (text : String) : VM Ref := newStringOfUnits (Text.Utf16.encode text)

/-- The string that stands for a text. -/
def intern (text : String) : VM Ref := do
  match (← getThe Registry).interned? text with
  | some string => return string
  | none =>
    let string ← newString text
    modifyThe Registry (·.intern text string)
    return string

/-- Gives a program the string that stands for the text of some code units. -/
def handOut (units : List UInt16) (string : Ref) : VM Ref := do
  modifyThe Machine fun m => { m with handedOut := (units, string) :: m.handedOut }
  return string

/-- The string of the constant at a pool index of a class. -/
def stringConstant (id : ClassId) (index : UInt16) : VM Ref := do
  match (← getThe Registry).string? id index with
  | some string => return string
  | none =>
    let c ← getClass id
    match ← ofExcept (c.pool.get index) with
    | .string text =>
      let text ← ofExcept (c.pool.utf8 text)
      let string ← intern text
      modifyThe Registry (·.recordString id index string)
      handOut (Text.Utf16.encode text) string
    | other =>
      fail (.classFormat ("constant pool index " ++ toString index ++ " of " ++ c.name ++ " is "
        ++ other.tagName ++ ", expected String"))

/-- The class object of a class. -/
def classObjectOf (id : ClassId) : VM Ref := do
  match (← getThe Registry).classObject? id with
  | some object => return object
  | none =>
    let classClass ← coreClass CoreClasses.className
    let slot ← coreField CoreClasses.className "name" "Ljava/lang/String;"
    let name ← intern (← dottedName id)
    let object ← newInstance classClass
    setField object slot (.ref name)
    modifyThe Registry (·.setClassObject id object)
    return object

/-- Stores new strings into an array, one after the other. -/
def storeStrings (array : Ref) (start : Nat) : List String → VM Unit
  | [] => return
  | text :: rest => do
    let string ← newString text
    let _ ← storeElement array start (.ref string)
    storeStrings array (start + 1) rest

/-- The class of string arrays. -/
def stringArrayClass : VM ClassId := do
  let cls ← coreClass CoreClasses.stringName
  link (arrayClassOf · cls)

/-- Creates an array of new strings. -/
def newStringArray (texts : List String) : VM Ref := do
  let cls ← stringArrayClass
  let array ← allocate (.zeros cls .reference texts.length)
  pinning [array] (storeStrings array 0 texts)
  return array

end VM

end Jvm.Execution
