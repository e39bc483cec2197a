import Jvm.Execution.Throwing

/-! # What native methods work with

A native method gets its arguments, the receiver first, and works on the machine directly. The objects it
creates are held until it returns, so it may keep them in its own hands while it creates others. -/

namespace Jvm.Execution

open Linking

/-- The receiver among the arguments of a native method. -/
def nativeReceiver : List Value → VM Ref
  | .ref r :: _ => return r
  | _ => throw Abrupt.nullPointer

/-- The complaint of a native method about the types of its arguments. -/
def badArguments (called : String) (args : List Value) : Fault :=
  .verify ("native " ++ called ++ " called with (" ++ ", ".intercalate (args.map Value.typeName)
    ++ ")")

namespace VM

/-- Creates an object and holds it. -/
def allocateHeld (request : Heap.Request ClassId) : VM Ref := do
  let r ← allocate request
  pin r
  return r

/-- Creates a string and holds it. -/
def newStringHeld (text : String) : VM Ref := do
  let r ← newString text
  pin r
  return r

/-- Creates a string of code units and holds it. -/
def newStringOfUnitsHeld (units : List UInt16) : VM Ref := do
  let r ← newStringOfUnits units
  pin r
  return r

/-- The string that stands for the text of a string: the string itself, if there is none. -/
def internString (string : Ref) : VM Ref := do
  let units ← readChars string
  let text := Text.Utf16.decode units
  match (← getThe Registry).interned? text with
  | some r => handOut units r
  | none =>
    modifyThe Registry (·.intern text string)
    handOut units string

/-- Whether an object is a string. -/
def isString (object : Ref) : VM Bool := do
  return (← table).nameOf (← classOf object) == CoreClasses.stringName

/-- The method of a name and descriptor that a class of receivers selects; it has an implementation. -/
def implementation (cls : ClassId) (name descriptor : String) : VM Method := do
  let c ← getClass cls
  match c.virtual? name descriptor with
  | none => fail (.noSuchMethod (c.name ++ "." ++ name ++ descriptor))
  | some m =>
    if m.isAbstract then fail (.abstractMethod m.text)
    return m

/-- Calls the method of a name and descriptor that the class of an object selects. -/
def callVirtual (object : Ref) (name descriptor : String) (args : List Value) :
    VM (Option Value) := do
  call (← implementation (← classOf object) name descriptor) (.ref object :: args)

/-- The text that a value is shown as: null, the text of a string, or what `toString` gives back. -/
def displayText : Value → VM String
  | .null => return "null"
  | .ref object => do
    if ← isString object then readString object
    else
      match ← callVirtual object "toString" NativeTable.textDescriptor [] with
      | some (.ref string) => readString string
      | _ => return "null"
  | v => fail (badArguments "String.valueOf" [v])

/-- Throws a new exception of a core class. -/
def throwNew {α : Type} (className : String) (message : Option String) : VM α := do
  throw (.thrown (← newThrowable className message))

end VM

end Jvm.Execution
