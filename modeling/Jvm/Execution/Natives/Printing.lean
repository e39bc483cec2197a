import Jvm.Execution.Natives.Objects

/-! # Native methods that write

A print stream writes to the error output if its file number is two, and to the standard output
otherwise. -/

namespace Jvm.Execution

open Linking VM

/-- Writes a text to the error output or the standard output. -/
def VM.write (toError : Bool) (text : String) : VM Unit :=
  modifyThe Machine fun m =>
    if toError then { m with err := m.err ++ text } else { m with out := m.out ++ text }

namespace Printing

/-- The text that a print method of a descriptor prints for a value. -/
def printed : String → Value → VM String
  | "(Z)V", .int v => return toString (v != 0)
  | "(C)V", .int v => return Text.Utf16.decode [v.toUInt32.toUInt16]
  | "(I)V", .int v => return toString v.toInt
  | "(J)V", .long v => return toString v.toInt
  | "(F)V", .float bits => return Arithmetic.floatText bits
  | "(D)V", .double bits => return Arithmetic.doubleText bits
  | _, .null => return "null"
  | _, .ref object => displayText (.ref object)
  | _, v => fail (badArguments "PrintStream.print" [v])

/-- Prints the argument to the stream that is the receiver. -/
def print (descriptor : String) (newline : Bool) (args : List Value) : VM (Option Value) := do
  let this ← nativeReceiver args
  let slot ← coreField CoreClasses.printStreamName "fd" "I"
  let file ← getField this slot
  let text ← match args[1]? with
    | some v => printed descriptor v
    | none => pure ""
  write (file == .int 2) (if newline then text ++ "\n" else text)
  return none

/-- The lines of a report of where an exception was created. -/
def traceText (trace : List String) : String :=
  String.join (trace.map fun line => "\tat " ++ line ++ "\n")

/-- Prints the receiver and where it was created to the error output. -/
def printStackTrace (args : List Value) : VM (Option Value) := do
  let this ← nativeReceiver args
  let text ← displayText (.ref this)
  write true (text ++ "\n" ++ traceText (← storedTrace this))
  return none

/-- Notes where the receiver was created. -/
def fillInStackTrace (args : List Value) : VM (Option Value) := do
  let this ← nativeReceiver args
  VM.fillInStackTrace this true
  return resultRef this

/-- The text of the receiver: its class and its message. -/
def throwableToString (args : List Value) : VM (Option Value) := do
  let text ← describe (← nativeReceiver args)
  return resultRef (← newStringHeld text)

end Printing

end Jvm.Execution
