import Jvm.Execution.Natives.Basic

/-! # Native methods of objects and strings -/

namespace Jvm.Execution

open Linking VM

/-- The result of a native method that is an object. -/
def resultRef (r : Ref) : Option Value := some (.ref r)

/-- The result of a native method that is an int. -/
def resultInt (v : Int32) : Option Value := some (.int v)

namespace ObjectNatives

/-- The identity hash code of an object. -/
def identityHash (object : Ref) : VM Int32 := readObject Heap.identityHash object

/-- The identity hash code of the receiver. -/
def hashCode (args : List Value) : VM (Option Value) := do
  return resultInt (← identityHash (← nativeReceiver args))

/-- The class object of the receiver's class. -/
def getClass (args : List Value) : VM (Option Value) := do
  return resultRef (← classObjectOf (← classOf (← nativeReceiver args)))

/-- The identity hash code of an argument, and zero for null. -/
def identityHashCode : List Value → VM (Option Value)
  | .ref r :: _ => do return resultInt (← identityHash r)
  | _ => return resultInt 0

/-- The text of the receiver: its class and, in base sixteen, what its `hashCode` gives back. -/
def objectToString (args : List Value) : VM (Option Value) := do
  let this ← nativeReceiver args
  let name ← dottedName (← classOf this)
  let hash ← match ← callVirtual this "hashCode" "()I" [] with
    | some (.int h) => pure h
    | _ => identityHash this
  return resultRef (← newStringHeld (name ++ "@" ++ Text.Hex.digits hash.toUInt32.toNat))

/-- A copy of the receiver, which has to be an array or of a class that implements `Cloneable`. -/
def clone (args : List Value) : VM (Option Value) := do
  let this ← nativeReceiver args
  let id ← classOf this
  let c ← VM.getClass id
  if !c.isArray then
    let cloneable ← coreClass CoreClasses.cloneableName
    if !(← table).isAssignable id cloneable then
      throwNew "java/lang/CloneNotSupportedException" (some (dotted c.name))
  let object ← readObject Heap.object this
  return resultRef (← allocateHeld (.object id object.contents))

end ObjectNatives

namespace StringNatives

/-- The string that stands for the receiver's text. -/
def intern (args : List Value) : VM (Option Value) := do
  return resultRef (← internString (← nativeReceiver args))

/-- Whether a value is a string with the code units of the receiver. -/
def sameText (this : Ref) : Value → VM Bool
  | .ref other => do
    if other == this then return true
    else if ← isString other then return (← readChars this) == (← readChars other)
    else return false
  | _ => return false

/-- Whether the argument is a string with the code units of the receiver. -/
def equals (args : List Value) : VM (Option Value) := do
  let this ← nativeReceiver args
  let equal ← sameText this (args[1]?.getD .null)
  return resultInt (if equal then 1 else 0)

/-- The hash code of the receiver's code units. -/
def hashCode (args : List Value) : VM (Option Value) := do
  return resultInt (Text.Utf16.hash (← readChars (← nativeReceiver args)))

/-- The receiver's code units and then the argument's; the receiver itself if the argument is empty. -/
def concat (args : List Value) : VM (Option Value) := do
  let this ← nativeReceiver args
  match args[1]?.bind Value.object? with
  | some other =>
    let tail ← readChars other
    if tail.isEmpty then return resultRef this
    return resultRef (← newStringOfUnitsHeld ((← readChars this) ++ tail))
  | none => throw Abrupt.nullPointer

/-- The text of the argument. -/
def valueOf (args : List Value) : VM (Option Value) := do
  let text ← match args with
    | .int v :: _ => pure (toString v.toInt)
    | .long v :: _ => pure (toString v.toInt)
    | v :: _ => displayText v
    | [] => fail (badArguments "String.valueOf" [])
  return resultRef (← newStringHeld text)

end StringNatives

end Jvm.Execution
