import Jvm.Execution.Natives.Printing
import Jvm.Execution.Natives.ArrayCopy

/-! # Native methods of the host

The actions that a host can bind native methods to. Those that work on their first argument need an object
there. -/

namespace Jvm.Execution

open Linking VM

namespace HostAction

/-- The sum of the ints among some values. -/
def sumOfInts (vs : List Value) : Int32 :=
  vs.foldl (fun sum v =>
    match v with
    | .int n => sum + n
    | _ => sum) 0

/-- Creates the strings from number `i` on and gives back the last one; `last` is the one before. -/
def newStrings (last : Option Value) (i : Nat) : Nat → VM (Option Value)
  | 0 => return last
  | n + 1 => do newStrings (resultRef (← newStringHeld ("s" ++ toString i))) (i + 1) n

/-- Gives back a new string. -/
def newText (text : String) : VM (Option Value) := do return resultRef (← newStringHeld text)

/-- What an action does with its arguments. -/
def run (args : List Value) : HostAction → VM (Option Value)
  | nothing => return none
  | value v => return some v
  | argument i => return args[i]?
  | sum => return resultInt (sumOfInts args)
  | raise check message => throw (.raised check message)
  | exception cls message => throwNew cls message
  | fault e => fail e
  | throwArgument => do throw (.thrown (← nativeReceiver args))
  | string text => newText text
  | chars units => do return resultRef (← newStringOfUnitsHeld units)
  | strings n => newStrings none 0 n
  | read => do newText (← readString (← nativeReceiver args))
  | intern => StringNatives.intern args
  | threadName => do newText (← getThe Machine).threadName
  | describe => do newText (← VM.describe (← nativeReceiver args))
  | trace => do newText ("\n".intercalate (← storedTrace (← nativeReceiver args)))
  | className => do newText (← dottedName (← classOf (← nativeReceiver args)))
  | classObject => ObjectNatives.getClass args
  | hash => ObjectNatives.hashCode args
  | call name descriptor => do
    callVirtual (← nativeReceiver args) name descriptor args.tail
  | fill => do
    VM.fillInStackTrace (← nativeReceiver args) true
    return none
  | gc => do
    collect
    return none
  | usedBytes => do return some (.long (Int64.ofNat (← getThe Machine).heap.used))
  | objectCount => do return resultInt (Int32.ofNat (← getThe Machine).heap.objectCount)
  | write toError text => do
    VM.write toError text
    return none

end HostAction

/-- What a native method of the core classes does with its arguments. -/
def CoreNative.run (args : List Value) : CoreNative → VM (Option Value)
  | hashCode => ObjectNatives.hashCode args
  | getClass => ObjectNatives.getClass args
  | objectToString => ObjectNatives.objectToString args
  | clone => ObjectNatives.clone args
  | intern => StringNatives.intern args
  | stringEquals => StringNatives.equals args
  | stringHashCode => StringNatives.hashCode args
  | concat => StringNatives.concat args
  | valueOf => StringNatives.valueOf args
  | arraycopy => ArrayCopy.arraycopy args
  | identityHashCode => ObjectNatives.identityHashCode args
  | gc => HostAction.gc.run args
  | nanoTime => do return some (.long (← readThe Context).env.clock.nanos)
  | currentTimeMillis => do return some (.long (← readThe Context).env.clock.millis)
  | print descriptor newline => Printing.print descriptor newline args
  | fillInStackTrace => Printing.fillInStackTrace args
  | throwableToString => Printing.throwableToString args
  | printStackTrace => Printing.printStackTrace args

/-- What a native method does with its arguments. -/
def Native.run (args : List Value) : Native → VM (Option Value)
  | core method => method.run args
  | host action => action.run args

end Jvm.Execution
