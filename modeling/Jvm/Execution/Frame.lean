import Jvm.Stack
import Jvm.Linking.Class

/-! # Frames

The activation of a method: its place in the code, its locals and its operand stack. A long or a double
takes two locals, the second of which is unset, and one place on the operand stack, where it counts for two
words. The operations check bounds and types, and a failed check is a fault of the method. -/

namespace Jvm.Execution

open Bytecode Linking

/-- Why something ends before it is done. -/
inductive Abrupt where
  | thrown (exception : Ref)
  | raised (check : RuntimeCheck) (message : Option String)
  | fault (e : Fault)
  | stuck
deriving DecidableEq, Inhabited, Repr

namespace Abrupt

/-- A failed check with a message. -/
def raise (check : RuntimeCheck) (message : String) : Abrupt := .raised check (some message)

/-- Null was found where an object is needed. -/
def nullPointer : Abrupt := .raised .nullPointer none

/-- An index lies outside an array. -/
def indexOutOfBounds (index : Int32) (length : Nat) : Abrupt :=
  raise .arrayIndexOutOfBounds ("Index " ++ toString index.toInt ++ " out of bounds for length "
    ++ toString length)

end Abrupt

/-- The activation of a method. -/
structure Frame where
  method : Method
  cls : ClassId
  code : Code
  pc : Nat
  locals : Array Value
  stack : Stack Value
  monitor : Option Ref
deriving DecidableEq, Inhabited, Repr

/-- A computation on a frame. -/
abbrev OnFrame := EStateM Abrupt Frame

/-- A value with the unset local that follows it. -/
def spread (v : Value) : List Value := if v.isWide then [v, .top] else [v]

namespace Frame

/-- A frame that begins a method, with its arguments in the first locals. -/
def enter (method : Method) (code : Code) (args : List Value) (monitor : Option Ref) : Frame where
  method := method
  cls := method.owner
  code := code
  pc := 0
  locals :=
    let given := args.flatMap spread
    (given ++ List.replicate (code.maxLocals - given.length) Value.top).toArray
  stack := .empty
  monitor := monitor

/-- A fault of the method at the instruction at hand. -/
def fault (f : Frame) (what : String) : Abrupt :=
  .fault (.verify (what ++ " at instruction " ++ toString f.pc ++ " of " ++ f.method.text))

/-- The source line of the instruction at hand. -/
def line? (f : Frame) : Option UInt16 := f.code.line? f.pc

/-- The objects that a frame keeps alive. -/
def roots (f : Frame) : List Ref :=
  f.locals.toList.filterMap Value.object? ++ f.stack.list.reverse.filterMap Value.object?
    ++ f.monitor.toList

/-- Fails with a fault of the method. -/
def refuse {α : Type} (what : String) : OnFrame α := do throw ((← get).fault what)

/-! ## The operand stack -/

/-- Pushes a value. -/
def push (v : Value) : OnFrame Unit := do
  let f ← get
  if f.code.maxStack ≤ f.stack.size then refuse "operand stack overflow"
  set { f with stack := f.stack.push v }

/-- Pops a value. -/
def pop : OnFrame Value := do
  let f ← get
  match f.stack.top? with
  | some v =>
    set { f with stack := f.stack.pop }
    return v
  | none => refuse "operand stack underflow"

/-- The value beneath `depth` others. -/
def peek (depth : Nat) : OnFrame Value := do
  match (← get).stack.list[depth]? with
  | some v => return v
  | none => refuse "operand stack underflow"

/-- Complains about a value of the wrong type. -/
def mismatch {α : Type} (expected : String) (found : Value) : OnFrame α :=
  refuse ("expected " ++ expected ++ ", found " ++ found.typeName)

/-- Pops an int. -/
def popInt : OnFrame Int32 := do
  match ← pop with
  | .int v => return v
  | v => mismatch "int" v

/-- Pops a long. -/
def popLong : OnFrame Int64 := do
  match ← pop with
  | .long v => return v
  | v => mismatch "long" v

/-- Pops a float. -/
def popFloat : OnFrame UInt32 := do
  match ← pop with
  | .float bits => return bits
  | v => mismatch "float" v

/-- Pops a double. -/
def popDouble : OnFrame UInt64 := do
  match ← pop with
  | .double bits => return bits
  | v => mismatch "double" v

/-- Pops a reference; none is null. -/
def popReference : OnFrame (Option Ref) := do
  match ← pop with
  | .null => return none
  | .ref r => return some r
  | v => mismatch "reference" v

/-- Pops an object. -/
def popObject : OnFrame Ref := do
  match ← popReference with
  | some r => return r
  | none => throw Abrupt.nullPointer

/-- Pops `n` values, in the order in which they were pushed. -/
def popArgs (n : Nat) : OnFrame (List Value) := do
  let f ← get
  if f.stack.size < n then refuse "operand stack underflow"
  set { f with stack := f.stack.drop n }
  return (f.stack.list.take n).reverse

/-- Pops values that count for exactly `n` words, in the order in which they were pushed. -/
def popWords : Nat → OnFrame (List Value)
  | 0 => return []
  | n + 1 => do
    let v ← pop
    if v.isWide then
      match n with
      | 0 => refuse "stack shuffle splits a category 2 value"
      | n + 1 => return (← popWords n) ++ [v]
    else return (← popWords n) ++ [v]

/-- Pushes values in order. -/
def pushAll (vs : List Value) : OnFrame Unit := vs.forM push

/-- Copies the top `copied` words beneath the `skipped` words below them. -/
def dup (copied skipped : Nat) : OnFrame Unit := do
  let top ← popWords copied
  let below ← popWords skipped
  pushAll (top ++ below ++ top)

/-! ## Locals -/

/-- A local. -/
def load (index : UInt16) : OnFrame Value := do
  match (← get).locals[index.toNat]? with
  | some v => return v
  | none => refuse "local index out of range"

/-- The locals after an assignment. The second half of a wide value is unset, and so is the first half of
one whose second half is overwritten. -/
def assign (locals : Array Value) (i : Nat) (v : Value) : Array Value :=
  let locals := locals.setIfInBounds i v
  let locals := if v.isWide then locals.setIfInBounds (i + 1) .top else locals
  if 0 < i && (locals[i - 1]?.map Value.isWide).getD false then
    locals.setIfInBounds (i - 1) .top
  else locals

/-- Assigns to a local. -/
def store (index : UInt16) (v : Value) : OnFrame Unit := do
  let f ← get
  if f.locals.size < index.toNat + v.words then refuse "local index out of range"
  set { f with locals := assign f.locals index.toNat v }

end Frame

end Jvm.Execution
