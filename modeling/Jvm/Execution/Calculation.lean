import Jvm.Arithmetic
import Jvm.Execution.Frame

/-! # Calculation

The instructions that need nothing but the frame: constants, locals, the operand stack, arithmetic and
jumps. Each of them goes on with the next instruction or jumps to another one. -/

namespace Jvm.Execution

open Bytecode Linking Arithmetic Jvm.Execution.Frame

/-- The jump that an instruction makes; none goes on with the next instruction. -/
abbrev Target := Option Nat

namespace Calculation

/-- Whether a value can be loaded from a local by an instruction of a kind. -/
def loads : LocalKind → Value → Bool
  | .int, .int _ | .long, .long _ | .float, .float _ | .double, .double _
  | .reference, .null | .reference, .ref _ => true
  | _, _ => false

/-- Whether a value can be stored to a local by an instruction of a kind; a return address is stored like
a reference. -/
def stores : LocalKind → Value → Bool
  | .reference, .returnAddress _ => true
  | kind, v => loads kind v

/-- Pushes a local of a kind. -/
def loadLocal (kind : LocalKind) (index : UInt16) : OnFrame Unit := do
  let v ← load index
  if !loads kind v then
    refuse (kind.name ++ " load of local " ++ toString index ++ " holding " ++ v.typeName)
  push v

/-- Pops a value of a kind into a local. -/
def storeLocal (kind : LocalKind) (index : UInt16) : OnFrame Unit := do
  let v ← pop
  if !stores kind v then refuse (kind.name ++ " store of " ++ v.typeName)
  store index v

/-- Drops a one-word value. -/
def drop : OnFrame Unit := do
  if (← pop).isWide then refuse "pop of a category 2 value"

/-- Drops two words. -/
def drop2 : OnFrame Unit := do
  let _ ← popWords 2

/-- Exchanges the two one-word values on top. -/
def exchange : OnFrame Unit := do
  let a ← pop
  let b ← pop
  if a.isWide || b.isWide then refuse "swap of a category 2 value"
  push a
  push b

/-- The quotient or remainder of whole numbers, which have none by zero. -/
def unlessZero {α : Type} : Option α → OnFrame α
  | some a => return a
  | none => throw (Abrupt.raise .arithmetic "/ by zero")

/-- An arithmetic operation on ints. -/
def onInts : ArithOp → Int32 → Int32 → OnFrame Int32
  | .add, a, b => return a + b
  | .sub, a, b => return a - b
  | .mul, a, b => return a * b
  | .div, a, b => unlessZero (idiv a b)
  | .rem, a, b => unlessZero (irem a b)

/-- An arithmetic operation on longs. -/
def onLongs : ArithOp → Int64 → Int64 → OnFrame Int64
  | .add, a, b => return a + b
  | .sub, a, b => return a - b
  | .mul, a, b => return a * b
  | .div, a, b => unlessZero (ldiv a b)
  | .rem, a, b => unlessZero (lrem a b)

/-- An arithmetic operation on floats. -/
def onFloats : ArithOp → UInt32 → UInt32 → UInt32
  | .add => onSingles (· + ·)
  | .sub => onSingles (· - ·)
  | .mul => onSingles (· * ·)
  | .div => onSingles (· / ·)
  | .rem => frem

/-- An arithmetic operation on doubles. -/
def onDoubles : ArithOp → UInt64 → UInt64 → UInt64
  | .add => Arithmetic.onDoubles (· + ·)
  | .sub => Arithmetic.onDoubles (· - ·)
  | .mul => Arithmetic.onDoubles (· * ·)
  | .div => Arithmetic.onDoubles (· / ·)
  | .rem => drem

/-- Combines two numbers. -/
def arith (op : ArithOp) : NumKind → OnFrame Unit
  | .int => do
    let b ← popInt
    push (.int (← onInts op (← popInt) b))
  | .long => do
    let b ← popLong
    push (.long (← onLongs op (← popLong) b))
  | .float => do
    let b ← popFloat
    push (.float (onFloats op (← popFloat) b))
  | .double => do
    let b ← popDouble
    push (.double (onDoubles op (← popDouble) b))

/-- Changes the sign of a number. -/
def negate : NumKind → OnFrame Unit
  | .int => do push (.int (-(← popInt)))
  | .long => do push (.long (-(← popLong)))
  | .float => do push (.float (fneg (← popFloat)))
  | .double => do push (.double (dneg (← popDouble)))

/-- A shift of an int. -/
def shiftInt : ShiftOp → Int32 → Int32 → Int32
  | .left => ishl
  | .right => ishr
  | .rightUnsigned => iushr

/-- A shift of a long. -/
def shiftLong : ShiftOp → Int64 → Int32 → Int64
  | .left => lshl
  | .right => lshr
  | .rightUnsigned => lushr

/-- Shifts a whole number. -/
def shift (op : ShiftOp) (kind : IntKind) : OnFrame Unit := do
  let distance ← popInt
  match kind with
  | .int => push (.int (shiftInt op (← popInt) distance))
  | .long => push (.long (shiftLong op (← popLong) distance))

/-- An operation on the bits of ints. -/
def bitsInt : BitOp → Int32 → Int32 → Int32
  | .and => (· &&& ·)
  | .or => (· ||| ·)
  | .xor => (· ^^^ ·)

/-- An operation on the bits of longs. -/
def bitsLong : BitOp → Int64 → Int64 → Int64
  | .and => (· &&& ·)
  | .or => (· ||| ·)
  | .xor => (· ^^^ ·)

/-- Combines the bits of two whole numbers. -/
def bits (op : BitOp) : IntKind → OnFrame Unit
  | .int => do
    let b ← popInt
    push (.int (bitsInt op (← popInt) b))
  | .long => do
    let b ← popLong
    push (.long (bitsLong op (← popLong) b))

/-- Adds to an int local. -/
def increment (index : UInt16) (delta : Int16) : OnFrame Unit := do
  match ← load index with
  | .int v => store index (.int (v + delta.toInt32))
  | v => refuse ("iinc of " ++ v.typeName)

/-- A number of one type as a number of another one; none if it is not of the first. -/
def convert? : NumKind → NumKind → Value → Option Value
  | .int, .long, .int v => some (.long v.toInt64)
  | .int, .float, .int v => some (.float v.toFloat32.toBits)
  | .int, .double, .int v => some (.double v.toFloat.toBits)
  | .long, .int, .long v => some (.int v.toInt32)
  | .long, .float, .long v => some (.float v.toFloat32.toBits)
  | .long, .double, .long v => some (.double v.toFloat.toBits)
  | .float, .int, .float v => some (.int (f2i v))
  | .float, .long, .float v => some (.long (f2l v))
  | .float, .double, .float v => some (.double (Float32.ofBits v).toFloat.toBits)
  | .double, .int, .double v => some (.int (d2i v))
  | .double, .long, .double v => some (.long (d2l v))
  | .double, .float, .double v => some (.float (Float.ofBits v).toFloat32.toBits)
  | _, _, _ => none

/-- Converts between types of numbers. -/
def convert (source target : NumKind) : OnFrame Unit := do
  let v ← pop
  match convert? source target v with
  | some converted => push converted
  | none =>
    refuse (source.name ++ " to " ++ target.name ++ " conversion of " ++ v.typeName)

/-- An int cut down to a narrower type. -/
def cut : NarrowKind → Int32 → Int32
  | .byte => i2b
  | .char => i2c
  | .short => i2s

/-- The outcome of a comparison with NaN. -/
def unordered (greater : Bool) : Int32 := if greater then 1 else -1

/-- Goes to a target if a condition holds. -/
def jumpIf (condition : Bool) (target : Nat) : Target := if condition then some target else none

/-- Makes a jump from the instruction at hand, if it is taken. -/
def jump (target : Nat) : Jump → OnFrame Target
  | .ifInt c => return jumpIf (c.holds (compare (← popInt) 0)) target
  | .ifInts c => do
    let b ← popInt
    let a ← popInt
    return jumpIf (c.holds (compare a b)) target
  | .ifRefs equal => do
    let b ← popReference
    let a ← popReference
    return jumpIf ((a == b) == equal) target
  | .ifNull isNull => return jumpIf ((← popReference).isNone == isNull) target
  | .always => return some target
  | .subroutine => do
    push (.returnAddress ((← get).pc + 1))
    return some target

/-- Goes to the return address in a local. -/
def returnThrough (index : UInt16) : OnFrame Target := do
  match ← load index with
  | .returnAddress target => return some target
  | v => refuse ("ret through " ++ v.typeName)

/-- Goes where a switch says. -/
def switch (table : Nat) : OnFrame Target := do
  let key ← popInt
  match (← get).code.body.tables[table]? with
  | some t => return some (t.target key)
  | none => refuse "missing switch table"

/-- Pops the value that a return of a kind gives back. -/
def popResult : Option LocalKind → OnFrame (Option Value)
  | none => return none
  | some .int => return some (.int (← popInt))
  | some .long => return some (.long (← popLong))
  | some .float => return some (.float (← popFloat))
  | some .double => return some (.double (← popDouble))
  | some .reference => return some (.ofObject (← popReference))

end Calculation

open Calculation in
/-- What an instruction does if it needs nothing but the frame. -/
def calculate? : Operation → Option (OnFrame Target)
  | .nop => some (return none)
  | .pushNull => next (push .null)
  | .pushInt v => next (push (.int v))
  | .pushLong v => next (push (.long v))
  | .pushFloat v => next (push (.float v))
  | .pushDouble v => next (push (.double v))
  | .load kind index => next (loadLocal kind index)
  | .store kind index => next (storeLocal kind index)
  | .pop => next drop
  | .pop2 => next drop2
  | .dup copied skipped => next (dup copied skipped)
  | .swap => next exchange
  | .arith op kind => next (arith op kind)
  | .neg kind => next (negate kind)
  | .shift op kind => next (Calculation.shift op kind)
  | .bits op kind => next (Calculation.bits op kind)
  | .iinc index delta => next (increment index delta)
  | .convert source target => next (convert source target)
  | .narrow target => next do push (.int (cut target (← popInt)))
  | .lcmp => next do
    let b ← popLong
    push (.int (Arithmetic.lcmp (← popLong) b))
  | .fcmp greater => next do
    let b ← popFloat
    push (.int (Arithmetic.fcmp (← popFloat) b (unordered greater)))
  | .dcmp greater => next do
    let b ← popDouble
    push (.int (Arithmetic.dcmp (← popDouble) b (unordered greater)))
  | .jump when target => some (Calculation.jump target when)
  | .ret index => some (returnThrough index)
  | .tableSwitch table | .lookupSwitch table => some (switch table)
  | _ => none
where
  next (x : OnFrame Unit) : Option (OnFrame Target) := some do
    x
    return none

end Jvm.Execution
