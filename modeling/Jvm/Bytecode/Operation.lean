import Jvm.Element
import Jvm.Value

/-! # Operations

What an instruction does, with the many spellings of one operation folded together: `iload_3`, `iload 3`
and `wide iload 3` are one load. Jumps hold a position in the code: a byte offset while the code is being
read, an instruction index afterwards. -/

namespace Jvm.Bytecode

/-- The types that a load, store or return can have. -/
inductive LocalKind where
  | int | long | float | double | reference
deriving DecidableEq, Inhabited, Repr

/-- The local-variable slots of a kind. -/
def LocalKind.slots : LocalKind → Nat
  | .long | .double => 2
  | _ => 1

/-- The name of a kind in messages. -/
def LocalKind.name : LocalKind → String
  | .int => "Int"
  | .long => "Long"
  | .float => "Float"
  | .double => "Double"
  | .reference => "Reference"

/-- The types of numbers that arithmetic works on. -/
inductive NumKind where
  | int | long | float | double
deriving DecidableEq, Inhabited, Repr

/-- The name of a number type in messages. -/
def NumKind.name : NumKind → String
  | .int => "Int"
  | .long => "Long"
  | .float => "Float"
  | .double => "Double"

/-- The types of whole numbers that shifts and bit operations work on. -/
inductive IntKind where
  | int | long
deriving DecidableEq, Inhabited, Repr

/-- The conditions of conditional jumps. -/
inductive Condition where
  | eq | ne | lt | ge | gt | le
deriving DecidableEq, Inhabited, Repr

/-- Whether a condition holds for the outcome of a comparison. -/
def Condition.holds : Condition → Ordering → Bool
  | .eq, o => o == .eq
  | .ne, o => o != .eq
  | .lt, o => o == .lt
  | .ge, o => o != .lt
  | .gt, o => o == .gt
  | .le, o => o != .gt

/-- The arithmetic operations on two numbers. -/
inductive ArithOp where
  | add | sub | mul | div | rem
deriving DecidableEq, Inhabited, Repr

/-- The shifts. -/
inductive ShiftOp where
  | left | right | rightUnsigned
deriving DecidableEq, Inhabited, Repr

/-- The operations on bits. -/
inductive BitOp where
  | and | or | xor
deriving DecidableEq, Inhabited, Repr

/-- The narrower types an int can be cut down to. -/
inductive NarrowKind where
  | byte | char | short
deriving DecidableEq, Inhabited, Repr

/-- When a jump is taken. -/
inductive Jump where
  | ifInt (c : Condition)
  | ifInts (c : Condition)
  | ifRefs (equal : Bool)
  | ifNull (isNull : Bool)
  | always
  | subroutine
deriving DecidableEq, Inhabited, Repr

/-- What an instruction does with the constant it names. -/
inductive PoolUse where
  | getStatic | putStatic | getField | putField
  | invokeVirtual | invokeSpecial | invokeStatic
  | new | newReferenceArray | checkCast | instanceOf
deriving DecidableEq, Inhabited, Repr

/-- An operation. -/
inductive Operation where
  | nop
  | pushNull
  | pushInt (v : Int32)
  | pushLong (v : Int64)
  | pushFloat (bits : UInt32)
  | pushDouble (bits : UInt64)
  | ldc (index : UInt16)
  | ldc2 (index : UInt16)
  | load (kind : LocalKind) (index : UInt16)
  | store (kind : LocalKind) (index : UInt16)
  | arrayLoad (kind : ElementAccess)
  | arrayStore (kind : ElementAccess)
  | pop
  | pop2
  | dup (copied skipped : Nat)
  | swap
  | arith (op : ArithOp) (kind : NumKind)
  | neg (kind : NumKind)
  | shift (op : ShiftOp) (kind : IntKind)
  | bits (op : BitOp) (kind : IntKind)
  | iinc (index : UInt16) (delta : Int16)
  | convert (source target : NumKind)
  | narrow (target : NarrowKind)
  | lcmp
  -- Compares floats; `greater` says how NaN comes out.
  | fcmp (greater : Bool)
  -- Compares doubles; `greater` says how NaN comes out.
  | dcmp (greater : Bool)
  | jump (jump : Jump) (target : Nat)
  | ret (index : UInt16)
  | tableSwitch (table : Nat)
  | lookupSwitch (table : Nat)
  -- Leaves the method with a value of the kind; none for `void`.
  | leave (kind : Option LocalKind)
  | pooled (use : PoolUse) (index : UInt16)
  -- Calls the interface method at an index; the count repeats its argument words.
  | invokeInterface (index : UInt16) (count : UInt8)
  | invokeDynamic (index : UInt16)
  | newArray (element : Primitive)
  | newMultiArray (index : UInt16) (dimensions : UInt8)
  | arrayLength
  | throw_
  | monitorEnter
  | monitorExit
deriving DecidableEq, Inhabited, Repr

namespace Operation

/-- Where a jump goes to. -/
def target? : Operation → Option Nat
  | jump _ t => some t
  | _ => none

/-- The number of a switch's table. -/
def table? : Operation → Option Nat
  | tableSwitch t | lookupSwitch t => some t
  | _ => none

/-- Whether control never goes on to the next instruction. -/
def endsBlock : Operation → Bool
  | jump .always _ | ret _ | tableSwitch _ | lookupSwitch _ | leave _ | throw_ => true
  | _ => false

/-- The pool index an operation names. -/
def poolIndex? : Operation → Option UInt16
  | ldc i | ldc2 i | pooled _ i | invokeInterface i _ | invokeDynamic i | newMultiArray i _ =>
    some i
  | _ => none

/-- The first local slot an operation touches, and how many. -/
def localAccess? : Operation → Option (UInt16 × Nat)
  | load kind i | store kind i => some (i, kind.slots)
  | iinc i _ | ret i => some (i, 1)
  | _ => none

/-- Whether an operation is a call. -/
def isInvoke : Operation → Bool
  | pooled .invokeVirtual _ | pooled .invokeSpecial _ | pooled .invokeStatic _
  | invokeInterface _ _ | invokeDynamic _ => true
  | _ => false

end Operation

end Jvm.Bytecode
