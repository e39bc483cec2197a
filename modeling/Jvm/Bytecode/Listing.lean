import Jvm.Arithmetic
import Jvm.Bytecode.Operation

/-! # Listings

The words that stand for an operation in a listing of decoded code: a name and the operands. -/

namespace Jvm.Bytecode

/-- The name of a whole-number type in listings. -/
def IntKind.name : IntKind → String
  | .int => "Int"
  | .long => "Long"

/-- The name of a condition in listings. -/
def Condition.name : Condition → String
  | .eq => "Eq"
  | .ne => "Ne"
  | .lt => "Lt"
  | .ge => "Ge"
  | .gt => "Gt"
  | .le => "Le"

/-- The name of a use of a constant in listings. -/
def PoolUse.name : PoolUse → String
  | .getStatic => "GetStatic"
  | .putStatic => "PutStatic"
  | .getField => "GetField"
  | .putField => "PutField"
  | .invokeVirtual => "InvokeVirtual"
  | .invokeSpecial => "InvokeSpecial"
  | .invokeStatic => "InvokeStatic"
  | .new => "New"
  | .newReferenceArray => "ANewArray"
  | .checkCast => "CheckCast"
  | .instanceOf => "InstanceOf"

/-- The name of an arithmetic operation in listings. -/
def ArithOp.name : ArithOp → String
  | .add => "Add"
  | .sub => "Sub"
  | .mul => "Mul"
  | .div => "Div"
  | .rem => "Rem"

/-- The name of a shift in listings. -/
def ShiftOp.name : ShiftOp → String
  | .left => "Shl"
  | .right => "Shr"
  | .rightUnsigned => "Ushr"

/-- The name of an operation on bits in listings. -/
def BitOp.name : BitOp → String
  | .and => "And"
  | .or => "Or"
  | .xor => "Xor"

/-- The name of a cut in listings. -/
def NarrowKind.name : NarrowKind → String
  | .byte => "I2b"
  | .char => "I2c"
  | .short => "I2s"

/-- The words of a jump without its target. -/
def Jump.words : Jump → List String
  | .ifInt c => ["If", c.name]
  | .ifInts c => ["IfICmp", c.name]
  | .ifRefs equal => ["IfACmp", if equal then "true" else "false"]
  | .ifNull isNull => [if isNull then "IfNull" else "IfNonNull"]
  | .always => ["Goto"]
  | .subroutine => ["Jsr"]

/-- The name of a copy of `copied` words beneath `skipped` others. -/
def dupName (copied skipped : Nat) : String :=
  (if copied = 2 then "Dup2" else "Dup") ++
    if skipped = 0 then "" else "X" ++ toString skipped

/-- The words of an operation. -/
def Operation.words : Operation → List String
  | nop => ["Nop"]
  | pushNull => ["AconstNull"]
  | pushInt v => ["Iconst", toString v.toInt]
  | pushLong v => ["Lconst", toString v.toInt]
  | pushFloat v => ["Fconst", Arithmetic.floatText v]
  | pushDouble v => ["Dconst", Arithmetic.doubleText v]
  | ldc i => ["Ldc", toString i]
  | ldc2 i => ["Ldc2", toString i]
  | load kind i => ["Load", kind.name, toString i]
  | store kind i => ["Store", kind.name, toString i]
  | arrayLoad kind => ["ArrayLoad", kind.name]
  | arrayStore kind => ["ArrayStore", kind.name]
  | pop => ["Pop"]
  | pop2 => ["Pop2"]
  | dup copied skipped => [dupName copied skipped]
  | swap => ["Swap"]
  | arith op kind => [op.name, kind.name]
  | neg kind => ["Neg", kind.name]
  | shift op kind => [op.name, kind.name]
  | bits op kind => [op.name, kind.name]
  | iinc i delta => ["Iinc", toString i, toString delta.toInt]
  | convert source target => ["Convert", source.name, target.name]
  | narrow target => [target.name]
  | lcmp => ["Lcmp"]
  | fcmp greater => [if greater then "Fcmpg" else "Fcmpl"]
  | dcmp greater => [if greater then "Dcmpg" else "Dcmpl"]
  | jump when target => when.words ++ [toString target]
  | ret i => ["Ret", toString i]
  | tableSwitch t => ["TableSwitch", toString t]
  | lookupSwitch t => ["LookupSwitch", toString t]
  | leave kind => ["Return", kind.elim "Void" LocalKind.name]
  | pooled use i => [use.name, toString i]
  | invokeInterface i count => ["InvokeInterface", toString i, toString count]
  | invokeDynamic i => ["InvokeDynamic", toString i]
  | newArray element => ["NewArray", element.name]
  | newMultiArray i dimensions => ["MultiANewArray", toString i, toString dimensions]
  | arrayLength => ["ArrayLength"]
  | throw_ => ["AThrow"]
  | monitorEnter => ["MonitorEnter"]
  | monitorExit => ["MonitorExit"]

end Jvm.Bytecode
