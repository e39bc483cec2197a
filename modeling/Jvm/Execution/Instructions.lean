import Jvm.Execution.Calculation
import Jvm.Execution.Creation
import Jvm.Execution.Fields

/-! # Instructions

What each instruction does to the machine, and the step that fetches one and runs it. While a call goes on
the calling frame stays at the calling instruction, so handlers and stack traces see where it is. -/

namespace Jvm.Execution

open Linking ClassFile Bytecode

/-- Runs a calculation on a frame and moves on to where it leads. -/
def Frame.advance (x : OnFrame Target) : OnFrame Unit := do
  let target ← x
  modify fun f => { f with pc := target.getD (f.pc + 1) }

namespace VM

/-- The complaint about a constant that an instruction cannot push. -/
def unsupportedConstant (c : LinkedClass) (index : UInt16) (constant : Constant) : Fault :=
  .incompatibleClassChange ("unsupported " ++ constant.tagName ++ " constant at index "
    ++ toString index ++ " of " ++ c.name)

/-- The value of the constant at a pool index of the current class, of one word or of two. -/
def constantValue (index : UInt16) (wide : Bool) : VM Value := do
  let id ← currentClass
  let c ← getClass id
  match c.pool.get? index, wide with
  | some (.integer v), false => return .int v
  | some (.float bits), false => return .float bits
  | some (.string _), false => return .ref (← stringConstant id index)
  | some (.classRef _), false => return .ref (← classObjectOf (← classAt index))
  | some (.long v), true => return .long v
  | some (.double bits), true => return .double bits
  | some constant, _ => fail (unsupportedConstant c index constant)
  | none, _ =>
    fail (.verify ("ldc of unusable constant pool index " ++ toString index ++ " in " ++ c.name))

/-- Runs an instruction that uses the class or member at a pool index. -/
def usePooled (index : UInt16) : PoolUse → VM Flow
  | .getStatic => andNext (getStatic index)
  | .putStatic => andNext (putStatic index)
  | .getField => andNext (getInstanceField index)
  | .putField => andNext (putInstanceField index)
  | .invokeVirtual => invokeVirtual index
  | .invokeSpecial => invokeSpecial index
  | .invokeStatic => invokeStatic index
  | .new => andNext (newObject index)
  | .newReferenceArray => andNext (newReferenceArray index)
  | .checkCast => andNext (checkCast index)
  | .instanceOf => andNext (instanceOf index)
where
  andNext (x : VM Unit) : VM Flow := do
    x
    return .next

/-- Enters the monitor of an object for an instruction. -/
def lock (object : Ref) : VM Unit := do
  enterMonitor object
  note (.locked object)

/-- Runs an instruction of the current frame; `base` frames lie below those that are run. -/
def execute (base : Nat) (op : Operation) : VM Flow := do
  match op with
  | .ldc index => push (← constantValue index false)
  | .ldc2 index => push (← constantValue index true)
  | .arrayLoad access => loadElement access
  | .arrayStore access => assignElement access
  | .leave kind => return ← returnFrom base (← onFrame (Calculation.popResult kind))
  | .pooled use index => return ← usePooled index use
  | .invokeInterface index _ => return ← invokeInterface index
  | .invokeDynamic _ => incompatible "invokedynamic is not supported"
  | .newArray element => newPrimitiveArray element
  | .newMultiArray index dimensions => newMultiArray index dimensions
  | .arrayLength => arrayLength
  | .throw_ => throw (.thrown (← onFrame Frame.popObject))
  | .monitorEnter => lock (← onFrame Frame.popObject)
  | .monitorExit => exitMonitor (← onFrame Frame.popObject)
  | _ => return .next
  return .next

/-- The instruction that is due. -/
def fetch : OnFrame Operation := do
  let f ← get
  match f.code.body.operation? f.pc with
  | some op => return op
  | none => Frame.refuse "execution fell off the end of the code"

/-- Runs the instruction that is due; the outcome is a result if it leaves the last frame above `base`. -/
def step (base : Nat) : VM (Option (Option Value)) := do
  tick
  let op ← onFrame fetch
  match calculate? op with
  | some x =>
    onFrame (Frame.advance x)
    return none
  | none =>
    match ← execute base op with
    | .next =>
      onFrame (Frame.advance (pure none))
      return none
    | .moved => return none
    | .done result => return some result

end VM

end Jvm.Execution
