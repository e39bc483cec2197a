import Jvm.Execution.Preparation

/-! # Throwing and catching

A failed check, or a fault with a throwable class, becomes an exception object. The exception goes down the
frames: the first row of a frame's exception table that covers the instruction at hand and catches the
exception's class takes over; a frame without such a row is left, and its monitor with it. -/

namespace Jvm.Execution

open Linking

/-- Begins a handler: the exception alone is on the operand stack. -/
def Frame.beginHandler (exception : Ref) (handler : Nat) : OnFrame Unit := do
  modify fun f => { f with stack := .empty }
  Frame.push (.ref exception)
  modify fun f => { f with pc := handler }

namespace VM

/-- Creates a throwable of a core class. -/
def newThrowable (className : String) (message : Option String) : VM Ref := do
  let id ← coreClass className
  ensureInitialized id
  let exception ← newInstance id
  pinning [exception] do
    if let some text := message then
      let slot ← messageSlot
      let string ← newString text
      setField exception slot (.ref string)
    fillInStackTrace exception false
  return exception

/-- The exception object that something abrupt is; what has none stays abrupt. -/
def materialize : Abrupt → VM Ref
  | .thrown exception => return exception
  | .raised check message => newThrowable check.className message
  | .fault e =>
    match e.throwableClass with
    | some className => newThrowable className e.detail
    | none => throw (.fault e)
  | .stuck => throw .stuck

/-- Leaves the current frame, and the monitor that its call holds. -/
def leaveFrame : VM Unit := do
  match (← getThe Machine).frames.top? with
  | none => return
  | some f =>
    modifyThe Machine fun m => { m with frames := m.frames.pop }
    if let some monitor := f.monitor then
      let _ ← attempt (leaveCallMonitor monitor)

/-- Leaves frames until `base` are left. -/
def unwindTo (base : Nat) : VM Unit := do
  for _ in List.range ((← depth) - base) do
    leaveFrame

/-- Whether a handler of a class catches exceptions of a class. A class that cannot be loaded catches
nothing. -/
def catches (cls thrown : ClassId) (h : Handler) : VM Bool := do
  match h.catchType with
  | none => return true
  | some index =>
    match ← attempt (link (resolveClass · cls index)) with
    | .ok caught => return (← table).isAssignable thrown caught
    | .error _ => return false

/-- The first of some handlers that covers an instruction and catches exceptions of a class. -/
def firstHandler (cls thrown : ClassId) (pc : Nat) : List Handler → VM (Option Nat)
  | [] => return none
  | h :: rest => do
    if h.covers pc then
      if ← catches cls thrown h then return some h.handler
    firstHandler cls thrown pc rest

/-- Where the current frame catches an exception. -/
def findHandler (exception : Ref) : VM (Option Nat) := do
  let f ← currentFrame
  firstHandler f.cls (← classOf exception) f.pc f.code.handlers

/-- Goes down the frames above `base` to one that catches an exception; `count` bounds how many there
are. -/
def dispatch (exception : Ref) (base : Nat) : Nat → VM Unit
  | 0 => throw (.thrown exception)
  | count + 1 => do
    if (← depth) ≤ base then throw (.thrown exception)
    match ← notingFailure (.unreadable exception) (findHandler exception) with
    | some handler =>
      notingFailure (.unhandled exception) (onFrame (Frame.beginHandler exception handler))
    | none =>
      leaveFrame
      dispatch exception base count

/-- Lets a frame above `base` catch what ended an instruction, or leaves all of them. -/
def handle (e : Abrupt) (base : Nat) : VM Unit := do
  match ← attempt (materialize e) with
  | .ok exception => dispatch exception base (← depth)
  | .error fatal =>
    unwindTo base
    throw fatal

end VM

end Jvm.Execution
