import Jvm.Execution.Strings

/-! # Throwables

What can be read off a throwable object, its message and the places it came through, and how those places
are noted. A throwable that the machine creates gets its fields directly, without a constructor. -/

namespace Jvm.Execution

open Linking

/-- The line of a stack trace for a frame: the method, and the file and line as far as they are known. -/
def Frame.traceLine (source : Option String) (f : Frame) : String :=
  let place := match source, f.line? with
    | some file, some line => file ++ ":" ++ toString line
    | some file, none => file
    | none, _ => "Unknown Source"
  dotted f.method.className ++ "." ++ f.method.name ++ "(" ++ place ++ ")"

/-- Whether a frame is that of a constructor of an object. -/
def Frame.constructs (f : Frame) (object : Ref) : Bool :=
  f.method.name == "<init>" && f.locals[0]? == some (.ref object)

namespace VM

/-- The place of a throwable's message. -/
def messageSlot : VM Nat :=
  coreField CoreClasses.throwableName "detailMessage" "Ljava/lang/String;"

/-- The place of a throwable's stack trace. -/
def traceSlot : VM Nat := coreField CoreClasses.throwableName "stackTrace" "[Ljava/lang/String;"

/-- The result of a computation, if it has one. -/
def result? {α : Type} (x : VM α) : VM (Option α) := do
  match ← attempt x with
  | .ok a => return some a
  | .error _ => return none

/-- The message of a throwable. -/
def message? (exception : Ref) : VM (Option String) := do
  let text? ← result? do
    match ← getField exception (← messageSlot) with
    | .ref string => return some (← readString string)
    | _ => return none
  return text?.join

/-- The text of a throwable: its class and its message. -/
def describe (exception : Ref) : VM String := do
  match ← result? (classOf exception) with
  | none => return "<invalid exception " ++ exception.text ++ ">"
  | some id =>
    let name ← dottedName id
    return Fault.withMessage name (← message? exception)

/-- The texts of those elements of an array that are strings. -/
def stringsIn (array : Ref) : VM (List String) := do
  let values := ((← result? (elements array)).map (·.values.toList)).getD []
  let texts ← values.mapM fun
    | .ref string => result? (readString string)
    | _ => pure none
  return texts.filterMap id

/-- The stack trace that is noted in a throwable. -/
def storedTrace (exception : Ref) : VM (List String) := do
  match ← result? do getField exception (← traceSlot) with
  | some (.ref trace) => stringsIn trace
  | _ => return []

/-- The lines for the frames of the thread, the innermost first, without those that construct
`constructing`. -/
def traceLines (constructing : Option Ref) : VM (List String) := do
  let frames := (← getThe Machine).frames.list
  let shown : List Frame := match constructing with
    | some object => frames.dropWhile fun f => f.constructs object
    | none => frames
  shown.mapM fun f => do return f.traceLine (← getClass f.cls).source

/-- Notes where the thread is as the stack trace of a throwable. -/
def fillInStackTrace (exception : Ref) (skipConstructors : Bool) : VM Unit := do
  let lines ← traceLines (if skipConstructors then some exception else none)
  let cls ← stringArrayClass
  let slot ← traceSlot
  pinning [exception] do
    let trace ← allocate (.zeros cls .reference lines.length)
    pin trace
    storeStrings trace 0 lines
    setField exception slot (.ref trace)

/-- The fault that an exception becomes when it has left every frame of a thread. -/
def uncaught (exception : Ref) : VM Fault := do
  match ← attempt (classOf exception) with
  | .error (.fault e) => return e
  | .error _ => return .internal "no class"
  | .ok id =>
    let name := (← table).nameOf id
    let message ← message? exception
    return .uncaught (← getThe Machine).threadName name message (← storedTrace exception)

end VM

end Jvm.Execution
