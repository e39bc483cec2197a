import Jvm.Execution.Run

/-! # Threads

A host attaches a thread for each thing it asks of the machine, and threads run one after the other. What
leaves every frame of a thread is reported to the host as a fault; a fault that has a throwable class and
that no frame has seen yet becomes an exception first. -/

namespace Jvm.Execution

open Linking

/-- The descriptor of the method that a program begins with. -/
def mainDescriptor : String := "([Ljava/lang/String;)V"

/-- The fault of a thread that waits for ever or has used up its steps. -/
def stuckFault : Fault := .internal "the thread does not end"

/-- The report of an exception that left every frame of a thread; other faults have none. -/
def uncaughtReport : Fault → String
  | .uncaught thread className message trace =>
    (Fault.uncaught thread className message trace).message ++ "\n" ++ Printing.traceText trace
  | _ => ""

namespace VM

/-- The fault that a host sees when something abrupt has left every frame of the thread. -/
def escape : Abrupt → VM Fault
  | .thrown exception => uncaught exception
  | .raised check message => do
    return .uncaught (← getThe Machine).threadName check.className message []
  | .fault e => do
    if e.throwableClass.isNone then return e
    match ← attempt (materialize (.fault e)) with
    | .ok exception => uncaught exception
    | .error _ => return e
  | .stuck => return stuckFault

/-- Runs a computation for the host, which sees what leaves every frame as a fault. -/
def forHost {α : Type} (x : VM α) : VM α := do
  match ← attempt x with
  | .ok a => return a
  | .error e => fail (← escape e)

/-- Calls a method with no other one around it. Once a frame holds the arguments, nothing but `held` is
held any more. -/
def callFirst (held : List Ref) (m : Method) (args : List Value) : VM (Option Value) := do
  if m.isNative then callNative m args
  else
    let base ← depth
    pushFrame m args
    modifyThe Machine fun s => { s with pinned := held }
    fun c s => c.run base s

/-- The method that a program begins with. -/
def mainMethod (id : ClassId) : VM Method := do
  let t ← table
  match (t.declaredMethod? id "main" mainDescriptor).filter fun m =>
      m.isStatic && m.access.isPublic with
  | some m => return m
  | none => fail (.noSuchMethod (t.nameOf id ++ ".main" ++ mainDescriptor))

/-- Runs the program that a class begins. -/
def runMain (className : String) (args : List String) : VM Unit := do
  let id ← link (loadClass · .app className)
  let main ← mainMethod id
  ensureInitialized id
  let argv ← newStringArray args
  let held := (← getThe Machine).pinned
  let _ ← forHost (pinning [argv] (callFirst held main [.ref argv]))

/-- The static method that a class has under a name and descriptor. -/
def staticMethod (className name descriptor : String) : VM Method := do
  let id ← link (loadClass · .app className)
  match ((← table).method? id name descriptor).filter Method.isStatic with
  | some m => return m
  | none => fail (.noSuchMethod (className ++ "." ++ name ++ descriptor))

/-- Calls a static method. The arguments are held until a frame holds them. -/
def invokeStaticMethod (className name descriptor : String) (args : List Value) :
    VM (Option Value) := do
  let m ← staticMethod className name descriptor
  let held := (← getThe Machine).pinned
  pinning (objectsIn args) do
    ensureInitialized m.owner
    forHost (callFirst held m args)

/-- Writes the report of what left every frame of the thread. -/
def reporting {α : Type} (x : VM α) : VM α := do
  match ← attempt x with
  | .ok a => return a
  | .error (.fault e) =>
    write true (uncaughtReport e)
    fail e
  | .error e => throw e

end VM

namespace Machine

/-- The machine with a new thread attached; `name` names it by its number. -/
def attach (m : Machine) (name : Nat → String) : Machine :=
  { m with
    frames := .empty
    pinned := []
    thread := m.nextThread
    threadName := name m.nextThread
    nextThread := m.nextThread + 1
    notes := [] }

/-- The machine after the thread has been detached. -/
def detach (m : Machine) : Machine := { m with frames := .empty, pinned := [] }

/-- Runs a computation on a new thread. -/
def onThread {α : Type} (m : Machine) (env : Environment) (name : Nat → String) (x : VM α) :
    Except Fault α × Machine :=
  match x env.context { m.attach name with steps := env.steps } with
  | .ok a m => (.ok a, m.detach)
  | .error (.fault e) m => (.error e, m.detach)
  | .error _ m => (.error stuckFault, m.detach)

/-- The name of the threads that the host waits for. -/
def mainThreadName (_ : Nat) : String := "main"

/-- The name of the threads that are started on their own. -/
def startedThreadName (thread : Nat) : String := "Thread-" ++ toString thread

/-- What a computation comes to on the machine as it is. -/
def observe {α : Type} (m : Machine) (env : Environment) (x : VM α) : Except Fault α :=
  (m.onThread env mainThreadName x).1

/-- Runs a program. -/
def runMain (m : Machine) (env : Environment) (className : String) (args : List String) :
    Except Fault Unit × Machine :=
  m.onThread env mainThreadName (VM.reporting (VM.runMain className args))

/-- Calls a static method and waits for its result. -/
def invoke (m : Machine) (env : Environment) (className name descriptor : String)
    (args : List Value) : Except Fault (Option Value) × Machine :=
  m.onThread env mainThreadName (VM.invokeStaticMethod className name descriptor args)

/-- Calls a static method on a thread of its own. -/
def spawn (m : Machine) (env : Environment) (className name descriptor : String)
    (args : List Value) : Except Fault (Option Value) × Machine :=
  m.onThread env startedThreadName
    (VM.reporting (VM.invokeStaticMethod className name descriptor args))

/-- Runs a collection while no other thread is attached. -/
def gc (m : Machine) : Machine := ((m.attach mainThreadName).collect).detach

/-- Loads a class for the host. -/
def loadClass (m : Machine) (env : Environment) (className : String) :
    Except Fault ClassId × Machine :=
  match Linking.loadClass env.paths .app className m.registry with
  | .ok id registry => (.ok id, { m with registry })
  | .error e registry => (.error e, { m with registry })

/-- Whether an object is a string. -/
def isString (m : Machine) (object : Ref) : Bool :=
  match m.heap.classOf object with
  | .ok id => m.registry.table.nameOf id == CoreClasses.stringName
  | .error _ => false

/-- Forgets all classes, but for those that there are objects of, and the strings that stand for their
text. -/
def shutdown (m : Machine) : Machine :=
  { m with registry := m.registry.teardown m.heap.classes }

end Machine

/-- The exit status of a program. -/
def exitStatus : Except Fault Unit → Nat
  | .ok () => 0
  | .error _ => 1

end Jvm.Execution
