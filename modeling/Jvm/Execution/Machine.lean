import Jvm.Execution.Native
import Jvm.Heap.Collect
import Jvm.Linking.Resolution

/-! # The machine

The state of a running machine: its classes, its heap, the frames of the thread that runs, and the objects
that the machine itself holds on to for a while. Every allocation can collect: the roots are what the frames,
the held objects and the classes refer to. -/

namespace Jvm.Execution

open Linking

/-- What the clocks show while the machine runs. -/
structure Clock where
  nanos : Int64
  millis : Int64
deriving DecidableEq, Inhabited, Repr

/-- What a machine is given from outside. -/
structure Environment where
  paths : ClassPaths
  natives : NativeTable
  maxFrames : Nat
  clock : Clock
  steps : Nat

/-- How many frames a thread may have unless it is said. -/
def standardMaxFrames : Nat := 2048

/-- How many instructions and allocations a thread may take unless it is said: more than there will be
time for. -/
def standardSteps : Nat := 1000000000000000000

/-- What a machine notes about objects, monitors and exceptions while it runs. -/
inductive Note where
  | missing (object : Ref)
  | entered (object : Ref)
  | left (object : Ref)
  | locked (object : Ref)
  | unreadable (exception : Ref)
  | unhandled (exception : Ref)
deriving DecidableEq, Inhabited, Repr

/-- The state of a machine. -/
structure Machine where
  registry : Registry
  heap : Heap ClassId
  frames : Stack Frame
  pinned : List Ref
  thread : Nat
  threadName : String
  nextThread : Nat
  out : String
  err : String
  steps : Nat
  -- What has been noted, the latest first. Nothing that runs looks at it.
  notes : List Note
  -- The strings that programs have been given for texts, the latest first, each with the code units that
  -- they asked about. Nothing that runs looks at them.
  handedOut : List (List UInt16 × Ref)

namespace Machine

/-- A machine that has not run yet. -/
def start (config : Heap.Config) : Machine where
  registry := .empty
  heap := .empty config
  frames := .empty
  pinned := []
  thread := 0
  threadName := ""
  nextThread := 1
  out := ""
  err := ""
  steps := 0
  notes := []
  handedOut := []

instance : Inhabited Machine := ⟨start .standard⟩

/-- The objects that the thread keeps alive. -/
def threadRoots (m : Machine) : List Ref := m.pinned ++ m.frames.list.flatMap Frame.roots

/-- The objects that are kept alive. -/
def roots (m : Machine) : List Ref := m.threadRoots ++ m.registry.roots

/-- The machine with another heap. -/
@[noinline] def setHeap (m : Machine) (heap : Heap ClassId) : Machine := { m with heap }

/-- The machine after a change to its heap. -/
def modifyHeap (m : Machine) (f : Heap ClassId → Heap ClassId) : Machine :=
  { m with heap := f m.heap }

/-- The machine with a new object in a block that has room for it. -/
@[noinline] def place (m : Machine) (request : Heap.Request ClassId) (block : Nat) : Ref × Machine :=
  let (r, heap) := m.heap.place request block
  (r, { m with heap })

/-- The machine after a collection. -/
def collect (m : Machine) : Machine :=
  let roots := m.roots
  m.modifyHeap fun h => (h.collect roots).2

/-- Creates an object after a collection: within the budget, or with a greater budget. -/
def allocateCollected (m : Machine) (request : Heap.Request ClassId) : Except Fault Ref × Machine :=
  match m.heap.reserve request.bytes with
  | some (block, heap) =>
    let (r, m) := (m.setHeap heap).place request block
    (.ok r, m)
  | none =>
    let (r, heap) := m.heap.growAndAllocate request
    (r, m.setHeap heap)

/-- Creates an object: within the budget, or after a collection. -/
def allocate (m : Machine) (request : Heap.Request ClassId) : Except Fault Ref × Machine :=
  match m.heap.reserve request.bytes with
  | some (block, heap) =>
    let (r, m) := (m.setHeap heap).place request block
    (.ok r, m)
  | none => m.collect.allocateCollected request

end Machine

/-- A computation of the machine that needs nothing from outside. -/
abbrev Exec := EStateM Abrupt Machine

/-- What computations of the machine rely on. -/
structure Context where
  env : Environment
  call : Method → List Value → Exec (Option Value)
  run : Nat → Exec (Option Value)

/-- A computation of the machine. -/
abbrev VM := ReaderT Context Exec

namespace VM

/-- The result of a step that does not change the machine. -/
def ofExcept {α : Type} : Except Fault α → VM α
  | .ok a => pure a
  | .error e => throw (.fault e)

/-- Fails with a fault. -/
def fail {α : Type} (e : Fault) : VM α := throw (.fault e)

/-- Runs a computation on the registry. -/
def link {α : Type} (x : ClassPaths → Linker α) : VM α := fun c m =>
  match x c.env.paths m.registry with
  | .ok a registry => .ok a { m with registry }
  | .error e registry => .error (.fault e) { m with registry }

instance : MonadStateOf Registry VM where
  get := do return (← getThe Machine).registry
  set registry := modifyThe Machine fun m => { m with registry }
  modifyGet f := modifyGetThe Machine fun m =>
    let (a, registry) := f m.registry
    (a, { m with registry })

/-- The class table. -/
def table : VM ClassTable := do return (← getThe Registry).table

/-- The outcome of a computation. A thread that waits for ever has none. -/
def attempt {α : Type} (x : VM α) : VM (Except Abrupt α) := fun c m =>
  match x c m with
  | .ok a m => .ok (.ok a) m
  | .error .stuck m => .error .stuck m
  | .error e m => .ok (.error e) m

/-- Holds on to some objects while a computation runs. A thread that stands still holds on to them. -/
def pinning {α : Type} (refs : List Ref) (x : VM α) : VM α := fun c m =>
  let saved := m.pinned
  match x c { m with pinned := refs ++ saved } with
  | .ok a m => .ok a { m with pinned := saved }
  | .error .stuck m => .error .stuck m
  | .error e m => .error e { m with pinned := saved }

/-- Holds on to an object until the computation around it lets go. -/
def pin (r : Ref) : VM Unit := modifyThe Machine fun m => { m with pinned := r :: m.pinned }

/-- Takes a step. A thread that may take no more stands still. -/
def tick : VM Unit := fun _ m =>
  if m.steps = 0 then .error .stuck m else .ok () { m with steps := m.steps - 1 }

/-- Notes something. -/
def note (n : Note) : VM Unit := modifyThe Machine fun m => { m with notes := n :: m.notes }

/-- Notes something if a computation fails. -/
def notingFailure {α : Type} (n : Note) (x : VM α) : VM α := fun c m =>
  match x c m with
  | .ok a m => .ok a m
  | .error e m => .error e { m with notes := n :: m.notes }

/-- The objects among some values. -/
def objectsIn (vs : List Value) : List Ref := vs.filterMap Value.object?

/-! ## Classes -/

/-- The class of a number. -/
def getClass (id : ClassId) : VM LinkedClass := link fun _ => Linker.getClass id

/-- The name of a class with dots. -/
def dottedName (id : ClassId) : VM String := do return dotted ((← table).nameOf id)

/-- Loads a core class. -/
def coreClass (name : String) : VM ClassId := link (loadClass · .boot name)

/-- The place of a field of a core class. -/
def coreField (className name descriptor : String) : VM Nat := do
  let id ← coreClass className
  match (← table).field? id name descriptor with
  | some f => return f.slot
  | none =>
    fail (.noSuchField ((← table).nameOf id ++ "." ++ name ++ ":" ++ descriptor))

/-! ## Objects -/

/-- Reads the heap. -/
def readHeap {α : Type} (f : Heap ClassId → Except Fault α) : VM α := do
  ofExcept (f (← getThe Machine).heap)

/-- Follows a reference. One that names no object is noted. -/
def readObject {α : Type} (f : Heap ClassId → Ref → Except Fault α) (r : Ref) : VM α := do
  match f (← getThe Machine).heap r with
  | .ok a => return a
  | .error e =>
    if ((← getThe Machine).heap.object? r).isNone then note (.missing r)
    fail e

/-- Changes the heap. -/
def modifyHeap (f : Heap ClassId → Heap ClassId) : VM Unit := modifyThe Machine (·.modifyHeap f)

/-- The class of an object. -/
def classOf (r : Ref) : VM ClassId := readObject Heap.classOf r

/-- A field of an object. -/
def getField (r : Ref) (slot : Nat) : VM Value := readObject (·.getField · slot) r

/-- Assigns to a field of an object. -/
def setField (r : Ref) (slot : Nat) (v : Value) : VM Unit := do
  let _ ← getField r slot
  modifyHeap (·.putField r slot v)

/-- The elements of an array. -/
def elements (r : Ref) : VM Elements := readObject Heap.elements r

/-- Stores an element, if the array takes it; says whether it did. -/
def storeElement (r : Ref) (i : Nat) (v : Value) : VM Bool := do
  match (← elements r).kept? i v with
  | some kept =>
    modifyHeap (·.putElement r i kept)
    return true
  | none => return false

/-- Creates an object without a step of its own. -/
def create (request : Heap.Request ClassId) : VM Ref := fun _ m =>
  match m.allocate request with
  | (.ok r, m) => .ok r m
  | (.error e, m) => .error (.fault e) m

/-- Creates an object. -/
def allocate (request : Heap.Request ClassId) : VM Ref := do
  tick
  create request

/-- Creates an instance of a class. -/
def newInstance (id : ClassId) : VM Ref := do
  allocate (.object id (.fields (← getClass id).template))

/-- Runs a collection. -/
def collect : VM Unit := do
  tick
  modifyThe Machine Machine.collect

/-! ## Frames -/

/-- Fails for want of a frame. -/
def noFrame {α : Type} : VM α := fail (.internal "no current frame")

/-- The current frame. -/
def currentFrame : VM Frame := do
  match (← getThe Machine).frames.top? with
  | some f => return f
  | none => noFrame

/-- The class of the current frame. -/
def currentClass : VM ClassId := do return (← currentFrame).cls

/-- The number of frames. -/
def depth : VM Nat := do return (← getThe Machine).frames.size

/-- Runs a computation on the current frame. -/
def onFrame {α : Type} (x : OnFrame α) : VM α := fun c m =>
  match m.frames.top? with
  | some f =>
    match x f with
    | .ok a f => .ok a { m with frames := m.frames.setTop f }
    | .error e f => .error e { m with frames := m.frames.setTop f }
  | none => noFrame c m

/-- Pushes a value onto the operand stack of the current frame. -/
def push (v : Value) : VM Unit := onFrame (Frame.push v)

/-- Fails with a fault of the current method. -/
def refuse {α : Type} (what : String) : VM α := onFrame (Frame.refuse what)

/-! ## Monitors -/

/-- The monitor of an object. -/
def monitorOf (r : Ref) : VM Monitor := readObject Heap.monitor r

/-- Enters the monitor of an object. -/
def enterMonitor (r : Ref) : VM Unit := do
  let thread := (← getThe Machine).thread
  match (← monitorOf r).enter? thread with
  | some monitor => modifyHeap (·.setMonitor r monitor)
  | none => throw .stuck

/-- Leaves the monitor of an object. -/
def exitMonitor (r : Ref) : VM Unit := do
  let thread := (← getThe Machine).thread
  match (← monitorOf r).exit? thread with
  | some monitor => modifyHeap (·.setMonitor r monitor)
  | none =>
    throw (.raise .illegalMonitorState ("current thread is not owner of " ++ r.text))

/-- Leaves the monitor that a call holds. -/
def leaveCallMonitor (object : Ref) : VM Unit := do
  note (.left object)
  exitMonitor object

end VM

end Jvm.Execution
