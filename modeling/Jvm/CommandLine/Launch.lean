import Jvm.CommandLine.Options
import Jvm.Execution.Threads
import Jvm.Linking.Files

/-! # Launching

What the options say about the machine, and the run of a program on it. -/

namespace Jvm.CommandLine

open Execution Linking

/-- Why a launch fails. -/
inductive LaunchFault where
  | machine (e : Fault)
  | invalidOption (detail : String)
deriving DecidableEq, Inhabited, Repr

namespace LaunchFault

/-- The text of a failed launch. -/
def message : LaunchFault → String
  | machine e => e.message
  | invalidOption detail => "invalid option: " ++ detail

/-- The name of the kind of a failed launch. -/
def kind : LaunchFault → String
  | machine e => e.kind
  | invalidOption _ => "InvalidOption"

/-- Whether the program itself has reported the failure. -/
def isReported : LaunchFault → Bool
  | machine (.uncaught _ _ _ _) => true
  | _ => false

end LaunchFault

/-- What a machine is launched with. -/
structure Settings where
  heap : Heap.Config
  maxFrames : Nat
deriving DecidableEq, Inhabited, Repr

namespace Settings

/-- The sizes of the heap that options ask for. Without a budget of its own the heap starts with no more
than the greatest one. -/
def heapConfig (o : Options) : Heap.Config :=
  let standard := Heap.Config.standard
  let c := o.blockSize.elim standard standard.withBlock
  let c := o.maxHeap.elim c fun max => { c with max, initial := min c.initial max }
  o.initialHeap.elim c fun initial => { c with initial }

/-- What the options ask for. -/
def ofOptions (o : Options) : Except LaunchFault Settings := do
  let heap := heapConfig o
  if heap.max < heap.initial then
    throw (.invalidOption ("initial heap " ++ toString heap.initial ++ " exceeds maximum heap "
      ++ toString heap.max))
  if o.maxFrames = some 0 then throw (.invalidOption "max frames must be positive")
  return ⟨heap, o.maxFrames.getD standardMaxFrames⟩

/-- Runs a program on a new machine. -/
def run (s : Settings) (paths : ClassPaths) (clock : Clock) (o : Options) :
    Except Fault Unit × Machine :=
  let env : Environment :=
    { paths, natives := .core, maxFrames := s.maxFrames, clock, steps := standardSteps }
  (Machine.start s.heap).runMain env o.className o.args

end Settings

/-- The exit status of a launch. -/
def exitCode : Except LaunchFault Unit → Nat
  | .ok () => 0
  | .error (.machine e) => exitStatus (.error e)
  | .error (.invalidOption _) => 2

/-- How a launch came out. -/
structure Outcome where
  result : Except LaunchFault Unit
  out : String
  err : String

/-- The classes in the directories that options name, among some files. -/
def Options.classes (o : Options) (files : Files) : ClassPath :=
  .join (o.directories.map files.classPath)

/-- Launches the program that options name, with the classes of `app`. -/
def launch (app : ClassPath) (clock : Clock) (o : Options) : Outcome :=
  match Settings.ofOptions o, CoreClasses.files with
  | .error e, _ => ⟨.error e, "", ""⟩
  | _, .error e => ⟨.error (.machine e), "", ""⟩
  | .ok settings, .ok core =>
    let (result, m) := settings.run ⟨.ofFiles core, app⟩ clock o
    ⟨result.mapError .machine, m.out, m.err⟩

end Jvm.CommandLine
