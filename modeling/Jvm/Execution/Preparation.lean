import Jvm.Execution.Throwables
import Jvm.Linking.Initialization

/-! # Preparing classes

Initialization with its two steps filled in: string constants become string objects, and the initializer of
a class is called like any other method. What ends an initializer becomes the fault of the class. -/

namespace Jvm.Execution

open Linking ClassFile

namespace VM

/-- Whether a class has a string constant at a pool index. -/
def isStringConstant (c : LinkedClass) (index : UInt16) : Bool :=
  match c.pool.get? index with
  | some (.string _) => true
  | _ => false

/-- Puts the string constants of a class into its static fields. -/
def installConstants (id : ClassId) : VM Unit := do
  let c ← getClass id
  for f in c.fields do
    if f.isStatic then
      if let some index := f.constant then
        if isStringConstant c index then
          let string ← stringConstant id index
          modifyThe Registry fun r => (r.setStatic? id f.slot (.ref string)).getD r

/-- The outcome of a computation as a step of initialization. -/
def outcome (className : String) (x : VM Unit) : VM (Except Fault Unit) := do
  match ← attempt x with
  | .ok () => return .ok ()
  | .error (.fault e) => return .error e
  | .error (.thrown exception) =>
    return .error (.initialization className (← describe exception))
  | .error (.raised check message) =>
    return .error (.initialization className
      (Fault.withMessage (dotted check.className) message))
  | .error .stuck => throw .stuck

/-- Calls a method from within another computation. -/
def call (m : Method) (args : List Value) : VM (Option Value) := fun c s => c.call m args s

/-- The steps of initialization. -/
def initializer : Initializer VM where
  constants id := do outcome ((← table).nameOf id) (installConstants id)
  run id clinit := do
    outcome ((← table).nameOf id) do
      let _ ← call clinit []

/-- Initializes a class, unless it is initialized. -/
def ensureInitialized (id : ClassId) : VM Unit := do
  ofExcept (← initializeClass initializer id)

end VM

end Jvm.Execution
