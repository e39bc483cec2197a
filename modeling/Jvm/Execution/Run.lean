import Jvm.Execution.Instructions

/-! # Running

The loop that runs instructions until a frame is left, and the calls that methods of the machine make from
within it. Every instruction and every call uses up one step of a budget, so running ends. -/

namespace Jvm.Execution

open Linking

/-- What can be run. -/
inductive Task where
  | call (m : Method) (args : List Value)
  | frames (base : Nat)
deriving Inhabited

/-- What computations of a machine rely on, with what runs their tasks. -/
def Context.ofTasks (env : Environment) (perform : Task → Exec (Option Value)) : Context where
  env := env
  call m args := perform (.call m args)
  run base := perform (.frames base)

/-- Runs a task within a budget of steps. -/
def perform (env : Environment) : Nat → Task → Exec (Option Value)
  | 0, _ => throw .stuck
  | budget + 1, .call m args => fun s =>
    let context := Context.ofTasks env (perform env budget)
    if m.isNative then VM.callNative m args context s
    else
      let base := s.frames.size
      match VM.pushFrame m args context s with
      | .ok () s => perform env budget (.frames base) s
      | .error e s => .error e s
  | budget + 1, .frames base => fun s =>
    let context := Context.ofTasks env (perform env budget)
    match VM.step base context s with
    | .ok (some result) s => .ok result s
    | .ok none s => perform env budget (.frames base) s
    | .error .stuck s => .error .stuck s
    | .error e s =>
      match VM.handle e base context s with
      | .ok () s => perform env budget (.frames base) s
      | .error e s => .error e s

/-- What computations of a machine rely on: tasks have all steps for themselves. -/
def Environment.context (env : Environment) : Context := .ofTasks env (perform env env.steps)

end Jvm.Execution
