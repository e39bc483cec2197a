import Mathlib
import Jvm.Execution.Threads
import Jvm.Proofs.Execution.Activations

/-! # Calls are balanced

Whoever calls a method finds the frames as they were when it is over, however it ends: a host that calls a static
method or runs a program, a native method that calls another one, and a class that is initialized. What is held is
the same too, and every monitor that a call has entered has been left (`activations_balanced`). The only exception
is a frame that refuses an exception: it is not left, and neither are those below it. -/

namespace Jvm.Execution

open Linking

namespace Machine

/-- How the run of the frames `above`, on top of `below`, ends that notes `new`. -/
structure Finished (above below : List Frame) (m : Machine) (new : List Note) (m' : Machine) : Prop where
  frames : m'.frames.list = below
  pinned : m'.pinned = m.pinned
  left : ∀ r, new.count (.entered r) + (monitorsOf above).count (some r) = new.count (.left r)
  held : ∀ r, m'.heap.holds m.thread r ≤
    m.heap.holds m.thread r - (monitorsOf above).count (some r) + new.count (.locked r)

/-- Whether the frames `above`, on top of `below`, have been run to their end, unless a frame has refused an
exception. -/
abbrev Finishes (above below : List Frame) (m m' : Machine) : Prop := m.Adds (m.Finished above below · m') m'

/-- Whether a call has come to its end, unless a frame has refused an exception. -/
abbrev Restored (m m' : Machine) : Prop := m.Finishes [] m.frames.list m'

variable {m m' : Machine} {base : Nat}

theorem Turns.finishes (h : m.Turns base True (· ≠ []) (· = []) m') {above below : List Frame}
    (hframes : m.frames.list = above ++ below) (hbase : below.length = base) (habove : above ≠ []) :
    m.Finishes above below m' := by
  refine Adds.mono h fun new h => ?_
  obtain ⟨_, rfl, h⟩ := h above below hframes hbase habove
  exact ⟨h.frames, h.pinned trivial, by simpa using h.accounts.entered, by simpa using h.accounts.held⟩

theorem Settles.restored (h : m.Settles 0 True m') : m.Restored m' :=
  Adds.mono h fun _ h =>
    ⟨h.below, h.pinned trivial, by simpa using h.accounts.entered, by simpa using h.accounts.held⟩

/-- Something else is held. -/
theorem turns_hold {P : List Frame → Prop} (m : Machine) (held : List Ref) :
    m.Turns base False P P { m with pinned := held } := by
  have hsettles : m.Settles 0 False { m with pinned := held } :=
    .of_releases rfl rfl rfl False.elim (.refl _ _)
  exact hsettles.turns

end Machine

namespace VM

variable {α : Type} {k : Prop} {x : VM α} {c : Context}

/-! ### What a host asks for -/

theorem settles_mainMethod (id : ClassId) : Settles 0 k (mainMethod id) c := by
  refine settles_table.bind fun t => ?_
  split
  · exact settles_pure _
  · exact settles_fail _

theorem settles_staticMethod (className name descriptor : String) :
    Settles 0 k (staticMethod className name descriptor) c := by
  refine (settles_link _).bind fun id => settles_table.bind fun t => ?_
  split
  · exact settles_pure _
  · exact settles_fail _

section

variable (hc : c.Leaving)

include hc

theorem settles_escape (e : Abrupt) : Settles 0 k (escape e) c := by
  unfold escape
  split
  · exact settles_uncaught _
  · exact settles_get.bind fun _ => settles_pure _
  · refine settles_ite (settles_pure _) ((settles_materialize hc.settling _).attempt.bind fun o => ?_)
    split
    · exact settles_uncaught _
    · exact settles_pure _
  · exact settles_pure _

theorem Settles.forHost (hx : Settles 0 k x c) : Settles 0 k (VM.forHost x) c := by
  refine hx.attempt.bind fun o => ?_
  split
  · exact settles_pure _
  · exact (settles_escape hc _).bind fun _ => settles_fail _

/-- A call with no other one around it has a frame of its own, and leaves it. -/
theorem settles_callFirst (held : List Ref) (method : Method) (args : List Value) :
    Settles 0 False (callFirst held method args) c := by
  refine settles_ite (settles_callNative hc.settling method args) fun m => ?_
  have hrun : Turns m.frames.size False (· = []) (pushFrame method args >>= fun _ =>
      (modifyThe Machine fun s => { s with pinned := held } : VM Unit) >>= fun _ c s => c.run m.frames.size s)
      (fun _ => (· = [])) c := by
    have hhold : Turns m.frames.size False (· ≠ []) (modifyThe Machine fun s => { s with pinned := held } : VM Unit)
        (succeeding (· ≠ [])) c := fun m₁ => m₁.turns_hold held
    refine (turns_pushFirst method args).bind (fun _ => ?_) fun _ _ => id
    exact hhold.bind (fun _ => hc.run m.frames.size False) fun _ _ => False.elim
  have hdepth : depth c m = .ok m.frames.size m := rfl
  rw [bind_of_ok hdepth]
  exact (hrun m).mono fun _ _ h => Machine.Turns.settles h

theorem settles_runMain (className : String) (texts : List String) : Settles 0 True (runMain className texts) c := by
  refine (settles_link _).bind fun id => (settles_mainMethod id).bind fun main => ?_
  refine (settles_ensureInitialized hc.settling id).bind fun _ => (settles_newStringArray texts).bind fun argv => ?_
  refine settles_get.bind fun m => ?_
  exact (((settles_callFirst hc m.pinned main _).pinning [argv]).forHost hc).bind fun _ => settles_pure _

theorem settles_invokeStaticMethod (className name descriptor : String) (args : List Value) :
    Settles 0 True (invokeStaticMethod className name descriptor args) c := by
  refine (settles_staticMethod className name descriptor).bind fun method => settles_get.bind fun m => ?_
  refine Settles.pinning (j := False) _ ((settles_ensureInitialized hc.settling _).bind fun _ => ?_)
  exact (settles_callFirst hc m.pinned method args).forHost hc

end

end VM

/-- **Calls are balanced.** When a call of a host ends, or one from within, the frames and what is held are as they
were before, and the monitors that calls have entered have been left; and when the frames on top of others have been
run, those others are left. It holds of every end of a call, with a result or without, unless a frame on the way has
refused an exception. -/
theorem activations_balanced (env : Environment) :
    (∀ className name descriptor args m, VM.Ends (fun _ m' => m.Restored m')
      (VM.invokeStaticMethod className name descriptor args env.context m)) ∧
    (∀ className args m, VM.Ends (fun _ m' => m.Restored m') (VM.runMain className args env.context m)) ∧
    (∀ budget method args m, VM.Ends (fun _ m' => m.Restored m') (perform env budget (.call method args) m)) ∧
    ∀ budget above below (m : Machine), m.frames.list = above ++ below → above ≠ [] →
      VM.Ends (fun _ m' => m.Finishes above below m') (perform env budget (.frames below.length) m) := by
  have hcontext := Context.leaving_ofTasks env env.steps
  refine ⟨fun className name descriptor args m => ?_, fun className args m => ?_, fun budget method args m => ?_,
    fun budget above below m hframes habove => ?_⟩
  · exact (VM.settles_invokeStaticMethod hcontext className name descriptor args m).mono fun _ _ => (·.restored)
  · exact (VM.settles_runMain hcontext className args m).mono fun _ _ => (·.restored)
  · exact ((Context.leaving_ofTasks env budget).settling 0 True method args m).mono fun _ _ => (·.restored)
  · exact ((Context.leaving_ofTasks env budget).run below.length True m).mono fun _ _ h => h.finishes hframes rfl habove

end Jvm.Execution
