import Mathlib
import Jvm.Proofs.Execution.Reached
import Jvm.Proofs.Execution.Stepping

/-! # The frames of all threads

Tasks keep frames in bounds, by induction on the budget (`Context.bounds_ofTasks`), and so does what a host
asks for. A host may bring along native methods and arguments of any kind, forget classes, and let threads
take turns: `Machine.Attained` says which machines there are then, and `frames_bounded` what their frames are
like. -/

namespace Jvm.Execution

open Linking

namespace VM

variable {c : Context} {env : Environment}

/-! ### Tasks -/

/-- A run after a computation that has no result of its own. -/
theorem Takes.thenRun {d : Regime} {P M : Stack Frame → Prop} {T : Except Abrupt (Option Value) → Stack Frame → Prop}
    {x : VM Unit} {base : Nat} (hx : Takes P x (d.leads M) c) (hrun : Takes M (fun c m => c.run base m) T c)
    (herror : ∀ e s, d.ended e s → T (.error e) s) :
    Takes P (fun c s => match x c s with
      | .ok () s => c.run base s
      | .error e s => .error e s) T c := by
  intro m hm
  rcases h : x c m with ⟨_, m'⟩ | ⟨e, m'⟩
  · simp only [h]
    exact hrun m' (hx.of_eq_ok hm h)
  · simp only [h]
    exact (hx.of_eq_error hm h).mono (herror e)

theorem Keeps.thenRun {x : VM Unit} (hc : c.Bounds) (hx : Bounds x c) (base : Nat) :
    Bounds (fun c s => match x c s with
      | .ok () s => c.run base s
      | .error e s => .error e s) c :=
  Takes.keeps (Takes.thenRun (d := .steady _) (hx.takes (fun _ _ hs _ => hs) fun _ _ => id)
    (hc.run base).takes_after fun _ _ => id)
    (fun _ _ => id) fun _ _ => id

section

variable {budget : Nat} (hc : (Context.ofTasks env (perform env budget)).Bounds)

include hc

theorem bounds_performCall (method : Method) (args : List Value) :
    Bounds (call method args) (.ofTasks env (perform env (budget + 1))) := by
  intro m hm
  -- the outer context first, since the one inside stays as it is
  simp only [call, Context.ofTasks]
  simp only [perform]
  split_ifs
  · exact (keeps_callNative hc.call method args).stays m hm
  · exact Keeps.thenRun hc (bounds_pushFrame method args) m.frames.size m hm

theorem bounds_performFrames (base : Nat) :
    Bounds (fun c s => c.run base s) (.ofTasks env (perform env (budget + 1))) := by
  intro m hm
  simp only [Context.ofTasks]
  simp only [perform]
  rcases h : step base (.ofTasks env (perform env budget)) m with ⟨_ | result, m'⟩ | ⟨e, m'⟩
  · exact hc.run base m' ((bounds_step hc base).of_eq_ok hm h).1
  · exact ⟨((bounds_step hc base).of_eq_ok hm h).1, trivial⟩
  · have hm' := (bounds_step hc base).of_eq_error hm h
    cases e with
    | stuck => exact hm'
    | thrown | raised | fault => exact Keeps.thenRun hc (bounds_handle hc _ base) base m' hm'

end

end VM

/-- **Tasks keep frames in bounds.** The induction is on the budget. -/
theorem Context.bounds_ofTasks (env : Environment) (budget : Nat) :
    (Context.ofTasks env (perform env budget)).Bounds := by
  induction budget with
  | zero =>
    have hstuck : VM.Bounds (throw .stuck : VM (Option Value)) (.ofTasks env (perform env 0)) := VM.keeps_throw _
    exact ⟨fun _ _ => hstuck, fun _ => hstuck⟩
  | succ budget ih => exact ⟨VM.bounds_performCall ih, VM.bounds_performFrames ih⟩

/-- The regime of a host, which looks at frames no more once something has failed. -/
def Regime.loose (d : Regime) : Regime := ⟨d.runs, d.stuck, d.stuck, fun s h => d.stalls s (d.fails s h), fun _ => id⟩

namespace Regime

variable {d : Regime} {e : Abrupt} {s : Stack Frame}

theorem stuck_of_ended (h : d.ended e s) : d.stuck s := by
  cases e with
  | stuck => exact h
  | thrown | raised | fault => exact d.stalls s h

theorem ended_loose : d.loose.ended e = d.stuck := by cases e <;> rfl

end Regime

/-- What a thread relies on that a host has begun: calls, also once something has failed. -/
structure Context.Hosts (c : Context) (d : Regime) : Prop where
  serves : c.Serves d
  escapes : c.Serves (.steady d.stuck)
  first : ∀ held method args, VM.Stays d (VM.callFirst held method args) c

namespace VM

variable {α : Type} {d : Regime} {x : VM α} {Q : α → Prop} {c : Context}

/-! ### What a host asks for -/

theorem Keeps.loose (hx : Keeps d x Q c) : Keeps d.loose x Q c := by
  intro m hm
  rcases h : x c m with ⟨a, m'⟩ | ⟨e, m'⟩
  · exact hx.of_eq_ok hm h
  · refine (hx.of_eq_error hm h).mono fun s hs => ?_
    rw [Regime.ended_loose]
    exact Regime.stuck_of_ended hs

theorem keeps_escape {P : Stack Frame → Prop} (hc : c.Serves (.steady P)) (e : Abrupt) :
    Stays (.steady P) (escape e) c := by
  unfold escape
  split
  · exact keeps_uncaught _
  · exact keeps_get.bind fun _ _ => keeps_pure trivial
  · refine keeps_ite (fun _ => keeps_pure trivial) fun _ => ?_
    refine Keeps.bind (Keeps.attempt (d := .steady P) (keeps_materialize hc _)) fun o _ => ?_
    split
    · exact keeps_uncaught _
    · exact keeps_pure trivial
  · exact keeps_pure trivial

theorem Keeps.forHost (hc : c.Hosts d) (hx : Stays d x c) : Stays d.loose (VM.forHost x) c :=
  hx.loose.attempt_failing (fun _ _ => keeps_pure trivial) fun e =>
    (keeps_escape hc.escapes e).bind fun _ _ => keeps_fail _

theorem keeps_mainMethod (id : ClassId) : Stays d (mainMethod id) c := by
  refine keeps_table.bind fun t _ => ?_
  split
  · exact keeps_pure trivial
  · exact keeps_fail _

theorem keeps_staticMethod (className name descriptor : String) :
    Stays d (staticMethod className name descriptor) c := by
  refine (keeps_loadClass .app className).bind fun id _ => keeps_table.bind fun t _ => ?_
  split
  · exact keeps_pure trivial
  · exact keeps_fail _

theorem keeps_runMain (hc : c.Hosts d) (className : String) (texts : List String) :
    Stays d.loose (runMain className texts) c := by
  refine (keeps_loadClass .app className).bind fun id _ => (keeps_mainMethod id).bind fun main _ => ?_
  refine (keeps_ensureInitialized hc.serves id).loose.bind fun _ _ => (keeps_newStringArray texts).bind fun argv _ => ?_
  refine keeps_get.bind fun m _ => ?_
  exact (((hc.first m.pinned main _).pinning [argv]).forHost hc).bind fun _ _ => keeps_pure trivial

theorem keeps_invokeStaticMethod (hc : c.Hosts d) (className name descriptor : String) (args : List Value) :
    Stays d.loose (invokeStaticMethod className name descriptor args) c := by
  refine (keeps_staticMethod className name descriptor).bind fun method _ => keeps_get.bind fun m _ => ?_
  refine Keeps.pinning _ ((keeps_ensureInitialized hc.serves _).loose.bind fun _ _ => ?_)
  exact Keeps.forHost hc (hc.first m.pinned method args)

theorem Keeps.reporting (hx : Stays d x c) : Stays d (VM.reporting x) c := by
  refine hx.attempt_failing (fun _ _ => keeps_pure trivial) fun e => ?_
  cases e with
  | fault e => exact (keeps_write _ _).bind fun _ _ => keeps_fail _
  | thrown | raised | stuck => exact keeps_throw _

theorem bounds_callFirst (hc : c.Bounds) (held : List Ref) (method : Method) (args : List Value) :
    Bounds (callFirst held method args) c := by
  refine keeps_ite (fun _ => (keeps_callNative hc.call method args).stays) fun _ => ?_
  refine keeps_depth.bind fun base _ => (bounds_pushFrame method args).bind fun _ _ => ?_
  exact Keeps.bind (keeps_modify fun _ hm => hm.hold held) fun _ _ => hc.run base

end VM

theorem Context.Bounds.hosts {c : Context} (hc : c.Bounds) : c.Hosts (.steady (Bounded c.env.maxFrames)) :=
  ⟨hc.call, hc.call, VM.bounds_callFirst hc⟩

namespace Machine

variable {α : Type} {m m' : Machine} {n k : Nat}

/-- The machine that a thread ends with, or stands still with, whose frames above the lowest ones, as many as
given, run on, with the classes and objects of another machine. -/
def resume (m others : Machine) (env : Environment) (budget steps base : Nat) : Machine :=
  match perform env budget (.frames base) { m with registry := others.registry, heap := others.heap, steps } with
  | .ok _ m' => m'
  | .error _ m' => m'

/-- The machines that a host comes to, with a thread that may have `n` frames. The host asks for what a machine
has to offer, with classes, native methods and arguments of any kind, and threads take turns. -/
inductive Attained : Nat → Machine → Prop where
  | start (n : Nat) (config : Heap.Config) : Attained n (.start config)
  | loaded {n : Nat} {m : Machine} (env : Environment) (className : String) (hm : m.Attained n) :
      Attained n (m.loadClass env className).2
  | running {n : Nat} {m : Machine} (env : Environment) (budget steps : Nat) (className : String)
      (args : List String) (hm : m.Attained n) : Attained env.maxFrames
        (m.during env budget steps mainThreadName (VM.reporting (VM.runMain className args)))
  | calling {n : Nat} {m : Machine} (env : Environment) (budget steps : Nat)
      (className name descriptor : String) (args : List Value) (hm : m.Attained n) : Attained env.maxFrames
        (m.during env budget steps mainThreadName (VM.invokeStaticMethod className name descriptor args))
  | started {n : Nat} {m : Machine} (env : Environment) (budget steps : Nat)
      (className name descriptor : String) (args : List Value) (hm : m.Attained n) : Attained env.maxFrames
        (m.during env budget steps startedThreadName
          (VM.reporting (VM.invokeStaticMethod className name descriptor args)))
  | resumed {k : Nat} {m others : Machine} (env : Environment) (budget steps base : Nat)
      (hm : m.Attained env.maxFrames) (hothers : others.Attained k) :
      Attained env.maxFrames (m.resume others env budget steps base)
  | detached {n : Nat} {m : Machine} (hm : m.Attained n) : Attained n m.detach
  | collected {n : Nat} {m : Machine} (hm : m.Attained n) : Attained n m.gc
  | emptied {n : Nat} {m : Machine} (hm : m.Attained n) : Attained n m.shutdown

theorem Proper.attach {P Q : Stack Frame → Prop} (hm : m.Proper P) (hempty : Q .empty) (name : Nat → String)
    (steps : Nat) : Machine.Proper Q { m.attach name with steps } :=
  ⟨hempty, hm.heap, hm.registry⟩

/-- A new thread on which a computation runs that keeps to a regime. -/
theorem Proper.during {P : Stack Frame → Prop} (hm : m.Proper P) {d : Regime} (hempty : d.runs .empty)
    {env : Environment} {budget : Nat} {x : VM α} (hx : VM.Stays d x (.ofTasks env (perform env budget)))
    (steps : Nat) (name : Nat → String) : (m.during env budget steps name x).Proper d.stuck := by
  have hattached : Machine.Proper d.runs { m.attach name with steps } := hm.attach hempty name steps
  unfold Machine.during
  split
  · next h => exact (hx.of_eq_ok hattached h).1.mono fun s hs => d.stalls s (d.fails s hs)
  · next h => exact (hx.of_eq_error hattached h).mono fun _ => Regime.stuck_of_ended

theorem Proper.resume {env : Environment} (hm : m.Proper (Bounded env.maxFrames)) {P : Stack Frame → Prop}
    {others : Machine} (hothers : others.Proper P) (budget steps base : Nat) :
    (m.resume others env budget steps base).Proper (Bounded env.maxFrames) := by
  have hrun := (Context.bounds_ofTasks env budget).run base
  have hbegin : Machine.Proper (Bounded env.maxFrames)
      { m with registry := others.registry, heap := others.heap, steps } :=
    ⟨hm.frames, hothers.heap, hothers.registry⟩
  unfold Machine.resume
  split
  · next h => exact (hrun.of_eq_ok hbegin h).1
  · next h => exact (hrun.of_eq_error hbegin h).mono fun _ => Regime.stuck_of_ended

theorem Proper.loadClass {P : Stack Frame → Prop} (hm : m.Proper P) (env : Environment) (className : String) :
    (m.loadClass env className).2.Proper P := by
  have hload := (admits_keepsProper env.paths).load .app className m.registry
  unfold Machine.loadClass
  rcases h : Linking.loadClass env.paths .app className m.registry with ⟨id, r⟩ | ⟨e, r⟩
  · exact ⟨hm.frames, hm.heap, (hload.of_eq_ok h).1 hm.registry⟩
  · exact ⟨hm.frames, hm.heap, hload.of_eq_error h hm.registry⟩

/-- **Frames are in bounds, whatever a host asks for.** The induction is on what it has asked for. -/
theorem Attained.proper (hm : m.Attained n) : m.Proper (Bounded n) := by
  induction hm with
  | start n config => exact ⟨bounded_empty n, Heap.holds_empty config, Registry.proper_empty⟩
  | loaded env className _ ih => exact ih.loadClass env className
  | running env budget steps className args _ ih =>
    have hhosts := (Context.bounds_ofTasks env budget).hosts
    exact ih.during (bounded_empty _) (VM.keeps_runMain hhosts className args).reporting _ _
  | calling env budget steps className name descriptor args _ ih =>
    have hhosts := (Context.bounds_ofTasks env budget).hosts
    exact ih.during (bounded_empty _) (VM.keeps_invokeStaticMethod hhosts _ _ _ _) _ _
  | started env budget steps className name descriptor args _ ih =>
    have hhosts := (Context.bounds_ofTasks env budget).hosts
    exact ih.during (bounded_empty _) (VM.keeps_invokeStaticMethod hhosts _ _ _ _).reporting _ _
  | resumed env budget steps base _ _ ih ihothers => exact ih.resume ihothers budget steps base
  | detached _ ih => exact ⟨bounded_empty _, ih.heap, ih.registry⟩
  | collected _ ih => exact ⟨bounded_empty _, (ih.attach (bounded_empty 0) mainThreadName 0).collect.heap, ih.registry⟩
  | emptied _ ih => exact ⟨ih.frames, ih.heap, ih.registry.teardown _⟩

/-- Whether there are at most `n` frames and each keeps to the room that its code asks for, with all wide values
among its locals in one piece. -/
structure FramesBounded (n : Nat) (m : Machine) : Prop where
  depth : m.frames.list.length ≤ n
  stack : ∀ f ∈ m.frames.list, f.stack.list.length ≤ f.code.maxStack
  proper : ∀ f ∈ m.frames.list, Value.top ∉ f.stack.list
  locals : ∀ f ∈ m.frames.list, f.code.maxLocals ≤ f.locals.size
  halves : ∀ f ∈ m.frames.list, ∀ (i : Nat) (v : Value), f.locals[i]? = some v → v.isWide = true →
    f.locals[i + 1]? = some .top
  loads : ∀ f ∈ m.frames.list, ∀ kind index f', Calculation.loadLocal kind index f = .ok () f' →
    ∃ v, f.locals[index.toNat]? = some v ∧ f' = { f with stack := f.stack.push v } ∧
      (v.isWide = true → f.locals[index.toNat + 1]? = some .top)

theorem Proper.framesBounded (hm : m.Proper (Bounded n)) : m.FramesBounded n where
  depth := m.frames.size_eq ▸ hm.frames.depth
  stack f hf := (hm.frames.fits f hf).stack
  proper f hf htop := (hm.frames.fits f hf).proper .top htop rfl
  locals f hf := (hm.frames.fits f hf).locals
  halves f hf := (hm.frames.fits f hf).halves
  loads f hf kind index f' h := by
    obtain ⟨v, hv, rfl⟩ := Calculation.of_loadLocal h
    exact ⟨v, hv, rfl, (hm.frames.fits f hf).halves _ v hv⟩

end Machine

/-- **The frames of every thread are in bounds**: there are no more than a thread may have, no operand stack is
higher than its code asks for or holds the half of a wide value, there are enough locals, and a wide local is
loaded only while both halves are in place. -/
theorem frames_bounded {n : Nat} {m : Machine} (hm : m.Attained n) : m.FramesBounded n :=
  hm.proper.framesBounded

/-- Two frames have a long among their locals, and the one above has lengths on its operand stack. -/
theorem frames_bounded_arranging : (arranging 143).FramesBounded standardMaxFrames :=
  frames_bounded (.calling Shelf.environment 1000 143 "Shelf" "open" "(JI)I" [.long 7, .int 2] (.start 0 .standard))

end Jvm.Execution
