import Mathlib
import Jvm.Proofs.Execution.Placement

/-! # Threads in verified code

Tasks take frames that can go on to such frames, by induction on the budget (`Context.places_ofTasks`). So
wherever a thread stands still that a host has begun (`Machine.Underway`), all its frames stand at instructions,
unless their code has a `ret`: with what every frame has room for, this is what verification is for
(`safe_of_verifyMethod`). -/

namespace Jvm.Execution

open Linking ClassFile Bytecode

namespace VM

variable {c : Context} {env : Environment}

section

variable {budget : Nat} (hc : (Context.ofTasks env (perform env budget)).Places)

include hc

theorem stays_performCall (below : List Frame) (method : Method) (args : List Value) :
    Stays (.level below) (call method args) (.ofTasks env (perform env (budget + 1))) := by
  intro m hm
  have hsize : m.frames.size = below.length := m.frames.size_eq.trans (congrArg List.length hm.frames)
  -- the outer context first, since the one inside stays as it is
  simp only [call, Context.ofTasks]
  simp only [perform]
  split_ifs
  · exact (keeps_callNative (hc.call below) method args).stays m hm
  · rw [hsize]
    have hpush : Takes (Regime.level below).runs (pushFrame method args) ((Regime.level below).leads (Active below))
        (.ofTasks env (perform env budget)) := takes_pushFrame (Regime.pushes_level _) method args
    exact (hpush.thenRun (hc.run below) fun _ _ => id).keeps (fun _ _ => id) (fun _ _ => id) m hm

theorem takes_performFrames (below : List Frame) : Takes (Active below) (fun c m => c.run below.length m)
    ((Regime.level below).after fun _ => True) (.ofTasks env (perform env (budget + 1))) := by
  intro m hm
  simp only [Context.ofTasks]
  simp only [perform]
  rcases h : step below.length (.ofTasks env (perform env budget)) m with ⟨_ | result, m'⟩ | ⟨e, m'⟩
  · exact hc.run below m' ((takes_step hc.call).of_eq_ok hm h)
  · exact ((takes_step hc.call).of_eq_ok hm h).mono fun s hs => ⟨hs, trivial⟩
  · have hm' := (takes_step hc.call).of_eq_error hm h
    cases e with
    | stuck => exact hm'
    | thrown | raised | fault => exact (takes_handle hc.call _).thenRun (hc.run below) (fun _ _ => id) m' hm'

end

end VM

/-- **Tasks take frames that can go on to such frames.** The induction is on the budget. -/
theorem Context.places_ofTasks (env : Environment) (budget : Nat) :
    (Context.ofTasks env (perform env budget)).Places := by
  induction budget with
  | zero =>
    have hstuck (below : List Frame) : VM.Stays (.level below) (throw .stuck : VM (Option Value))
        (.ofTasks env (perform env 0)) := VM.keeps_throw _
    have hrun (below : List Frame) : VM.Takes (Active below) (throw .stuck : VM (Option Value))
        ((Regime.level below).after fun _ => True) (.ofTasks env (perform env 0)) :=
      VM.takes_throw fun s hs => hs.standing.piled
    exact ⟨fun below _ _ => hstuck below, hrun⟩
  | succ budget ih => exact ⟨VM.stays_performCall ih, VM.takes_performFrames ih⟩

theorem VM.stays_callFirst {c : Context} (hc : c.Places) (held : List Ref) (method : Method) (args : List Value) :
    Stays (.level []) (callFirst held method args) c := by
  refine keeps_ite (fun _ => (keeps_callNative (hc.call []) method args).stays) fun _ => ?_
  have hrun : Takes (Active []) (fun c m => c.run 0 m) ((Regime.level []).after fun _ => True) c := hc.run []
  have hhold : Takes (Active []) (modifyThe Machine fun m => { m with pinned := held }) (fun _ => Active []) c :=
    fun m hm => hm.hold held
  refine Takes.keeps (T := (Regime.level []).after fun _ => True) ?_ (fun _ _ => id) fun _ _ => id
  refine takes_depth_bind 0 (fun s hs => congrArg List.length hs) ?_
  exact (takes_pushFrame (Regime.pushes_level _) method args).bind
    (fun _ => hhold.bind (fun _ => hrun) fun e s hs => Regime.ended_of_failed hs.standing) fun _ _ => id

theorem Context.Places.hosts {c : Context} (hc : c.Places) : c.Hosts (.level []) :=
  ⟨hc.call [], VM.serves_piled hc.call, VM.stays_callFirst hc⟩

namespace Machine

variable {m : Machine} {n : Nat}

/-- Whether a thread stands at an instruction of its own: each frame below the topmost waits for a call. -/
def Poised (m : Machine) : Prop :=
  m.frames.list ≠ [] ∧ ∀ f ∈ m.frames.list.tail, ∃ op, f.operation? = some op ∧ op.endsBlock = false

/-- The machines on which a thread stands still, with `n` frames at most, that a host has begun, or lets take its
turn. -/
inductive Underway : Nat → Machine → Prop where
  | running {n : Nat} {m : Machine} (env : Environment) (budget steps : Nat) (className : String)
      (args : List String) (hm : m.Attained n) : Underway env.maxFrames
        (m.during env budget steps mainThreadName (VM.reporting (VM.runMain className args)))
  | calling {n : Nat} {m : Machine} (env : Environment) (budget steps : Nat)
      (className name descriptor : String) (args : List Value) (hm : m.Attained n) : Underway env.maxFrames
        (m.during env budget steps mainThreadName (VM.invokeStaticMethod className name descriptor args))
  | started {n : Nat} {m : Machine} (env : Environment) (budget steps : Nat)
      (className name descriptor : String) (args : List Value) (hm : m.Attained n) : Underway env.maxFrames
        (m.during env budget steps startedThreadName
          (VM.reporting (VM.invokeStaticMethod className name descriptor args)))
  | resumed {k : Nat} {m others : Machine} (env : Environment) (budget steps : Nat)
      (hm : m.Underway env.maxFrames) (hpoised : m.Poised) (hothers : others.Attained k) :
      Underway env.maxFrames (m.resume others env budget steps 0)

/-- A thread that stands at an instruction of its own goes on there. -/
theorem Proper.resume_piled (hm : m.Proper (Piled [])) (hpoised : m.Poised) {P : Stack Frame → Prop}
    {others : Machine} (hothers : others.Proper P) (env : Environment) (budget steps : Nat) :
    (m.resume others env budget steps 0).Proper (Piled []) := by
  have hactive : Active [] m.frames := by
    obtain ⟨above, hlist, hplaced⟩ := hm.frames
    obtain ⟨hne, hcalls⟩ := hpoised
    rw [hlist, List.append_nil] at hne hcalls
    obtain ⟨f, lower, rfl⟩ := List.exists_cons_of_ne_nil hne
    refine ⟨f, lower, hlist, hplaced f List.mem_cons_self, fun g hg => ⟨hplaced g (.tail f hg), ?_⟩⟩
    obtain ⟨op, hop, hgoes⟩ := hcalls g hg
    exact Frame.waits_of_operation? hop hgoes
  have hbegin : Machine.Proper (Active []) { m with registry := others.registry, heap := others.heap, steps } :=
    ⟨hactive, hothers.heap, hothers.registry⟩
  have hrun := (Context.places_ofTasks env budget).run []
  unfold Machine.resume
  split
  · next h => exact (hrun.of_eq_ok hbegin h).mono fun s hs => (standing_self hs.1).piled
  · next h => exact (hrun.of_eq_error hbegin h).mono fun _ => Regime.stuck_of_ended

/-- **Frames stand at instructions, wherever a thread stands still.** -/
theorem Underway.piled (hm : m.Underway n) : m.Proper (Piled []) := by
  have hempty : (Regime.level []).loose.runs .empty := rfl
  induction hm with
  | running env budget steps className args hm =>
    have hhosts := (Context.places_ofTasks env budget).hosts
    exact hm.proper.during hempty (VM.keeps_runMain hhosts className args).reporting _ _
  | calling env budget steps className name descriptor args hm =>
    have hhosts := (Context.places_ofTasks env budget).hosts
    exact hm.proper.during hempty (VM.keeps_invokeStaticMethod hhosts _ _ _ _) _ _
  | started env budget steps className name descriptor args hm =>
    have hhosts := (Context.places_ofTasks env budget).hosts
    exact hm.proper.during hempty (VM.keeps_invokeStaticMethod hhosts _ _ _ _).reporting _ _
  | resumed env budget steps _ hpoised hothers ih => exact ih.resume_piled hpoised hothers.proper env budget steps

end Machine

/-- **The frames of a verified method** pass every check that does not look at values, on every machine that a host
comes to, and without a `ret` they stand at an instruction, wherever a thread stands still. -/
theorem safe_of_verifyMethod {pool : ConstantPool} {className : String} {inInterface : Bool}
    {info : MemberInfo} {v : VerifiedMethod} {c : Code}
    (hverify : verifyMethod pool className inInterface info = .ok v) (hcode : v.code = some c) :
    c.WellFormed pool v.type (if v.access.isStatic then 0 else 1) ∧
      (∀ (n : Nat) (m : Machine), m.Attained n → ∀ f ∈ m.frames.list, f.code = c → f.InBounds) ∧
      (c.body.Straight → ∀ (n : Nat) (m : Machine), m.Underway n → ∀ f ∈ m.frames.list, f.code = c →
        ∃ op, VM.fetch f = .ok op f) := by
  have hc := wellFormed_of_verifyMethod hverify hcode
  refine ⟨hc, ?_, ?_⟩
  · rintro n m hm f hf rfl
    exact Frame.inBounds hc (hm.proper.frames.fits f hf).locals
  · rintro hstraight n m hm f hf rfl
    obtain ⟨above, hlist, hplaced⟩ := hm.piled.frames
    rw [hlist, List.append_nil] at hf
    obtain ⟨op, hop⟩ := Body.exists_operation? ((hplaced f hf).due ⟨⟨_, _, _, hc⟩, hstraight⟩)
    exact ⟨op, fetch_eq_ok hop⟩

/-- The constants of the class of shelves, and its method that arranges one. -/
def Shelf.arrangeIn : Option (ConstantPool × MemberInfo) := do
  let bytes ← shelf.assemble.toOption
  let file ← (parse bytes).toOption
  return (file.pool, ← file.methods[0]?)

/-- The code of this method, if it is verified. -/
def Shelf.arrangeCode : Option Code :=
  arrangeIn.bind fun p => (verifyMethod p.1 "Shelf" false p.2).toOption.bind (·.code)

/-- The method that arranges a shelf, with a handler and a switch at which the topmost frame stands. -/
theorem safe_arranging : ∃ pool info v c, Shelf.arrangeIn = some (pool, info) ∧
    verifyMethod pool "Shelf" false info = .ok v ∧ v.code = some c ∧
    c.WellFormed pool v.type (if v.access.isStatic then 0 else 1) ∧
    (∀ f ∈ (arranging 148).frames.list, f.code = c → f.InBounds) ∧
    ∀ f ∈ (arranging 148).frames.list, f.code = c → ∃ op, VM.fetch f = .ok op f := by
  have harrange : ∃ c, Shelf.arrangeCode = some c ∧ c.body.Straight := by decide +kernel
  obtain ⟨c, hcode, hstraight⟩ := harrange
  unfold Shelf.arrangeCode at hcode
  obtain ⟨⟨pool, info⟩, hin, hverified⟩ := Option.bind_eq_some_iff.1 hcode
  obtain ⟨v, hv, hc⟩ := Option.bind_eq_some_iff.1 hverified
  have hverify : verifyMethod pool "Shelf" false info = .ok v := by
    cases h : verifyMethod pool "Shelf" false info with
    | ok v' => rw [h] at hv; cases hv; rfl
    | error e => rw [h] at hv; cases hv
  obtain ⟨hwellFormed, hbounds, hfetch⟩ := safe_of_verifyMethod hverify hc
  exact ⟨pool, info, v, c, hin, hverify, hc, hwellFormed,
    hbounds _ _ (.calling Shelf.environment 1000 148 "Shelf" "open" "(JI)I" [.long 7, .int 2] (.start 0 .standard)),
    hfetch hstraight _ _
      (.calling Shelf.environment 1000 148 "Shelf" "open" "(JI)I" [.long 7, .int 2] (.start 0 .standard))⟩

end Jvm.Execution
