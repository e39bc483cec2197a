import Mathlib
import Jvm.Proofs.Execution.Frames
import Jvm.Proofs.Heap.Objects
import Jvm.Proofs.Linking.Computations
import Jvm.Proofs.Linking.Hierarchy

/-! # Exception dispatch

`Catches` and `Skips` say what a row of an exception table does about an exception of a class, and how the
registry changes when the class that the row names is resolved. `handle_thrown` says that an exception goes
to the first row, frame by frame from the top, that catches it. -/

namespace Jvm.Execution

open Linking

/-! ## What catches an exception -/

section

variable (paths : ClassPaths) (cls thrown : ClassId) (pc : Nat)

/-- Whether a row covers an instruction and catches exceptions of a class: all exceptions, or those whose
class fits the one that it names. -/
inductive Catches : Handler → Registry → Registry → Prop
  | all {h : Handler} {r : Registry} (hcovers : h.start ≤ pc ∧ pc < h.stop)
    (htype : h.catchType = none) : Catches h r r
  | named {h : Handler} {r r' : Registry} {index : UInt16} {caught : ClassId}
    (hcovers : h.start ≤ pc ∧ pc < h.stop) (htype : h.catchType = some index)
    (hresolve : resolveClass paths cls index r = .ok caught r')
    (hfits : r'.table.isAssignable thrown caught = true) : Catches h r r'

/-- Whether a row lets exceptions of a class pass: it does not cover the instruction, it names a class that
cannot be resolved, or one that the exception's class does not fit. -/
inductive Skips : Handler → Registry → Registry → Prop
  | uncovered {h : Handler} {r : Registry} (hcovers : ¬ (h.start ≤ pc ∧ pc < h.stop)) : Skips h r r
  | unresolved {h : Handler} {r r' : Registry} {index : UInt16} {e : Fault}
    (hcovers : h.start ≤ pc ∧ pc < h.stop) (htype : h.catchType = some index)
    (hresolve : resolveClass paths cls index r = .error e r') : Skips h r r'
  | other {h : Handler} {r r' : Registry} {index : UInt16} {caught : ClassId}
    (hcovers : h.start ≤ pc ∧ pc < h.stop) (htype : h.catchType = some index)
    (hresolve : resolveClass paths cls index r = .ok caught r')
    (hfits : ¬ r'.table.isAssignable thrown caught = true) : Skips h r r'

/-- Where the first of some rows that catches an exception leads, if there is one. -/
inductive Search : List Handler → Registry → Option Nat → Registry → Prop
  | nil {r : Registry} : Search [] r none r
  | caught {h : Handler} {rest : List Handler} {r r' : Registry}
    (hcatches : Catches paths cls thrown pc h r r') : Search (h :: rest) r (some h.handler) r'
  | skipped {h : Handler} {rest : List Handler} {r r₁ r' : Registry} {target : Option Nat}
    (hskips : Skips paths cls thrown pc h r r₁) (hrest : Search rest r₁ target r') :
    Search (h :: rest) r target r'

end

/-- Where a frame catches exceptions of a class. -/
def Frame.Searched (paths : ClassPaths) (thrown : ClassId) (f : Frame) (r : Registry)
    (target : Option Nat) (r' : Registry) : Prop :=
  Search paths f.cls thrown f.pc f.code.handlers r target r'

/-- Whether none of some frames, from the first to the last, catches exceptions of a class. -/
inductive Passed (paths : ClassPaths) (thrown : ClassId) : List Frame → Registry → Registry → Prop
  | nil {r : Registry} : Passed paths thrown [] r r
  | cons {f : Frame} {rest : List Frame} {r r₁ r' : Registry}
    (hf : f.Searched paths thrown r none r₁) (hrest : Passed paths thrown rest r₁ r') :
    Passed paths thrown (f :: rest) r r'

/-! ### There is one way

What a row does, and so where an exception goes, is determined. -/

section

variable {paths : ClassPaths} {cls thrown : ClassId} {pc : Nat} {h : Handler} {r r₁ r₂ : Registry}

theorem Catches.unique (h₁ : Catches paths cls thrown pc h r r₁)
    (h₂ : Catches paths cls thrown pc h r r₂) : r₁ = r₂ := by
  cases h₁ <;> cases h₂ <;> simp_all

theorem Skips.unique (h₁ : Skips paths cls thrown pc h r r₁)
    (h₂ : Skips paths cls thrown pc h r r₂) : r₁ = r₂ := by
  cases h₁ <;> cases h₂ <;> simp_all

theorem Catches.not_skips (h₁ : Catches paths cls thrown pc h r r₁) :
    ¬ Skips paths cls thrown pc h r r₂ := by
  intro h₂
  cases h₁ <;> cases h₂ <;> simp_all

theorem Search.unique {rows : List Handler} {t₁ t₂ : Option Nat}
    (h₁ : Search paths cls thrown pc rows r t₁ r₁) (h₂ : Search paths cls thrown pc rows r t₂ r₂) :
    t₁ = t₂ ∧ r₁ = r₂ := by
  induction h₁ with
  | nil =>
    cases h₂
    exact ⟨rfl, rfl⟩
  | caught hcatches =>
    cases h₂ with
    | caught hcatches' => exact ⟨rfl, hcatches.unique hcatches'⟩
    | skipped hskips _ => exact absurd hskips hcatches.not_skips
  | skipped hskips _ ih =>
    cases h₂ with
    | caught hcatches => exact absurd hskips hcatches.not_skips
    | skipped hskips' hrest =>
      obtain rfl := hskips.unique hskips'
      exact ih hrest

/-- The first of some frames that catches an exception is the only first one, and there is one if not all
of them let it pass. -/
theorem Passed.unique {left₁ left₂ below₁ rest : List Frame} {f : Frame} {target : Nat}
    {r₁' : Registry} (h₁ : Passed paths thrown left₁ r r₁)
    (hsearched : f.Searched paths thrown r₁ (some target) r₁') (h₂ : Passed paths thrown left₂ r r₂)
    (heq : left₁ ++ f :: below₁ = left₂ ++ rest) :
    ∃ more, left₁ = left₂ ++ more ∧ rest = more ++ f :: below₁ ∧ Passed paths thrown more r₂ r₁ := by
  induction h₂ generalizing left₁ with
  | nil => exact ⟨left₁, rfl, heq.symm, h₁⟩
  | @cons g left₂ r r' r₂ hg _ ih =>
    cases h₁ with
    | nil =>
      cases heq
      cases (hsearched.unique hg).1
    | cons hf hrest =>
      obtain ⟨rfl, htail⟩ := List.cons.inj heq
      obtain rfl := (hf.unique hg).2
      obtain ⟨more, rfl, hmore, hpassed⟩ := ih hrest htail
      exact ⟨more, rfl, hmore, hpassed⟩

end

/-! ## What is left of a frame -/

/-- The heap after a thread has left the monitor of an object once, if it holds it. -/
def leaveOnce (thread : Nat) (heap : Heap ClassId) (r : Ref) : Heap ClassId :=
  match (heap.monitor r).toOption.bind (·.exit? thread) with
  | some monitor => heap.setMonitor r monitor
  | none => heap

/-- The heap after a thread has left the monitor of the call of each of some frames. -/
def leaveMonitors (thread : Nat) (frames : List Frame) (heap : Heap ClassId) : Heap ClassId :=
  (frames.filterMap (·.monitor)).foldl (leaveOnce thread) heap

/-- How a machine changes when some frames are left and others remain, while classes are resolved: the
monitors of the calls are left, and nothing else changes but what has been noted. -/
structure Machine.Leaves (m : Machine) (left frames : List Frame) (r : Registry) (m' : Machine) : Prop where
  frames : m'.frames.list = frames
  registry : m'.registry = r
  heap : m'.heap = leaveMonitors m.thread left m.heap
  rest : m' = { m with
    registry := m'.registry, heap := m'.heap, frames := m'.frames, notes := m'.notes }

/-- How the frames of a machine above the lowest ones, as many as given, take an exception of a class. -/
inductive Dispatched (paths : ClassPaths) (thrown : ClassId) (e : Ref) (base : Nat) (m : Machine) :
    EStateM.Result Abrupt Machine Unit → Prop
  -- The frames above one that catches the exception are left. That one goes on in its handler, with the
  -- exception alone on its operand stack, provided that there is room for it.
  | caught {left below : List Frame} {f : Frame} {target : Nat} {r₁ r₂ : Registry}
    {result : EStateM.Result Abrupt Machine Unit}
    (hframes : m.frames.list = left ++ f :: below) (hbase : base ≤ below.length)
    (hpassed : Passed paths thrown left m.registry r₁)
    (hsearched : f.Searched paths thrown r₁ (some target) r₂)
    (hresult : 1 ≤ f.code.maxStack → ∃ m', result = .ok () m' ∧
      m.Leaves left ({ f with stack := Stack.empty.push (.ref e), pc := target } :: below) r₂ m') :
    Dispatched paths thrown e base m result
  | uncaught {left below : List Frame} {r : Registry} {m' : Machine}
    (hframes : m.frames.list = left ++ below) (hbase : below.length = min base m.frames.list.length)
    (hpassed : Passed paths thrown left m.registry r) (hleaves : m.Leaves left below r m') :
    Dispatched paths thrown e base m (.error (.thrown e) m')

theorem classOf_setMonitor (heap : Heap ClassId) (r s : Ref) (monitor : Monitor) :
    (heap.setMonitor r monitor).classOf s = heap.classOf s := by
  rw [Heap.classOf, Heap.object, Heap.setMonitor, Heap.object?_modifyObject, Heap.classOf, Heap.object]
  split_ifs
  · cases heap.object? s <;> rfl
  · rfl

theorem classOf_leaveOnce (thread : Nat) (heap : Heap ClassId) (r s : Ref) :
    (leaveOnce thread heap r).classOf s = heap.classOf s := by
  unfold leaveOnce
  split
  · exact classOf_setMonitor heap r s _
  · rfl

theorem leaveMonitors_cons (f : Frame) (left : List Frame) (thread : Nat) (heap : Heap ClassId) :
    leaveMonitors thread (f :: left) heap = leaveMonitors thread left (leaveMonitors thread [f] heap) := by
  rw [← List.singleton_append]
  unfold leaveMonitors
  rw [List.filterMap_append, List.foldl_append]

theorem classOf_leaveMonitors (thread : Nat) (frames : List Frame) (heap : Heap ClassId) (r : Ref) :
    (leaveMonitors thread frames heap).classOf r = heap.classOf r := by
  unfold leaveMonitors
  induction frames.filterMap (·.monitor) generalizing heap with
  | nil => rfl
  | cons s rest ih => rw [List.foldl_cons, ih, classOf_leaveOnce]

namespace VM

variable {α β : Type} {c : Context} {m m' : Machine}

theorem bind_of_ok {x : VM α} {g : α → VM β} {a : α} (h : x c m = .ok a m') :
    (x >>= g) c m = g a c m' :=
  Linking.bind_of_ok h

theorem getMachine (c : Context) (m : Machine) : (getThe Machine : VM Machine) c m = .ok m m := rfl

/-- A row catches an exception or lets it pass. -/
theorem catches_cases (c : Context) (m : Machine) (cls thrown : ClassId) {pc : Nat} {h : Handler}
    (hcovers : h.start ≤ pc ∧ pc < h.stop) : ∃ b r',
      catches cls thrown h c m = .ok b { m with registry := r' } ∧
        if b then Catches c.env.paths cls thrown pc h m.registry r'
        else Skips c.env.paths cls thrown pc h m.registry r' := by
  unfold catches
  cases htype : h.catchType with
  | none => exact ⟨true, m.registry, rfl, .all hcovers htype⟩
  | some index =>
    dsimp only
    cases hresolve : resolveClass c.env.paths cls index m.registry with
    | ok caught r' =>
      refine ⟨r'.table.isAssignable thrown caught, r', ?_, ?_⟩
      · refine (bind_of_ok (show _ = EStateM.Result.ok (Except.ok caught) { m with registry := r' } from ?_)).trans rfl
        simp only [attempt, link, hresolve]
      · split
        · exact .named hcovers htype hresolve ‹_›
        · exact .other hcovers htype hresolve ‹_›
    | error e r' =>
      refine ⟨false, r', ?_, .unresolved hcovers htype hresolve⟩
      refine (bind_of_ok (show _ = EStateM.Result.ok (Except.error (.fault e)) { m with registry := r' }
        from ?_)).trans rfl
      simp only [attempt, link, hresolve]

theorem firstHandler_search (c : Context) (cls thrown : ClassId) (pc : Nat) :
    ∀ (rows : List Handler) (m : Machine), ∃ target r',
      firstHandler cls thrown pc rows c m = .ok target { m with registry := r' } ∧
        Search c.env.paths cls thrown pc rows m.registry target r'
  | [], m => ⟨none, m.registry, rfl, .nil⟩
  | h :: rest, m => by
    rw [firstHandler]
    by_cases hcovers : h.start ≤ pc ∧ pc < h.stop
    · have hc : h.covers pc = true := by simpa [Handler.covers] using hcovers
      rw [if_pos hc]
      obtain ⟨b, r₁, hcatches, hb⟩ := catches_cases c m cls thrown hcovers
      rw [bind_of_ok hcatches]
      cases b with
      | true => exact ⟨some h.handler, r₁, rfl, .caught hb⟩
      | false =>
        obtain ⟨target, r', hrest, hsearch⟩ :=
          firstHandler_search c cls thrown pc rest { m with registry := r₁ }
        exact ⟨target, r', hrest, .skipped hb hsearch⟩
    · have hc : ¬ h.covers pc = true := by simpa [Handler.covers] using hcovers
      rw [if_neg hc]
      obtain ⟨target, r', hrest, hsearch⟩ := firstHandler_search c cls thrown pc rest m
      exact ⟨target, r', hrest, .skipped (.uncovered hcovers) hsearch⟩

/-- What is thrown is an object, so its class is known. -/
theorem classOf_eq {e : Ref} {thrown : ClassId} (hlive : m.heap.classOf e = .ok thrown) :
    classOf e c m = .ok thrown m := by
  unfold classOf readObject
  rw [bind_of_ok (getMachine c m), hlive]
  rfl

theorem findHandler_search {f : Frame} {below : List Frame} {e : Ref} {thrown : ClassId}
    (hframes : m.frames.list = f :: below) (hlive : m.heap.classOf e = .ok thrown) : ∃ target r',
      notingFailure (.unreadable e) (findHandler e) c m = .ok target { m with registry := r' } ∧
        f.Searched c.env.paths thrown m.registry target r' := by
  obtain ⟨target, r', hfirst, hsearch⟩ :=
    firstHandler_search c f.cls thrown f.pc f.code.handlers m
  refine ⟨target, r', ?_, hsearch⟩
  have hcurrent : currentFrame c m = .ok f m := by
    unfold currentFrame
    rw [bind_of_ok (getMachine c m), Stack.top?, hframes]
    rfl
  have hfind : findHandler e c m = .ok target { m with registry := r' } := by
    unfold findHandler
    rw [bind_of_ok hcurrent, bind_of_ok (classOf_eq hlive), hfirst]
  simp only [notingFailure, hfind]

theorem readObject_of_ok {f : Heap ClassId → Ref → Except Fault α} {r : Ref} {a : α}
    (h : f m.heap r = .ok a) : readObject f r c m = .ok a m := by
  unfold readObject
  rw [bind_of_ok (getMachine c m), h]
  rfl

/-- What is noted about a reference that cannot be followed: at most that it names no object. -/
theorem readObject_of_error {f : Heap ClassId → Ref → Except Fault α} {r : Ref} {e : Fault}
    (h : f m.heap r = .error e) : ∃ missing, (missing = [] ∨ missing = [.missing r]) ∧
      readObject f r c m = .error (.fault e) { m with notes := missing ++ m.notes } := by
  unfold readObject
  rw [bind_of_ok (getMachine c m), h]
  dsimp only
  rw [bind_of_ok (getMachine c m)]
  split
  · exact ⟨[.missing r], .inr rfl, rfl⟩
  · exact ⟨[], .inl rfl, rfl⟩

theorem bind_of_error {x : VM α} {g : α → VM β} {e : Abrupt} (h : x c m = .error e m') :
    (x >>= g) c m = .error e m' :=
  Linking.bind_of_error h

/-- A thread that does not hold a monitor cannot leave it; this never makes it wait. -/
theorem exitMonitor_cases (c : Context) (m : Machine) (r : Ref) :
    exitMonitor r c m = .ok () { m with heap := leaveOnce m.thread m.heap r } ∨
      ∃ e missing, e ≠ .stuck ∧ (missing = [] ∨ missing = [.missing r]) ∧ exitMonitor r c m =
        .error e { m with heap := leaveOnce m.thread m.heap r, notes := missing ++ m.notes } := by
  unfold exitMonitor
  rw [bind_of_ok (getMachine c m)]
  cases hmonitor : m.heap.monitor r with
  | error e =>
    have hleave : leaveOnce m.thread m.heap r = m.heap := by simp [leaveOnce, hmonitor, Except.toOption]
    obtain ⟨missing, hmissing, hread⟩ := readObject_of_error (c := c) hmonitor
    rw [hleave]
    exact .inr ⟨.fault e, missing, by simp, hmissing, bind_of_error hread⟩
  | ok monitor =>
    have hread : monitorOf r c m = .ok monitor m := readObject_of_ok hmonitor
    rw [bind_of_ok hread]
    cases hexit : monitor.exit? m.thread with
    | none =>
      have hleave : leaveOnce m.thread m.heap r = m.heap := by
        simp [leaveOnce, hmonitor, Except.toOption, hexit]
      rw [hleave]
      exact .inr ⟨.raised .illegalMonitorState (some ("current thread is not owner of " ++ r.text)),
        [], by simp, .inl rfl, rfl⟩
    | some monitor' =>
      have hleave : leaveOnce m.thread m.heap r = m.heap.setMonitor r monitor' := by
        simp [leaveOnce, hmonitor, Except.toOption, hexit]
      rw [hleave]
      exact .inl rfl

/-- A call gives its monitor back once, if the thread holds it. -/
theorem attempt_leaveCallMonitor (c : Context) (m : Machine) (r : Ref) : ∃ outcome notes,
    attempt (leaveCallMonitor r) c m =
      .ok outcome { m with heap := leaveOnce m.thread m.heap r, notes } := by
  have hleave : leaveCallMonitor r c m = exitMonitor r c { m with notes := .left r :: m.notes } := rfl
  unfold attempt
  rw [hleave]
  rcases exitMonitor_cases c { m with notes := .left r :: m.notes } r with hexit | ⟨e, missing, he, -, hexit⟩
  · rw [hexit]
    exact ⟨_, _, rfl⟩
  · rw [hexit]
    cases e with
    | stuck => exact absurd rfl he
    | thrown _ | raised _ _ | fault _ => exact ⟨_, _, rfl⟩

/-- A frame is left with its monitor. -/
theorem leaveFrame_eq (c : Context) {f : Frame} {below : List Frame}
    (hframes : m.frames.list = f :: below) : ∃ notes,
      leaveFrame c m = .ok () { m with
        frames := m.frames.pop, heap := leaveMonitors m.thread [f] m.heap, notes } := by
  unfold leaveFrame
  rw [bind_of_ok (getMachine c m), Stack.top?, hframes]
  dsimp only [List.head?_cons]
  have hpop : (modifyThe Machine fun m => { m with frames := m.frames.pop } : VM Unit) c m =
      .ok () { m with frames := m.frames.pop } := rfl
  rw [bind_of_ok hpop]
  cases hmonitor : f.monitor with
  | none =>
    refine ⟨m.notes, ?_⟩
    have hleave : leaveMonitors m.thread [f] m.heap = m.heap := by
      simp [leaveMonitors, hmonitor]
    rw [hleave]
    rfl
  | some r =>
    obtain ⟨outcome, notes, hattempt⟩ :=
      attempt_leaveCallMonitor c { m with frames := m.frames.pop } r
    have hleave : leaveMonitors m.thread [f] m.heap = leaveOnce m.thread m.heap r := by
      simp [leaveMonitors, hmonitor]
    refine ⟨notes, ?_⟩
    rw [hleave]
    dsimp only
    rw [bind_of_ok hattempt]
    rfl

/-! ## Dispatch -/

/-- A frame that catches an exception begins with it in its handler. -/
theorem beginHandler_eq (c : Context) {f : Frame} {below : List Frame} (e : Ref) (target : Nat)
    (hframes : m.frames.list = f :: below) (hroom : 1 ≤ f.code.maxStack) :
    notingFailure (.unhandled e) (onFrame (Frame.beginHandler e target)) c m = .ok () { m with
      frames := m.frames.setTop { f with stack := Stack.empty.push (.ref e), pc := target } } := by
  have honFrame : onFrame (Frame.beginHandler e target) c m = .ok () { m with
      frames := m.frames.setTop { f with stack := Stack.empty.push (.ref e), pc := target } } := by
    unfold onFrame
    rw [Stack.top?, hframes]
    simp only [List.head?_cons, Frame.beginHandler_of_room e target hroom]
  simp only [notingFailure, honFrame]

end VM

section

variable {m m₁ : Machine} {f : Frame} {left frames rest : List Frame} {r₁ r₂ : Registry}

theorem Machine.Leaves.refl (m : Machine) : m.Leaves [] m.frames.list m.registry m :=
  ⟨rfl, rfl, rfl, rfl⟩

/-- One frame is left, and then others. -/
theorem Machine.Leaves.cons {m₂ : Machine} (h₁ : m.Leaves [f] rest r₁ m₁)
    (h₂ : m₁.Leaves left frames r₂ m₂) : m.Leaves (f :: left) frames r₂ m₂ where
  frames := h₂.frames
  registry := h₂.registry
  heap := by
    have hthread : m₁.thread = m.thread := by rw [h₁.rest]
    rw [h₂.heap, h₁.heap, hthread, leaveMonitors_cons f left]
  rest := by
    rw [h₂.rest, h₁.rest]

/-- A frame that does not catch an exception is left, and the others take it. -/
theorem Dispatched.cons {paths : ClassPaths} {thrown : ClassId} {e : Ref} {base : Nat}
    {result : EStateM.Result Abrupt Machine Unit} (hframes : m.frames.list = f :: rest)
    (hbase : base ≤ rest.length) (hsearched : f.Searched paths thrown m.registry none r₁)
    (hleaves : m.Leaves [f] rest r₁ m₁) (h : Dispatched paths thrown e base m₁ result) :
    Dispatched paths thrown e base m result := by
  have hrest := hleaves.frames
  have hregistry := hleaves.registry
  cases h with
  | caught hframes₁ hbase₁ hpassed hsearched₁ hresult =>
    rw [hregistry] at hpassed
    refine .caught (hframes.trans ?_) hbase₁ (.cons hsearched hpassed) hsearched₁ fun hroom => ?_
    · rw [← hrest, hframes₁, List.cons_append]
    · obtain ⟨m', hresult, hleaves'⟩ := hresult hroom
      exact ⟨m', hresult, hleaves.cons hleaves'⟩
  | uncaught hframes₁ hbase₁ hpassed hleaves' =>
    rw [hregistry] at hpassed
    refine .uncaught (hframes.trans ?_) ?_ (.cons hsearched hpassed) (hleaves.cons hleaves')
    · rw [← hrest, hframes₁, List.cons_append]
    · rw [hbase₁, hrest, hframes, List.length_cons]
      omega

/-- Where some frames let an exception pass and the next one catches it, that one goes on. -/
theorem Dispatched.of_caught {paths : ClassPaths} {thrown : ClassId} {e : Ref} {base target : Nat}
    {result : EStateM.Result Abrupt Machine Unit} {below : List Frame}
    (h : Dispatched paths thrown e base m result) (hframes : m.frames.list = left ++ f :: below)
    (hbase : base ≤ below.length) (hpassed : Passed paths thrown left m.registry r₁)
    (hsearched : f.Searched paths thrown r₁ (some target) r₂) (hroom : 1 ≤ f.code.maxStack) :
    ∃ m', result = .ok () m' ∧
      m.Leaves left ({ f with stack := Stack.empty.push (.ref e), pc := target } :: below) r₂ m' := by
  cases h with
  | caught hframes' _ hpassed' hsearched' hresult =>
    obtain ⟨more, rfl, hmore, hrest⟩ := hpassed.unique hsearched hpassed' (hframes.symm.trans hframes')
    cases hrest with
    | nil =>
      rw [List.nil_append] at hmore
      obtain ⟨rfl, rfl⟩ := List.cons.inj hmore
      obtain ⟨htarget, rfl⟩ := hsearched.unique hsearched'
      cases htarget
      rw [List.append_nil]
      exact hresult hroom
    | cons hf _ =>
      obtain ⟨rfl, -⟩ := List.cons.inj hmore
      cases (hf.unique hsearched').1
  | @uncaught left' below' r' m' hframes' hbase' hpassed' hleaves =>
    obtain ⟨more, rfl, rfl, -⟩ := hpassed.unique hsearched hpassed' (hframes.symm.trans hframes')
    rw [List.length_append, List.length_cons] at hbase'
    omega

end

namespace VM

variable {c : Context} {m : Machine}

theorem list_setTop {s : Stack Frame} {f g : Frame} {below : List Frame} (h : s.list = f :: below) :
    (s.setTop g).list = g :: below := by
  obtain ⟨list, size, hsize⟩ := s
  cases h
  rfl

/-- An exception is dispatched to the first frame from the top that catches it. -/
theorem dispatched_dispatch (c : Context) {e : Ref} {thrown : ClassId} (base : Nat) :
    ∀ (count : Nat) {m : Machine}, m.frames.list.length = count → m.heap.classOf e = .ok thrown →
      Dispatched c.env.paths thrown e base m (dispatch e base count c m)
  | 0, m, hcount, _ => by
    have hnil : m.frames.list = [] := List.length_eq_zero_iff.1 hcount
    exact .uncaught (List.nil_append _).symm (by simp [hnil]) .nil (.refl m)
  | count + 1, m, hcount, hlive => by
    obtain ⟨f, below, hframes⟩ := List.exists_cons_of_length_eq_add_one hcount
    have hdepth : depth c m = .ok m.frames.size m := rfl
    rw [dispatch, bind_of_ok hdepth]
    rw [hframes, List.length_cons] at hcount
    by_cases hbase : m.frames.size ≤ base
    · rw [if_pos hbase]
      refine .uncaught (List.nil_append _).symm ?_ .nil (.refl m)
      rw [m.frames.size_eq] at hbase
      omega
    · rw [if_neg hbase]
      rw [m.frames.size_eq, hframes, List.length_cons] at hbase
      obtain ⟨target, r₁, hfind, hsearched⟩ := findHandler_search (c := c) hframes hlive
      dsimp only
      rw [bind_of_ok hfind]
      cases target with
      | some target =>
        have hsplit : m.frames.list = [] ++ f :: below := hframes
        refine .caught hsplit (by omega) .nil hsearched fun hroom => ?_
        have hbegin := beginHandler_eq (m := { m with registry := r₁ }) c e target hframes hroom
        exact ⟨_, hbegin, list_setTop hframes, rfl, rfl, rfl⟩
      | none =>
        obtain ⟨notes, hleave⟩ := leaveFrame_eq (m := { m with registry := r₁ }) c hframes
        dsimp only
        rw [bind_of_ok hleave]
        have hpop : m.frames.pop.list = below := by rw [Stack.list_pop, hframes, List.tail_cons]
        refine .cons hframes (by omega) hsearched ⟨hpop, rfl, rfl, rfl⟩
          (dispatched_dispatch c base count ?_ ?_)
        · rw [hpop]
          omega
        · rw [classOf_leaveMonitors]
          exact hlive

/-- **Dispatch**: an exception that is an object goes to the first row that catches it of the first frame
from the top that has one, or to whoever began the frames. -/
theorem handle_thrown (c : Context) (m : Machine) (base : Nat) (e : Ref) (thrown : ClassId)
    (hlive : m.heap.classOf e = .ok thrown) :
    Dispatched c.env.paths thrown e base m (handle (.thrown e) base c m) := by
  have hhandle : handle (.thrown e) base c m = dispatch e base m.frames.size c m := rfl
  rw [hhandle, m.frames.size_eq]
  exact dispatched_dispatch c base _ rfl hlive

/-! ### An exception that goes down a frame -/

/-- A frame of a method with an exception table. -/
def frameOf (pc : Nat) (handlers : List Handler) (monitor : Option Ref) : Frame where
  method := default
  cls := 0
  code := { (default : Code) with maxStack := 1, handlers }
  pc := pc
  locals := #[.int 4]
  stack := Stack.empty.push (.int 1)
  monitor := monitor

/-- A frame of a synchronized method, with a row for a class that cannot be resolved. -/
def upperFrame : Frame := frameOf 3 [⟨0, 9, 7, some 1⟩] (some ⟨1⟩)

/-- A frame with a row that ends before the instruction, and one for the class of the exception. -/
def lowerFrame : Frame := frameOf 2 [⟨0, 2, 5, none⟩, ⟨2, 3, 6, some 2⟩] none

/-- A machine with the two frames on top of another one, a class with resolved references, an exception
of it and an object whose monitor the upper frame holds. -/
def throwing : Machine :=
  let state := ClassState.start .initialized #[] 0
  let object : Object ClassId := ⟨0, .fields #[], .free, false, 0, 0, 16, 0⟩
  { Machine.start .standard with
    registry := { Registry.empty with
      states := #[{ state with
        classRefs := #[none, some (.error (.classNotFound "Gone")), some (.ok 0)] }] }
    heap := { (Heap.empty .standard : Heap ClassId) with
      slots := #[some object, some { object with monitor := ⟨some 0, 1⟩ }] }
    frames := ((Stack.empty.push lowerFrame).push lowerFrame).push upperFrame }

/-- What the machine relies on: no class files, no native methods and no calls. -/
def bare : Context where
  env := ⟨⟨.empty, .empty⟩, [], standardMaxFrames, ⟨0, 0⟩, standardSteps⟩
  call _ _ := throw .stuck
  run _ := throw .stuck

theorem handle_thrown_throwing : ∃ m', handle (.thrown ⟨0⟩) 1 bare throwing = .ok () m' ∧
    m'.frames.list =
      [{ lowerFrame with stack := Stack.empty.push (.ref ⟨0⟩), pc := 6 }, lowerFrame] ∧
    m'.heap.monitor ⟨1⟩ = .ok .free := by
  have hupper : upperFrame.Searched bare.env.paths 0 throwing.registry none throwing.registry :=
    .skipped (.unresolved (by decide) rfl rfl) .nil
  have hlower : lowerFrame.Searched bare.env.paths 0 throwing.registry (some 6) throwing.registry :=
    .skipped (.uncovered (by decide))
      (.caught (.named (by decide) rfl rfl (ClassTable.isAssignable_iff.2 (.refl 0))))
  have hframes : throwing.frames.list = [upperFrame] ++ lowerFrame :: [lowerFrame] := rfl
  obtain ⟨m', hresult, hleaves⟩ := (handle_thrown bare throwing 1 ⟨0⟩ 0 rfl).of_caught hframes
    (by decide) (.cons hupper .nil) hlower (by decide)
  refine ⟨m', hresult, hleaves.frames, ?_⟩
  rw [hleaves.heap]
  rfl

end VM

end Jvm.Execution
