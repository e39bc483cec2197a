import Mathlib
import Jvm.Execution.Threads
import Jvm.Proofs.Execution.Frames
import Jvm.Proofs.Execution.Sparing
import Jvm.Proofs.Heap.Holding

/-! # Accounts of the monitors that calls hold

A machine notes when a call enters a monitor and when it leaves it, and when an instruction enters one. What a
machine adds to its notes tells, with the monitors of the calls that go on before and after, how often its
thread can hold a monitor (`Machine.Accounts`). `VM.Settles n k x c` says of a computation `x` that it leaves
no call behind: when it ends, frames below the `n` topmost ones are as they were, so are the monitors of the
calls of all frames and, if `k` asks for it, what is held, and every monitor that a call has entered meanwhile
has been left. All of this is up to a frame that refuses an exception that it catches, or cannot tell whether
it does (`Refused`), which ends a run early. -/

namespace Jvm.Execution

open Linking

/-- Whether a frame has refused an exception: it catches the exception and has no place for it, or it cannot
tell whether it catches it. -/
def Refused (new : List Note) : Prop := ∃ exception, .unreadable exception ∈ new ∨ .unhandled exception ∈ new

theorem Refused.append_left {new more : List Note} (h : Refused new) : Refused (more ++ new) := by
  obtain ⟨e, h | h⟩ := h
  · exact ⟨e, .inl (List.mem_append_right more h)⟩
  · exact ⟨e, .inr (List.mem_append_right more h)⟩

theorem Refused.append_right {new more : List Note} (h : Refused more) : Refused (more ++ new) := by
  obtain ⟨e, h | h⟩ := h
  · exact ⟨e, .inl (List.mem_append_left new h)⟩
  · exact ⟨e, .inr (List.mem_append_left new h)⟩

namespace Machine

variable {m m₁ m' : Machine} {R S T : List Note → Prop} {new new₁ new₂ : List Note}

/-- Whether a machine has added to the notes of another one, and what it has added is as `R` says, unless a
frame has refused an exception. -/
def Adds (R : List Note → Prop) (m m' : Machine) : Prop :=
  ∃ new, m'.notes = new ++ m.notes ∧ (Refused new ∨ R new)

theorem Adds.of_same (hnotes : m'.notes = m.notes) (h : R []) : m.Adds R m' := ⟨[], hnotes, .inr h⟩

theorem Adds.mono (h : m.Adds R m') (himp : ∀ new, R new → S new) : m.Adds S m' := by
  obtain ⟨new, hnotes, hnew⟩ := h
  exact ⟨new, hnotes, hnew.imp_right (himp new)⟩

/-- What is refused stays refused. -/
theorem Adds.trans (h₁ : m.Adds R m₁) (h₂ : m₁.Adds S m')
    (himp : ∀ new₁ new₂, R new₁ → S new₂ → T (new₂ ++ new₁)) : m.Adds T m' := by
  obtain ⟨new₁, hnotes₁, hnew₁⟩ := h₁
  obtain ⟨new₂, hnotes₂, hnew₂⟩ := h₂
  refine ⟨new₂ ++ new₁, by rw [hnotes₂, hnotes₁, List.append_assoc], ?_⟩
  rcases hnew₁ with hrefused | hnew₁
  · exact .inl hrefused.append_left
  · exact hnew₂.imp Refused.append_right (himp new₁ new₂ hnew₁)

/-! ### Accounts -/

/-- What a machine comes to that notes `new`, if `calls` are the monitors of the calls that go on, as far as
they hold one, and `calls'` of those afterwards. -/
structure Accounts (m : Machine) (calls : List (Option Ref)) (new : List Note) (calls' : List (Option Ref))
    (m' : Machine) : Prop where
  thread : m'.thread = m.thread
  entered : ∀ r, new.count (.entered r) + calls.count (some r) = new.count (.left r) + calls'.count (some r)
  -- But for the calls that go on, a thread holds a monitor at most as often more as an instruction has entered
  -- it.
  held : ∀ r, m'.heap.holds m.thread r - calls'.count (some r) ≤
    m.heap.holds m.thread r - calls.count (some r) + new.count (.locked r)

variable {calls calls₁ calls' : List (Option Ref)} {r : Ref}

theorem Accounts.trans (h₁ : m.Accounts calls new₁ calls₁ m₁) (h₂ : m₁.Accounts calls₁ new₂ calls' m') :
    m.Accounts calls (new₂ ++ new₁) calls' m' where
  thread := h₂.thread.trans h₁.thread
  entered r := by
    have h₁ := h₁.entered r
    have h₂ := h₂.entered r
    rw [List.count_append, List.count_append]
    omega
  held r := by
    have h₂ := h₂.held r
    rw [h₁.thread] at h₂
    have h₁ := h₁.held r
    rw [List.count_append]
    omega

/-- Other calls go on meanwhile. -/
theorem Accounts.beside (h : m.Accounts calls new calls' m') (others : List (Option Ref)) :
    m.Accounts (calls ++ others) new (calls' ++ others) m' where
  thread := h.thread
  entered r := by
    have h := h.entered r
    rw [List.count_append, List.count_append]
    omega
  held r := by
    have h := h.held r
    rw [List.count_append, List.count_append]
    omega

/-- Nothing is noted, and no monitor is held more often. -/
theorem Accounts.of_releases (hthread : m'.thread = m.thread) (hheap : Heap.Releases m.thread m.heap m'.heap)
    (hcalls : ∀ r, calls'.count (some r) = calls.count (some r)) : m.Accounts calls [] calls' m' where
  thread := hthread
  entered r := by rw [hcalls]; rfl
  held r := by
    have hreleases := hheap r
    rw [hcalls, List.count_nil]
    omega

/-- Something is noted that is not about monitors. -/
theorem accounts_missing (m : Machine) (calls : List (Option Ref)) (r : Ref) :
    m.Accounts calls [.missing r] calls { m with notes := .missing r :: m.notes } where
  thread := rfl
  entered s := by simp
  held s := by simp

/-- A call enters a monitor and goes on with it. -/
theorem accounts_entered {monitor monitor' : Monitor} (hmonitor : m.heap.monitor r = .ok monitor)
    (henter : monitor.enter? m.thread = some monitor') (hthread : m'.thread = m.thread)
    (hheap : m'.heap = m.heap.setMonitor r monitor') : m.Accounts [] [.entered r] [some r] m' where
  thread := hthread
  entered s := by by_cases hs : r = s <;> simp [hs]
  held s := by
    rw [hheap]
    by_cases hs : s = r
    · subst hs
      have hset := Heap.holds_setMonitor_le m.heap s monitor' m.thread
      rw [Monitor.heldBy_enter? henter, ← Heap.holds_of_monitor hmonitor] at hset
      simpa using hset
    · rw [Heap.holds_setMonitor_of_ne monitor' hs]
      simp

/-- An instruction enters a monitor. -/
theorem accounts_locked {monitor monitor' : Monitor} (hmonitor : m.heap.monitor r = .ok monitor)
    (henter : monitor.enter? m.thread = some monitor') (hthread : m'.thread = m.thread)
    (hheap : m'.heap = m.heap.setMonitor r monitor') : m.Accounts calls [.locked r] calls m' where
  thread := hthread
  entered s := by simp
  held s := by
    rw [hheap]
    by_cases hs : s = r
    · subst hs
      have hset := Heap.holds_setMonitor_le m.heap s monitor' m.thread
      rw [Monitor.heldBy_enter? henter, ← Heap.holds_of_monitor hmonitor] at hset
      rw [List.count_singleton_self]
      omega
    · rw [Heap.holds_setMonitor_of_ne monitor' hs]
      exact Nat.le_add_right _ _

/-- A thread that leaves a monitor holds it less often, if it does at all. -/
theorem holds_leaveOnce (thread : Nat) (heap : Heap ClassId) (r s : Ref) :
    (leaveOnce thread heap r).holds thread s ≤ heap.holds thread s - if s = r then 1 else 0 := by
  unfold leaveOnce
  by_cases hs : s = r
  · subst hs
    rw [if_pos rfl]
    cases hmonitor : heap.monitor s with
    | error e =>
      rw [show (Except.error e : Except Fault Monitor).toOption.bind (·.exit? thread) = none from rfl]
      dsimp only
      rw [Heap.holds_of_monitor_error hmonitor]
    | ok monitor =>
      rw [show (Except.ok monitor : Except Fault Monitor).toOption.bind (·.exit? thread) = monitor.exit? thread
        from rfl]
      cases hexit : monitor.exit? thread with
      | none =>
        dsimp only
        rw [Heap.holds_of_monitor hmonitor, Monitor.heldBy_of_exit?_eq_none hexit]
      | some monitor' =>
        have hset := Heap.holds_setMonitor_le heap s monitor' thread
        rwa [Monitor.heldBy_exit? hexit, ← Heap.holds_of_monitor hmonitor] at hset
  · rw [if_neg hs]
    split
    · rw [Heap.holds_setMonitor_of_ne _ hs]
      exact Nat.le_refl _
    · exact Nat.le_refl _

theorem releases_leaveOnce (thread : Nat) (heap : Heap ClassId) (r : Ref) :
    Heap.Releases thread heap (leaveOnce thread heap r) :=
  fun s => (holds_leaveOnce thread heap r s).trans (Nat.sub_le _ _)

/-- A call leaves its monitor and is over. -/
theorem accounts_left (r : Ref) (hthread : m'.thread = m.thread)
    (hheap : m'.heap = leaveOnce m.thread m.heap r) : m.Accounts [some r] [.left r] [] m' where
  thread := hthread
  entered s := by by_cases hs : r = s <;> simp [hs]
  held s := by
    have hcount : [some r].count (some s) = if s = r then 1 else 0 := by
      rw [List.count_singleton]
      exact if_congr (by simp [eq_comm (a := r)]) rfl rfl
    rw [hheap, hcount, List.count_nil, Nat.sub_zero]
    exact (holds_leaveOnce m.thread m.heap r s).trans (Nat.le_add_right _ _)

/-! ### Machines that settle -/

/-- How a machine goes on that notes `new`, with the calls that go on before and afterwards: nothing happens to
the frames below the `n` topmost ones, nor, if `k` asks for it, to what is held. -/
structure Passed (n : Nat) (k : Prop) (calls calls' : List (Option Ref)) (m : Machine) (new : List Note)
    (m' : Machine) : Prop where
  accounts : m.Accounts calls new calls' m'
  below : m'.frames.list.drop n = m.frames.list.drop n
  monitors : m'.frames.list.map (·.monitor) = m.frames.list.map (·.monitor)
  pinned : k → m'.pinned = m.pinned

/-- Whether this is how a machine goes on, unless a frame has refused an exception. -/
abbrev Passes (n : Nat) (k : Prop) (calls calls' : List (Option Ref)) (m m' : Machine) : Prop :=
  m.Adds (m.Passed n k calls calls' · m') m'

/-- Whether a machine goes on without a call that still goes on afterwards. -/
abbrev Settles (n : Nat) (k : Prop) (m m' : Machine) : Prop := m.Passes n k [] [] m'

variable {n : Nat} {k : Prop}

theorem Passes.trans (h₁ : m.Passes n k calls calls₁ m₁) (h₂ : m₁.Passes n k calls₁ calls' m') :
    m.Passes n k calls calls' m' :=
  Adds.trans h₁ h₂ fun _ _ h₁ h₂ =>
    ⟨h₁.accounts.trans h₂.accounts, h₂.below.trans h₁.below, h₂.monitors.trans h₁.monitors,
      fun hk => (h₂.pinned hk).trans (h₁.pinned hk)⟩

/-- Other calls go on meanwhile. -/
theorem Settles.beside (h : m.Settles n k m') (calls : List (Option Ref)) : m.Passes n k calls calls m' :=
  h.mono fun _ h => ⟨h.accounts.beside calls, h.below, h.monitors, h.pinned⟩

theorem Settles.mono {j : Prop} (h : m.Settles 0 k m') (hk : j → k) : m.Settles n j m' :=
  Adds.mono h fun _ h => ⟨h.accounts, by rw [show m'.frames.list = m.frames.list from h.below], h.monitors,
    fun hj => h.pinned (hk hj)⟩

/-- The frames and what is held are the same, nothing is noted, and no monitor is held more often. -/
theorem Passes.of_releases (hthread : m'.thread = m.thread) (hnotes : m'.notes = m.notes)
    (hframes : m'.frames = m.frames) (hpinned : k → m'.pinned = m.pinned)
    (hheap : Heap.Releases m.thread m.heap m'.heap)
    (hcalls : ∀ r, calls'.count (some r) = calls.count (some r)) : m.Passes n k calls calls' m' :=
  .of_same hnotes ⟨.of_releases hthread hheap hcalls, by rw [hframes], by rw [hframes], hpinned⟩

theorem Settles.of_releases (hthread : m'.thread = m.thread) (hnotes : m'.notes = m.notes)
    (hframes : m'.frames = m.frames) (hpinned : k → m'.pinned = m.pinned)
    (hheap : Heap.Releases m.thread m.heap m'.heap) : m.Settles n k m' :=
  Passes.of_releases hthread hnotes hframes hpinned hheap fun _ => rfl

theorem Settles.refl (n : Nat) (k : Prop) (m : Machine) : m.Settles n k m :=
  .of_releases rfl rfl rfl (fun _ => rfl) (.refl _ _)

theorem settles_missing (m : Machine) (r : Ref) {missing : List Note}
    (hmissing : missing = [] ∨ missing = [.missing r]) :
    m.Settles n k { m with notes := missing ++ m.notes } := by
  rcases hmissing with rfl | rfl
  · exact .refl n k m
  · exact ⟨[.missing r], rfl, .inr ⟨m.accounts_missing [] r, rfl, rfl, fun _ => rfl⟩⟩

end Machine

/-! ### Computations on frames -/

namespace OnFrame

variable {α β : Type} {x : OnFrame α}

/-- Whether a computation leaves the monitor that the call of a frame holds as it is. -/
def KeepsMonitor (x : OnFrame α) : Prop :=
  ∀ f : Frame, match x f with
    | .ok _ f' | .error _ f' => f'.monitor = f.monitor

theorem Safe.keepsMonitor {Q : α → Prop} (hx : x.Safe (fun _ => True) Q) : x.KeepsMonitor := by
  intro f
  have hfx := hx f f.all_true
  rcases h : x f with ⟨a, f'⟩ | ⟨e, f'⟩ <;> rw [h] at hfx <;> exact hfx.1.monitor

theorem KeepsMonitor.bind {g : α → OnFrame β} (hx : x.KeepsMonitor) (hg : ∀ a, (g a).KeepsMonitor) :
    (x >>= g).KeepsMonitor := by
  intro f
  have hfx := hx f
  rcases h : x f with ⟨a, f'⟩ | ⟨e, f'⟩ <;> rw [h] at hfx
  · rw [Linking.bind_of_ok h]
    have hgf := hg a f'
    rcases h' : g a f' with ⟨b, f''⟩ | ⟨e, f''⟩ <;> rw [h'] at hgf <;> exact hgf.trans hfx
  · rw [Linking.bind_of_error h]
    exact hfx

theorem keepsMonitor_modify {g : Frame → Frame} (hg : ∀ f, (g f).monitor = f.monitor) :
    (modify g : OnFrame Unit).KeepsMonitor := hg

end OnFrame

theorem Frame.keepsMonitor_push (v : Value) : (push v).KeepsMonitor := (safe_push fun _ _ => trivial).keepsMonitor

theorem Frame.keepsMonitor_advance {x : OnFrame Target} (hx : x.KeepsMonitor) : (advance x).KeepsMonitor :=
  hx.bind fun _ => OnFrame.keepsMonitor_modify fun _ => rfl

theorem Frame.keepsMonitor_beginHandler (exception : Ref) (handler : Nat) :
    (beginHandler exception handler).KeepsMonitor := by
  unfold beginHandler
  exact OnFrame.KeepsMonitor.bind (OnFrame.keepsMonitor_modify fun _ => rfl) fun _ =>
    (keepsMonitor_push _).bind fun _ => OnFrame.keepsMonitor_modify fun _ => rfl

/-- A frame goes on behind a call with the result of the call. -/
theorem Frame.keepsMonitor_resume (result : Option Value) : OnFrame.KeepsMonitor (do
    modify fun f : Frame => { f with pc := f.pc + 1 }
    if let some v := result then Frame.push v) := by
  refine OnFrame.KeepsMonitor.bind (OnFrame.keepsMonitor_modify fun _ => rfl) fun _ => ?_
  cases result with
  | none => exact (OnFrame.safe_pure trivial : OnFrame.Safe _ _ fun _ => True).keepsMonitor
  | some v => exact keepsMonitor_push v

namespace VM

variable {α β : Type}

/-- Whether a computation ends as `R` says, if it ends at all. -/
def Ends (R : Except Abrupt α → Machine → Prop) : EStateM.Result Abrupt Machine α → Prop
  | .ok a m => R (.ok a) m
  | .error .stuck _ => True
  | .error e m => R (.error e) m

section

variable {R R' : Except Abrupt α → Machine → Prop} {S : Except Abrupt β → Machine → Prop} {m m' : Machine}
  {result : EStateM.Result Abrupt Machine α} {x : VM α} {g : α → VM β} {c : Context}

theorem ends_error {e : Abrupt} (h : e ≠ .stuck → R (.error e) m) : Ends R (.error e m) := by
  cases e with
  | stuck => trivial
  | thrown | raised | fault => exact h nofun

theorem Ends.of_error {e : Abrupt} (h : Ends R (.error e m)) (he : e ≠ .stuck) : R (.error e) m := by
  cases e with
  | stuck => exact absurd rfl he
  | thrown | raised | fault => exact h

theorem Ends.mono (h : Ends R result) (himp : ∀ o m, R o m → R' o m) : Ends R' result := by
  rcases result with ⟨a, m'⟩ | ⟨e, m'⟩
  · exact himp _ _ h
  · exact ends_error fun he => himp _ _ (h.of_error he)

theorem Ends.attempt {S : Except Abrupt (Except Abrupt α) → Machine → Prop} (hx : Ends R (x c m))
    (hS : ∀ o m', R o m' → S (.ok o) m') : Ends S (VM.attempt x c m) := by
  unfold VM.attempt
  rcases h : x c m with ⟨a, m'⟩ | ⟨_ | _ | _ | _, m'⟩ <;> rw [h] at hx
  · exact hS _ _ hx
  · exact hS _ _ hx
  · exact hS _ _ hx
  · exact hS _ _ hx
  · trivial

theorem Ends.bind (hx : Ends R (x c m)) (hg : ∀ a m₁, R (.ok a) m₁ → Ends S (g a c m₁))
    (herror : ∀ e m₁, R (.error e) m₁ → S (.error e) m₁) : Ends S ((x >>= g) c m) := by
  rcases h : x c m with ⟨a, m₁⟩ | ⟨e, m₁⟩
  · rw [h] at hx
    rw [bind_of_ok h]
    exact hg a m₁ hx
  · rw [h] at hx
    rw [bind_of_error h]
    exact ends_error fun he => herror e m₁ (hx.of_error he)

/-- What comes after a computation, whatever its outcome is. -/
theorem Ends.attempt_bind {g : Except Abrupt α → VM β} (hx : Ends R (x c m))
    (hg : ∀ o m₁, R o m₁ → Ends S (g o c m₁)) : Ends S ((VM.attempt x >>= g) c m) :=
  Ends.bind (R := fun o m₁ => ∃ o', o = .ok o' ∧ R o' m₁) (hx.attempt fun o _ h => ⟨o, rfl, h⟩)
    (fun _ m₁ ⟨_, ho, h⟩ => by cases ho; exact hg _ m₁ h) fun _ _ ⟨_, ho, _⟩ => by cases ho

end

/-- Whether a computation leaves no call behind. -/
def Settles (n : Nat) (k : Prop) (x : VM α) (c : Context) : Prop :=
  ∀ m : Machine, Ends (fun _ m' => m.Settles n k m') (x c m)

variable {n : Nat} {k : Prop} {x : VM α} {g : α → VM β} {c : Context}

/-! ### Putting computations together -/

theorem settles_pure (a : α) : Settles n k (pure a) c := fun m => .refl n k m

theorem settles_throw (e : Abrupt) : Settles n k (throw e : VM α) c := fun m => ends_error fun _ => .refl n k m

theorem settles_fail (e : Fault) : Settles n k (fail e : VM α) c := settles_throw _

theorem Settles.bind (hx : Settles n k x c) (hg : ∀ a, Settles n k (g a) c) : Settles n k (x >>= g) c :=
  fun m => (hx m).bind (fun a m₁ h₁ => (hg a m₁).mono fun _ _ => h₁.trans) fun _ _ => id

theorem settles_pure_bind {a : α} (hg : Settles n k (g a) c) : Settles n k (pure a >>= g) c := hg

theorem settles_throw_bind (e : Abrupt) : Settles n k (throw e >>= g) c := settles_throw e

theorem settles_ite {p : Prop} [Decidable p] {y : VM α} (hx : Settles n k x c) (hy : Settles n k y c) :
    Settles n k (if p then x else y) c := by
  split
  · exact hx
  · exact hy

theorem settles_ofExcept (o : Except Fault α) : Settles n k (ofExcept o) c := by
  cases o with
  | ok a => exact settles_pure a
  | error e => exact settles_fail e

theorem settles_except (o : Except Abrupt α) : Settles n k (MonadExcept.ofExcept o) c := by
  cases o with
  | ok a => exact settles_pure a
  | error e => exact settles_throw e

theorem settles_get : Settles n k (getThe Machine) c := fun m => .refl n k m

theorem settles_getRegistry : Settles n k (getThe Registry) c := fun m => .refl n k m

theorem settles_read : Settles n k (readThe Context) c := fun m => .refl n k m

theorem settles_table : Settles n k table c := fun m => .refl n k m

theorem settles_modifyRegistry (f : Registry → Registry) : Settles n k (modifyThe Registry f) c :=
  fun _ => Machine.Settles.of_releases rfl rfl rfl (fun _ => rfl) (.refl _ _)

theorem settles_setRegistry (r : Registry) : Settles n k (set r : VM Unit) c :=
  fun _ => Machine.Settles.of_releases rfl rfl rfl (fun _ => rfl) (.refl _ _)

theorem Settles.attempt (hx : Settles n k x c) : Settles n k (VM.attempt x) c :=
  fun m => (hx m).attempt fun _ _ => id

theorem Settles.result? (hx : Settles n k x c) : Settles n k (VM.result? x) c := by
  refine hx.attempt.bind fun o => ?_
  split
  · exact settles_pure _
  · exact settles_pure _

/-- What is held while a computation runs is let go, whatever the computation has held besides. -/
theorem Settles.pinning {j : Prop} (refs : List Ref) (hx : Settles n j x c) : Settles n k (VM.pinning refs x) c := by
  intro m
  have hx := hx { m with pinned := refs ++ m.pinned }
  have hlet {m' : Machine} (h : Machine.Settles n j { m with pinned := refs ++ m.pinned } m') :
      m.Settles n k { m' with pinned := m.pinned } :=
    Machine.Adds.mono h fun _ h =>
      ⟨⟨h.accounts.thread, h.accounts.entered, h.accounts.held⟩, h.below, h.monitors, fun _ => rfl⟩
  unfold VM.pinning
  dsimp only
  rcases h : x c { m with pinned := refs ++ m.pinned } with ⟨a, m'⟩ | ⟨_ | _ | _ | _, m'⟩ <;> rw [h] at hx
  · exact hlet hx
  · exact hlet hx
  · exact hlet hx
  · exact hlet hx
  · trivial

theorem settles_pin (r : Ref) : Settles n False (pin r) c :=
  fun _ => Machine.Settles.of_releases rfl rfl rfl False.elim (.refl _ _)

theorem settles_tick : Settles n k tick c := by
  intro m
  unfold tick
  split_ifs
  · trivial
  · exact Machine.Settles.of_releases rfl rfl rfl (fun _ => rfl) (.refl _ _)

/-- A computation for each entry of a list. -/
theorem settles_mapM {f : α → VM β} (hf : ∀ a, Settles n k (f a) c) (as : List α) : Settles n k (as.mapM f) c := by
  induction as with
  | nil => exact settles_pure _
  | cons a as ih =>
    rw [List.mapM_cons]
    exact (hf a).bind fun _ => ih.bind fun _ => settles_pure _

/-- A loop over a list. -/
theorem settles_forIn {σ : Type} {f : α → σ → VM (ForInStep σ)} (hf : ∀ a s, Settles n k (f a s) c) (as : List α)
    (init : σ) : Settles n k (forIn as init f) c := by
  induction as generalizing init with
  | nil => exact settles_pure _
  | cons a as ih =>
    rw [List.forIn_cons]
    refine (hf a init).bind fun step => ?_
    cases step with
    | done s => exact settles_pure s
    | yield s => exact ih s

theorem settles_link (x : ClassPaths → Linker α) : Settles n k (link x) c := by
  intro m
  unfold link
  rcases x c.env.paths m.registry with ⟨a, r⟩ | ⟨e, r⟩
  · exact Machine.Settles.of_releases rfl rfl rfl (fun _ => rfl) (.refl _ _)
  · exact Machine.Settles.of_releases rfl rfl rfl (fun _ => rfl) (.refl _ _)

/-! ### Objects -/

theorem settles_readHeap (f : Heap ClassId → Except Fault α) : Settles n k (readHeap f) c :=
  settles_get.bind fun _ => settles_ofExcept _

theorem settles_readObject (f : Heap ClassId → Ref → Except Fault α) (r : Ref) :
    Settles n k (readObject f r) c := by
  have hmissing : Settles n k (note (.missing r)) c := fun m => m.settles_missing r (.inr rfl)
  refine settles_get.bind fun m => ?_
  split
  · exact settles_pure _
  · exact settles_get.bind fun _ => settles_ite (hmissing.bind fun _ => settles_fail _) (settles_fail _)

theorem settles_modifyHeap {f : Heap ClassId → Heap ClassId} (hf : ∀ thread h, Heap.Releases thread h (f h)) :
    Settles n k (modifyHeap f) c :=
  fun m => Machine.Settles.of_releases rfl rfl rfl (fun _ => rfl) (hf m.thread m.heap)

theorem settles_setField (r : Ref) (slot : Nat) (v : Value) : Settles n k (setField r slot v) c :=
  (settles_readObject _ r).bind fun _ => settles_modifyHeap fun t h => Heap.releases_modifyContents t h r _

theorem settles_storeElement (r : Ref) (i : Nat) (v : Value) : Settles n k (storeElement r i v) c := by
  refine (settles_readObject _ r).bind fun e => ?_
  split
  · exact (settles_modifyHeap fun t h => Heap.releases_modifyContents t h r _).bind fun _ => settles_pure _
  · exact settles_pure _

theorem settles_create (request : Heap.Request ClassId) : Settles n k (create request) c := by
  intro m
  have hm' : m.Settles n k (m.allocate request).2 := by
    rw [Machine.allocate_eq]
    exact Machine.Settles.of_releases rfl rfl rfl (fun _ => rfl)
      (Heap.releases_allocate m.thread m.heap request m.roots)
  unfold create
  rcases h : m.allocate request with ⟨_ | _, m'⟩ <;> rw [h] at hm' <;> exact hm'

theorem settles_allocate (request : Heap.Request ClassId) : Settles n k (allocate request) c :=
  settles_tick.bind fun _ => settles_create request

theorem settles_newInstance (id : ClassId) : Settles n k (newInstance id) c :=
  (settles_link _).bind fun _ => settles_allocate _

theorem settles_collect : Settles n k collect c :=
  settles_tick.bind fun _ m =>
    Machine.Settles.of_releases rfl rfl rfl (fun _ => rfl) (Heap.releases_collect m.thread m.heap m.roots)

/-! ### Frames and monitors -/

/-- A computation on the current frame that leaves the monitor of the call as it is. -/
theorem settles_onFrame {x : OnFrame α} (hx : x.KeepsMonitor) : Settles 1 k (onFrame x) c := by
  intro m
  have hset {f f' : Frame} (hf : m.frames.top? = some f) (hmonitor : f'.monitor = f.monitor) :
      m.Settles 1 k { m with frames := m.frames.setTop f' } := by
    obtain ⟨below, hlist⟩ := List.head?_eq_some_iff.1 hf
    refine .of_same rfl ⟨.of_releases rfl (.refl _ _) fun _ => rfl, ?_, ?_, fun _ => rfl⟩
    · rw [list_setTop hlist, hlist]
      rfl
    · rw [list_setTop hlist, hlist, List.map_cons, List.map_cons, hmonitor]
  unfold onFrame
  rcases hf : m.frames.top? with _ | f
  · exact Machine.Settles.refl 1 k m
  · have hfx := hx f
    dsimp only
    rcases h : x f with ⟨a, f'⟩ | ⟨e, f'⟩ <;> rw [h] at hfx
    · exact hset hf hfx
    · exact ends_error fun _ => hset hf hfx

theorem settles_currentFrame : Settles n k currentFrame c := by
  refine settles_get.bind fun m => ?_
  split
  · exact settles_pure _
  · exact settles_fail _

theorem settles_exitMonitor (r : Ref) : Settles n k (exitMonitor r) c := by
  intro m
  have hleft : m.Settles n k { m with heap := leaveOnce m.thread m.heap r } :=
    .of_releases rfl rfl rfl (fun _ => rfl) (Machine.releases_leaveOnce m.thread m.heap r)
  rcases exitMonitor_cases c m r with h | ⟨e, missing, -, hmissing, h⟩
  · rw [h]
    exact hleft
  · rw [h]
    exact ends_error fun _ => hleft.trans (Machine.settles_missing _ r hmissing)

end VM

end Jvm.Execution
