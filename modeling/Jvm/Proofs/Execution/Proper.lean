import Mathlib
import Jvm.Execution.Threads
import Jvm.Proofs.Execution.Dispatch
import Jvm.Proofs.Execution.FieldTypes
import Jvm.Proofs.Heap.Contents

/-! # Machines that hold values of their own

The half of a wide value is found among locals only: static fields and objects hold values of their own,
whatever has been asked of a machine (`Machine.Proper`). `VM.Keeps P x Q c` says of a computation `x` that
this stays so, with frames of the property `P`, and that its result is as `Q` says. What reads and creates
objects does not look at frames, so it keeps every such property. -/

namespace Jvm

open Linking Execution

/-! ## Static fields and new instances -/

theorem Execution.proper_of_keptIn {type : ClassFile.FieldType} {v w : Value} (h : keptIn type v = some w) :
    w.Proper := by
  unfold keptIn at h
  split at h
  case h_9 | h_10 =>
    split_ifs at h with hv
    cases h
    exact .of_isReference hv
  case h_11 => cases h
  all_goals cases h; nofun

theorem Linking.Field.Takes.proper {c : LinkedClass} {f : Field} {v : Value} (h : f.Takes c v) : v.Proper := by
  cases h with
  | kept hv => exact proper_of_keptIn hv
  | uncut _ _ _ hv => rw [hv]; nofun

namespace Linking

/-- A new instance holds the default values of its fields. -/
theorem ClassTable.Built.proper_template {t : ClassTable} (ht : t.Built) {id : ClassId} {c : LinkedClass}
    (hc : t.class? id = some c) : ∀ v ∈ c.template, v.Proper := by
  intro v hv
  cases harray : c.isArray with
  | true =>
    rw [((ht.fielded id c hc).arrays harray).2] at hv
    simp at hv
  | false =>
    rw [← Array.mem_toList_iff, ht.template_layout hc harray] at hv
    obtain ⟨f, -, rfl⟩ := List.mem_map.1 hv
    exact proper_of_keptIn (keptIn_defaultValue f.type)

namespace Registry

/-- Whether static fields hold values of their own, and so do new instances, as all classes have been
linked. -/
structure Proper (r : Registry) : Prop where
  built : r.table.Built
  statics : ∀ id s, r.state? id = some s → ∀ v ∈ s.statics, v.Proper

/-- Whether this is so in a registry if it is in another one. -/
def KeepsProper (r r' : Registry) : Prop := r.Proper → r'.Proper

instance : IsTrans Registry KeepsProper := ⟨fun _ _ _ h₁ h₂ h => h₂ (h₁ h)⟩

variable {r r' : Registry} {id : ClassId} {v : Value}

theorem proper_empty : Registry.empty.Proper where
  built := .empty
  statics id s hs := by simp [state?, empty] at hs

theorem Proper.getStatic? (hr : r.Proper) {slot : Nat} (hv : r.getStatic? id slot = some v) : v.Proper := by
  obtain ⟨s, hs, hslot⟩ := Option.bind_eq_some_iff.1 hv
  exact hr.statics id s hs v (Array.mem_of_getElem? hslot)

theorem Proper.modifyState (hr : r.Proper) (id : ClassId) {change : ClassState → ClassState}
    (hchange : ∀ s : ClassState, (∀ v ∈ s.statics, v.Proper) → ∀ v ∈ (change s).statics, v.Proper) :
    (r.modifyState id change).Proper where
  built := hr.built
  statics i s' hs' := by
    obtain ⟨s, hs, rfl | ⟨-, rfl⟩⟩ := state?_modifyState hs'
    · exact hr.statics i _ hs
    · exact hchange s (hr.statics i s hs)

theorem Proper.setStatic? (hr : r.Proper) {slot : Nat} (hv : v.Proper) (h : r.setStatic? id slot v = some r') :
    r'.Proper := by
  unfold Registry.setStatic? at h
  split_ifs at h
  cases h
  refine hr.modifyState id fun s hs w hw => ?_
  rcases Array.mem_or_eq_of_mem_setIfInBounds hw with hw | rfl
  exacts [hs w hw, hv]

theorem Proper.intern (hr : r.Proper) (text : String) (string : Ref) : (r.intern text string).Proper :=
  ⟨hr.built, hr.statics⟩

theorem Proper.teardown (hr : r.Proper) (held : List ClassId) : (r.teardown held).Proper where
  built := hr.built
  statics i s' hs' := by
    rw [Registry.teardown, state?, Array.getElem?_map] at hs'
    obtain ⟨s, hs, rfl⟩ := Option.map_eq_some_iff.1 hs'
    exact hr.statics i s hs

/-- A class that is entered starts with its constants and default values. -/
theorem Links.keepsProper (h : r.Links r') : r.KeepsProper r' := by
  intro hr
  refine ⟨h.buildsOn.built hr.built, ?_⟩
  cases h with
  | @entered c hc known init hinit statics hstatics =>
    intro i s hs v hv
    rw [state?, Array.getElem?_push] at hs
    split_ifs at hs
    · cases hs
      have hmem : (Except.ok v : Except Fault Value) ∈ statics.toList.map .ok :=
        List.mem_map_of_mem (Array.mem_toList_iff.2 hv)
      rw [← hstatics] at hmem
      obtain ⟨f, -, hf⟩ := List.mem_map.1 hmem
      exact (Field.takes_initialValue hf).proper
    · exact hr.statics i s hs v hv
  | recorded loaded => exact hr.statics

theorem LinksTo.keepsProper (h : r.LinksTo r') : r.KeepsProper r' := by
  induction h with
  | refl => exact id
  | tail _ hlast ih => exact fun hr => hlast.keepsProper (ih hr)

end Registry

theorem admits_keepsProper (paths : ClassPaths) : Linker.Admits paths Registry.KeepsProper where
  refl _ := id
  load loader name r := by
    have hload := builds_load paths [] loader name r
    rcases h : loadClass paths loader name r with ⟨id, r'⟩ | ⟨e, r'⟩
    · exact Linker.meets_of_ok h (hload.of_eq_ok h).1.keepsProper trivial
    · exact Linker.meets_of_error h (hload.of_eq_error h).keepsProper
  resolved r id change hresolved _ _ hr := hr.modifyState id fun s hs => by rwa [hresolved s]

end Linking

namespace Execution

namespace Machine

/-- Whether objects and static fields hold values of their own, and the frames have a property. -/
structure Proper (P : Stack Frame → Prop) (m : Machine) : Prop where
  frames : P m.frames
  heap : m.heap.Proper
  registry : m.registry.Proper

variable {P P' : Stack Frame → Prop} {m : Machine} (hm : m.Proper P)

include hm

theorem Proper.mono (himp : ∀ s, P s → P' s) : m.Proper P' := ⟨himp _ hm.frames, hm.heap, hm.registry⟩

/-- What is held does not matter. -/
theorem Proper.hold (pinned : List Ref) : Machine.Proper P { m with pinned } :=
  ⟨hm.frames, hm.heap, hm.registry⟩

theorem Proper.modifyHeap {f : Heap ClassId → Heap ClassId} (hf : (f m.heap).Proper) :
    (m.modifyHeap f).Proper P :=
  ⟨hm.frames, hf, hm.registry⟩

theorem Proper.collect : m.collect.Proper P := by
  unfold Machine.collect
  exact hm.modifyHeap (hm.heap.collect _)

theorem Proper.allocateCollected {request : Heap.Request ClassId} (hrequest : request.contents.Proper) :
    (m.allocateCollected request).2.Proper P := by
  unfold Machine.allocateCollected
  split
  · next hreserve => exact ⟨hm.frames, (hm.heap.reserve hreserve).place hrequest _, hm.registry⟩
  · exact ⟨hm.frames, hm.heap.growAndAllocate hrequest, hm.registry⟩

theorem Proper.allocate {request : Heap.Request ClassId} (hrequest : request.contents.Proper) :
    (m.allocate request).2.Proper P := by
  unfold Machine.allocate
  split
  · next hreserve => exact ⟨hm.frames, (hm.heap.reserve hreserve).place hrequest _, hm.registry⟩
  · exact hm.collect.allocateCollected hrequest

end Machine

/-- What the frames are like while something goes on, when it has failed, and when it stands still. It may fail
whatever they are like, and stand still whenever it may have failed. -/
structure Regime where
  runs : Stack Frame → Prop
  failed : Stack Frame → Prop
  stuck : Stack Frame → Prop
  fails : ∀ s, runs s → failed s
  stalls : ∀ s, failed s → stuck s

namespace Regime

/-- Frames that have a property all along. -/
def steady (P : Stack Frame → Prop) : Regime := ⟨P, P, P, fun _ => id, fun _ => id⟩

/-- What the frames are like when something has ended abruptly. -/
def ended (d : Regime) : Abrupt → Stack Frame → Prop
  | .stuck => d.stuck
  | _ => d.failed

/-- What goes on after something has failed, for which nothing makes up. -/
def afterwards (d : Regime) : Regime := ⟨d.failed, d.failed, d.stuck, fun _ => id, d.stalls⟩

/-- What the frames are like when something is over, with a result that is as `Q` says. -/
def after {α : Type} (d : Regime) (Q : α → Prop) : Except Abrupt α → Stack Frame → Prop
  | .ok a => fun s => d.runs s ∧ Q a
  | .error e => d.ended e

variable {d : Regime} {e : Abrupt} {s : Stack Frame}

theorem ended_of_failed (h : d.failed s) : d.ended e s := by
  cases e with
  | stuck => exact d.stalls s h
  | thrown | raised | fault => exact h

theorem ended_of_runs (h : d.runs s) : d.ended e s := ended_of_failed (d.fails s h)

theorem ended_afterwards : d.afterwards.ended e = d.ended e := by cases e <;> rfl

@[simp] theorem ended_steady (P : Stack Frame → Prop) (e : Abrupt) : (steady P).ended e = P := by cases e <;> rfl

end Regime

namespace VM

variable {α β : Type}

/-- Where a computation takes the frames, while all other values that the machine holds are values of their own:
from frames with the property `P` to frames with a property that depends on its outcome. -/
def Takes (P : Stack Frame → Prop) (x : VM α) (Q : Except Abrupt α → Stack Frame → Prop) (c : Context) : Prop :=
  ∀ m : Machine, m.Proper P → match x c m with
    | .ok a m' => m'.Proper (Q (.ok a))
    | .error e m' => m'.Proper (Q (.error e))

/-- What a computation keeps: the frames are as the regime `d` says, all other values that the machine holds are
values of their own, and a result is as `Q` says. -/
def Keeps (d : Regime) (x : VM α) (Q : α → Prop) (c : Context) : Prop :=
  ∀ m : Machine, m.Proper d.runs → match x c m with
    | .ok a m' => m'.Proper d.runs ∧ Q a
    | .error e m' => m'.Proper (d.ended e)

/-- What a computation keeps whose result does not matter. -/
abbrev Stays (d : Regime) (x : VM α) (c : Context) : Prop := Keeps d x (fun _ => True) c

variable {d : Regime} {P P' : Stack Frame → Prop} {x : VM α} {g : α → VM β} {Q R : α → Prop}
  {S : β → Prop} {T T' : Except Abrupt α → Stack Frame → Prop}
  {U : Except Abrupt β → Stack Frame → Prop} {c : Context}

theorem Keeps.of_eq_ok (hx : Keeps d x Q c) {m m' : Machine} (hm : m.Proper d.runs) {a : α}
    (h : x c m = .ok a m') : m'.Proper d.runs ∧ Q a := by
  have hx := hx m hm
  rwa [h] at hx

theorem Keeps.of_eq_error (hx : Keeps d x Q c) {m m' : Machine} (hm : m.Proper d.runs) {e : Abrupt}
    (h : x c m = .error e m') : m'.Proper (d.ended e) := by
  have hx := hx m hm
  rwa [h] at hx

theorem Takes.of_eq_ok (hx : Takes P x T c) {m m' : Machine} (hm : m.Proper P) {a : α} (h : x c m = .ok a m') :
    m'.Proper (T (.ok a)) := by
  have hx := hx m hm
  rwa [h] at hx

theorem Takes.of_eq_error (hx : Takes P x T c) {m m' : Machine} (hm : m.Proper P) {e : Abrupt}
    (h : x c m = .error e m') : m'.Proper (T (.error e)) := by
  have hx := hx m hm
  rwa [h] at hx

/-! ### Where computations take frames -/

theorem Takes.mono (hx : Takes P x T c) (hP : ∀ s, P' s → P s) (hT : ∀ o s, T o s → T' o s) : Takes P' x T' c := by
  intro m hm
  have hm := hm.mono hP
  rcases h : x c m with ⟨a, m'⟩ | ⟨e, m'⟩
  · exact (hx.of_eq_ok hm h).mono (hT _)
  · exact (hx.of_eq_error hm h).mono (hT _)

/-- It is enough to look at all frames one by one. -/
theorem takes_of_each (h : ∀ s, P s → Takes (· = s) x T c) : Takes P x T c :=
  fun m hm => h m.frames hm.frames m ⟨rfl, hm.heap, hm.registry⟩

theorem takes_pure {a : α} (h : ∀ s, P s → T (.ok a) s) : Takes P (pure a) T c := fun _ hm => hm.mono h

theorem takes_throw {e : Abrupt} (h : ∀ s, P s → T (.error e) s) : Takes P (throw e : VM α) T c :=
  fun _ hm => hm.mono h

theorem Takes.bind (hx : Takes P x T c) (hg : ∀ a, Takes (T (.ok a)) (g a) U c)
    (herror : ∀ e s, T (.error e) s → U (.error e) s) : Takes P (x >>= g) U c := by
  intro m hm
  rcases h : x c m with ⟨a, m'⟩ | ⟨e, m'⟩
  · rw [bind_of_ok h]
    exact hg a m' (hx.of_eq_ok hm h)
  · rw [bind_of_error h]
    exact (hx.of_eq_error hm h).mono (herror e)

/-- What comes after a computation that is sure of its result. -/
theorem Takes.bind_sure {a : α} {Q : Stack Frame → Prop} (hx : Takes P x (fun o s => o = .ok a ∧ Q s) c)
    (hg : Takes Q (g a) U c) : Takes P (x >>= g) U c := by
  refine hx.bind (fun b => takes_of_each fun s hs => ?_) fun e s h => by cases h.1
  obtain ⟨hb, hs⟩ := hs
  cases hb
  exact hg.mono (fun t (ht : t = s) => ht ▸ hs) fun _ _ => id

theorem takes_throw_bind {e : Abrupt} (h : ∀ s, P s → U (.error e) s) : Takes P (throw e >>= g) U c :=
  fun _ hm => hm.mono h

/-- What comes after a computation, whatever its outcome is. -/
theorem Takes.attempt_bind {g : Except Abrupt α → VM β} (hx : Takes P x T c)
    (hg : ∀ o, o ≠ .error .stuck → Takes (T o) (g o) U c)
    (hstuck : ∀ s, T (.error .stuck) s → U (.error .stuck) s) : Takes P (VM.attempt x >>= g) U c := by
  intro m hm
  rcases h : x c m with ⟨a, m'⟩ | ⟨e, m'⟩
  · rw [bind_of_ok (show VM.attempt x c m = .ok (.ok a) m' by rw [VM.attempt, h])]
    exact hg _ (by simp) m' (hx.of_eq_ok hm h)
  · cases e with
    | stuck =>
      rw [bind_of_error (show VM.attempt x c m = .error .stuck m' by rw [VM.attempt, h])]
      exact (hx.of_eq_error hm h).mono hstuck
    | thrown | raised | fault =>
      rw [bind_of_ok (show VM.attempt x c m = .ok (.error _) m' by rw [VM.attempt, h])]
      exact hg _ (by simp) m' (hx.of_eq_error hm h)

theorem Keeps.takes (hx : Keeps d x Q c) (hok : ∀ a s, d.runs s → Q a → T (.ok a) s)
    (herror : ∀ e s, d.ended e s → T (.error e) s) : Takes d.runs x T c := by
  intro m hm
  rcases h : x c m with ⟨a, m'⟩ | ⟨e, m'⟩
  · obtain ⟨hm', ha⟩ := hx.of_eq_ok hm h
    exact hm'.mono fun s hs => hok a s hs ha
  · exact (hx.of_eq_error hm h).mono (herror e)

theorem Keeps.takes_after (hx : Keeps d x Q c) : Takes d.runs x (d.after Q) c :=
  hx.takes (fun _ _ hs ha => ⟨hs, ha⟩) fun _ _ => id

theorem Takes.keeps (hx : Takes d.runs x T c) (hok : ∀ a s, T (.ok a) s → d.runs s ∧ Q a)
    (herror : ∀ e s, T (.error e) s → d.ended e s) : Keeps d x Q c := by
  intro m hm
  rcases h : x c m with ⟨a, m'⟩ | ⟨e, m'⟩
  · have hm' := hx.of_eq_ok hm h
    exact ⟨hm'.mono fun s hs => (hok a s hs).1, (hok a _ hm'.frames).2⟩
  · exact (hx.of_eq_error hm h).mono (herror e)

/-! ### Putting computations together -/

theorem keeps_pure {a : α} (ha : Q a) : Keeps d (pure a) Q c := fun _ hm => ⟨hm, ha⟩

theorem keeps_throw (e : Abrupt) : Keeps d (throw e : VM α) Q c :=
  fun _ hm => hm.mono fun _ => Regime.ended_of_runs

theorem keeps_fail (e : Fault) : Keeps d (fail e : VM α) Q c := keeps_throw _

theorem Keeps.mono (hx : Keeps d x Q c) (himp : ∀ a, Q a → R a) : Keeps d x R c := by
  intro m hm
  rcases h : x c m with ⟨a, m'⟩ | ⟨e, m'⟩
  · obtain ⟨hm', ha⟩ := hx.of_eq_ok hm h
    exact ⟨hm', himp a ha⟩
  · exact hx.of_eq_error hm h

theorem Keeps.stays (hx : Keeps d x Q c) : Stays d x c := hx.mono fun _ _ => trivial

theorem Keeps.bind (hx : Keeps d x Q c) (hg : ∀ a, Q a → Keeps d (g a) S c) : Keeps d (x >>= g) S c := by
  intro m hm
  rcases h : x c m with ⟨a, m'⟩ | ⟨e, m'⟩
  · obtain ⟨hm', ha⟩ := hx.of_eq_ok hm h
    rw [bind_of_ok h]
    exact hg a ha m' hm'
  · rw [bind_of_error h]
    exact hx.of_eq_error hm h

/-- What comes after a computation whose result does not matter. -/
theorem Stays.andThen (hx : Stays d x c) (hg : ∀ a, Keeps d (g a) S c) : Keeps d (x >>= g) S c :=
  hx.bind fun a _ => hg a

theorem keeps_pure_bind {a : α} (hg : Keeps d (g a) S c) : Keeps d (pure a >>= g) S c :=
  (keeps_pure rfl).bind fun _ hb => hb ▸ hg

theorem keeps_throw_bind (e : Abrupt) : Keeps d (throw e >>= g) S c :=
  Keeps.bind (Q := fun _ => False) (keeps_throw e) fun _ h => h.elim

theorem keeps_ite {p : Prop} [Decidable p] {y : VM α} (hx : p → Keeps d x Q c) (hy : ¬ p → Keeps d y Q c) :
    Keeps d (if p then x else y) Q c := by
  split
  · exact hx ‹_›
  · exact hy ‹_›

/-- A computation behind a check. -/
theorem keeps_guard {p : Prop} [Decidable p] {y : VM Unit} {z : Unit → VM α}
    (hy : p → Keeps d y (fun _ => False) c) (hz : ¬ p → Keeps d (z ()) Q c) :
    Keeps d (if p then y >>= z else z ()) Q c :=
  keeps_ite (fun hp => (hy hp).bind fun _ h => h.elim) hz

theorem keeps_ofExcept (o : Except Fault α) : Stays d (ofExcept o) c := by
  cases o with
  | ok a => exact keeps_pure trivial
  | error e => exact keeps_fail e

theorem keeps_except (o : Except Abrupt α) : Keeps d (MonadExcept.ofExcept o) (fun a => o = .ok a) c := by
  cases o with
  | ok a => exact keeps_pure rfl
  | error e => exact keeps_throw e

theorem keeps_get : Keeps d (getThe Machine) (Machine.Proper d.runs) c := fun _ hm => ⟨hm, hm⟩

theorem keeps_getRegistry : Keeps d (getThe Registry) Registry.Proper c := fun _ hm => ⟨hm, hm.registry⟩

theorem keeps_read : Keeps d (readThe Context) (c = ·) c := fun _ hm => ⟨hm, rfl⟩

theorem keeps_table : Stays d table c := keeps_getRegistry.bind fun _ _ => keeps_pure trivial

theorem keeps_modify {f : Machine → Machine} (h : ∀ m, m.Proper d.runs → (f m).Proper d.runs) :
    Stays d (modifyThe Machine f) c :=
  fun m hm => ⟨h m hm, trivial⟩

theorem keeps_modifyRegistry {f : Registry → Registry} (h : ∀ r, r.Proper → (f r).Proper) :
    Stays d (modifyThe Registry f) c :=
  fun _ hm => ⟨⟨hm.frames, hm.heap, h _ hm.registry⟩, trivial⟩

/-- What a computation does not break even if it fails. -/
theorem Keeps.attempt (hx : Keeps (.steady d.runs) x Q c) :
    Keeps d (VM.attempt x) (fun o => ∀ a, o = .ok a → Q a) c := by
  intro m hm
  unfold VM.attempt
  rcases h : x c m with ⟨a, m'⟩ | ⟨_ | _ | _ | _, m'⟩
  · obtain ⟨hm', ha⟩ := hx.of_eq_ok hm h
    refine ⟨hm', ?_⟩
    rintro _ ⟨⟩
    exact ha
  · exact ⟨hx.of_eq_error hm h, nofun⟩
  · exact ⟨hx.of_eq_error hm h, nofun⟩
  · exact ⟨hx.of_eq_error hm h, nofun⟩
  · exact (hx.of_eq_error hm h).mono fun _ => Regime.ended_of_runs

/-- What fails is followed by what fails as well. -/
theorem Keeps.attempt_failing {g : Except Abrupt α → VM β} (hx : Keeps d x Q c)
    (hok : ∀ a, Q a → Keeps d (g (.ok a)) S c) (herror : ∀ e, Keeps d.afterwards (g (.error e)) (fun _ => False) c) :
    Keeps d (VM.attempt x >>= g) S c := by
  have htakes : Takes d.runs (VM.attempt x >>= g) (d.after S) c := by
    refine Takes.attempt_bind hx.takes_after (fun o ho => ?_) fun _ => id
    cases o with
    | ok a => exact fun m hm => (hok a hm.frames.2).takes_after m (hm.mono fun _ => And.left)
    | error e =>
      have hfailed : Takes d.failed (g (.error e)) (d.after S) c :=
        (herror e).takes (d := d.afterwards) (fun _ _ _ => False.elim) fun e s hs => by
          rwa [Regime.ended_afterwards] at hs
      refine hfailed.mono (fun _ hs => ?_) fun _ _ => id
      cases e with
      | stuck => exact absurd rfl ho
      | thrown | raised | fault => exact hs
  exact htakes.keeps (fun _ _ => id) fun _ _ => id

theorem Keeps.result? (hx : Keeps (.steady d.runs) x Q c) :
    Keeps d (VM.result? x) (fun o => ∀ a, o = some a → Q a) c := by
  refine hx.attempt.bind fun o ho => ?_
  split
  · refine keeps_pure ?_
    rintro _ ⟨⟩
    exact ho _ rfl
  · exact keeps_pure nofun

theorem Keeps.pinning (refs : List Ref) (hx : Keeps d x Q c) : Keeps d (VM.pinning refs x) Q c := by
  intro m hm
  unfold VM.pinning
  dsimp only
  have hheld := hm.hold (refs ++ m.pinned)
  rcases h : x c { m with pinned := refs ++ m.pinned } with ⟨a, m'⟩ | ⟨_ | _ | _ | _, m'⟩
  · obtain ⟨hm', ha⟩ := hx.of_eq_ok hheld h
    exact ⟨hm'.hold m.pinned, ha⟩
  · exact (hx.of_eq_error hheld h).hold m.pinned
  · exact (hx.of_eq_error hheld h).hold m.pinned
  · exact (hx.of_eq_error hheld h).hold m.pinned
  · exact hx.of_eq_error hheld h

theorem keeps_pin (r : Ref) : Stays d (pin r) c := keeps_modify fun _ hm => hm.hold _

theorem keeps_note (n : Note) : Stays d (note n) c :=
  keeps_modify fun _ hm => ⟨hm.frames, hm.heap, hm.registry⟩

theorem Keeps.notingFailure (n : Note) (hx : Keeps d x Q c) : Keeps d (VM.notingFailure n x) Q c := by
  intro m hm
  unfold VM.notingFailure
  rcases h : x c m with ⟨a, m'⟩ | ⟨e, m'⟩
  · exact hx.of_eq_ok hm h
  · have hm' := hx.of_eq_error hm h
    exact ⟨hm'.frames, hm'.heap, hm'.registry⟩

theorem keeps_tick : Stays d tick c := by
  intro m hm
  unfold tick
  split_ifs
  · exact hm.mono fun _ => Regime.ended_of_runs
  · exact ⟨⟨hm.frames, hm.heap, hm.registry⟩, trivial⟩

/-- A computation for each entry of a list. -/
theorem keeps_mapM {f : α → VM β} (hf : ∀ a, Stays d (f a) c) (as : List α) : Stays d (as.mapM f) c := by
  induction as with
  | nil => exact keeps_pure trivial
  | cons a as ih =>
    rw [List.mapM_cons]
    exact (hf a).bind fun _ _ => ih.bind fun _ _ => keeps_pure trivial

/-- A loop over a list. -/
theorem keeps_forIn {σ : Type} {f : α → σ → VM (ForInStep σ)} (hf : ∀ a s, Stays d (f a s) c) (as : List α)
    (init : σ) : Stays d (forIn as init f) c := by
  induction as generalizing init with
  | nil => exact keeps_pure trivial
  | cons a as ih =>
    rw [List.forIn_cons]
    refine (hf a init).bind fun step _ => ?_
    cases step with
    | done s => exact keeps_pure trivial
    | yield s => exact ih s

/-! ### Classes -/

theorem keeps_link {x : ClassPaths → Linker α}
    (hx : ∀ r, Linker.Meets Registry.KeepsProper (x c.env.paths) (fun _ _ => True) r) : Stays d (link x) c := by
  intro m hm
  unfold link
  rcases h : x c.env.paths m.registry with ⟨a, r⟩ | ⟨e, r⟩
  · exact ⟨⟨hm.frames, hm.heap, ((hx _).of_eq_ok h).1 hm.registry⟩, trivial⟩
  · exact Machine.Proper.mono ⟨hm.frames, hm.heap, (hx _).of_eq_error h hm.registry⟩ fun _ => Regime.ended_of_runs

theorem keeps_getClass (id : ClassId) :
    Keeps d (getClass id) (fun cl => ∀ v ∈ cl.template, v.Proper) c := by
  intro m hm
  unfold getClass link
  dsimp only
  have hget := Linker.meets_getClass (T := Registry.KeepsProper) (r := m.registry) (fun h => h) id
  rcases h : Linker.getClass id m.registry with ⟨cl, r⟩ | ⟨e, r⟩
  · obtain ⟨hr, -, hcl⟩ := hget.of_eq_ok h
    exact ⟨⟨hm.frames, hm.heap, hr hm.registry⟩, hm.registry.built.proper_template hcl⟩
  · exact Machine.Proper.mono ⟨hm.frames, hm.heap, hget.of_eq_error h hm.registry⟩ fun _ => Regime.ended_of_runs

theorem keeps_loadClass (loader : Loader) (name : String) : Stays d (link (loadClass · loader name)) c :=
  keeps_link fun r => (admits_keepsProper _).load loader name r

theorem keeps_primitiveArrayClass (element : Primitive) :
    Stays d (link (primitiveArrayClass · element)) c :=
  keeps_loadClass .boot _

theorem keeps_arrayClassOf (component : ClassId) : Stays d (link (arrayClassOf · component)) c :=
  keeps_link fun _ => (admits_keepsProper _).arrayClassOf component

theorem keeps_resolveClass (source : ClassId) (index : UInt16) :
    Stays d (link (resolveClass · source index)) c :=
  keeps_link fun _ => (admits_keepsProper _).resolveClass source index

theorem keeps_resolveField (source : ClassId) (index : UInt16) :
    Stays d (link (resolveField · source index)) c :=
  keeps_link fun _ => ((admits_keepsProper _).resolveField source index).mono fun _ _ _ _ => trivial

theorem keeps_resolveMethod (source : ClassId) (index : UInt16) :
    Stays d (link (resolveMethod · source index)) c :=
  keeps_link fun _ => ((admits_keepsProper _).resolveMethod source index).mono fun _ _ _ _ => trivial

theorem keeps_dottedName (id : ClassId) : Stays d (dottedName id) c :=
  keeps_table.bind fun _ _ => keeps_pure trivial

theorem keeps_coreClass (name : String) : Stays d (coreClass name) c := keeps_loadClass .boot name

theorem keeps_coreField (className name descriptor : String) :
    Stays d (coreField className name descriptor) c := by
  refine (keeps_coreClass className).bind fun id _ => keeps_table.bind fun t _ => ?_
  split
  · exact keeps_pure trivial
  · exact keeps_table.bind fun _ _ => keeps_fail _

/-! ### Objects -/

theorem keeps_readHeap {f : Heap ClassId → Except Fault α} (hf : ∀ h a, h.Proper → f h = .ok a → Q a) :
    Keeps d (readHeap f) Q c := by
  refine keeps_get.bind fun m hm => ?_
  rcases h : f m.heap with e | a
  · exact keeps_fail e
  · exact keeps_pure (hf _ a hm.heap h)

theorem keeps_readObject {f : Heap ClassId → Ref → Except Fault α} {r : Ref}
    (hf : ∀ h a, h.Proper → f h r = .ok a → Q a) : Keeps d (readObject f r) Q c := by
  refine keeps_get.bind fun m hm => ?_
  split
  · next a ha => exact keeps_pure (hf _ a hm.heap ha)
  · refine keeps_get.bind fun _ _ => ?_
    exact keeps_ite (fun _ => (keeps_note _).bind fun _ _ => keeps_fail _) fun _ => keeps_fail _

theorem keeps_classOf (r : Ref) : Stays d (classOf r) c := keeps_readObject fun _ _ _ _ => trivial

theorem keeps_getField (r : Ref) (slot : Nat) : Keeps d (getField r slot) Value.Proper c :=
  keeps_readObject fun _ _ hh hv => hh.getField hv

theorem keeps_elements (r : Ref) : Keeps d (elements r) Elements.Proper c :=
  keeps_readObject fun _ _ hh he => hh.elements he

theorem keeps_modifyHeap {f : Heap ClassId → Heap ClassId} (hf : ∀ h, h.Proper → (f h).Proper) :
    Stays d (modifyHeap f) c :=
  keeps_modify fun _ hm => hm.modifyHeap (hf _ hm.heap)

theorem keeps_setField (r : Ref) (slot : Nat) {v : Value} (hv : v.Proper) : Stays d (setField r slot v) c :=
  (keeps_getField r slot).bind fun _ _ => keeps_modifyHeap fun _ hh =>
    hh.modifyContents r fun _ hcontents => hcontents.putField slot hv

/-- What an array keeps is a value of its own. -/
theorem keeps_storeElement (r : Ref) (i : Nat) (v : Value) : Stays d (storeElement r i v) c := by
  refine (keeps_elements r).bind fun e _ => ?_
  split
  · next kept hkept =>
    have hstore : Stays d (modifyHeap (·.putElement r i kept)) c := keeps_modifyHeap fun _ hh =>
      hh.modifyContents r fun _ hcontents => hcontents.putElement i (Elements.proper_of_kept? hkept)
    exact hstore.bind fun _ _ => keeps_pure trivial
  · exact keeps_pure trivial

theorem keeps_create {request : Heap.Request ClassId} (hrequest : request.contents.Proper) :
    Stays d (create request) c := by
  intro m hm
  have hm' := hm.allocate hrequest
  unfold create
  rcases h : m.allocate request with ⟨_ | _, m'⟩
  · rw [h] at hm'
    exact hm'.mono fun _ => Regime.ended_of_runs
  · rw [h] at hm'
    exact ⟨hm', trivial⟩

theorem keeps_allocate {request : Heap.Request ClassId} (hrequest : request.contents.Proper) :
    Stays d (allocate request) c :=
  keeps_tick.bind fun _ _ => keeps_create hrequest

theorem keeps_allocate_zeros (id : ClassId) (kind : ElementKind) (length : Nat) :
    Stays d (allocate (.zeros id kind length)) c :=
  keeps_allocate (Elements.proper_zeros kind length)

theorem keeps_newInstance (id : ClassId) : Stays d (newInstance id) c :=
  (keeps_getClass id).bind fun _ htemplate => keeps_allocate htemplate

theorem keeps_collect : Stays d collect c :=
  keeps_tick.bind fun _ _ => keeps_modify fun _ hm => hm.collect

/-! ### Monitors -/

theorem keeps_monitorOf (r : Ref) : Stays d (monitorOf r) c := keeps_readObject fun _ _ _ _ => trivial

theorem keeps_setMonitor (r : Ref) (monitor : Monitor) : Stays d (modifyHeap (·.setMonitor r monitor)) c :=
  keeps_modifyHeap fun _ hh => hh.setMonitor r monitor

theorem keeps_enterMonitor (r : Ref) : Stays d (enterMonitor r) c := by
  refine keeps_get.bind fun _ _ => (keeps_monitorOf r).bind fun _ _ => ?_
  split
  · exact keeps_setMonitor r _
  · exact keeps_throw _

theorem keeps_exitMonitor (r : Ref) : Stays d (exitMonitor r) c := by
  refine keeps_get.bind fun _ _ => (keeps_monitorOf r).bind fun _ _ => ?_
  split
  · exact keeps_setMonitor r _
  · exact keeps_throw _

theorem keeps_leaveCallMonitor (r : Ref) : Stays d (leaveCallMonitor r) c :=
  (keeps_note _).bind fun _ _ => keeps_exitMonitor r

/-! ### Strings and class objects -/

theorem keeps_readChars (r : Ref) : Stays d (readChars r) c := by
  refine keeps_table.bind fun _ _ => (keeps_classOf r).bind fun _ _ => ?_
  refine keeps_guard (fun _ => keeps_fail _) fun _ => (keeps_getField r charsSlot).bind fun v _ => ?_
  split
  · refine (keeps_elements _).bind fun e _ => ?_
    split
    · exact keeps_pure trivial
    · exact keeps_fail _
  · exact keeps_pure trivial

theorem keeps_readString (r : Ref) : Stays d (readString r) c :=
  (keeps_readChars r).bind fun _ _ => keeps_pure trivial

theorem keeps_newStringOfUnits (units : List UInt16) : Stays d (newStringOfUnits units) c := by
  refine (keeps_primitiveArrayClass .char).bind fun charArray _ => (keeps_coreClass _).bind fun cls _ => ?_
  refine Keeps.bind (keeps_allocate (Elements.proper_ofChars units)) fun chars _ => ?_
  refine ((keeps_newInstance cls).pinning [chars]).bind fun string _ => ?_
  exact (keeps_setField string charsSlot (by nofun)).bind fun _ _ => keeps_pure trivial

theorem keeps_newString (text : String) : Stays d (newString text) c := keeps_newStringOfUnits _

theorem keeps_intern (text : String) : Stays d (intern text) c := by
  refine keeps_getRegistry.bind fun r _ => ?_
  split
  · exact keeps_pure trivial
  · refine (keeps_newString text).bind fun string _ => ?_
    exact (keeps_modifyRegistry fun r hr => hr.intern text string).bind fun _ _ => keeps_pure trivial

theorem keeps_handOut (units : List UInt16) (r : Ref) : Stays d (handOut units r) c :=
  Keeps.bind (keeps_modify fun _ hm => ⟨hm.frames, hm.heap, hm.registry⟩) fun _ _ => keeps_pure trivial

theorem keeps_stringConstant (id : ClassId) (index : UInt16) : Stays d (stringConstant id index) c := by
  refine keeps_getRegistry.bind fun r _ => ?_
  split
  · exact keeps_pure trivial
  · refine (keeps_getClass id).bind fun cl _ => (keeps_ofExcept _).bind fun constant _ => ?_
    split
    · refine (keeps_ofExcept _).bind fun text _ => (keeps_intern text).bind fun string _ => ?_
      have hrecord : Stays d (modifyThe Registry (·.recordString id index string)) c :=
        keeps_modifyRegistry fun r hr => hr.modifyState id fun _ hs => hs
      exact hrecord.bind fun _ _ => keeps_handOut _ string
    · exact keeps_fail _

theorem keeps_classObjectOf (id : ClassId) : Stays d (classObjectOf id) c := by
  refine keeps_getRegistry.bind fun r _ => ?_
  split
  · exact keeps_pure trivial
  · refine (keeps_coreClass _).bind fun classClass _ => (keeps_coreField _ _ _).bind fun slot _ => ?_
    refine (keeps_dottedName id).bind fun text _ => (keeps_intern text).bind fun name _ => ?_
    refine (keeps_newInstance classClass).bind fun object _ => ?_
    refine (keeps_setField object slot (by nofun)).bind fun _ _ => ?_
    have hobject : Stays d (modifyThe Registry (·.setClassObject id object)) c :=
      keeps_modifyRegistry fun r hr => hr.modifyState id fun _ hs => hs
    exact hobject.bind fun _ _ => keeps_pure trivial

theorem keeps_storeStrings (array : Ref) (texts : List String) (start : Nat) :
    Stays d (storeStrings array start texts) c := by
  induction texts generalizing start with
  | nil => exact keeps_pure trivial
  | cons text rest ih =>
    exact (keeps_newString text).bind fun string _ => (keeps_storeElement array start _).bind fun _ _ =>
      ih (start + 1)

theorem keeps_stringArrayClass : Stays d stringArrayClass c :=
  (keeps_coreClass _).bind fun cls _ => keeps_arrayClassOf cls

theorem keeps_newStringArray (texts : List String) : Stays d (newStringArray texts) c := by
  refine keeps_stringArrayClass.bind fun cls _ => (keeps_allocate_zeros cls _ _).bind fun array _ => ?_
  exact ((keeps_storeStrings array texts 0).pinning [array]).bind fun _ _ => keeps_pure trivial

/-! ### Throwables -/

theorem keeps_message? (r : Ref) : Stays d (message? r) c := by
  refine Keeps.bind (Keeps.result? (Q := fun _ => True) ?_) fun _ _ => keeps_pure trivial
  refine (keeps_coreField _ _ _).bind fun slot _ => (keeps_getField r slot).bind fun v _ => ?_
  split
  · exact (keeps_readString _).bind fun _ _ => keeps_pure trivial
  · exact keeps_pure trivial

theorem keeps_describe (r : Ref) : Stays d (describe r) c := by
  refine (keeps_classOf r).result?.bind fun o _ => ?_
  split
  · exact keeps_pure trivial
  · exact (keeps_dottedName _).bind fun _ _ => (keeps_message? r).bind fun _ _ => keeps_pure trivial

theorem keeps_stringsIn (array : Ref) : Stays d (stringsIn array) c := by
  refine (keeps_elements array).result?.bind fun o _ => ?_
  refine (keeps_mapM (fun v => ?_) _).bind fun _ _ => keeps_pure trivial
  split
  · exact (keeps_readString _).result?.stays
  · exact keeps_pure trivial

theorem keeps_storedTrace (r : Ref) : Stays d (storedTrace r) c := by
  have hread : Stays (.steady d.runs) (do getField r (← traceSlot)) c :=
    (keeps_coreField _ _ _).bind fun slot _ => (keeps_getField r slot).stays
  refine hread.result?.bind fun o _ => ?_
  split
  · exact keeps_stringsIn _
  · exact keeps_pure trivial

theorem keeps_traceLines (constructing : Option Ref) : Stays d (traceLines constructing) c := by
  refine keeps_get.bind fun _ _ => keeps_mapM (fun f => ?_) _
  exact (keeps_getClass f.cls).bind fun _ _ => keeps_pure trivial

theorem keeps_fillInStackTrace (r : Ref) (skip : Bool) : Stays d (fillInStackTrace r skip) c := by
  refine (keeps_traceLines _).bind fun lines _ => keeps_stringArrayClass.bind fun cls _ => ?_
  refine (keeps_coreField _ _ _).bind fun slot _ => Keeps.pinning [r] ?_
  refine (keeps_allocate_zeros cls _ _).bind fun trace _ => (keeps_pin trace).bind fun _ _ => ?_
  exact (keeps_storeStrings trace lines 0).bind fun _ _ => keeps_setField r slot (by nofun)

theorem keeps_uncaught (r : Ref) : Stays d (uncaught r) c := by
  refine (keeps_classOf r).attempt.bind fun o _ => ?_
  split
  · exact keeps_pure trivial
  · exact keeps_pure trivial
  · refine keeps_table.bind fun _ _ => (keeps_message? r).bind fun _ _ => keeps_get.bind fun _ _ => ?_
    exact (keeps_storedTrace r).bind fun _ _ => keeps_pure trivial

end VM

end Execution

end Jvm
