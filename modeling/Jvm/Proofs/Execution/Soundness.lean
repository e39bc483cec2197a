import Mathlib
import Jvm.Execution.Threads
import Jvm.Proofs.Execution.Dispatch
import Jvm.Proofs.Execution.Objects

/-! # Sound machines

A machine is sound if its classes and objects are, its static fields hold what they may, everything it holds
on to is there, every reference that it has followed named an object, and the strings that programs have been
given for texts still stand for them. `VM.Meets P x Q c m` says that a computation `x` that begins with a
sound machine `m` ends with one: it keeps the objects with the property `P`, its result is as `Q` says, and
an exception that it throws is there. A computation that creates no object keeps all of them (`VM.Quiet`).
One that does may collect, and keeps those that are held meanwhile. -/

namespace Jvm

namespace Linking.Registry

/-- Whether a registry keeps an object for good: as a class object, or as the string for a text. -/
def Retains (r : Registry) (x : Ref) : Prop :=
  (∃ id, r.classObject? id = some x) ∨ ∃ text, r.interned? text = some x

variable {r r' : Registry} {x : Ref}

theorem Retains.mem_roots (hr : r.Linked) (hx : r.Retains x) : x ∈ r.roots := by
  rcases hx with ⟨id, hid⟩ | ⟨text, htext⟩
  · obtain ⟨s, hs, hobject⟩ := Option.bind_eq_some_iff.1 hid
    exact hr.mem_roots.2 (.inl ⟨id, s, hs, by simp [ClassState.roots, hobject]⟩)
  · exact hr.mem_roots.2 (.inr ⟨text, htext⟩)

/-- Nothing new is held on to while classes are loaded and references resolved. -/
theorem Resolves.mem_roots (h : r.Resolves r') (hr : r.Consistent) (hx : x ∈ r'.roots) :
    x ∈ r.roots := by
  obtain ⟨hr', hgrows⟩ := h.consistent hr
  rcases hr'.linked.mem_roots.1 hx with ⟨id, s', hs', hmem⟩ | ⟨text, htext⟩
  · rcases hgrows.roots id s' hs' with hnil | ⟨s, hs, heq⟩
    · rw [hnil] at hmem
      cases hmem
    · exact hr.linked.mem_roots.2 (.inl ⟨id, s, hs, heq ▸ hmem⟩)
  · exact hr.linked.mem_roots.2 (.inr ⟨text, (h.interned?_eq hr text).symm.trans htext⟩)

/-- Whether two registries have the same class objects and the same strings for texts. -/
structure Steady (r r' : Registry) : Prop where
  classObject : ∀ id, r'.classObject? id = r.classObject? id
  interned : ∀ text, r'.interned? text = r.interned? text

theorem Steady.trans {r₁ r₂ r₃ : Registry} (h₁₂ : r₁.Steady r₂) (h₂₃ : r₂.Steady r₃) :
    r₁.Steady r₃ :=
  ⟨fun id => (h₂₃.classObject id).trans (h₁₂.classObject id),
    fun text => (h₂₃.interned text).trans (h₁₂.interned text)⟩

theorem Resolves.steady (h : r.Resolves r') (hr : r.Consistent) : r.Steady r' where
  classObject id := by
    have hgrows := (h.consistent hr).2
    unfold classObject?
    cases hs : r.state? id with
    | some s =>
      obtain ⟨s', hs', heq⟩ := h.states id s hs
      rw [hs', heq]
      rfl
    | none =>
      -- a class that is new holds on to nothing
      cases hs' : r'.state? id with
      | none => rfl
      | some s' =>
        rcases hgrows.roots id s' hs' with hnil | ⟨s, hs'', -⟩
        · simp only [ClassState.roots, List.append_eq_nil_iff, Option.toList_eq_nil_iff] at hnil
          exact hnil.1.2
        · cases hs.symm.trans hs''
  interned := h.interned?_eq hr

end Linking.Registry

namespace Execution

open Linking

namespace Machine

/-- Whether the classes and objects of a machine are sound, nothing it refers to is missing, and the strings
that stand for texts are the same for good. -/
structure Sound (m : Machine) : Prop where
  registry : m.registry.Consistent
  typed : m.registry.WellTyped
  heap : m.heap.Sound m.registry.table
  pinned : ∀ r ∈ m.pinned, m.heap.IsLive r
  frames : ∀ f ∈ m.frames.list, f.All m.heap.IsLive
  classes : ∀ r ∈ m.registry.roots, m.heap.IsLive r
  followed : ∀ r, Note.missing r ∉ m.notes
  handedOut : ∀ us r, (us, r) ∈ m.handedOut → m.registry.interned? (Text.Utf16.decode us) = some r

/-- The machine holding on to some more objects. -/
abbrev hold (m : Machine) (refs : List Ref) : Machine := { m with pinned := refs ++ m.pinned }

/-- Whether a machine holds an object until it lets go, whatever its frames do. -/
def Held (m : Machine) (r : Ref) : Prop := r ∈ m.pinned ∨ m.registry.Retains r

variable {m m' m₁ : Machine} {P P' : Ref → Prop} {r : Ref}

theorem mem_roots : r ∈ m.roots ↔
    r ∈ m.pinned ∨ (∃ f ∈ m.frames.list, r ∈ f.roots) ∨ r ∈ m.registry.roots := by
  simp only [roots, threadRoots, List.mem_append, List.mem_flatMap, or_assoc]

theorem Sound.isLive_of_mem_roots (hm : m.Sound) (hr : r ∈ m.roots) : m.heap.IsLive r := by
  rcases mem_roots.1 hr with hr | ⟨f, hf, hr⟩ | hr
  · exact hm.pinned r hr
  · exact Frame.all_iff_roots.1 (hm.frames f hf) r hr
  · exact hm.classes r hr

theorem Held.mem_roots (hm : m.Sound) (hr : m.Held r) : r ∈ m.roots :=
  Machine.mem_roots.2 (hr.imp_right fun h => .inr (h.mem_roots hm.registry.linked))

theorem Held.isLive (hm : m.Sound) (hr : m.Held r) : m.heap.IsLive r :=
  hm.isLive_of_mem_roots (hr.mem_roots hm)

theorem Held.reachable (hm : m.Sound) (hr : m.Held r) : m.heap.Reachable m.roots r :=
  .root (hr.mem_roots hm) (hr.isLive hm)

/-- How a machine goes on to a sound one: classes stay, what is kept for good is kept, what programs have been
given is not forgotten, and the objects with a property stay what they are, and held. -/
structure Leads (P : Ref → Prop) (m m' : Machine) : Prop where
  sound : m'.Sound
  table : m.registry.table.Within m'.registry.table
  handedOut : m.handedOut ⊆ m'.handedOut
  retained : ∀ r, m.registry.Retains r → m'.registry.Retains r
  pinned : ∀ r, P r → r ∈ m.pinned → r ∈ m'.pinned
  keeps : m.heap.Keeps P m'.heap

theorem Leads.refl (hm : m.Sound) (P : Ref → Prop) : m.Leads P m :=
  ⟨hm, .refl _, .refl _, fun _ => id, fun _ _ => id, .refl P _⟩

theorem Leads.trans (h₁ : m.Leads P m₁) (h₂ : m₁.Leads P m') : m.Leads P m' :=
  ⟨h₂.sound, h₁.table.trans h₂.table, List.Subset.trans h₁.handedOut h₂.handedOut,
    fun r hr => h₂.retained r (h₁.retained r hr), fun r hP hr => h₂.pinned r hP (h₁.pinned r hP hr),
    h₁.keeps.trans h₂.keeps⟩

theorem Leads.mono (h : m.Leads P' m') (himp : ∀ r, P r → P' r) : m.Leads P m' :=
  ⟨h.sound, h.table, h.handedOut, h.retained, fun r hr => h.pinned r (himp r hr), h.keeps.mono himp⟩

theorem Leads.held (h : m.Leads P m') (hP : ∀ r, P r → m.Held r) : ∀ r, P r → m'.Held r :=
  fun r hr => (hP r hr).imp (h.pinned r hr) (h.retained r)

theorem Leads.isLive (h : m.Leads P m') (hr : P r) (hlive : m.heap.IsLive r) : m'.heap.IsLive r :=
  h.keeps.isLive hr hlive

/-- Values stay valid while all objects are kept. -/
theorem Leads.value (h : m.Leads (fun _ => True) m') {v : Value} (hv : v.All m.heap.IsLive) :
    v.All m'.heap.IsLive :=
  fun r hr => h.isLive trivial (hv r hr)

/-! ### Changes of one part -/

/-- The classes and objects are the same, and what is held stays held. -/
theorem Leads.of_eq (hm' : m'.Sound) (hregistry : m'.registry = m.registry) (hheap : m'.heap = m.heap)
    (hpinned : ∀ r, P r → r ∈ m.pinned → r ∈ m'.pinned) (hhandedOut : m.handedOut ⊆ m'.handedOut) :
    m.Leads P m' where
  sound := hm'
  table := by rw [hregistry]; exact .refl _
  handedOut := hhandedOut
  retained r hr := by rw [hregistry]; exact hr
  pinned := hpinned
  keeps := by rw [hheap]; exact .refl P _

/-- What is not looked at may change. -/
theorem Sound.leads_same (hm : m.Sound) (P : Ref → Prop) (hregistry : m'.registry = m.registry)
    (hheap : m'.heap = m.heap) (hframes : m'.frames = m.frames) (hpinned : m'.pinned = m.pinned)
    (hnotes : m'.notes = m.notes) (hhandedOut : m'.handedOut = m.handedOut) : m.Leads P m' := by
  refine .of_eq ⟨?_, ?_, ?_, ?_, ?_, ?_, ?_, ?_⟩ hregistry hheap (fun r _ hr => hpinned ▸ hr)
    (hhandedOut ▸ .refl _)
  · rw [hregistry]; exact hm.registry
  · rw [hregistry]; exact hm.typed
  · rw [hregistry, hheap]; exact hm.heap
  · rw [hpinned, hheap]; exact hm.pinned
  · rw [hframes, hheap]; exact hm.frames
  · rw [hregistry, hheap]; exact hm.classes
  · rw [hnotes]; exact hm.followed
  · rw [hhandedOut, hregistry]; exact hm.handedOut

/-- Another heap, in which the roots are still there. -/
theorem Sound.leads_heap (hm : m.Sound) {h : Heap ClassId} (hh : h.Sound m.registry.table)
    (hroots : ∀ r ∈ m.roots, h.IsLive r) (hkeeps : m.heap.Keeps P h) :
    m.Leads P { m with heap := h } where
  sound :=
    ⟨hm.registry, hm.typed, hh, fun r hr => hroots r (mem_roots.2 (.inl hr)),
      fun f hf => Frame.all_iff_roots.2 fun r hr => hroots r (mem_roots.2 (.inr (.inl ⟨f, hf, hr⟩))),
      fun r hr => hroots r (mem_roots.2 (.inr (.inr hr))), hm.followed, hm.handedOut⟩
  table := .refl _
  handedOut := .refl _
  retained _ := id
  pinned _ _ := id
  keeps := hkeeps

theorem Sound.leads_heap_all (hm : m.Sound) {h : Heap ClassId} (hh : h.Sound m.registry.table)
    (hkeeps : m.heap.Keeps (fun _ => True) h) : m.Leads (fun _ => True) { m with heap := h } :=
  hm.leads_heap hh (fun _ hr => hkeeps.isLive trivial (hm.isLive_of_mem_roots hr)) hkeeps

/-- Another registry, which holds on to objects that are there. -/
theorem Sound.leads_registry (hm : m.Sound) (P : Ref → Prop) {r : Registry} (hr : r.Consistent)
    (htyped : r.WellTyped) (htable : m.registry.table.Within r.table)
    (hinterned : ∀ text x, m.registry.interned? text = some x → r.interned? text = some x)
    (hobjects : ∀ id x, m.registry.classObject? id = some x → r.classObject? id = some x)
    (hroots : ∀ x ∈ r.roots, m.heap.IsLive x) : m.Leads P { m with registry := r } where
  sound := ⟨hr, htyped, hm.heap.mono htable, hm.pinned, hm.frames, hroots, hm.followed,
    fun us x hx => hinterned _ x (hm.handedOut us x hx)⟩
  table := htable
  handedOut := .refl _
  retained x := by
    rintro (⟨id, hid⟩ | ⟨text, htext⟩)
    exacts [.inl ⟨id, hobjects id x hid⟩, .inr ⟨text, hinterned text x htext⟩]
  pinned _ _ := id
  keeps := .refl P _

/-- A registry after loading and resolving. -/
theorem Sound.leads_resolves (hm : m.Sound) {r : Registry} (h : m.registry.Resolves r) :
    m.Leads (fun _ => True) { m with registry := r } :=
  hm.leads_registry _ (h.consistent hm.registry).1 (h.wellTyped hm.registry hm.typed) h.table
    (fun text _ hx => (h.interned?_eq hm.registry text).trans hx)
    (fun id _ hx => ((h.steady hm.registry).classObject id).trans hx)
    fun s hs => hm.classes s (h.mem_roots hm.registry hs)

/-- Something else about a class changes: it keeps its class object, what is known about its references
stays as it is, and what it holds on to is there. -/
theorem Sound.leads_modifyState (hm : m.Sound) (id : ClassId) {change : ClassState → ClassState}
    (htyped : (m.registry.modifyState id change).WellTyped)
    (hmethods : ∀ s, (change s).methodRefs = s.methodRefs)
    (hfields : ∀ s, (change s).fieldRefs = s.fieldRefs)
    (hobject : ∀ s r, s.classObject = some r → (change s).classObject = some r)
    (hroots : ∀ s, ∀ r ∈ (change s).roots, r ∈ s.roots ∨ m.heap.IsLive r) :
    m.Leads P { m with registry := m.registry.modifyState id change } := by
  have hr : (m.registry.modifyState id change).Consistent :=
    hm.registry.modifyState id (fun s index method h => .inl (hmethods s ▸ h))
      fun s index f h => .inl (hfields s ▸ h)
  refine hm.leads_registry _ hr htyped (.refl _) (fun _ _ h => h) (fun i r hi => ?_) fun r hr' => ?_
  · obtain ⟨s, hs, hsr⟩ := Option.bind_eq_some_iff.1 hi
    refine Option.bind_eq_some_iff.2 ⟨_, Registry.exists_of_state? change hs, ?_⟩
    split
    exacts [hobject s r hsr, hsr]
  · rcases hr.linked.mem_roots.1 hr' with ⟨i, s', hs', hmem⟩ | htext
    · have hold {s : ClassState} (hs : m.registry.state? i = some s) (hmem : r ∈ s.roots) :
          m.heap.IsLive r :=
        hm.classes r (hm.registry.linked.mem_roots.2 (.inl ⟨i, s, hs, hmem⟩))
      obtain ⟨s, hs, rfl | ⟨-, rfl⟩⟩ := Registry.state?_modifyState hs'
      · exact hold hs hmem
      · exact (hroots s r hmem).elim (hold hs) fun h => h
    · exact hm.classes r (hm.registry.linked.mem_roots.2 (.inr htext))

/-- An assignment to a static field of what it keeps. -/
theorem Sound.leads_setStatic (hm : m.Sound) {f : ClassTable.ResolvedField}
    (hf : m.registry.table.DeclaresField f) (hstatic : f.isStatic = true) {v : Value}
    (hkept : keptIn f.type v = some v) (hv : v.All m.heap.IsLive) {r : Registry}
    (hr : m.registry.setStatic? f.owner f.slot v = some r) : m.Leads P { m with registry := r } := by
  have htyped := hm.typed.setStatic? hm.registry hf hstatic hkept hr
  unfold Registry.setStatic? at hr
  split at hr
  · cases hr
    refine hm.leads_modifyState _ htyped (fun _ => rfl) (fun _ => rfl) (fun _ _ h => h) fun s x hx => ?_
    rcases ClassState.mem_roots.1 hx with h | h
    · rcases Array.mem_or_eq_of_mem_setIfInBounds h with h | rfl
      exacts [.inl (ClassState.mem_roots.2 (.inl h)), .inr (Value.all_ref.1 hv)]
    · exact .inl (ClassState.mem_roots.2 (.inr h))
  · cases hr

/-- Other frames, with objects that are there. -/
theorem Sound.leads_frames (hm : m.Sound) (P : Ref → Prop) {frames : Stack Frame}
    (hframes : ∀ f ∈ frames.list, f.All m.heap.IsLive) : m.Leads P { m with frames } :=
  .of_eq ⟨hm.registry, hm.typed, hm.heap, hm.pinned, hframes, hm.classes, hm.followed, hm.handedOut⟩
    rfl rfl (fun _ _ => id) (.refl _)

theorem Sound.leads_pop (hm : m.Sound) (P : Ref → Prop) :
    m.Leads P { m with frames := m.frames.pop } :=
  hm.leads_frames P fun f hf => hm.frames f (List.mem_of_mem_tail hf)

/-- Other objects that are held. -/
theorem Sound.leads_pinned (hm : m.Sound) {pinned : List Ref} (hlive : ∀ r ∈ pinned, m.heap.IsLive r)
    (hpinned : ∀ r, P r → r ∈ m.pinned → r ∈ pinned) : m.Leads P { m with pinned } :=
  .of_eq ⟨hm.registry, hm.typed, hm.heap, hlive, hm.frames, hm.classes, hm.followed, hm.handedOut⟩
    rfl rfl hpinned (.refl _)

theorem Sound.leads_note (hm : m.Sound) (P : Ref → Prop) {n : Note} (hn : ∀ r, n ≠ .missing r) :
    m.Leads P { m with notes := n :: m.notes } := by
  refine .of_eq ⟨hm.registry, hm.typed, hm.heap, hm.pinned, hm.frames, hm.classes, fun r hr => ?_,
    hm.handedOut⟩ rfl rfl (fun _ _ => id) (.refl _)
  rcases List.mem_cons.1 hr with hr | hr
  exacts [hn r hr.symm, hm.followed r hr]

/-- A program is given the string that stands for a text. -/
theorem Sound.leads_handOut (hm : m.Sound) (P : Ref → Prop) {units : List UInt16}
    (hr : m.registry.interned? (Text.Utf16.decode units) = some r) :
    m.Leads P { m with handedOut := (units, r) :: m.handedOut } := by
  refine .of_eq ⟨hm.registry, hm.typed, hm.heap, hm.pinned, hm.frames, hm.classes, hm.followed,
    fun us x hx => ?_⟩ rfl rfl (fun _ _ => id) (List.subset_cons_self _ _)
  rcases List.mem_cons.1 hx with heq | hx
  · cases heq
    exact hr
  · exact hm.handedOut us x hx

/-- How a machine ends with something abrupt: it is sound, what programs have been given is not forgotten,
objects have been kept unless it stands still for ever, and what is thrown is there. -/
structure Ends (P : Ref → Prop) (e : Abrupt) (m m' : Machine) : Prop where
  sound : m'.Sound
  handedOut : m.handedOut ⊆ m'.handedOut
  leads : e ≠ .stuck → m.Leads P m'
  thrown : ∀ r, e = .thrown r → m'.heap.IsLive r

theorem Leads.ends (h : m.Leads P m') {e : Abrupt} (he : ∀ r, e = .thrown r → m'.heap.IsLive r) :
    m.Ends P e m' :=
  ⟨h.sound, h.handedOut, fun _ => h, he⟩

theorem Ends.after {e : Abrupt} (h : m₁.Ends P e m') (h₁ : m.Leads P m₁) : m.Ends P e m' :=
  ⟨h.sound, List.Subset.trans h₁.handedOut h.handedOut, fun he => h₁.trans (h.leads he), h.thrown⟩

theorem Ends.mono {e : Abrupt} (h : m.Ends P' e m') (himp : ∀ r, P r → P' r) : m.Ends P e m' :=
  ⟨h.sound, h.handedOut, fun he => (h.leads he).mono himp, h.thrown⟩

end Machine

namespace VM

variable {α β : Type}

/-- What a computation comes to that begins with a sound machine. -/
def Meets (P : Ref → Prop) (x : VM α) (Q : α → Machine → Prop) (c : Context) (m : Machine) : Prop :=
  m.Sound → match x c m with
    | .ok a m' => m.Leads P m' ∧ Q a m'
    | .error e m' => m.Ends P e m'

/-- What a computation comes to that keeps all objects. -/
abbrev Quiet (x : VM α) (Q : α → Machine → Prop) (c : Context) (m : Machine) : Prop :=
  Meets (fun _ => True) x Q c m

variable {P P' : Ref → Prop} {x : VM α} {g : α → VM β} {Q R : α → Machine → Prop}
  {S : β → Machine → Prop} {c : Context} {m : Machine}

theorem meets_of_ok {a : α} {m' : Machine} (h : x c m = .ok a m') (hleads : m.Sound → m.Leads P m')
    (ha : m.Sound → Q a m') : Meets P x Q c m := by
  intro hm
  rw [h]
  exact ⟨hleads hm, ha hm⟩

theorem meets_of_error {e : Abrupt} {m' : Machine} (h : x c m = .error e m')
    (hends : m.Sound → m.Ends P e m') : Meets P x Q c m := by
  intro hm
  rw [h]
  exact hends hm

theorem Meets.of_eq_ok (hx : Meets P x Q c m) (hm : m.Sound) {a : α} {m' : Machine}
    (h : x c m = .ok a m') : m.Leads P m' ∧ Q a m' := by
  have hx := hx hm
  rwa [h] at hx

theorem Meets.of_eq_error (hx : Meets P x Q c m) (hm : m.Sound) {e : Abrupt} {m' : Machine}
    (h : x c m = .error e m') : m.Ends P e m' := by
  have hx := hx hm
  rwa [h] at hx

theorem meets_of_sound (hx : m.Sound → Meets P x Q c m) : Meets P x Q c m := fun hm => hx hm hm

/-! ### Putting computations together -/

theorem meets_pure {a : α} (ha : Q a m) : Meets P (pure a) Q c m :=
  meets_of_ok rfl (fun hm => .refl hm P) fun _ => ha

theorem meets_throw {e : Abrupt} (he : ∀ r, e = .thrown r → m.heap.IsLive r) :
    Meets P (throw e : VM α) Q c m :=
  meets_of_error rfl fun hm => (Machine.Leads.refl hm P).ends he

theorem meets_fail (e : Fault) : Meets P (fail e : VM α) Q c m :=
  meets_throw fun r hr => by cases hr

theorem meets_raise (check : RuntimeCheck) (message : Option String) :
    Meets P (throw (.raised check message) : VM α) Q c m :=
  meets_throw fun r hr => by cases hr

theorem Meets.mono (hx : Meets P x Q c m) (himp : ∀ a m', m.Leads P m' → Q a m' → R a m') :
    Meets P x R c m := by
  intro hm
  rcases h : x c m with ⟨a, m'⟩ | ⟨e, m'⟩
  · obtain ⟨hleads, ha⟩ := hx.of_eq_ok hm h
    exact ⟨hleads, himp a m' hleads ha⟩
  · exact hx.of_eq_error hm h

/-- Fewer objects have to be kept. -/
theorem Meets.weaken (hx : Meets P' x Q c m) (himp : ∀ r, P r → P' r) : Meets P x Q c m := by
  intro hm
  rcases h : x c m with ⟨a, m'⟩ | ⟨e, m'⟩
  · obtain ⟨hleads, ha⟩ := hx.of_eq_ok hm h
    exact ⟨hleads.mono himp, ha⟩
  · exact (hx.of_eq_error hm h).mono himp

/-- A computation after one that keeps more objects. -/
theorem Meets.andThen (hx : Meets P' x Q c m) (himp : ∀ r, P r → P' r)
    (hg : ∀ a m', m.Leads P' m' → Q a m' → Meets P (g a) S c m') : Meets P (x >>= g) S c m := by
  intro hm
  rcases h : x c m with ⟨a, m'⟩ | ⟨e, m'⟩
  · obtain ⟨hleads, ha⟩ := hx.of_eq_ok hm h
    have hga := hg a m' hleads ha hleads.sound
    rw [bind_of_ok h]
    rcases h' : g a c m' with ⟨b, m''⟩ | ⟨e, m''⟩
    · rw [h'] at hga
      exact ⟨(hleads.mono himp).trans hga.1, hga.2⟩
    · rw [h'] at hga
      exact hga.after (hleads.mono himp)
  · rw [bind_of_error h]
    exact (hx.of_eq_error hm h).mono himp

theorem Meets.bind (hx : Meets P x Q c m)
    (hg : ∀ a m', m.Leads P m' → Q a m' → Meets P (g a) S c m') : Meets P (x >>= g) S c m :=
  hx.andThen (fun _ => id) hg

/-- A computation after one that keeps all objects. -/
theorem Meets.seq (hx : Quiet x Q c m)
    (hg : ∀ a m', m.Leads (fun _ => True) m' → Q a m' → Meets P (g a) S c m') :
    Meets P (x >>= g) S c m :=
  hx.andThen (fun _ _ => trivial) hg

theorem meets_ite {p : Prop} [Decidable p] {y : VM α} (hx : p → Meets P x Q c m)
    (hy : ¬ p → Meets P y Q c m) : Meets P (if p then x else y) Q c m := by
  split
  · exact hx ‹_›
  · exact hy ‹_›

/-- A computation behind a check. -/
theorem meets_guard {p : Prop} [Decidable p] {y : VM Unit} {z : Unit → VM α}
    (hy : p → Meets P y (fun _ _ => False) c m) (hz : ¬ p → Meets P (z ()) Q c m) :
    Meets P (if p then y >>= z else z ()) Q c m :=
  meets_ite (fun hp => (hy hp).bind fun _ _ _ h => h.elim) hz

/-- A look at the machine. -/
theorem meets_reading {a : α} (h : x c m = .ok a m) (hg : Meets P (g a) S c m) :
    Meets P (x >>= g) S c m := by
  intro hm
  rw [bind_of_ok h]
  exact hg hm

theorem meets_ofExcept (o : Except Fault α) :
    Meets P (ofExcept o) (fun a m' => m' = m ∧ o = .ok a) c m := by
  cases o with
  | ok a => exact meets_pure ⟨rfl, rfl⟩
  | error e => exact meets_fail e

theorem meets_modify {f : Machine → Machine} (h : m.Sound → m.Leads P (f m)) :
    Meets P (modifyThe Machine f) (fun _ m' => m' = f m) c m :=
  meets_of_ok rfl h fun _ => rfl

/-- The outcome of a computation; what was thrown is there. -/
theorem Meets.attempt (hx : Meets P x Q c m) : Meets P (VM.attempt x)
    (fun o m' => (∀ a, o = .ok a → Q a m') ∧ ∀ r, o = .error (.thrown r) → m'.heap.IsLive r) c m := by
  intro hm
  unfold VM.attempt
  rcases h : x c m with ⟨a, m'⟩ | ⟨e, m'⟩
  · obtain ⟨hleads, ha⟩ := hx.of_eq_ok hm h
    refine ⟨hleads, ?_, fun r hr => by cases hr⟩
    rintro _ ⟨⟩
    exact ha
  · have hends := hx.of_eq_error hm h
    cases e with
    | stuck => exact ⟨hends.sound, hends.handedOut, fun he => (he rfl).elim, fun r hr => by cases hr⟩
    | thrown s =>
      refine ⟨hends.leads (by simp), (fun a ha => by cases ha), ?_⟩
      rintro _ ⟨⟩
      exact hends.thrown s rfl
    | raised check message =>
      exact ⟨hends.leads (by simp), (fun a ha => by cases ha), (fun r hr => by cases hr)⟩
    | fault e =>
      exact ⟨hends.leads (by simp), (fun a ha => by cases ha), (fun r hr => by cases hr)⟩

/-- A computation during which some objects are held. It may let go of them, and keeps those that have been
held before. -/
theorem Meets.pinning {refs : List Ref} (hx : Meets P' x Q c (m.hold refs))
    (himp : ∀ r, P r → P' r) (hpinned : ∀ r ∈ m.pinned, P' r)
    (hQ : ∀ a m' pinned, Q a m' → Q a { m' with pinned }) (hlive : ∀ r ∈ refs, m.heap.IsLive r) :
    Meets P (VM.pinning refs x) Q c m := by
  intro hm
  have hbegin : m.Leads (fun _ => True) (m.hold refs) :=
    hm.leads_pinned (fun r hr => (List.mem_append.1 hr).elim (hlive r) (hm.pinned r))
      fun r _ hr => List.mem_append_right _ hr
  have hfinish {m' : Machine} (h : (m.hold refs).Leads P' m') :
      m.Leads P { m' with pinned := m.pinned } :=
    { sound := (h.sound.leads_pinned (P := fun _ => False)
        (fun r hr => h.isLive (hpinned r hr) (hm.pinned r hr)) fun _ h => h.elim).sound
      table := h.table
      handedOut := h.handedOut
      retained := h.retained
      pinned := fun _ _ hr => hr
      keeps := h.keeps.mono himp }
  unfold VM.pinning
  dsimp only
  rcases h : x c (m.hold refs) with ⟨a, m'⟩ | ⟨e, m'⟩
  · obtain ⟨hleads, ha⟩ := hx.of_eq_ok hbegin.sound h
    exact ⟨hfinish hleads, hQ a m' _ ha⟩
  · have hends := hx.of_eq_error hbegin.sound h
    cases e with
    | stuck => exact ⟨hends.sound, hends.handedOut, fun he => (he rfl).elim, hends.thrown⟩
    | thrown s => exact (hfinish (hends.leads (by simp))).ends hends.thrown
    | raised check message => exact (hfinish (hends.leads (by simp))).ends hends.thrown
    | fault e => exact (hfinish (hends.leads (by simp))).ends hends.thrown

theorem meets_pin {r : Ref} (hr : m.heap.IsLive r) :
    Quiet (pin r) (fun _ m' => m' = { m with pinned := r :: m.pinned }) c m :=
  meets_modify fun hm => hm.leads_pinned
    (fun s hs => (List.mem_cons.1 hs).elim (fun h => h ▸ hr) (hm.pinned s))
    fun _ _ hs => List.mem_cons_of_mem r hs

theorem meets_note {n : Note} (hn : ∀ r, n ≠ .missing r) :
    Quiet (note n) (fun _ m' => m' = { m with notes := n :: m.notes }) c m :=
  meets_modify fun hm => hm.leads_note _ hn

theorem Meets.notingFailure {n : Note} (hx : Meets P x Q c m) (hn : ∀ r, n ≠ .missing r) :
    Meets P (VM.notingFailure n x) Q c m := by
  intro hm
  unfold VM.notingFailure
  rcases h : x c m with ⟨a, m'⟩ | ⟨e, m'⟩
  · exact hx.of_eq_ok hm h
  · have hends := hx.of_eq_error hm h
    exact ⟨(hends.sound.leads_note P hn).sound, hends.handedOut,
      fun he => (hends.leads he).trans (hends.sound.leads_note P hn), hends.thrown⟩

theorem meets_tick : Quiet tick (fun _ m' => ∃ steps, m' = { m with steps }) c m := by
  by_cases hsteps : m.steps = 0
  · have hrun : tick c m = .error .stuck m := if_pos hsteps
    refine meets_of_error hrun fun hm => ?_
    exact ⟨hm, .refl _, fun h => (h rfl).elim, fun r hr => by cases hr⟩
  · have hrun : tick c m = .ok () { m with steps := m.steps - 1 } := if_neg hsteps
    exact meets_of_ok hrun (fun hm => hm.leads_same _ rfl rfl rfl rfl rfl rfl) fun _ => ⟨_, rfl⟩

/-! ### Classes -/

/-- A computation on the registry. -/
theorem meets_link {x : ClassPaths → Linker α} (Q : α → Registry → Prop)
    (hx : m.registry.Consistent →
      Linker.Meets Registry.Resolves (x c.env.paths) Q m.registry) :
    Quiet (link x) (fun a m' => Q a m'.registry ∧ m.registry.Steady m'.registry) c m := by
  intro hm
  have hx := hx hm.registry
  unfold link
  rcases h : x c.env.paths m.registry with ⟨a, r⟩ | ⟨e, r⟩
  · obtain ⟨hresolves, ha⟩ := hx.of_eq_ok h
    exact ⟨hm.leads_resolves hresolves, ha, hresolves.steady hm.registry⟩
  · exact (hm.leads_resolves (hx.of_eq_error h)).ends fun s hs => by cases hs

theorem meets_getClass (id : ClassId) :
    Quiet (getClass id) (fun cl m' => m' = m ∧ m.registry.table.class? id = some cl) c m := by
  have h := Linker.meets_getClass (Registry.Resolves.refl m.registry) id
  rcases hres : Linker.getClass id m.registry with ⟨cl, r⟩ | ⟨e, r⟩
  · obtain ⟨-, rfl, hcl⟩ := h.of_eq_ok hres
    have hrun : getClass id c m = .ok cl m := by
      simp only [getClass, link, hres]
    exact meets_of_ok hrun (fun hm => .refl hm _) fun _ => ⟨rfl, hcl⟩
  · refine (meets_link (fun _ _ => False) fun _ => ?_).mono fun _ _ _ h => h.1.elim
    exact Linker.meets_of_error hres (h.of_eq_error hres)

/-- A core class that is loaded is of the name. -/
theorem meets_coreClass (name : String) :
    Quiet (coreClass name)
      (fun id m' => m'.registry.Names .boot name id ∧ m.registry.Steady m'.registry) c m :=
  meets_link (fun id r => r.Names .boot name id) fun hr => resolves_loadClass hr .boot name

/-- A field of a core class has the place that is asked for. -/
theorem meets_coreField (className name descriptor : String) :
    Quiet (coreField className name descriptor) (fun slot m' =>
      m'.registry.table.HasFieldAt name descriptor slot ∧ m.registry.Steady m'.registry) c m := by
  refine (meets_coreClass className).bind fun id m' _ hid => ?_
  refine meets_reading rfl ?_
  split
  · next f hf => exact meets_pure ⟨ClassTable.hasFieldAt_of_field? hf, hid.2⟩
  · exact meets_reading rfl (meets_fail _)

theorem meets_modifyState {id : ClassId} {change : ClassState → ClassState}
    (htyped : m.registry.WellTyped → (m.registry.modifyState id change).WellTyped)
    (hmethods : ∀ s, (change s).methodRefs = s.methodRefs)
    (hfields : ∀ s, (change s).fieldRefs = s.fieldRefs)
    (hobject : ∀ s r, s.classObject = some r → (change s).classObject = some r)
    (hroots : ∀ s, ∀ r ∈ (change s).roots, r ∈ s.roots ∨ m.heap.IsLive r) :
    Quiet (modifyThe Registry fun r => r.modifyState id change)
      (fun _ m' => m' = { m with registry := m.registry.modifyState id change }) c m :=
  meets_of_ok rfl (fun hm => hm.leads_modifyState id (htyped hm.typed) hmethods hfields hobject hroots)
    fun _ => rfl

/-- A string comes to stand for a text. -/
theorem meets_intern {text : String} {string : Ref} (hstring : m.heap.IsLive string) :
    Quiet (modifyThe Registry fun r => r.intern text string)
      (fun _ m' => m' = { m with registry := m.registry.intern text string }) c m := by
  refine meets_of_ok rfl (fun hm => ?_) fun _ => rfl
  have hr : (m.registry.intern text string).Consistent :=
    ⟨hm.registry.linked.congr rfl rfl rfl, hm.registry.built, hm.registry.methods, hm.registry.fields⟩
  refine hm.leads_registry _ hr (hm.typed.intern text string) (.refl _)
    (fun _ _ => Registry.interned?_intern_of_eq_some) (fun _ _ h => h) fun r hr' => ?_
  · rcases hr.linked.mem_roots.1 hr' with hstate | ⟨t, ht⟩
    · exact hm.classes r (hm.registry.linked.mem_roots.2 (.inl hstate))
    · rw [Registry.interned?_intern] at ht
      split at ht
      · cases ht
        exact hstring
      · exact hm.classes r (hm.registry.linked.mem_roots.2 (.inr ⟨t, ht⟩))

end VM

end Execution

end Jvm
