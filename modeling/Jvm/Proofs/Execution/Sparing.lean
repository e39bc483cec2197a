import Mathlib
import Jvm.Proofs.Execution.Soundness

/-! # What allocations spare

An allocation may collect, and a collection leaves nothing of the objects that cannot be reached. All others
stay what they are, except that they have been through one collection more (`Spares`), and can still be
reached. So a new object never takes the place of one that can be reached: `Balanced.allocates` for heaps, and
`builds_allocate` for machines. -/

namespace Jvm

namespace Heap

variable {κ : Type} {h h₁ h₂ h' : Heap κ} {P Q : Ref → Prop} {roots roots' : List Ref} {r : Ref}
  {request : Request κ}

/-- Whether the objects with a property are what they were, however many collections they have been
through. -/
def Spares (P : Ref → Prop) (h h' : Heap κ) : Prop :=
  ∀ r o, P r → h.object? r = some o → ∃ age, h'.object? r = some { o with age }

namespace Spares

theorem of_object?_eq (hsame : ∀ r o, P r → h.object? r = some o → h'.object? r = some o) :
    h.Spares P h' :=
  fun r o hr ho => ⟨o.age, hsame r o hr ho⟩

theorem refl (P : Ref → Prop) (h : Heap κ) : h.Spares P h := of_object?_eq fun _ _ _ => id

theorem trans (h₁₂ : h.Spares P h₁) (h₂₃ : h₁.Spares P h₂) : h.Spares P h₂ := by
  intro r o hr ho
  obtain ⟨age, ho₁⟩ := h₁₂ r o hr ho
  exact h₂₃ r { o with age } hr ho₁

theorem mono (hspares : h.Spares P h') (himp : ∀ r, Q r → P r) : h.Spares Q h' :=
  fun r o hr => hspares r o (himp r hr)

end Spares

/-- What can be reached still can if no object on the way refers to less. -/
theorem Reachable.carry (hr : h.Reachable roots r) (hroots : ∀ s ∈ roots, s ∈ roots')
    (hobjects : ∀ s o, h.Reachable roots s → h.object? s = some o →
      ∃ o', h'.object? s = some o' ∧ o.contents.references ⊆ o'.contents.references) :
    h'.Reachable roots' r := by
  induction hr with
  | root hroot hlive =>
    obtain ⟨o, ho⟩ := hlive
    obtain ⟨o', ho', -⟩ := hobjects _ o (.root hroot ⟨o, ho⟩) ho
    exact .root (hroots _ hroot) ⟨o', ho'⟩
  | step hr ho hs hlive ih =>
    obtain ⟨o', ho', hsub⟩ := hobjects _ _ hr ho
    obtain ⟨p, hp⟩ := hlive
    obtain ⟨p', hp', -⟩ := hobjects _ p (hr.step ho hs ⟨p, hp⟩) hp
    exact ih.step ho' (hsub hs) ⟨p', hp'⟩

/-- What is spared can still be reached. -/
theorem Spares.reachable (hspares : h.Spares (h.Reachable roots) h') (hr : h.Reachable roots r) :
    h'.Reachable roots r := by
  refine hr.carry (fun _ => id) fun s o hs ho => ?_
  obtain ⟨age, ho'⟩ := hspares s o hs ho
  exact ⟨_, ho', List.Subset.refl _⟩

/-- Whether a reference names an object of a class with some contents, whose monitor nobody has entered. -/
def Stores (h : Heap κ) (r : Ref) (k : κ) (contents : Contents) : Prop :=
  ∃ o, h.object? r = some o ∧ o.cls = k ∧ o.contents = contents ∧ o.monitor = .free

theorem Stores.isLive {k : κ} {contents : Contents} (hr : h.Stores r k contents) : h.IsLive r := by
  obtain ⟨o, ho, -⟩ := hr
  exact ⟨o, ho⟩

theorem Spares.stores (hspares : h.Spares P h') {k : κ} {contents : Contents} (hr : h.Stores r k contents)
    (hP : P r) : h'.Stores r k contents := by
  obtain ⟨o, ho, hcls, hcontents, hmonitor⟩ := hr
  obtain ⟨age, ho'⟩ := hspares r o hP ho
  exact ⟨_, ho', hcls, hcontents, hmonitor⟩

/-- What an allocation comes to. -/
inductive Allocates (h : Heap κ) (roots : List Ref) (request : Request κ) :
    Except Fault Ref → Heap κ → Prop
  | made {r : Ref} {h' : Heap κ} (hspares : h.Spares (h.Reachable roots) h')
      (hfresh : ¬ h.Reachable roots r) (hnew : h'.Stores r request.cls request.contents) :
      Allocates h roots request (.ok r) h'
  | refused {h' : Heap κ} (hspares : h.Spares (h.Reachable roots) h') (text : String) :
      Allocates h roots request (.error (.outOfMemory text)) h'

/-- A new object goes where there was none, and the others stay. -/
theorem Balanced.of_tryAllocate (hh : h.Balanced) (htry : h.tryAllocate request = some (r, h')) :
    h.Spares (fun _ => True) h' ∧ ¬ h.IsLive r ∧ h'.Stores r request.cls request.contents := by
  have hdead := (hh.fresh htry).1
  obtain ⟨block, h₁, hreserve, rfl, rfl⟩ := tryAllocate_eq_some htry
  have hh₁ := (hh.reserve hreserve).1
  refine ⟨.of_object?_eq fun s o _ ho => ?_, hdead, ?_⟩
  · exact hh₁.object?_place_of_eq_some ((object?_congr (slots_reserve hreserve) s).trans ho)
  · exact ⟨_, (hh₁.placed_place request block).object, rfl, rfl, rfl⟩

/-- After a collection, a new object within a greater budget. -/
theorem Balanced.allocates_growAndAllocate (hh : h.Balanced) (request : Request κ) (roots : List Ref) :
    h.Allocates roots request (h.growAndAllocate request).1 (h.growAndAllocate request).2 := by
  unfold growAndAllocate
  dsimp only
  cases hgrow : h.grow request.bytes with
  | error e =>
    obtain ⟨text, rfl⟩ : ∃ text, e = .outOfMemory text := by
      unfold Heap.grow at hgrow
      dsimp only at hgrow
      split_ifs at hgrow
      cases hgrow
      exact ⟨_, rfl⟩
    exact .refused (.refl _ h) text
  | ok h₁ =>
    have hsame : h.Spares (fun _ => True) h₁ := by
      obtain ⟨-, rfl⟩ := eq_of_grow hgrow
      exact .of_object?_eq fun _ _ _ => id
    have hh₁ := hh.grow hgrow
    dsimp only
    cases htry : h₁.tryAllocate request with
    | none => exact .refused (hsame.mono fun _ _ => trivial) _
    | some new =>
      obtain ⟨r, h₂⟩ := new
      obtain ⟨hspares, hdead, hnew⟩ := hh₁.of_tryAllocate htry
      refine .made ((hsame.trans hspares).mono fun _ _ => trivial) (fun hr => hdead ?_) hnew
      obtain ⟨o, ho⟩ := hr.isLive
      obtain ⟨age, ho₁⟩ := hsame r o trivial ho
      exact ⟨_, ho₁⟩

theorem spares_collect (hclean : h.Clean) (roots : List Ref) :
    h.Spares (h.Reachable roots) (h.collect roots).2 := by
  intro r o hr ho
  refine ⟨min (o.age + 1) 255, ?_⟩
  rw [(collected_of_clean hclean roots).kept r o hr ho, hclean r o ho]

/-- What an allocation comes to that collects in between carries over. -/
theorem Allocates.of_spares (hspares : h.Spares (h.Reachable roots) h₁) {result : Except Fault Ref}
    (halloc : h₁.Allocates roots request result h') : h.Allocates roots request result h' := by
  have hreach : ∀ r, h.Reachable roots r → h₁.Reachable roots r := fun _ => hspares.reachable
  cases halloc with
  | made hs hfresh hnew =>
    exact .made (hspares.trans (hs.mono hreach)) (fun hr => hfresh (hreach _ hr)) hnew
  | refused hs text => exact .refused (hspares.trans (hs.mono hreach)) text

/-- **New objects do not take the place of others**: an allocation creates an object where none could be
reached, or there is no room for it, and what can be reached is spared. -/
theorem Balanced.allocates (hh : h.Balanced) (hclean : h.Clean) (request : Request κ) (roots : List Ref) :
    h.Allocates roots request (h.allocate request roots).1 (h.allocate request roots).2 := by
  have hmade : ∀ {h : Heap κ} {r h'}, h.Balanced → h.tryAllocate request = some (r, h') →
      h.Allocates roots request (.ok r) h' := by
    intro h r h' hh htry
    obtain ⟨hspares, hdead, hnew⟩ := hh.of_tryAllocate htry
    exact .made (hspares.mono fun _ _ => trivial) (fun hr => hdead hr.isLive) hnew
  unfold allocate
  cases htry : h.tryAllocate request with
  | some new => exact hmade hh htry
  | none =>
    have hcollected : (h.collect roots).2.Balanced := balanced_kept.collect hh
    dsimp only
    cases hagain : (h.collect roots).2.tryAllocate request with
    | some new => exact .of_spares (spares_collect hclean roots) (hmade hcollected hagain)
    | none =>
      exact .of_spares (spares_collect hclean roots) (hcollected.allocates_growAndAllocate request roots)

end Heap

namespace Execution

open Linking

namespace Machine

variable {m m₁ m' : Machine} {P Q : Ref → Prop} {request : Heap.Request ClassId}

/-- The heap allocates for a machine, whose roots are kept. -/
theorem allocate_eq (m : Machine) (request : Heap.Request ClassId) :
    m.allocate request = ((m.heap.allocate request m.roots).1, m.setHeap (m.heap.allocate request m.roots).2) := by
  unfold allocate allocateCollected Heap.allocate Heap.tryAllocate
  cases hreserve : m.heap.reserve request.bytes with
  | some new => rfl
  | none =>
    have hcollect : m.collect.heap = (m.heap.collect m.roots).2 := rfl
    dsimp only [Option.map_none, setHeap]
    rw [hcollect]
    cases hagain : (m.heap.collect m.roots).2.reserve request.bytes with
    | some new => rfl
    | none => rfl

/-- Whether a machine goes on with objects only: the accounts stay right, and the objects with a property are
spared. -/
structure Grows (P : Ref → Prop) (m m' : Machine) : Prop where
  rest : m' = { m with heap := m'.heap, steps := m'.steps }
  balanced : m'.heap.Balanced
  clean : m'.heap.Clean
  spares : m.heap.Spares P m'.heap

namespace Grows

theorem refl (P : Ref → Prop) (hbalanced : m.heap.Balanced) (hclean : m.heap.Clean) : m.Grows P m :=
  ⟨rfl, hbalanced, hclean, .refl P _⟩

theorem trans (h₁ : m.Grows P m₁) (h₂ : m₁.Grows P m') : m.Grows P m' where
  rest := by rw [h₂.rest, h₁.rest]
  balanced := h₂.balanced
  clean := h₂.clean
  spares := h₁.spares.trans h₂.spares

theorem mono (h : m.Grows P m') (himp : ∀ r, Q r → P r) : m.Grows Q m' :=
  ⟨h.rest, h.balanced, h.clean, h.spares.mono himp⟩

theorem roots_eq (h : m.Grows P m') : m'.roots = m.roots := by
  rw [h.rest]
  rfl

theorem registry_eq (h : m.Grows P m') : m'.registry = m.registry := by
  rw [h.rest]

theorem reachable (h : m.Grows (m.heap.Reachable m.roots) m') {r : Ref} (hr : m.heap.Reachable m.roots r) :
    m'.heap.Reachable m'.roots r :=
  h.roots_eq ▸ h.spares.reachable hr

theorem pinned_eq (h : m.Grows P m') : m'.pinned = m.pinned := by
  rw [h.rest]

end Grows

/-- How a computation ends that creates objects: with a result, of which `Q` says something, or for want of
room, or it stands still. Objects with a property are spared throughout. -/
inductive Builds {α : Type} (P : Ref → Prop) (Q : α → Heap ClassId → Prop) (m : Machine) :
    EStateM.Result Abrupt Machine α → Prop
  | done {a : α} {m' : Machine} (hgrows : m.Grows P m') (ha : Q a m'.heap) : Builds P Q m (.ok a m')
  | refused {m' : Machine} (hgrows : m.Grows P m') (text : String) :
      Builds P Q m (.error (.fault (.outOfMemory text)) m')
  | stuck {m' : Machine} (hspares : m.heap.Spares P m'.heap) : Builds P Q m (.error .stuck m')

variable {α β : Type} {R : α → Heap ClassId → Prop} {S : β → Heap ClassId → Prop} {c : Context}

/-- What a machine comes to that has come from another one. -/
theorem Builds.after {T : α → Heap ClassId → Prop} {result : EStateM.Result Abrupt Machine α}
    (h : m₁.Builds Q R result) (h₁ : m.Grows P m₁) (hPQ : ∀ r, P r → Q r)
    (himp : ∀ a m', m₁.Grows Q m' → R a m'.heap → T a m'.heap) : m.Builds P T result := by
  cases h with
  | done hgrows ha => exact .done (h₁.trans (hgrows.mono hPQ)) (himp _ _ hgrows ha)
  | refused hgrows text => exact .refused (h₁.trans (hgrows.mono hPQ)) text
  | stuck hspares => exact .stuck (h₁.spares.trans (hspares.mono hPQ))

/-- A computation may spare more than the one after it. -/
theorem Builds.bind {x : VM α} {g : α → VM β} (hx : m.Builds Q R (x c m)) (hPQ : ∀ r, P r → Q r)
    (hg : ∀ a m₁, m.Grows Q m₁ → R a m₁.heap → m.Builds P S (g a c m₁)) :
    m.Builds P S ((x >>= g) c m) := by
  generalize hresult : x c m = result at hx
  cases hx with
  | done hgrows ha =>
    rw [VM.bind_of_ok hresult]
    exact hg _ _ hgrows ha
  | refused hgrows text =>
    rw [VM.bind_of_error hresult]
    exact .refused (hgrows.mono hPQ) text
  | stuck hspares =>
    rw [VM.bind_of_error hresult]
    exact .stuck (hspares.mono hPQ)

/-- Objects are held while a computation runs. -/
theorem Builds.pinning {x : VM α} {refs : List Ref} (hx : (m.hold refs).Builds P R (x c (m.hold refs))) :
    m.Builds P R (VM.pinning refs x c m) := by
  generalize hresult : x c (m.hold refs) = result at hx
  have hlet : ∀ {m'}, (m.hold refs).Grows P m' → m.Grows P { m' with pinned := m.pinned } := by
    intro m' h
    exact ⟨by rw [h.rest], h.balanced, h.clean, h.spares⟩
  cases hx with
  | done hgrows ha =>
    simp only [VM.pinning, hresult]
    exact .done (hlet hgrows) ha
  | refused hgrows text =>
    simp only [VM.pinning, hresult]
    exact .refused (hlet hgrows) text
  | stuck hspares =>
    simp only [VM.pinning, hresult]
    exact .stuck hspares

/-- **A machine creates an object** where it could not reach any. -/
theorem builds_allocate (hbalanced : m.heap.Balanced) (hclean : m.heap.Clean)
    (request : Heap.Request ClassId) (c : Context) :
    m.Builds (m.heap.Reachable m.roots)
      (fun r h => h.Stores r request.cls request.contents ∧ ¬ m.heap.Reachable m.roots r)
      (VM.allocate request c m) := by
  by_cases hsteps : m.steps = 0
  · have htick : VM.tick c m = .error .stuck m := by rw [VM.tick, if_pos hsteps]
    rw [VM.allocate, VM.bind_of_error htick]
    exact .stuck (.refl _ _)
  · have htick : VM.tick c m = .ok () { m with steps := m.steps - 1 } := by rw [VM.tick, if_neg hsteps]
    rw [VM.allocate, VM.bind_of_ok htick]
    have halloc := hbalanced.allocates hclean request m.roots
    have hbalanced' := Heap.balanced_kept.toCarried.allocate request m.roots hbalanced
    have hclean' := Heap.clean_kept.toCarried.allocate request m.roots hclean
    have heq : ({ m with steps := m.steps - 1 } : Machine).allocate request =
        ((m.heap.allocate request m.roots).1,
          { m with heap := (m.heap.allocate request m.roots).2, steps := m.steps - 1 }) :=
      allocate_eq _ request
    generalize m.heap.allocate request m.roots = outcome at halloc hbalanced' hclean' heq
    obtain ⟨result, h'⟩ := outcome
    cases halloc with
    | made hspares hfresh hnew =>
      simp only [VM.create, heq]
      exact .done ⟨rfl, hbalanced', hclean', hspares⟩ ⟨hnew, hfresh⟩
    | refused hspares text =>
      simp only [VM.create, heq]
      exact .refused ⟨rfl, hbalanced', hclean', hspares⟩ text

end Machine

end Execution

end Jvm
