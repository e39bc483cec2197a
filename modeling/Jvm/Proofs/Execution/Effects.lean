import Mathlib
import Jvm.Proofs.Execution.Soundness

/-! # What the operations of a machine do

Each operation on objects, monitors and frames meets what a sound machine needs: what is read is there, what
is stored fits, and a new object comes with a collection that keeps what can be reached. -/

namespace Jvm.Execution

open Linking

/-- A computation on a frame with objects of a property: all objects in it have the property afterwards,
and a result is as `Q` says. -/
def OnFrame.Holds {α : Type} (P : Ref → Prop) (x : OnFrame α) (Q : α → Prop) : Prop :=
  ∀ f : Frame, f.All P → match x f with
    | .ok a f' => f'.All P ∧ Q a
    | .error e f' => f'.All P ∧ e.isCheck = true

theorem OnFrame.Safe.holds {α : Type} {P : Ref → Prop} {x : OnFrame α} {Q : α → Prop}
    (hx : x.Safe P Q) : x.Holds P Q := by
  intro f hf
  have hfx := hx f hf
  rcases h : x f with ⟨a, f'⟩ | ⟨e, f'⟩
  · rw [h] at hfx
    exact hfx.2
  · rw [h] at hfx
    exact hfx.2

namespace Machine

variable {m m' : Machine} {P : Ref → Prop} {r s : Ref} {o : Object ClassId}

/-- What an object refers to is there. -/
theorem Sound.isLive_of_reference (hm : m.Sound) (ho : m.heap.object? r = some o)
    (hs : s ∈ o.contents.references) : m.heap.IsLive s :=
  (hm.heap.shaped r o ho).isLive hs

/-- Values in an instance are there. -/
theorem Sound.value_of_fields (hm : m.Sound) (ho : m.heap.object? r = some o) {values : Array Value}
    (hcontents : o.contents = .fields values) {v : Value} (hv : v ∈ values) :
    v.All m.heap.IsLive := by
  rintro s rfl
  exact hm.isLive_of_reference ho (hcontents ▸ Contents.mem_references_fields.2 hv)

/-- Values in an array are there. -/
theorem Sound.value_of_array (hm : m.Sound) (ho : m.heap.object? r = some o) {e : Elements}
    (hcontents : o.contents = .array e) {v : Value} (hv : v ∈ e.values) :
    v.All m.heap.IsLive := by
  rintro s rfl
  have htyped := (hm.heap.shaped r o ho).typed e hcontents
  exact hm.isLive_of_reference ho (hcontents ▸ (Contents.mem_references_array htyped).2 hv)

/-- Other contents for an object, as its class says. -/
theorem Sound.leads_contents (hm : m.Sound) (ho : m.heap.object? r = some o) {f : Contents → Contents}
    (hf : Shaped m.registry.table m.heap o.cls (f o.contents)) :
    m.Leads (fun _ => True) (m.modifyHeap (·.modifyContents r f)) :=
  hm.leads_heap_all (hm.heap.modify ho (Heap.inPlace_contents f) (fun _ => rfl) hf) fun _ _ _ hk =>
    Heap.has_modifyContents.2 hk

theorem Sound.leads_monitor (hm : m.Sound) (hr : m.heap.IsLive r) (monitor : Monitor) :
    m.Leads (fun _ => True) (m.modifyHeap (·.setMonitor r monitor)) := by
  obtain ⟨o, ho⟩ := hr
  exact hm.leads_heap_all (hm.heap.modify ho (Heap.inPlace_monitor monitor) (fun _ => rfl)
    (hm.heap.shaped r o ho)) fun _ _ _ hk => Heap.has_setMonitor.2 hk

/-- A collection keeps what can be reached. -/
theorem Sound.leads_collect (hm : m.Sound) (hP : ∀ r, P r → m.heap.Reachable m.roots r) :
    m.Leads P m.collect := by
  obtain ⟨hh, hkeeps⟩ := hm.heap.collect m.roots
  refine hm.leads_heap hh (fun r hr => ?_) (hkeeps.mono hP)
  have hlive := hm.isLive_of_mem_roots hr
  exact hkeeps.isLive (.root hr hlive) hlive

variable {request : Heap.Request ClassId} {result : Except Fault Ref}

/-- An object that is created within the budget. -/
theorem Sound.leads_create (hm : m.Sound) (P : Ref → Prop) {h : Heap ClassId}
    (hrequest : Shaped m.registry.table m.heap request.cls request.contents)
    (htry : m.heap.tryAllocate request = some (r, h)) :
    m.Leads P (m.setHeap h) ∧ h.Has r request.cls := by
  obtain ⟨hh, hr, hkeeps⟩ := hm.heap.create htry hrequest
  exact ⟨(hm.leads_heap_all hh hkeeps).mono fun _ _ => trivial, hr⟩

/-- The outcome of a request for an object: another machine with the same registry, and the object, or a
fault. -/
structure Serves (P : Ref → Prop) (m : Machine) (request : Heap.Request ClassId)
    (result : Except Fault Ref) (m' : Machine) : Prop where
  leads : m.Leads P m'
  registry : m'.registry = m.registry
  object : ∀ r, result = .ok r → m'.heap.Has r request.cls

/-- What a request for an object, as its class says, comes to after a collection. -/
theorem Sound.leads_allocateCollected (hm : m.Sound) (P : Ref → Prop)
    (hrequest : Shaped m.registry.table m.heap request.cls request.contents)
    (h : m.allocateCollected request = (result, m')) : Serves P m request result m' := by
  unfold allocateCollected at h
  split at h
  · next block heap hreserve =>
    have htry : m.heap.tryAllocate request = some (heap.place request block) := by
      rw [Heap.tryAllocate, hreserve]
      rfl
    obtain ⟨hleads, hr⟩ := hm.leads_create P hrequest htry
    cases h
    refine ⟨hleads, rfl, ?_⟩
    rintro _ ⟨⟩
    exact hr
  · obtain ⟨hh, hkeeps, hobject⟩ := hm.heap.growAndAllocate hrequest
    cases h
    exact ⟨(hm.leads_heap_all hh hkeeps).mono fun _ _ => trivial, rfl, hobject⟩

/-- What a request for an object, as its class says, comes to: the objects that can be reached are kept,
and those that the new object refers to have to be among them. -/
theorem Sound.leads_allocate (hm : m.Sound)
    (hrequest : Shaped m.registry.table m.heap request.cls request.contents)
    (hreached : ∀ s ∈ request.contents.references, m.heap.Reachable m.roots s)
    (hP : ∀ r, P r → m.heap.Reachable m.roots r) (h : m.allocate request = (result, m')) :
    Serves P m request result m' := by
  unfold allocate at h
  split at h
  · next block heap hreserve =>
    have htry : m.heap.tryAllocate request = some (heap.place request block) := by
      rw [Heap.tryAllocate, hreserve]
      rfl
    obtain ⟨hleads, hr⟩ := hm.leads_create P hrequest htry
    cases h
    refine ⟨hleads, rfl, ?_⟩
    rintro _ ⟨⟩
    exact hr
  · have hcollect := hm.leads_collect fun r (hr : m.heap.Reachable m.roots r) => hr
    have hrequest' : Shaped m.collect.registry.table m.collect.heap request.cls request.contents :=
      hrequest.mono (.refl _) fun s hs k => hcollect.keeps s k (hreached s hs)
    have hserves := hcollect.sound.leads_allocateCollected P hrequest' h
    exact ⟨(hcollect.mono hP).trans hserves.leads, hserves.registry, hserves.object⟩

end Machine

namespace VM

variable {α β : Type} {P : Ref → Prop} {c : Context} {m : Machine} {r : Ref}

/-! ### Reading objects -/

theorem meets_readObject {f : Heap ClassId → Ref → Except Fault α} (hr : m.heap.IsLive r) :
    Meets P (readObject f r) (fun a m' => m' = m ∧ f m.heap r = .ok a) c m := by
  refine meets_reading rfl ?_
  split
  · next a ha => exact meets_pure ⟨rfl, ha⟩
  · refine meets_reading rfl ?_
    rw [if_neg]
    · exact meets_fail _
    · rw [Option.isNone_iff_eq_none, ← Heap.not_isLive_iff, not_not]
      exact hr

theorem meets_classOf (hr : m.heap.IsLive r) :
    Meets P (classOf r) (fun id m' => m' = m ∧ m.heap.Has r id) c m := by
  refine (meets_readObject hr).mono ?_
  rintro id _ - ⟨rfl, hid⟩
  obtain ⟨o, ho⟩ := hr
  simp only [Heap.classOf, Heap.object, ho, Except.map] at hid
  cases hid
  exact ⟨rfl, o, ho, rfl⟩

theorem meets_getField (hr : m.heap.IsLive r) (slot : Nat) :
    Meets P (getField r slot) (fun v m' => m' = m ∧ v.All m.heap.IsLive) c m := by
  refine meets_of_sound fun hm => (meets_readObject hr).mono ?_
  rintro v _ - ⟨rfl, hv⟩
  refine ⟨rfl, ?_⟩
  obtain ⟨o, ho⟩ := hr
  simp only [Heap.getField, Heap.object, ho, bind, Except.bind] at hv
  split at hv
  · next w hw =>
    cases hv
    obtain ⟨values, hvalues, hslot⟩ := Option.bind_eq_some_iff.1 hw
    have hcontents : o.contents = .fields values := by
      cases hc : o.contents with
      | fields values' => rw [hc] at hvalues; cases hvalues; rfl
      | array e => rw [hc] at hvalues; cases hvalues
    exact hm.value_of_fields ho hcontents (Array.mem_of_getElem? hslot)
  · cases hv

theorem meets_elements (hr : m.heap.IsLive r) : Meets P (elements r)
    (fun e m' => m' = m ∧ ∃ o, m.heap.object? r = some o ∧ o.contents = .array e) c m := by
  refine (meets_readObject hr).mono ?_
  rintro e _ - ⟨rfl, he⟩
  obtain ⟨o, ho⟩ := hr
  exact ⟨rfl, o, ho, Heap.contents_of_elements ho he⟩

/-! ### Changing objects -/

/-- An assignment to a field, of what may stand in the slot. -/
theorem meets_setField (hr : m.heap.IsLive r) {slot : Nat} {v : Value}
    (hslot : m.registry.table.SlotTakes slot v) (hv : v.All m.heap.IsLive) :
    Quiet (setField r slot v) (fun _ m' => m'.registry = m.registry) c m := by
  refine (meets_getField hr slot).bind ?_
  rintro _ _ - ⟨rfl, -⟩
  refine (meets_modify fun hm => ?_).mono fun _ _ _ h => h ▸ rfl
  obtain ⟨o, ho⟩ := hr
  exact hm.leads_contents ho ((hm.heap.shaped r o ho).putField hslot hv)

/-- A store to an array, of what fits its class. -/
theorem meets_storeElement {cls : ClassId} (hr : m.heap.Has r cls) (i : Nat) {v : Value}
    (hv : Shaped.Storable m.registry.table m.heap cls v) :
    Quiet (storeElement r i v) (fun _ _ => True) c m := by
  refine (meets_elements hr.isLive).bind ?_
  rintro e _ - ⟨rfl, o, ho, he⟩
  have hcls : o.cls = cls := by
    obtain ⟨o', ho', hcls⟩ := hr
    cases ho.symm.trans ho'
    exact hcls
  split
  · next kept hkept =>
    refine Meets.bind (meets_modify fun hm => ?_) fun _ _ _ _ => meets_pure trivial
    exact hm.leads_contents ho ((hm.heap.shaped r o ho).putElement he i hkept (hcls ▸ hv))
  · exact meets_pure trivial

/-! ### Monitors -/

theorem meets_enterMonitor (hr : m.heap.IsLive r) :
    Quiet (enterMonitor r) (fun _ _ => True) c m := by
  refine meets_reading rfl ((meets_readObject hr).bind ?_)
  rintro monitor _ - ⟨rfl, -⟩
  split
  · exact (meets_modify fun hm => hm.leads_monitor hr _).mono fun _ _ _ _ => trivial
  · exact meets_throw fun s hs => by cases hs

theorem meets_exitMonitor (hr : m.heap.IsLive r) :
    Quiet (exitMonitor r) (fun _ _ => True) c m := by
  refine meets_reading rfl ((meets_readObject hr).bind ?_)
  rintro monitor _ - ⟨rfl, -⟩
  split
  · exact (meets_modify fun hm => hm.leads_monitor hr _).mono fun _ _ _ _ => trivial
  · exact meets_raise _ _

theorem meets_leaveCallMonitor (hr : m.heap.IsLive r) :
    Quiet (leaveCallMonitor r) (fun _ _ => True) c m := by
  refine (meets_note (by simp)).bind ?_
  rintro _ _ - rfl
  exact meets_exitMonitor hr

/-! ### Frames -/

/-- A computation on the current frame, whose objects are there. -/
theorem meets_onFrame {x : OnFrame α} {Q : α → Prop}
    (hx : x.Holds m.heap.IsLive Q) :
    Quiet (onFrame x) (fun a m' => Q a ∧ ∃ frames, m' = { m with frames }) c m := by
  cases hlist : m.frames.list with
  | nil =>
    have hrun : onFrame x c m = .error (.fault (.internal "no current frame")) m := by
      simp only [onFrame, Stack.top?, hlist, List.head?_nil]
      rfl
    exact meets_of_error hrun fun hm => (Machine.Leads.refl hm _).ends fun s hs => by cases hs
  | cons f below =>
    refine meets_of_sound fun hm => ?_
    have hset {f' : Frame} (hf' : f'.All m.heap.IsLive) :
        m.Leads (fun _ => True) { m with frames := m.frames.setTop f' } := by
      refine hm.leads_frames _ fun g hg => ?_
      rw [list_setTop hlist] at hg
      rcases List.mem_cons.1 hg with rfl | hg
      · exact hf'
      · exact hm.frames g (hlist ▸ List.mem_cons_of_mem f hg)
    have hfx := hx f (hm.frames f (hlist ▸ List.mem_cons_self))
    rcases h : x f with ⟨a, f'⟩ | ⟨e, f'⟩
    · rw [h] at hfx
      have hrun : onFrame x c m = .ok a { m with frames := m.frames.setTop f' } := by
        simp only [onFrame, Stack.top?, hlist, List.head?_cons, h]
      exact meets_of_ok hrun (fun _ => hset hfx.1) fun _ => ⟨hfx.2, _, rfl⟩
    · rw [h] at hfx
      have hrun : onFrame x c m = .error e { m with frames := m.frames.setTop f' } := by
        simp only [onFrame, Stack.top?, hlist, List.head?_cons, h]
      refine meets_of_error hrun fun _ => (hset hfx.1).ends fun r hr => ?_
      rw [hr] at hfx
      cases hfx.2

theorem meets_push {v : Value} (hv : v.All m.heap.IsLive) :
    Quiet (push v) (fun _ _ => True) c m :=
  (meets_onFrame (Frame.safe_push hv).holds).mono fun _ _ _ _ => trivial

theorem meets_currentFrame : Meets P currentFrame
    (fun f m' => m' = m ∧ m.frames.top? = some f) c m := by
  refine meets_reading rfl ?_
  split
  · next f hf => exact meets_pure ⟨rfl, hf⟩
  · exact meets_fail _

theorem meets_currentClass : Meets P currentClass (fun _ m' => m' = m) c m := by
  refine meets_currentFrame.bind ?_
  rintro f _ - ⟨rfl, -⟩
  exact meets_pure rfl

/-! ### New objects -/

/-- A new object, as its class says; all that is held is kept. -/
theorem meets_allocate {request : Heap.Request ClassId} (hP : ∀ r, P r → m.Held r)
    (hrequest : Shaped m.registry.table m.heap request.cls request.contents)
    (hreached : ∀ s ∈ request.contents.references, m.heap.Reachable m.roots s) :
    Meets P (allocate request)
      (fun r m' => m'.heap.Has r request.cls ∧ m'.registry = m.registry) c m := by
  refine meets_tick.seq ?_
  rintro _ _ - ⟨steps, rfl⟩
  intro hm
  unfold create
  rcases h : ({ m with steps } : Machine).allocate request with ⟨result, m'⟩
  have hserves := hm.leads_allocate hrequest hreached
    (fun r hr => (hP r hr : Machine.Held { m with steps } r).reachable hm) h
  cases result with
  | ok r => exact ⟨hserves.leads, hserves.object r rfl, hserves.registry⟩
  | error e => exact hserves.leads.ends fun s hs => by cases hs

/-- A new array without objects. -/
theorem meets_allocate_zeros (hP : ∀ r, P r → m.Held r) {id : ClassId} {component : Component}
    (hid : m.registry.table.componentOf? id = some component) (length : Nat) :
    Meets P (allocate (.zeros id component.elementKind length))
      (fun r m' => m'.heap.Has r id ∧ m'.registry = m.registry) c m := by
  have hshaped : Shaped m.registry.table m.heap id
    (.array (.zeros component.elementKind length)) := .of_zeros hid length
  refine meets_allocate hP hshaped fun s hs => ?_
  have hmem := (Contents.mem_references_array (hshaped.typed _ rfl)).1 hs
  have hzero : Value.ref s = component.elementKind.access.zero := (Array.mem_replicate.1 hmem).2
  cases hkind : component.elementKind.access <;> rw [hkind] at hzero <;> cases hzero

/-- A new array of chars. -/
theorem meets_allocate_chars (hP : ∀ r, P r → m.Held r) {id : ClassId}
    (hid : m.registry.table.componentOf? id = some (.primitive .char)) (units : List UInt16) :
    Meets P (allocate (.object id (.array (.ofChars units))))
      (fun r m' => m'.heap.Has r id ∧ m'.registry = m.registry) c m := by
  have hshaped : Shaped m.registry.table m.heap id (.array (.ofChars units)) := .of_chars hid units
  refine meets_allocate hP hshaped fun s hs => ?_
  obtain ⟨u, -, hu⟩ : ∃ u ∈ units, Value.int u.toUInt32.toInt32 = .ref s := by
    simpa [Elements.ofChars] using (Contents.mem_references_array (hshaped.typed _ rfl)).1 hs
  cases hu

/-- A new instance of a class that is no array class. -/
theorem meets_newInstance (hP : ∀ r, P r → m.Held r) {id : ClassId}
    (hid : m.registry.table.componentOf? id = none) : Meets P (newInstance id)
      (fun r m' => m'.heap.Has r id ∧ m'.registry = m.registry) c m := by
  refine (meets_getClass id).seq ?_
  rintro cl _ hleads ⟨rfl, hcl⟩
  rw [ClassTable.componentOf?_of_class? hcl] at hid
  have htemplate := (hleads.sound.registry.linked.shape id cl hcl).template
  refine meets_allocate hP (.of_template hleads.sound.registry.built hcl hid htemplate) fun s hs => ?_
  cases htemplate _ (Contents.mem_references_fields.1 hs)

theorem meets_collect (hP : ∀ r, P r → m.Held r) : Meets P collect (fun _ _ => True) c m := by
  refine meets_tick.seq ?_
  rintro _ _ - ⟨steps, rfl⟩
  refine (meets_modify fun hm => hm.leads_collect fun r hr => ?_).mono fun _ _ _ _ => trivial
  exact (hP r hr : Machine.Held { m with steps } r).reachable hm

end VM

end Jvm.Execution
