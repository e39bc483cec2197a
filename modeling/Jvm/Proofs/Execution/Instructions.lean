import Mathlib
import Jvm.Execution.Instructions
import Jvm.Proofs.Execution.Calls

/-! # Instructions keep a machine sound

What an instruction pops is in no frame any more; it creates nothing until it has pushed or stored it. An
array of arrays holds each level while the level below is created, and a store to an array keeps what fits
the class of the array. -/

namespace Jvm.Execution

open Linking ClassFile Bytecode

theorem Flow.returned_next (m : Machine) : Flow.next.Returned m := fun _ h => by cases h

theorem Flow.returned_moved (m : Machine) : Flow.moved.Returned m := fun _ h => by cases h

/-- The last bit of an int is zero or one. -/
theorem Arithmetic.last_bit (v : Int32) : v &&& 1 = 0 ∨ v &&& 1 = 1 := by
  have hbit := BitVec.and_one_eq_setWidth_ofBool_getLsbD (x := v.toBitVec)
  rw [← Int32.toBitVec_inj, ← Int32.toBitVec_inj, Int32.toBitVec_and,
    show (1 : Int32).toBitVec = 1#32 from rfl, hbit]
  cases v.toBitVec.getLsbD 0
  exacts [.inl rfl, .inr rfl]

/-- What is kept of a value in a field is the value, if it is an object. -/
theorem all_keptIn {P : Ref → Prop} {type : FieldType} {v w : Value} (hv : v.All P)
    (h : keptIn type v = some w) : w.All P := by
  unfold keptIn at h
  split at h
  all_goals first
    | (split at h <;> cases h; exact hv)
    | (cases h <;> exact Value.all_of_ne_ref (by simp))

/-- What a static field holds is there. -/
theorem Machine.Sound.value_of_static {m : Machine} (hm : m.Sound) {id : ClassId} {slot : Nat} {v : Value}
    (hv : m.registry.getStatic? id slot = some v) : v.All m.heap.IsLive := by
  rintro r rfl
  obtain ⟨s, hs, hslot⟩ := Option.bind_eq_some_iff.1 hv
  refine hm.classes r (hm.registry.linked.mem_roots.2 (.inl ⟨id, s, hs, ?_⟩))
  exact ClassState.mem_roots.2 (.inl (Array.mem_of_getElem? hslot))

namespace VM

variable {α : Type} {P : Ref → Prop} {c : Context} {m : Machine} {r : Ref}

/-- What is popped from the current frame was in it. -/
theorem meets_popped {x : OnFrame α} {Q : α → Prop} (hx : x.Safe m.heap.IsLive Q) :
    Quiet (onFrame x) (fun a m' => Q a ∧ ∃ frames, m' = { m with frames }) c m :=
  meets_onFrame hx.holds

/-- Only the instruction at hand of a frame changes besides. -/
theorem holds_advance {Q : Ref → Prop} {x : OnFrame Target} (hx : x.Safe Q fun _ => True) :
    (Frame.advance x).Holds Q fun _ => True := by
  intro f hf
  have hfx := hx f hf
  rcases h : x f with ⟨target, f'⟩ | ⟨e, f'⟩
  · rw [h] at hfx
    rw [Frame.advance, Linking.bind_of_ok h]
    exact ⟨⟨hfx.2.1.locals, hfx.2.1.stack, hfx.2.1.monitor⟩, trivial⟩
  · rw [h] at hfx
    rw [Frame.advance, Linking.bind_of_error h]
    exact hfx.2

/-- A frame goes on behind a call with the result of the call. -/
theorem holds_resume {Q : Ref → Prop} {result : Option Value} (hresult : ∀ v ∈ result, v.All Q) :
    OnFrame.Holds Q (do
      modify fun f : Frame => { f with pc := f.pc + 1 }
      if let some v := result then Frame.push v) fun _ => True := by
  intro f hf
  cases result with
  | none => exact ⟨⟨hf.locals, hf.stack, hf.monitor⟩, trivial⟩
  | some v =>
    exact (Frame.safe_push (hresult v rfl)).holds _ ⟨hf.locals, hf.stack, hf.monitor⟩

theorem safe_fetch {Q : Ref → Prop} : fetch.Safe Q fun _ => True := by
  refine OnFrame.safe_get.bind fun f _ => ?_
  split
  · exact OnFrame.safe_pure trivial
  · exact Frame.safe_refuse _

/-! ### Creation -/

theorem quiet_classAt (index : UInt16) : Quiet (classAt index) (fun _ _ => True) c m := by
  refine meets_currentClass.bind ?_
  rintro current _ - rfl
  exact (meets_link (fun _ _ => True) fun _ => (admits_resolves _).resolveClass current index).mono
    fun _ _ _ _ => trivial

theorem meets_newObject (hc : c.Sound) (hP : ∀ r, P r → m.Held r) (index : UInt16) :
    Meets P (newObject index) (fun _ _ => True) c m := by
  refine (quiet_classAt index).seq fun id m₁ h₁ _ => ?_
  have hP₁ : ∀ r, P r → m₁.Held r := (h₁.mono fun _ _ => trivial).held hP
  refine (meets_getClass id).seq ?_
  rintro cl _ - ⟨rfl, hcl⟩
  refine meets_guard (fun _ => meets_fail _) fun hplain => ?_
  refine (meets_ensureInitialized hc hP₁ id).bind fun _ m₂ h₂ _ => ?_
  have hnone : m₂.registry.table.componentOf? id = none := by
    rw [ClassTable.componentOf?_of_class? (h₂.table id cl hcl)]
    have hplain : cl.isAbstract = false ∧ cl.isArray = false := by simpa using hplain
    simpa [LinkedClass.isArray] using hplain.2
  refine (meets_newInstance (h₂.held hP₁) hnone).bind fun object m₃ _ hobject => ?_
  exact (meets_push (Value.all_ref.2 hobject.1.isLive)).weaken fun _ _ => trivial

theorem meets_newArrayOf (hP : ∀ r, P r → m.Held r) (id : ClassId) (length : Int32) :
    Meets P (newArrayOf id length) (fun r m' => m'.heap.Has r id) c m := by
  refine (meets_getClass id).seq ?_
  rintro cl _ - ⟨rfl, hcl⟩
  split
  · exact meets_fail _
  · next component hcomponent =>
    have hid := (ClassTable.componentOf?_of_class? hcl).trans hcomponent
    by_cases hlength : length < 0
    · rw [Heap.Request.array, if_pos hlength]
      exact meets_raise _ _
    · rw [Heap.Request.array, if_neg hlength]
      exact (meets_allocate_zeros hP hid _).mono fun _ _ _ h => h.1

theorem meets_pushArray (hP : ∀ r, P r → m.Held r) (id : ClassId) (length : Int32) :
    Meets P (newArrayOf id length >>= fun r => push (.ref r)) (fun _ _ => True) c m :=
  (meets_newArrayOf hP id length).bind fun _ _ _ harray =>
    (meets_push (Value.all_ref.2 harray.isLive)).weaken fun _ _ => trivial

theorem meets_newPrimitiveArray (hP : ∀ r, P r → m.Held r) (element : Primitive) :
    Meets P (newPrimitiveArray element) (fun _ _ => True) c m := by
  refine (meets_popped Frame.safe_popInt).seq fun length m₁ h₁ _ => ?_
  refine (meets_link (fun _ _ => True) fun hr =>
    (resolves_primitiveArrayClass hr element).mono fun _ _ _ _ => trivial).seq fun id m₂ h₂ _ => ?_
  exact meets_pushArray (((h₁.trans h₂).mono fun _ _ => trivial).held hP) id length

theorem meets_newReferenceArray (hP : ∀ r, P r → m.Held r) (index : UInt16) :
    Meets P (newReferenceArray index) (fun _ _ => True) c m := by
  refine (meets_popped Frame.safe_popInt).seq fun length m₁ h₁ _ => ?_
  refine (quiet_classAt index).seq fun component m₂ h₂ _ => ?_
  refine (meets_link (fun _ _ => True) fun hr =>
    (resolves_arrayClassOf hr component).mono fun _ _ _ _ => trivial).seq fun id m₃ h₃ _ => ?_
  exact meets_pushArray ((((h₁.trans h₂).trans h₃).mono fun _ _ => trivial).held hP) id length

/-- The array is held while what is stored in it is made. -/
theorem meets_storeEach {array : Ref} {cls component : ClassId} {make : VM Ref} (hkept : P array)
    (hmake : ∀ m', m.Leads P m' → Meets P make (fun r m'' => m''.heap.Has r component) c m')
    (harray : m.heap.Has array cls)
    (hcls : m.registry.table.componentOf? cls = some (.reference component)) (i n : Nat) :
    Meets P (storeEach array make i n) (fun _ _ => True) c m := by
  induction n generalizing m i with
  | zero => exact meets_pure trivial
  | succ n ih =>
    refine meets_of_sound fun hm => (hmake m (.refl hm P)).bind fun r m₁ h₁ hr => ?_
    have harray₁ := h₁.keeps array cls hkept harray
    have hcls₁ := h₁.table.componentOf? hcls
    have hstorable : Shaped.Storable m₁.registry.table m₁.heap cls (.ref r) := by
      refine ⟨?_, fun h => by cases hcls₁.symm.trans h⟩
      rintro _ ⟨⟩
      refine ⟨component, hr, fun k hk => ?_⟩
      cases hcls₁.symm.trans hk
      exact ClassTable.isAssignable_iff.2 (.refl component)
    refine (meets_storeElement harray₁ i hstorable).seq fun _ m₂ h₂ _ => ?_
    have h₁₂ := h₁.trans (h₂.mono fun _ _ => trivial)
    exact ih (fun m' h' => hmake m' (h₁₂.trans h')) (h₂.keeps array cls trivial harray₁)
      (h₂.table.componentOf? hcls₁) (i + 1)

/-- Each level is held while the levels below are created: the induction is on the lengths. -/
theorem meets_newNested (hP : ∀ r, P r → m.Held r) (id : ClassId) (lengths : List Int32) :
    Meets P (newNested id lengths) (fun r m' => m'.heap.Has r id) c m := by
  induction lengths generalizing P m id with
  | nil => exact meets_fail _
  | cons length rest ih =>
    cases rest with
    | nil => exact meets_newArrayOf hP id length
    | cons inner rest =>
      rw [newNested]
      refine (meets_newArrayOf hP id length).bind fun array m₁ h₁ harray => ?_
      have hP₁ := h₁.held hP
      refine (meets_getClass id).seq ?_
      rintro cl m₁ - ⟨rfl, hcl⟩
      split
      · next component hcomponent =>
        have hid := (ClassTable.componentOf?_of_class? hcl).trans hcomponent
        have hfill : Meets P (pinning [array]
            (storeEach array (newNested component (inner :: rest)) 0 length.toInt.toNat))
            (fun _ m' => m'.heap.Has array id) c m₁ := by
          refine Meets.holding hP₁ (by simpa using harray.isLive) (fun _ _ _ h => h) ?_
          have hheld : (m₁.hold [array]).Held array := .inl List.mem_cons_self
          refine (meets_storeEach (m := m₁.hold [array]) hheld (fun m' h' => ?_) harray hid 0 _).mono
            fun _ _ h _ => h.keeps array id hheld harray
          exact ih (h'.held fun _ h => h) component
        exact hfill.bind fun _ _ _ harray => meets_pure harray
      · exact meets_fail _

theorem safe_lengthsOf {Q : Ref → Prop} (vs : List Value) : (lengthsOf vs).Safe Q fun _ => True := by
  induction vs with
  | nil => exact OnFrame.safe_pure trivial
  | cons v vs ih =>
    cases v with
    | int n => exact ih.bind fun _ _ => OnFrame.safe_pure trivial
    | _ => exact Frame.safe_refuse _

theorem meets_newMultiArray (hP : ∀ r, P r → m.Held r) (index : UInt16) (dimensions : UInt8) :
    Meets P (newMultiArray index dimensions) (fun _ _ => True) c m := by
  refine (quiet_classAt index).seq fun id m₁ h₁ _ => ?_
  refine (meets_popped ((Frame.safe_popArgs _).bind fun vs _ => safe_lengthsOf vs)).seq
    fun lengths m₂ h₂ _ => ?_
  have hP₂ : ∀ r, P r → m₂.Held r := ((h₁.trans h₂).mono fun _ _ => trivial).held hP
  split
  · exact Meets.bind (Q := fun _ _ => False) (meets_raise _ _) fun _ _ _ h => h.elim
  · exact (meets_newNested hP₂ id lengths).bind fun _ _ _ harray =>
      (meets_push (Value.all_ref.2 harray.isLive)).weaken fun _ _ => trivial

/-! ### Elements -/

theorem meets_accessed (hr : m.heap.IsLive r) (access : ElementAccess) (what : String) :
    Meets P (accessed access what r)
      (fun e m' => m' = m ∧ ∃ o, m.heap.object? r = some o ∧ o.contents = .array e) c m := by
  refine (meets_elements hr).bind ?_
  rintro e m - ⟨rfl, he⟩
  extract_lets finish
  refine meets_ite (fun _ => meets_reading rfl ((meets_classOf hr).bind ?_)) fun _ => meets_pure ⟨rfl, he⟩
  rintro id m - ⟨rfl, -⟩
  exact Meets.bind (Q := fun _ _ => False) (meets_fail _) fun _ _ _ h => h.elim

theorem meets_checkIndex (index : Int32) (length : Nat) :
    Meets P (checkIndex index length) (fun _ m' => m' = m) c m :=
  meets_ite (fun _ => meets_raise _ _) fun _ => meets_pure rfl

theorem quiet_loadElement (access : ElementAccess) :
    Quiet (loadElement access) (fun _ _ => True) c m := by
  refine (meets_popped Frame.safe_popInt).bind ?_
  rintro index _ - ⟨-, frames, rfl⟩
  refine (meets_popped (m := { m with frames }) Frame.safe_popObject).bind ?_
  rintro array _ - ⟨harray, frames, rfl⟩
  refine meets_of_sound fun hm => (meets_accessed (m := { m with frames }) harray access _).bind ?_
  rintro e _ - ⟨rfl, o, ho, he⟩
  refine (meets_checkIndex index e.size).bind ?_
  rintro _ _ - rfl
  split
  · next v hv => exact meets_push (hm.value_of_array ho he (Array.mem_of_getElem? hv))
  · exact meets_raise _ _

/-- What is kept for a store to an array of a class may be stored there. -/
theorem meets_keptElement {id : ClassId} {v : Value} (hv : v.All m.heap.IsLive) :
    Meets P (keptElement (m.registry.table.componentOf? id) v)
      (fun w m' => m' = m ∧ Shaped.Storable m.registry.table m.heap id w) c m := by
  unfold keptElement
  split
  · next component r hcomponent =>
    refine (meets_classOf (Value.all_ref.1 hv)).bind ?_
    rintro k m - ⟨rfl, hk⟩
    refine meets_reading rfl ?_
    extract_lets finish
    refine meets_ite (fun _ => ?_) fun hfits => meets_pure ⟨rfl, ?_, fun h => by cases hcomponent.symm.trans h⟩
    · exact meets_reading rfl (Meets.bind (Q := fun _ _ => False) (meets_raise _ _) fun _ _ _ h => h.elim)
    · rintro _ ⟨⟩
      refine ⟨k, hk, fun component' h => ?_⟩
      cases hcomponent.symm.trans h
      simpa using hfits
  · next n hcomponent =>
    refine meets_pure ⟨rfl, (fun s hs => by cases hs), fun _ k hk => ?_⟩
    cases hk
    exact Arithmetic.last_bit n
  · next v hreference hboolean =>
    refine meets_pure ⟨rfl, fun s hs => ?_, fun hcomponent n hn => (hboolean n hcomponent hn).elim⟩
    obtain ⟨k, hk⟩ := (hv s hs).exists_has
    exact ⟨k, hk, fun component hcomponent => (hreference component s hcomponent hs).elim⟩

theorem quiet_assignElement (access : ElementAccess) :
    Quiet (assignElement access) (fun _ _ => True) c m := by
  refine (meets_popped Frame.safe_pop).bind ?_
  rintro v _ - ⟨hv, frames, rfl⟩
  refine (meets_popped (m := { m with frames }) Frame.safe_popInt).bind ?_
  rintro index _ - ⟨-, frames, rfl⟩
  refine (meets_popped (m := { m with frames }) Frame.safe_popObject).bind ?_
  rintro array _ - ⟨harray, frames, rfl⟩
  refine (meets_classOf (m := { m with frames }) harray).bind ?_
  rintro id _ - ⟨rfl, hid⟩
  refine (meets_accessed (m := { m with frames }) harray access _).bind ?_
  rintro e _ - ⟨rfl, -⟩
  refine (meets_checkIndex index e.size).bind ?_
  rintro _ _ - rfl
  refine meets_reading rfl ((meets_keptElement (m := { m with frames }) hv).bind ?_)
  rintro w _ - ⟨rfl, hw⟩
  refine (meets_storeElement (m := { m with frames }) hid _ hw).bind fun stored m₁ _ _ => ?_
  exact meets_ite (fun _ => meets_fail _) fun _ => meets_pure trivial

theorem quiet_arrayLength : Quiet arrayLength (fun _ _ => True) c m := by
  refine (meets_popped Frame.safe_popObject).bind ?_
  rintro array _ - ⟨harray, frames, rfl⟩
  refine (meets_elements (m := { m with frames }) harray).bind ?_
  rintro e _ - ⟨rfl, -⟩
  exact meets_push (Value.all_of_ne_ref (by simp))

/-! ### Classes of objects -/

theorem quiet_castClasses (hr : m.heap.IsLive r) (index : UInt16) :
    Quiet (castClasses r index) (fun _ _ => True) c m := by
  refine (quiet_classAt index).bind fun target m₁ h₁ _ => ?_
  refine (meets_classOf (h₁.isLive trivial hr)).bind ?_
  rintro id _ - ⟨rfl, -⟩
  exact meets_pure trivial

theorem quiet_checkCast (index : UInt16) : Quiet (checkCast index) (fun _ _ => True) c m := by
  refine (meets_popped (Frame.safe_peek 0)).bind ?_
  rintro v _ - ⟨hv, frames, rfl⟩
  split
  · exact meets_pure trivial
  · refine (quiet_castClasses (m := { m with frames }) (Value.all_ref.1 hv) index).bind
      fun classes m₁ _ _ => meets_reading rfl ?_
    refine meets_ite (fun _ => ?_) fun _ => meets_pure trivial
    exact meets_reading rfl (meets_reading rfl (meets_raise _ _))
  · exact (meets_popped (Frame.safe_refuse _ (Q := fun _ => True))).mono fun _ _ _ _ => trivial

theorem quiet_instanceOf (index : UInt16) : Quiet (instanceOf index) (fun _ _ => True) c m := by
  refine (meets_popped Frame.safe_popReference).bind ?_
  rintro o _ - ⟨ho, frames, rfl⟩
  have hint (n : Int32) {m' : Machine} : Quiet (push (.int n)) (fun _ _ => True) c m' :=
    meets_push (Value.all_of_ne_ref (by simp))
  split
  · exact hint 0
  · next object =>
    exact (quiet_castClasses (m := { m with frames }) (ho object rfl) index).bind
      fun classes m₁ _ _ => meets_reading rfl (hint _)

/-! ### Fields -/

/-- A field reference comes to a declared field that is static or not, as the instruction says. -/
theorem quiet_fieldAt (index : UInt16) (isStatic : Bool) : Quiet (fieldAt index isStatic)
    (fun f m' => m'.registry.table.DeclaresField f ∧ f.isStatic = isStatic) c m := by
  refine meets_currentClass.bind ?_
  rintro current _ - rfl
  refine (meets_link (fun f r => r.table.DeclaresField f) fun hr =>
    resolves_resolveField hr current index).bind fun f m₁ _ hf => ?_
  extract_lets finish
  refine meets_ite (fun _ => (meets_getClass current).bind ?_) fun hstatic =>
    meets_pure ⟨hf.1, by simpa using hstatic⟩
  rintro cl _ - ⟨rfl, -⟩
  refine (meets_ofExcept _).bind ?_
  rintro member _ - ⟨rfl, -⟩
  exact Meets.bind (Q := fun _ _ => False) (meets_fail _) fun _ _ _ h => h.elim

theorem safe_popKept {Q : Ref → Prop} (instruction : String) (type : FieldType) :
    (popKept instruction type).Safe Q fun v => v.All Q ∧ keptIn type v = some v := by
  refine Frame.safe_pop.bind fun v hv => ?_
  split
  · next kept hkept => exact OnFrame.safe_pure ⟨all_keptIn hv hkept, keptIn_keptIn hkept⟩
  · exact Frame.safe_refuse _

theorem meets_getStatic (hc : c.Sound) (hP : ∀ r, P r → m.Held r) (index : UInt16) :
    Meets P (getStatic index) (fun _ _ => True) c m := by
  refine (quiet_fieldAt index true).seq fun f m₁ h₁ _ => ?_
  refine (meets_ensureInitialized hc ((h₁.mono fun _ _ => trivial).held hP) _).bind
    fun _ m₂ h₂ _ => meets_reading rfl ?_
  split
  · next v hv => exact (meets_push (h₂.sound.value_of_static hv)).weaken fun _ _ => trivial
  · exact meets_reading rfl (meets_fail _)

theorem meets_putStatic (hc : c.Sound) (hP : ∀ r, P r → m.Held r) (index : UInt16) :
    Meets P (putStatic index) (fun _ _ => True) c m := by
  refine (quiet_fieldAt index true).seq fun f m₁ h₁ hf => ?_
  refine (meets_ensureInitialized hc ((h₁.mono fun _ _ => trivial).held hP) _).bind fun _ m₂ h₂ _ => ?_
  refine (meets_popped (safe_popKept _ _)).seq ?_
  rintro v _ - ⟨⟨hv, hkept⟩, frames, rfl⟩
  refine meets_reading rfl ?_
  split
  · next registry hset =>
    have hf₂ := hf.1.mono h₂.table
    exact meets_of_ok rfl (fun hm => hm.leads_setStatic hf₂ hf.2 hkept hv hset) fun _ => trivial
  · exact meets_reading rfl (meets_fail _)

theorem quiet_getInstanceField (index : UInt16) :
    Quiet (getInstanceField index) (fun _ _ => True) c m := by
  refine (quiet_fieldAt index false).bind fun f m _ _ => ?_
  refine (meets_popped Frame.safe_popObject).bind ?_
  rintro object _ - ⟨hobject, frames, rfl⟩
  refine (meets_getField (m := { m with frames }) hobject f.slot).bind ?_
  rintro v _ - ⟨rfl, hv⟩
  exact meets_push hv

theorem quiet_putInstanceField (index : UInt16) :
    Quiet (putInstanceField index) (fun _ _ => True) c m := by
  refine (quiet_fieldAt index false).bind fun f m _ hf => ?_
  refine (meets_popped (safe_popKept _ _)).bind ?_
  rintro v _ - ⟨⟨hv, hkept⟩, frames, rfl⟩
  refine (meets_popped (m := { m with frames }) Frame.safe_popObject).bind ?_
  rintro object _ - ⟨hobject, frames, rfl⟩
  exact (meets_setField (m := { m with frames }) hobject (hf.1.slotTakes hf.2 hkept) hv).mono
    fun _ _ _ _ => trivial

/-! ### Running an instruction -/

theorem meets_constantValue (hP : ∀ r, P r → m.Held r) (index : UInt16) (wide : Bool) :
    Meets P (constantValue index wide) (fun v m' => v.All m'.heap.IsLive) c m := by
  refine meets_currentClass.bind ?_
  rintro id _ - rfl
  refine (meets_getClass id).seq ?_
  rintro cl m - ⟨rfl, -⟩
  have hplain {v : Value} (hv : ∀ r, v ≠ .ref r) :
      Meets P (pure v) (fun v m' => v.All m'.heap.IsLive) c m :=
    meets_pure (Value.all_of_ne_ref hv)
  split
  · exact hplain (by simp)
  · exact hplain (by simp)
  · exact (meets_stringConstant hP id index).bind fun _ _ _ hstring =>
      meets_pure (Value.all_ref.2 hstring.1)
  · refine (quiet_classAt index).seq fun cls m₁ h₁ _ => ?_
    refine (meets_classObjectOf ((h₁.mono fun _ _ => trivial).held hP) cls).bind fun _ _ _ hobject => ?_
    exact meets_pure (Value.all_ref.2 hobject.1)
  · exact hplain (by simp)
  · exact hplain (by simp)
  · exact meets_fail _
  · exact meets_fail _

theorem meets_andNext {x : VM Unit} (hx : Meets P x (fun _ _ => True) c m) :
    Meets P (usePooled.andNext x) Flow.Returned c m :=
  hx.bind fun _ m' _ _ => meets_pure (Flow.returned_next m')

theorem meets_usePooled (hc : c.Sound) (hP : ∀ r, P r → m.Held r) (index : UInt16) (use : PoolUse) :
    Meets P (usePooled index use) Flow.Returned c m := by
  cases use with
  | getStatic => exact meets_andNext (meets_getStatic hc hP index)
  | putStatic => exact meets_andNext (meets_putStatic hc hP index)
  | getField => exact meets_andNext ((quiet_getInstanceField index).weaken fun _ _ => trivial)
  | putField => exact meets_andNext ((quiet_putInstanceField index).weaken fun _ _ => trivial)
  | invokeVirtual => exact meets_invokeVirtual hc hP index
  | invokeSpecial => exact meets_invokeSpecial hc hP index
  | invokeStatic => exact meets_invokeStatic hc hP index
  | new => exact meets_andNext (meets_newObject hc hP index)
  | newReferenceArray => exact meets_andNext (meets_newReferenceArray hP index)
  | checkCast => exact meets_andNext ((quiet_checkCast index).weaken fun _ _ => trivial)
  | instanceOf => exact meets_andNext ((quiet_instanceOf index).weaken fun _ _ => trivial)

/-- The result goes to the frame below, or to the caller. -/
theorem quiet_returnFrom (base : Nat) {result : Option Value} (hresult : Returned result m) :
    Quiet (returnFrom base result) Flow.Returned c m := by
  refine meets_of_sound fun hm => meets_reading rfl ?_
  split
  · exact meets_fail _
  · next f hf =>
    have hmem : f ∈ m.frames.list := List.mem_of_mem_head? hf
    refine (meets_modify fun hm => hm.leads_pop _).bind ?_
    rintro _ _ hpop rfl
    extract_lets finish
    have hfinish {m' : Machine} (h : m.Leads (fun _ => True) m') :
        Quiet (finish ()) Flow.Returned c m' := by
      have hvalue : ∀ v ∈ result, v.All m'.heap.IsLive := fun v hv => h.value (hresult v hv)
      refine meets_reading rfl (meets_ite (fun _ => meets_pure ?_) fun _ => ?_)
      · rintro _ ⟨⟩
        exact hvalue
      · exact (meets_onFrame (holds_resume hvalue)).bind fun _ m₁ _ _ =>
          meets_pure (Flow.returned_moved m₁)
    split
    · next r hr =>
      have hlive : m.heap.IsLive r := (hm.frames f hmem).monitor r hr
      exact (meets_leaveCallMonitor (m := { m with frames := m.frames.pop }) hlive).bind
        fun _ m₁ h₁ _ => hfinish (hpop.trans h₁)
    · exact hfinish hpop

theorem quiet_lock (hr : m.heap.IsLive r) : Quiet (lock r) (fun _ _ => True) c m := by
  refine (meets_enterMonitor hr).bind fun _ _ _ _ => ?_
  exact (meets_note (by simp)).mono fun _ _ _ _ => trivial

/-- Every instruction that does more than calculate keeps a machine sound. -/
theorem meets_execute (hc : c.Sound) (hP : ∀ r, P r → m.Held r) (base : Nat) (op : Operation) :
    Meets P (execute base op) Flow.Returned c m := by
  have hnext {x : VM Unit} {m' : Machine} (hx : Meets P x (fun _ _ => True) c m') :
      Meets P (x >>= fun _ => pure Flow.next) Flow.Returned c m' := meets_andNext hx
  have hquiet {x : VM Unit} {m' : Machine} (hx : Quiet x (fun _ _ => True) c m') :
      Meets P (x >>= fun _ => pure Flow.next) Flow.Returned c m' := hnext (hx.weaken fun _ _ => trivial)
  have hpush {index : UInt16} {wide : Bool} :
      Meets P (constantValue index wide >>= fun v => push v >>= fun _ => pure Flow.next)
        Flow.Returned c m :=
    (meets_constantValue hP index wide).bind fun _ _ _ hv => hquiet (meets_push hv)
  -- what takes an object off the operand stack first
  have hobject {g : Ref → VM Flow} (hg : ∀ r frames, m.heap.IsLive r →
      Meets P (g r) Flow.Returned c { m with frames }) :
      Meets P (onFrame Frame.popObject >>= g) Flow.Returned c m := by
    refine (meets_popped Frame.safe_popObject).seq ?_
    rintro object _ - ⟨hlive, frames, rfl⟩
    exact hg object frames hlive
  cases op with
  | ldc index => exact hpush
  | ldc2 index => exact hpush
  | arrayLoad access => exact hquiet (quiet_loadElement access)
  | arrayStore access => exact hquiet (quiet_assignElement access)
  | leave kind =>
    refine (meets_popped (Calculation.safe_popResult kind)).seq ?_
    rintro result _ - ⟨hresult, frames, rfl⟩
    exact (quiet_returnFrom (m := { m with frames }) base hresult).weaken fun _ _ => trivial
  | pooled use index => exact meets_usePooled hc hP index use
  | invokeInterface index count => exact meets_invokeInterface hc hP index
  | invokeDynamic index => exact hnext (meets_fail _)
  | newArray element => exact hnext (meets_newPrimitiveArray hP element)
  | newMultiArray index dimensions => exact hnext (meets_newMultiArray hP index dimensions)
  | arrayLength => exact hquiet quiet_arrayLength
  | throw_ =>
    refine hobject fun r frames hr => hnext (meets_throw ?_)
    rintro _ ⟨⟩
    exact hr
  | monitorEnter =>
    exact hobject fun r frames hr => hquiet (quiet_lock (m := { m with frames }) hr)
  | monitorExit =>
    exact hobject fun r frames hr => hquiet (meets_exitMonitor (m := { m with frames }) hr)
  | _ => exact meets_pure (Flow.returned_next m)

/-- **A step keeps a machine sound**, and what it keeps alive is there: the result, if it leaves the last
frame, and what it throws. -/
theorem meets_step (hc : c.Sound) (hP : ∀ r, P r → m.Held r) (base : Nat) :
    Meets P (step base) (fun o m' => ∀ result, o = some result → Returned result m') c m := by
  refine meets_tick.seq ?_
  rintro _ _ - ⟨steps, rfl⟩
  refine (meets_popped (m := { m with steps }) safe_fetch).seq ?_
  rintro op _ - ⟨-, frames, rfl⟩
  have hadvance {x : OnFrame Target} (hx : ∀ Q, x.Safe Q fun _ => True) {m' : Machine} :
      Meets P (onFrame (Frame.advance x) >>= fun _ => pure none)
        (fun o m' => ∀ result, o = some result → Returned result m') c m' :=
    (meets_onFrame (holds_advance (hx _))).seq fun _ _ _ _ => meets_pure fun _ h => by cases h
  split
  · next x hx => exact hadvance fun _ => safe_calculate hx
  · refine (meets_execute (m := { m with steps, frames }) hc hP base op).bind fun flow m₁ _ hflow => ?_
    split
    · exact hadvance fun _ => OnFrame.safe_pure trivial
    · exact meets_pure fun _ h => by cases h
    · next result =>
      refine meets_pure ?_
      rintro _ ⟨⟩
      exact hflow result rfl

end VM

end Jvm.Execution
