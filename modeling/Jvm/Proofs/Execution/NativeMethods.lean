import Mathlib
import Jvm.Proofs.Execution.Throwing

/-! # Native methods

The native methods of the core classes keep a machine sound. Their arguments are held while they run, and so
are the objects they create; what they copy between arrays has passed the checks of its target. -/

namespace Jvm.Execution

open Linking VM

theorem returned_none (m : Machine) : Returned none m := fun v hv => by cases hv

theorem returned_ref {m : Machine} {r : Ref} (hr : m.heap.IsLive r) : Returned (resultRef r) m := by
  rintro _ ⟨⟩
  exact Value.all_ref.2 hr

theorem returned_int (n : Int32) (m : Machine) : Returned (resultInt n) m := by
  rintro _ ⟨⟩ r hr
  cases hr

variable {α : Type} {P : Ref → Prop} {c : Context} {m : Machine} {r : Ref} {args : List Value}

theorem meets_nativeReceiver :
    Meets P (nativeReceiver args) (fun r m' => m' = m ∧ .ref r ∈ args) c m := by
  unfold nativeReceiver
  split
  · exact meets_pure ⟨rfl, List.mem_cons_self⟩
  · exact meets_raise _ _

namespace VM

/-! ### What native methods work with -/

theorem meets_allocateHeld {request : Heap.Request ClassId} (hP : ∀ r, P r → m.Held r)
    (hrequest : Shaped m.registry.table m.heap request.cls request.contents)
    (hreached : ∀ s ∈ request.contents.references, m.heap.Reachable m.roots s) :
    Meets P (allocateHeld request) (fun r m' => m'.heap.IsLive r) c m := by
  refine (meets_allocate hP hrequest hreached).bind fun r m₁ _ hr => ?_
  refine (meets_pin hr.1.isLive).seq ?_
  rintro _ _ - rfl
  exact meets_pure hr.1.isLive

theorem meets_newStringOfUnitsHeld (hP : ∀ r, P r → m.Held r) (units : List UInt16) :
    Meets P (newStringOfUnitsHeld units) (fun r m' => m'.heap.IsLive r) c m := by
  refine (meets_newStringOfUnits hP units).bind fun r m₁ _ hr => ?_
  refine (meets_pin hr.1.isLive).seq ?_
  rintro _ _ - rfl
  exact meets_pure hr.1.isLive

theorem meets_newStringHeld (hP : ∀ r, P r → m.Held r) (text : String) :
    Meets P (newStringHeld text) (fun r m' => m'.heap.IsLive r) c m :=
  meets_newStringOfUnitsHeld hP _

theorem meets_internString (hr : m.heap.IsLive r) :
    Quiet (internString r) (fun r m' => m'.heap.IsLive r) c m := by
  refine (meets_readChars hr).bind ?_
  rintro units _ - rfl
  refine meets_of_sound fun hm => meets_reading rfl ?_
  split
  · next string hstring =>
    have hlive := Machine.Held.isLive hm (.inr (.inr ⟨_, hstring⟩))
    refine (meets_handOut hstring).mono ?_
    rintro _ _ - ⟨rfl, rfl⟩
    exact hlive
  · next hnone =>
    refine (meets_intern hr).bind ?_
    rintro _ _ - rfl
    refine (meets_handOut ?_).mono ?_
    · rw [Registry.interned?_intern, if_pos ⟨rfl, hnone⟩]
    · rintro _ _ - ⟨rfl, rfl⟩
      exact hr

theorem meets_isString (hr : m.heap.IsLive r) : Meets P (isString r) (fun _ m' => m' = m) c m := by
  refine meets_reading rfl ((meets_classOf hr).bind ?_)
  rintro cls _ - ⟨rfl, -⟩
  exact meets_pure rfl

theorem meets_implementation (cls : ClassId) (name descriptor : String) :
    Meets P (implementation cls name descriptor)
      (fun method m' => m' = m ∧ m.registry.table.Declares method) c m := by
  refine meets_of_sound fun hm => (meets_getClass cls).seq ?_
  rintro cl _ - ⟨rfl, hcl⟩
  split
  · exact meets_fail _
  · next method hmethod =>
    refine meets_guard (fun _ => meets_fail _) fun _ => meets_pure ⟨rfl, ?_⟩
    exact hm.registry.declares_of_virtual? hcl hmethod

theorem meets_callVirtual (hc : c.Sound) (hP : ∀ r, P r → m.Held r) (hr : m.heap.IsLive r)
    (hargs : ∀ v ∈ args, v.All m.heap.IsLive) (name descriptor : String) :
    Meets P (callVirtual r name descriptor args) Returned c m := by
  refine (meets_classOf hr).bind ?_
  rintro cls _ - ⟨rfl, -⟩
  refine (meets_implementation cls name descriptor).bind ?_
  rintro method _ - ⟨rfl, hmethod⟩
  refine hc.call method _ hP hmethod fun v hv => ?_
  rcases List.mem_cons.1 hv with rfl | hv
  exacts [Value.all_ref.2 hr, hargs v hv]

theorem meets_displayText (hc : c.Sound) (hP : ∀ r, P r → m.Held r) {v : Value}
    (hv : v.All m.heap.IsLive) : Meets P (displayText v) (fun _ _ => True) c m := by
  unfold displayText
  split
  · exact meets_pure trivial
  · next object =>
    have hr := Value.all_ref.1 hv
    refine (meets_isString hr).bind ?_
    rintro b _ - rfl
    refine meets_ite (fun _ => (meets_readString hr).mono fun _ _ _ _ => trivial) fun _ => ?_
    refine (meets_callVirtual hc hP hr (by simp) _ _).bind fun result m₁ _ hresult => ?_
    split
    · next string =>
      exact (meets_readString (Value.all_ref.1 (hresult _ rfl))).mono fun _ _ _ _ => trivial
    · exact meets_pure trivial
  · exact meets_fail _

end VM

/-! ### Objects -/

section

variable (hc : c.Sound) (hP : ∀ r, P r → m.Held r) (hkept : ∀ v ∈ args, v.All P)
  (hargs : ∀ v ∈ args, v.All m.heap.IsLive)

namespace ObjectNatives

theorem meets_identityHash (hr : m.heap.IsLive r) :
    Meets P (identityHash r) (fun _ _ => True) c m :=
  (meets_readObject hr).mono fun _ _ _ _ => trivial

include hargs

theorem meets_hashCode : Meets P (hashCode args) Returned c m := by
  refine meets_nativeReceiver.bind ?_
  rintro this _ - ⟨rfl, hthis⟩
  exact (meets_identityHash (Value.all_ref.1 (hargs _ hthis))).bind fun _ _ _ _ =>
    meets_pure (returned_int _ _)

theorem meets_identityHashCode : Meets P (identityHashCode args) Returned c m := by
  unfold identityHashCode
  split
  · exact (meets_identityHash (Value.all_ref.1 (hargs _ List.mem_cons_self))).bind fun _ _ _ _ =>
      meets_pure (returned_int _ _)
  · exact meets_pure (returned_int _ _)

include hP

theorem meets_getClass : Meets P (getClass args) Returned c m := by
  refine meets_nativeReceiver.bind ?_
  rintro this _ - ⟨rfl, hthis⟩
  refine (meets_classOf (Value.all_ref.1 (hargs _ hthis))).bind ?_
  rintro cls _ - ⟨rfl, -⟩
  exact (meets_classObjectOf hP cls).bind fun _ _ _ hobject => meets_pure (returned_ref hobject.1)

include hc hkept

theorem meets_objectToString : Meets P (objectToString args) Returned c m := by
  refine meets_nativeReceiver.bind ?_
  rintro this _ - ⟨rfl, hthis⟩
  have hr := Value.all_ref.1 (hargs _ hthis)
  refine (meets_classOf hr).bind ?_
  rintro cls _ - ⟨rfl, -⟩
  refine meets_reading rfl ((meets_callVirtual hc hP hr (by simp) _ _).bind fun result m₁ h₁ _ => ?_)
  have hr₁ := h₁.isLive (Value.all_ref.1 (hkept _ hthis)) hr
  have htext (m₂ : Machine) (h₂ : m₁.Leads P m₂) (text : String) :
      Meets P (do return resultRef (← newStringHeld text)) Returned c m₂ :=
    (meets_newStringHeld (h₂.held (h₁.held hP)) text).bind fun _ _ _ hstring =>
      meets_pure (returned_ref hstring)
  split
  · exact Meets.bind (Q := fun _ _ => True) (meets_pure trivial) fun _ m₂ h₂ _ => htext m₂ h₂ _
  · exact (meets_identityHash hr₁).bind fun _ m₂ h₂ _ => htext m₂ h₂ _

/-- A copy refers to what the receiver refers to, which is held. -/
theorem meets_clone : Meets P (clone args) Returned c m := by
  refine meets_nativeReceiver.bind ?_
  rintro this _ - ⟨rfl, hthis⟩
  have hr := Value.all_ref.1 (hargs _ hthis)
  refine (meets_classOf hr).bind ?_
  rintro cls _ - ⟨rfl, hcls⟩
  refine (VM.meets_getClass cls).seq ?_
  rintro cl m h ⟨rfl, -⟩
  extract_lets copy
  have hcopy : ∀ m₁, m.Leads P m₁ → Meets P (copy ()) Returned c m₁ := by
    intro m₁ h₁
    have hkept₁ := Value.all_ref.1 (hkept _ hthis)
    refine (meets_readObject (h₁.isLive hkept₁ hr)).bind ?_
    rintro o m₁ - ⟨rfl, ho⟩
    have ho : m₁.heap.object? this = some o := by
      unfold Heap.object at ho
      split at ho <;> cases ho
      assumption
    obtain ⟨o', ho', hocls⟩ := h₁.keeps this cls hkept₁ hcls
    cases ho.symm.trans ho'
    have hshaped := h₁.sound.heap.shaped this o ho
    have hthisReached := (h₁.held hP this hkept₁).reachable h₁.sound
    refine (meets_allocateHeld (h₁.held hP) (hocls ▸ hshaped) fun s hs => ?_).bind
      fun _ _ _ hobject => meets_pure (returned_ref hobject)
    exact hthisReached.step ho hs (hshaped.isLive hs)
  refine meets_of_sound fun hm => meets_ite (fun _ => ?_) fun _ => hcopy m (.refl hm _)
  refine (meets_coreClass _).seq fun cloneable m₁ h₁ _ => meets_reading rfl ?_
  refine meets_guard (fun _ => ?_) fun _ => hcopy m₁ (h₁.mono fun _ _ => trivial)
  exact meets_throwNew hc ((h₁.mono fun _ _ => trivial).held hP) (by decide) _

end ObjectNatives

/-! ### Strings -/

namespace StringNatives

include hargs

theorem meets_intern : Meets P (intern args) Returned c m := by
  refine meets_nativeReceiver.bind ?_
  rintro this _ - ⟨rfl, hthis⟩
  exact (meets_internString (Value.all_ref.1 (hargs _ hthis))).seq fun _ _ _ hstring =>
    meets_pure (returned_ref hstring)

theorem meets_hashCode : Meets P (hashCode args) Returned c m := by
  refine meets_nativeReceiver.bind ?_
  rintro this _ - ⟨rfl, hthis⟩
  refine (meets_readChars (Value.all_ref.1 (hargs _ hthis))).bind ?_
  rintro units _ - rfl
  exact meets_pure (returned_int _ _)

theorem meets_equals : Meets P (equals args) Returned c m := by
  refine meets_nativeReceiver.bind ?_
  rintro this m - ⟨rfl, hthis⟩
  have hr := Value.all_ref.1 (hargs _ hthis)
  have hother : (args[1]?.getD Value.null).All m.heap.IsLive := by
    cases h : args[1]? with
    | none => exact Value.all_of_ne_ref (by simp)
    | some v => exact hargs v (List.mem_of_getElem? h)
  refine Meets.bind (Q := fun _ _ => True) ?_ fun _ _ _ _ => meets_pure (returned_int _ _)
  unfold sameText
  split
  · next other heq =>
    have hr' : m.heap.IsLive other := hother other heq
    refine meets_ite (fun _ => meets_pure trivial) fun _ => (meets_isString hr').bind ?_
    rintro b m - rfl
    refine meets_ite (fun _ => (meets_readChars hr).bind ?_) fun _ => meets_pure trivial
    rintro units m - rfl
    exact (meets_readChars hr').bind fun _ _ _ _ => meets_pure trivial
  · exact meets_pure trivial

include hP

theorem meets_concat : Meets P (concat args) Returned c m := by
  refine meets_nativeReceiver.bind ?_
  rintro this m - ⟨rfl, hthis⟩
  have hr := Value.all_ref.1 (hargs _ hthis)
  split
  · next other hother =>
    obtain ⟨v, hv, hobject⟩ := Option.bind_eq_some_iff.1 hother
    have hr' : m.heap.IsLive other :=
      Value.all_iff_object?.1 (hargs v (List.mem_of_getElem? hv)) other hobject
    refine (meets_readChars hr').bind ?_
    rintro tail m - rfl
    refine meets_ite (fun _ => meets_pure (returned_ref hr)) fun _ => (meets_readChars hr).bind ?_
    rintro units _ - rfl
    exact (meets_newStringOfUnitsHeld hP _).bind fun _ _ _ hstring =>
      meets_pure (returned_ref hstring)
  · exact meets_raise _ _

include hc

theorem meets_valueOf : Meets P (valueOf args) Returned c m := by
  unfold valueOf
  extract_lets create
  have hcreate : ∀ text m₁, m.Leads P m₁ → Meets P (create text) Returned c m₁ :=
    fun text m₁ h₁ => (meets_newStringHeld (h₁.held hP) text).bind fun _ _ _ hstring =>
      meets_pure (returned_ref hstring)
  split
  · exact Meets.bind (Q := fun _ _ => True) (meets_pure trivial) fun _ m₁ h₁ _ => hcreate _ m₁ h₁
  · exact Meets.bind (Q := fun _ _ => True) (meets_pure trivial) fun _ m₁ h₁ _ => hcreate _ m₁ h₁
  · exact (meets_displayText hc hP (hargs _ List.mem_cons_self)).bind fun _ m₁ h₁ _ => hcreate _ m₁ h₁
  · exact Meets.bind (Q := fun _ _ => True) (meets_fail _) fun _ m₁ h₁ _ => hcreate _ m₁ h₁

end StringNatives

/-! ### Output -/

theorem quiet_write (toError : Bool) (text : String) :
    Quiet (VM.write toError text) (fun _ _ => True) c m := by
  refine (meets_modify fun hm => ?_).mono fun _ _ _ _ => trivial
  split <;> exact hm.leads_same _ rfl rfl rfl rfl rfl rfl

namespace Printing

include hc hP

theorem meets_printed (descriptor : String) {v : Value} (hv : v.All m.heap.IsLive) :
    Meets P (printed descriptor v) (fun _ _ => True) c m := by
  unfold printed
  split
  all_goals first
    | exact meets_pure trivial
    | exact meets_fail _
    | exact meets_displayText hc hP hv

include hargs

theorem meets_print (descriptor : String) (newline : Bool) :
    Meets P (print descriptor newline args) Returned c m := by
  refine meets_nativeReceiver.bind ?_
  rintro this _ - ⟨rfl, hthis⟩
  have hr := Value.all_ref.1 (hargs _ hthis)
  refine (meets_coreField _ _ _).seq fun slot m₁ h₁ _ => ?_
  refine (meets_getField (h₁.isLive trivial hr) slot).bind ?_
  rintro file m₁ - ⟨rfl, -⟩
  extract_lets output
  have houtput : ∀ text m₂, Meets P (output text) Returned c m₂ := fun text m₂ =>
    (quiet_write _ _).seq fun _ _ _ _ => meets_pure (returned_none _)
  have hP₁ : ∀ r, P r → m₁.Held r := (h₁.mono fun _ _ => trivial).held hP
  split
  · next v hv =>
    exact (meets_printed hc hP₁ descriptor (h₁.value (hargs v (List.mem_of_getElem? hv)))).bind
      fun _ m₂ _ _ => houtput _ m₂
  · exact Meets.bind (Q := fun _ _ => True) (meets_pure trivial) fun _ m₂ _ _ => houtput _ m₂

omit hc in
theorem meets_throwableToString : Meets P (throwableToString args) Returned c m := by
  refine meets_nativeReceiver.bind ?_
  rintro this _ - ⟨rfl, hthis⟩
  refine (quiet_describe (Value.all_ref.1 (hargs _ hthis))).seq fun text m₁ h₁ _ => ?_
  exact (meets_newStringHeld ((h₁.mono fun _ _ => trivial).held hP) text).bind fun _ _ _ hstring =>
    meets_pure (returned_ref hstring)

include hkept

theorem meets_printStackTrace : Meets P (printStackTrace args) Returned c m := by
  refine meets_nativeReceiver.bind ?_
  rintro this _ - ⟨rfl, hthis⟩
  refine (meets_displayText hc hP (hargs _ hthis)).bind fun text m₁ h₁ _ => ?_
  have hr₁ := h₁.isLive (Value.all_ref.1 (hkept _ hthis)) (Value.all_ref.1 (hargs _ hthis))
  refine (quiet_storedTrace hr₁).seq fun trace m₂ _ _ => ?_
  exact (quiet_write _ _).seq fun _ _ _ _ => meets_pure (returned_none _)

omit hc in
theorem meets_fillInStackTrace : Meets P (fillInStackTrace args) Returned c m := by
  refine meets_nativeReceiver.bind ?_
  rintro this _ - ⟨rfl, hthis⟩
  have hr := Value.all_ref.1 (hargs _ hthis)
  exact (VM.meets_fillInStackTrace hP hr true).bind fun _ m₁ h₁ _ =>
    meets_pure (returned_ref (h₁.isLive (Value.all_ref.1 (hkept _ hthis)) hr))

end Printing

end

/-! ### Copies between arrays -/

namespace ArrayCopy

theorem meets_refuseStore {Q : α → Machine → Prop} (message : String) :
    Meets P (refuseStore message) Q c m :=
  meets_raise _ _

/-- How the elements of two arrays are related that may go over in one piece. -/
theorem componentOf?_of_route {t : ClassTable} (ht : t.Regular) {source target : ClassId}
    {sourceClass targetClass : LinkedClass} (hsource : t.class? source = some sourceClass)
    (htarget : t.class? target = some targetClass)
    (h : route t source target sourceClass targetClass = .ok .whole) :
    t.componentOf? source = t.componentOf? target ∨
      ∃ a b, t.componentOf? source = some (.reference a) ∧ t.componentOf? target = some (.reference b) ∧
        ∀ k, t.isAssignable k a = true → t.isAssignable k b = true := by
  rw [ClassTable.componentOf?_of_class? hsource, ClassTable.componentOf?_of_class? htarget]
  unfold route at h
  split at h
  · cases h
  · cases h
  · next a b ha hb =>
    have hcomponent := (ClassTable.componentOf?_of_class? htarget).trans hb
    split at h
    · next hassign =>
      rcases (ClassTable.isAssignable_of_array hcomponent).1 hassign with
        rfl | ⟨p, -, hp⟩ | ⟨x, y, hx, hy, hxy⟩
      · cases hsource.symm.trans htarget
        exact .inl rfl
      · cases hp
      · cases hy
        have hxa := hx.symm.trans ((ClassTable.componentOf?_of_class? hsource).trans ha)
        cases hxa
        refine .inr ⟨a, b, ha, hb, fun k hk => ?_⟩
        exact ClassTable.isAssignable_iff.2 ((ClassTable.isAssignable_iff.1 hk).trans ht
          (ClassTable.isAssignable_iff.1 hxy))
    · cases h
  · next a b _ ha hb =>
    split at h
    · next hab => exact .inl (by rw [ha, hb, hab])
    · cases h

/-- The elements that are checked one by one are those of an array of objects. -/
theorem componentOf?_of_checked {t : ClassTable} {source target element : ClassId}
    {sourceClass targetClass : LinkedClass} (htarget : t.class? target = some targetClass)
    (h : route t source target sourceClass targetClass = .ok (.checked element)) :
    t.componentOf? target = some (.reference element) := by
  rw [ClassTable.componentOf?_of_class? htarget]
  unfold route at h
  split at h
  · cases h
  · cases h
  · next hb =>
    split at h
    · cases h
    · cases h
      exact hb
  · split at h <;> cases h

variable {source target : Ref} {sourceId targetId : ClassId}

/-- What has been copied before an element that does not fit stays copied, and fits. -/
theorem quiet_copyChecked {element : ClassId} (hsource : m.heap.Has source sourceId)
    (htarget : m.heap.Has target targetId)
    (helement : m.registry.table.componentOf? targetId = some (.reference element))
    (names : String × String) (i j n : Nat) :
    Quiet (copyChecked source target element names i j n) (fun _ _ => True) c m := by
  induction n generalizing m i j with
  | zero => exact meets_pure trivial
  | succ n ih =>
    rw [copyChecked]
    refine meets_of_sound fun hm => (meets_elements hsource.isLive).bind ?_
    rintro e m - ⟨rfl, o, ho, he⟩
    split
    · exact meets_raise _ _
    · next v hv =>
      extract_lets rest
      have hrest (hfits : ∀ s, v = .ref s → ∃ k, m.heap.Has s k ∧
          m.registry.table.isAssignable k element = true) :
          Quiet (rest ()) (fun _ _ => True) c m := by
        have hstorable : Shaped.Storable m.registry.table m.heap targetId v := by
          refine ⟨fun s hs => ?_, fun h => by cases helement.symm.trans h⟩
          obtain ⟨k, hk, hassign⟩ := hfits s hs
          refine ⟨k, hk, fun component hcomponent => ?_⟩
          cases helement.symm.trans hcomponent
          exact hassign
        refine (meets_storeElement htarget j hstorable).bind fun _ m₁ h₁ _ => ?_
        exact ih (h₁.keeps source _ trivial hsource) (h₁.keeps target _ trivial htarget)
          (h₁.table.componentOf? helement) (i + 1) (j + 1)
      split
      · next s =>
        have hlive : m.heap.IsLive s :=
          Value.all_ref.1 (hm.value_of_array ho he (Array.mem_of_getElem? hv))
        refine meets_reading rfl ((meets_classOf hlive).bind ?_)
        rintro k _ - ⟨rfl, hk⟩
        refine meets_guard (fun _ => meets_refuseStore _) fun hassign => hrest ?_
        rintro _ ⟨⟩
        exact ⟨k, hk, by simpa using hassign⟩
      · next hne => exact hrest fun s hs => (hne s hs).elim

theorem quiet_copyWhole (hsource : m.heap.Has source sourceId) (htarget : m.heap.Has target targetId)
    (hroute : m.registry.table.componentOf? sourceId = m.registry.table.componentOf? targetId ∨
      ∃ a b, m.registry.table.componentOf? sourceId = some (.reference a) ∧
        m.registry.table.componentOf? targetId = some (.reference b) ∧
        ∀ k, m.registry.table.isAssignable k a = true → m.registry.table.isAssignable k b = true)
    (names : String × String) (i j n : Nat) :
    Quiet (copyWhole source target names i j n) (fun _ _ => True) c m := by
  obtain ⟨o, ho, rfl⟩ := hsource
  obtain ⟨p, hp, rfl⟩ := htarget
  refine (meets_ofExcept (m.heap.copied source i target j n)).bind ?_
  rintro copied _ - ⟨rfl, hcopied⟩
  split
  · next e' =>
    refine (meets_modify fun hm => ?_).mono fun _ _ _ _ => trivial
    refine hm.leads_contents hp ?_
    obtain ⟨e, f, slice, he, hf, hslice, hwrite⟩ := Heap.of_copied ho hp hcopied
    exact (hm.heap.shaped target p hp).copied (hm.heap.shaped source o ho) he hf hslice hwrite hroute
  · exact meets_fail _

theorem quiet_copy (hsource : m.heap.IsLive source) (htarget : m.heap.IsLive target)
    (i j n : Int) : Quiet (copy source target i j n) (fun _ _ => True) c m := by
  refine meets_of_sound fun hm => (meets_classOf hsource).bind ?_
  rintro sourceId m - ⟨rfl, hsourceId⟩
  refine (meets_classOf htarget).bind ?_
  rintro targetId m - ⟨rfl, htargetId⟩
  refine (meets_getClass sourceId).bind ?_
  rintro sourceClass m - ⟨rfl, hsourceClass⟩
  refine (meets_getClass targetId).bind ?_
  rintro targetClass m - ⟨rfl, htargetClass⟩
  refine meets_reading rfl ?_
  split
  · exact meets_refuseStore _
  · next way hway =>
    refine (meets_elements hsource).bind ?_
    rintro e m - ⟨rfl, -⟩
    refine (meets_elements htarget).bind ?_
    rintro f m - ⟨rfl, -⟩
    extract_lets targetLength go
    have hgo : Quiet (go ()) (fun _ _ => True) c m := by
      dsimp only [go]
      split
      · exact quiet_copyWhole hsourceId htargetId
          (componentOf?_of_route hm.registry.linked.regular hsourceClass htargetClass hway) _ _ _ _
      · exact quiet_copyChecked hsourceId htargetId
          (componentOf?_of_checked htargetClass hway) _ _ _ _
    split
    · exact Meets.bind (Q := fun _ _ => False) (meets_raise _ _) fun _ _ _ h => h.elim
    · exact hgo

theorem quiet_arraycopy (hargs : ∀ v ∈ args, v.All m.heap.IsLive) :
    Quiet (arraycopy args) Returned c m := by
  unfold arraycopy
  split
  · next source sourceAt target targetAt count =>
    split
    · next s t hs ht =>
      have hsource : m.heap.IsLive s := Value.all_iff_object?.1 (hargs source (by simp)) s hs
      have htarget : m.heap.IsLive t := Value.all_iff_object?.1 (hargs target (by simp)) t ht
      exact (quiet_copy hsource htarget _ _ _).bind fun _ _ _ _ => meets_pure (returned_none _)
    · exact meets_raise _ _
  · exact meets_fail _

end ArrayCopy

/-! ### All native methods -/

/-- The native methods of the core classes keep a machine sound that holds their arguments. -/
theorem meets_coreNative (hc : c.Sound) (hP : ∀ r, P r → m.Held r) (hkept : ∀ v ∈ args, v.All P)
    (hargs : ∀ v ∈ args, v.All m.heap.IsLive) (method : CoreNative) :
    Meets P (method.run args) Returned c m := by
  cases method with
  | hashCode => exact ObjectNatives.meets_hashCode hargs
  | getClass => exact ObjectNatives.meets_getClass hP hargs
  | objectToString => exact ObjectNatives.meets_objectToString hc hP hkept hargs
  | clone => exact ObjectNatives.meets_clone hc hP hkept hargs
  | intern => exact StringNatives.meets_intern hargs
  | stringEquals => exact StringNatives.meets_equals hargs
  | stringHashCode => exact StringNatives.meets_hashCode hargs
  | concat => exact StringNatives.meets_concat hP hargs
  | valueOf => exact StringNatives.meets_valueOf hc hP hargs
  | arraycopy => exact (ArrayCopy.quiet_arraycopy hargs).weaken fun _ _ => trivial
  | identityHashCode => exact ObjectNatives.meets_identityHashCode hargs
  | gc => exact (meets_collect hP).bind fun _ _ _ _ => meets_pure (returned_none _)
  | nanoTime => exact meets_reading rfl (meets_pure (by rintro _ ⟨⟩ r hr; cases hr))
  | currentTimeMillis => exact meets_reading rfl (meets_pure (by rintro _ ⟨⟩ r hr; cases hr))
  | print descriptor newline => exact Printing.meets_print hc hP hargs descriptor newline
  | fillInStackTrace => exact Printing.meets_fillInStackTrace hP hkept hargs
  | throwableToString => exact Printing.meets_throwableToString hP hargs
  | printStackTrace => exact Printing.meets_printStackTrace hc hP hkept hargs

/-- A method without a host's binding is bound to one of the core classes, if at all. -/
theorem exists_of_core {key : NativeKey} {native : Native}
    (h : NativeTable.core.lookup key = some native) : ∃ method, native = .core method := by
  have hcore : ∀ entry ∈ NativeTable.core, ∃ method, entry.2 = .core method := by
    intro entry hentry
    unfold NativeTable.core at hentry
    rcases List.mem_append.1 hentry with hentry | hentry
    · simp only [List.mem_cons, List.not_mem_nil, or_false] at hentry
      rcases hentry with rfl | rfl | rfl | rfl | rfl | rfl | rfl | rfl | rfl | rfl | rfl | rfl | rfl |
        rfl | rfl | rfl | rfl | rfl | rfl | rfl <;> exact ⟨_, rfl⟩
    · obtain ⟨descriptor, -, hentry⟩ := List.mem_flatMap.1 hentry
      simp only [NativeTable.printing, List.mem_cons, List.not_mem_nil, or_false] at hentry
      rcases hentry with rfl | rfl <;> exact ⟨_, rfl⟩
  obtain ⟨l₁, l₂, hl, -⟩ := List.lookup_eq_some_iff.1 h
  exact hcore (key, native) (by simp [hl])

end Jvm.Execution
