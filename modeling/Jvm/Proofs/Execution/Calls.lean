import Mathlib
import Jvm.Proofs.Execution.NativeMethods

/-! # Calls keep a machine sound

The arguments of a call have been popped: they are in no frame any more. Until they are in one again, or
held, nothing is created but the class object whose monitor a static call holds, and meanwhile they are
held. -/

namespace Jvm.Execution

open Linking ClassFile Bytecode

/-- Whether the result that a frame is left with, if it is an object, is there. -/
def Flow.Returned (flow : Flow) (m : Machine) : Prop :=
  ∀ result, flow = .done result → Execution.Returned result m

/-- The objects of a frame that begins a method are its arguments and its monitor. -/
theorem Frame.all_enter {P : Ref → Prop} {method : Method} {code : Code} {args : List Value}
    {monitor : Option Ref} (hargs : ∀ v ∈ args, v.All P) (hmonitor : ∀ r ∈ monitor, P r) :
    (Frame.enter method code args monitor).All P where
  locals v hv := by
    rcases List.mem_append.1 (List.mem_toArray.1 hv) with hv | hv
    · obtain ⟨w, hw, hv⟩ := List.mem_flatMap.1 hv
      unfold spread at hv
      split at hv
      · rcases List.mem_cons.1 hv with rfl | hv
        · exact hargs v hw
        · cases List.mem_singleton.1 hv
          exact Value.all_of_ne_ref (by simp)
      · cases List.mem_singleton.1 hv
        exact hargs _ hw
    · cases (List.mem_replicate.1 hv).2
      exact Value.all_of_ne_ref (by simp)
  stack v hv := by cases hv
  monitor := hmonitor

namespace VM

variable {α : Type} {P : Ref → Prop} {c : Context} {m : Machine} {r : Ref} {args : List Value}
  {method : Method}

/-! ### Calls -/

theorem meets_receiver (hargs : ∀ v ∈ args, v.All m.heap.IsLive) : Meets P (receiver method args)
    (fun r m' => m' = m ∧ r ∈ objectsIn args ∧ m.heap.IsLive r) c m := by
  unfold receiver
  split
  · next s rest =>
    exact meets_pure ⟨rfl, by simp [objectsIn, Value.object?],
      Value.all_ref.1 (hargs _ List.mem_cons_self)⟩
  · exact meets_raise _ _
  · exact meets_fail _

/-- The monitor of a call is that of an argument, or of a class object, which is kept for good. -/
theorem meets_enterCallMonitor (hP : ∀ r, P r → m.Held r) (hmethod : m.registry.table.Declares method)
    (hargs : ∀ v ∈ args, v.All m.heap.IsLive) : Meets P (enterCallMonitor method args)
      (fun o m' => (∀ v ∈ args, v.All m'.heap.IsLive) ∧ ∀ r ∈ o, m'.heap.IsLive r ∧
        (r ∈ objectsIn args ∨ m'.registry.Retains r)) c m := by
  refine meets_ite (fun _ => meets_pure ⟨hargs, by simp⟩) fun _ => ?_
  extract_lets lock
  have hlock {object : Ref} {m₁ : Machine} (hargs₁ : ∀ v ∈ args, v.All m₁.heap.IsLive)
      (hlive : m₁.heap.IsLive object) (hkept : object ∈ objectsIn args ∨ m₁.registry.Retains object) :
      Meets P (lock object) (fun o m' => (∀ v ∈ args, v.All m'.heap.IsLive) ∧ ∀ r ∈ o,
        m'.heap.IsLive r ∧ (r ∈ objectsIn args ∨ m'.registry.Retains r)) c m₁ := by
    refine (meets_enterMonitor hlive).seq fun _ m₂ h₂ _ => ?_
    refine (meets_note (by simp)).seq ?_
    rintro _ _ - rfl
    refine meets_pure ⟨fun v hv => h₂.value (hargs₁ v hv), ?_⟩
    rintro _ ⟨⟩
    exact ⟨h₂.isLive trivial hlive, hkept.imp_right (h₂.retained object)⟩
  refine meets_of_sound fun hm => meets_ite (fun _ => ?_) fun _ => ?_
  · obtain ⟨cl, hcl, -⟩ := hm.registry.exists_owner hmethod
    have hobject : Meets P (pinning (objectsIn args) (classObjectOf method.owner))
        (fun object m' => (∀ v ∈ args, v.All m'.heap.IsLive) ∧ m'.heap.IsLive object ∧
          m'.registry.Retains object) c m := by
      refine Meets.holding hP (Value.all_filterMap.2 hargs) (fun _ _ _ h => h) ?_
      refine (meets_classObjectOf (m := m.hold (objectsIn args)) (fun _ h => h) method.owner).mono
        fun object m₁ h₁ hobject => ⟨fun v hv r hr => ?_, hobject.1, .inl ⟨_, hobject.2 ⟨cl, hcl⟩⟩⟩
      have hmem : r ∈ objectsIn args := List.mem_filterMap.2 ⟨v, hv, by rw [hr]; rfl⟩
      exact h₁.isLive (.inl (List.mem_append_left _ hmem)) (hargs v hv r hr)
    exact hobject.bind fun object m₁ _ h => hlock h.1 h.2.1 (.inr h.2.2)
  · refine (meets_receiver hargs).bind ?_
    rintro object m - ⟨rfl, hmem, hlive⟩
    exact hlock hargs hlive (.inl hmem)

theorem meets_pushFrame (hP : ∀ r, P r → m.Held r) (hmethod : m.registry.table.Declares method)
    (hargs : ∀ v ∈ args, v.All m.heap.IsLive) :
    Meets P (pushFrame method args) (fun _ _ => True) c m := by
  refine meets_reading rfl (meets_reading rfl (meets_guard (fun _ => meets_fail _) fun _ => ?_))
  split
  · refine (meets_enterCallMonitor hP hmethod hargs).bind fun monitor m₁ _ h => ?_
    refine (meets_modify fun hm => hm.leads_frames P fun f hf => ?_).mono fun _ _ _ _ => trivial
    rcases List.mem_cons.1 hf with rfl | hf
    · exact Frame.all_enter h.1 fun r hr => (h.2 r hr).1
    · exact hm.frames f hf
  · exact meets_fail _

theorem meets_except {o : Except Abrupt α} (ho : ∀ r, o = .error (.thrown r) → m.heap.IsLive r) :
    Meets P (MonadExcept.ofExcept o) (fun a m' => m' = m ∧ o = .ok a) c m := by
  cases o with
  | ok a => exact meets_pure ⟨rfl, rfl⟩
  | error e => exact meets_throw fun r hr => ho r (congrArg _ hr)

/-- The monitor of a native call is there until the call gives it back. -/
theorem meets_runNative (hc : c.Sound) (hP : ∀ r, P r → m.Held r) (hkept : ∀ v ∈ args, v.All P)
    (hmethod : m.registry.table.Declares method) (hargs : ∀ v ∈ args, v.All m.heap.IsLive)
    (native : CoreNative) : Meets P (runNative (.core native) method args) Returned c m := by
  refine (meets_enterCallMonitor hP hmethod hargs).bind fun monitor m₁ h₁ h => ?_
  have hP₁ : ∀ r, P r ∨ monitor = some r → m₁.Held r := by
    rintro r (hr | hr)
    · exact h₁.held hP r hr
    · rcases (h.2 r hr).2 with hmem | hretained
      · exact h₁.held hP r (Value.all_filterMap.2 hkept r hmem)
      · exact .inr hretained
  have hnative := (meets_coreNative hc hP₁ (fun v hv r hr => .inl (hkept v hv r hr)) h.1 native).attempt
  refine hnative.andThen (fun _ => .inl) fun result m₂ h₂ hresult => ?_
  extract_lets finish
  have hfinish (released : Except Abrupt Unit) {m₃ : Machine} (h₃ : m₂.Leads (fun _ => True) m₃)
      (hreleased : ∀ r, released = .error (.thrown r) → m₃.heap.IsLive r) :
      Meets P (finish released) Returned c m₃ := by
    refine (meets_except fun r hr => h₃.isLive trivial (hresult.2 r hr)).bind ?_
    rintro value m₃ - ⟨rfl, hvalue⟩
    refine (meets_except hreleased).bind ?_
    rintro _ m₃ - ⟨rfl, -⟩
    exact meets_pure fun v hv => h₃.value (hresult.1 value hvalue v hv)
  split
  · next r =>
    have hlive : m₂.heap.IsLive r := h₂.isLive (.inr rfl) (h.2 r rfl).1
    exact (meets_leaveCallMonitor hlive).attempt.seq fun released m₃ h₃ hreleased =>
      hfinish released h₃ hreleased.2
  · refine meets_of_sound fun hm => Meets.bind (Q := fun o m' => m' = m₂ ∧ o = .ok ())
      (meets_pure ⟨rfl, rfl⟩) ?_
    rintro _ _ - ⟨rfl, rfl⟩
    exact hfinish _ (.refl hm _) fun r hr => by cases hr

theorem meets_checkResult (result : Option Value) :
    Meets P (checkResult method result) (fun _ m' => m' = m) c m :=
  meets_ite (fun _ => (meets_fail _).mono fun _ _ _ h => h) fun _ => meets_pure rfl

/-- The arguments of a native call are held until it ends. -/
theorem meets_callNative (hc : c.Sound) (hP : ∀ r, P r → m.Held r)
    (hmethod : m.registry.table.Declares method) (hargs : ∀ v ∈ args, v.All m.heap.IsLive) :
    Meets P (callNative method args) Returned c m := by
  refine meets_reading rfl ?_
  split
  · exact meets_fail _
  · next native hnative =>
    rw [hc.natives] at hnative
    obtain ⟨core, rfl⟩ := exists_of_core hnative
    have hrun : Meets P (pinning (objectsIn args) (runNative (.core core) method args)) Returned c m := by
      refine Meets.holding hP (Value.all_filterMap.2 hargs) (fun _ _ _ h => h) ?_
      refine meets_runNative (m := m.hold (objectsIn args)) hc (fun _ h => h) (fun v hv r hr => ?_)
        hmethod hargs core
      exact .inl (List.mem_append_left _ (List.mem_filterMap.2 ⟨v, hv, by rw [hr]; rfl⟩))
    refine hrun.bind fun result m₁ _ hresult => (meets_checkResult result).bind ?_
    rintro _ _ - rfl
    exact meets_pure hresult

theorem meets_enter (hc : c.Sound) (hP : ∀ r, P r → m.Held r)
    (hmethod : m.registry.table.Declares method) (hargs : ∀ v ∈ args, v.All m.heap.IsLive) :
    Meets P (enter method args) Flow.Returned c m := by
  refine meets_ite (fun _ => ?_) fun _ => ?_
  · refine (meets_callNative hc hP hmethod hargs).bind fun result m₁ _ hresult => ?_
    split
    · exact (meets_push (hresult _ rfl)).seq fun _ _ _ _ => meets_pure fun _ h => by cases h
    · exact meets_pure fun _ h => by cases h
  · exact (meets_pushFrame hP hmethod hargs).bind fun _ _ _ _ => meets_pure fun _ h => by cases h

/-! ### Selection -/

theorem meets_methodAt (index : UInt16) :
    Quiet (methodAt index) (fun method m' => m'.registry.table.Declares method) c m := by
  refine meets_currentClass.bind ?_
  rintro current _ - rfl
  exact (meets_link (fun method r => r.table.Declares method)
    fun hr => resolves_resolveMethod hr current index).mono fun _ _ _ h => h.1

theorem meets_instanceMethodAt (index : UInt16) :
    Quiet (instanceMethodAt index) (fun method m' => m'.registry.table.Declares method) c m := by
  refine (meets_methodAt index).bind fun method m₁ _ hmethod => ?_
  exact meets_guard (fun _ => meets_fail _) fun _ => meets_pure hmethod

theorem meets_popArgsOf : Quiet (popArgsOf method)
    (fun args m' => (∀ v ∈ args, v.All m.heap.IsLive) ∧ ∃ frames, m' = { m with frames }) c m :=
  meets_onFrame (Frame.safe_popArgs _).holds

theorem meets_enterSelected (hc : c.Sound) (hP : ∀ r, P r → m.Held r)
    (hmethod : m.registry.table.Declares method) (hargs : ∀ v ∈ args, v.All m.heap.IsLive) :
    Meets P (enterSelected method args) Flow.Returned c m := by
  unfold enterSelected
  exact meets_guard (fun _ => meets_fail _) fun _ => meets_enter hc hP hmethod hargs

theorem meets_selectSpecial (hmethod : m.registry.table.Declares method) :
    Meets P (selectSpecial method)
      (fun selected m' => m' = m ∧ m.registry.table.Declares selected) c m := by
  refine meets_of_sound fun hm => meets_ite (fun _ => meets_pure ⟨rfl, hmethod⟩) fun _ => ?_
  refine meets_currentClass.bind ?_
  rintro current m - rfl
  refine ((meets_getClass current).weaken fun _ _ => trivial).bind ?_
  rintro cl m - ⟨rfl, -⟩
  refine meets_reading rfl (((meets_getClass method.owner).weaken fun _ _ => trivial).bind ?_)
  rintro owner m - ⟨rfl, -⟩
  refine meets_ite (fun _ => meets_pure ⟨rfl, hmethod⟩) fun _ => meets_pure ⟨rfl, ?_⟩
  cases hselected : (cl.superclass.bind m.registry.table.class?).bind
      (·.virtual? method.name method.descriptor) with
  | none => exact hmethod
  | some selected =>
    obtain ⟨s, hs, hvirtual⟩ := Option.bind_eq_some_iff.1 hselected
    obtain ⟨id, -, hid⟩ := Option.bind_eq_some_iff.1 hs
    exact hm.registry.declares_of_virtual? hid hvirtual

theorem declares_of_selectVirtual? (hm : m.Sound) {id : ClassId} {cl : LinkedClass}
    (hcl : m.registry.table.class? id = some cl) {selected : Method}
    (h : selectVirtual? cl method = some selected) : m.registry.table.Declares selected := by
  rcases Option.or_eq_some_iff.1 h with h | ⟨-, h⟩
  · obtain ⟨slot, -, hslot⟩ := Option.bind_eq_some_iff.1 (Option.filter_eq_some_iff.1 h).1
    exact hm.registry.declares_of_mem_vtable hcl (Array.mem_of_getElem? hslot)
  · exact hm.registry.declares_of_virtual? hcl h

theorem meets_selectInterface (id : ClassId) : Quiet (selectInterface id method)
    (fun selected m' => m' = m ∧ m.registry.table.Declares selected) c m := by
  refine meets_of_sound fun hm => (meets_getClass id).bind ?_
  rintro cl m - ⟨rfl, hcl⟩
  refine (meets_getClass method.owner).bind ?_
  rintro owner m - ⟨rfl, -⟩
  refine meets_reading rfl (meets_guard (fun _ => meets_fail _) fun _ => ?_)
  split
  · next selected hselected =>
    exact meets_pure ⟨rfl, hm.registry.declares_of_virtual? hcl hselected⟩
  · exact meets_fail _

/-! ### Calling instructions -/

theorem meets_invokeStatic (hc : c.Sound) (hP : ∀ r, P r → m.Held r) (index : UInt16) :
    Meets P (invokeStatic index) Flow.Returned c m := by
  refine (meets_methodAt index).seq fun method m₁ h₁ hmethod => ?_
  have hP₁ : ∀ r, P r → m₁.Held r := (h₁.mono fun _ _ => trivial).held hP
  refine meets_guard (fun _ => meets_fail _) fun _ => ?_
  refine (meets_ensureInitialized hc hP₁ _).bind fun _ m₂ h₂ _ => ?_
  refine meets_popArgsOf.seq ?_
  rintro args _ - ⟨hargs, frames, rfl⟩
  exact meets_enter (m := { m₂ with frames }) hc (h₂.held hP₁) (hmethod.mono h₂.table) hargs

theorem meets_invokeSpecial (hc : c.Sound) (hP : ∀ r, P r → m.Held r) (index : UInt16) :
    Meets P (invokeSpecial index) Flow.Returned c m := by
  refine (meets_instanceMethodAt index).seq fun method m₁ h₁ hmethod => ?_
  have hP₁ : ∀ r, P r → m₁.Held r := (h₁.mono fun _ _ => trivial).held hP
  refine (meets_selectSpecial hmethod).bind ?_
  rintro selected m₁ - ⟨rfl, hselected⟩
  refine meets_popArgsOf.seq ?_
  rintro args _ - ⟨hargs, frames, rfl⟩
  refine (meets_receiver (m := { m₁ with frames }) hargs).bind ?_
  rintro _ _ - ⟨rfl, -, -⟩
  exact meets_enterSelected (m := { m₁ with frames }) hc hP₁ hselected hargs

theorem meets_invokeVirtual (hc : c.Sound) (hP : ∀ r, P r → m.Held r) (index : UInt16) :
    Meets P (invokeVirtual index) Flow.Returned c m := by
  refine (meets_instanceMethodAt index).seq fun method m₁ h₁ hmethod => ?_
  have hP₁ : ∀ r, P r → m₁.Held r := (h₁.mono fun _ _ => trivial).held hP
  refine meets_popArgsOf.seq ?_
  rintro args _ - ⟨hargs, frames, rfl⟩
  refine (meets_receiver (m := { m₁ with frames }) hargs).bind ?_
  rintro this _ - ⟨rfl, -, hthis⟩
  refine meets_ite (fun _ => meets_enterSelected (m := { m₁ with frames }) hc hP₁ hmethod hargs)
    fun _ => ?_
  refine (meets_classOf (m := { m₁ with frames }) hthis).bind ?_
  rintro cls _ - ⟨rfl, -⟩
  refine meets_of_sound fun hm => (meets_getClass cls).seq ?_
  rintro cl _ - ⟨rfl, hcl⟩
  split
  · next selected hselected =>
    exact meets_enterSelected (m := { m₁ with frames }) hc hP₁
      (declares_of_selectVirtual? hm hcl hselected) hargs
  · exact meets_fail _

theorem meets_invokeInterface (hc : c.Sound) (hP : ∀ r, P r → m.Held r) (index : UInt16) :
    Meets P (invokeInterface index) Flow.Returned c m := by
  refine (meets_instanceMethodAt index).seq fun method m₁ h₁ hmethod => ?_
  have hP₁ : ∀ r, P r → m₁.Held r := (h₁.mono fun _ _ => trivial).held hP
  refine meets_popArgsOf.seq ?_
  rintro args _ - ⟨hargs, frames, rfl⟩
  refine (meets_receiver (m := { m₁ with frames }) hargs).bind ?_
  rintro this _ - ⟨rfl, -, hthis⟩
  refine meets_ite (fun _ => meets_enterSelected (m := { m₁ with frames }) hc hP₁ hmethod hargs)
    fun _ => ?_
  refine (meets_classOf (m := { m₁ with frames }) hthis).bind ?_
  rintro cls _ - ⟨rfl, -⟩
  refine (meets_selectInterface cls).seq ?_
  rintro selected _ - ⟨rfl, hselected⟩
  exact meets_enterSelected (m := { m₁ with frames }) hc hP₁ hselected hargs

end VM

end Jvm.Execution
