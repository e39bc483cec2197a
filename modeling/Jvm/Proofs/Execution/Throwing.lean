import Mathlib
import Jvm.Proofs.Execution.Construction
import Jvm.Proofs.Execution.Frames

/-! # Initialization and exceptions

Initializing a class, creating a throwable and going down the frames with it keep a machine sound, as long as
calls from within do (`Context.Sound`). An exception that goes down the frames is held by none of them; as
nothing is created meanwhile, it stays. -/

namespace Jvm.Execution

open Linking

/-- Whether a result, if it is an object, is there. -/
def Returned (result : Option Value) (m : Machine) : Prop :=
  ∀ v, result = some v → v.All m.heap.IsLive

/-- Whether a context has the native methods of the core classes only, and its calls and runs keep
machines sound. -/
structure Context.Sound (c : Context) : Prop where
  natives : c.env.natives = NativeTable.core
  call : ∀ {P : Ref → Prop} {m : Machine} (method : Method) (args : List Value),
    (∀ r, P r → m.Held r) → m.registry.table.Declares method → (∀ v ∈ args, v.All m.heap.IsLive) →
      VM.Meets P (VM.call method args) Returned c m
  run : ∀ {P : Ref → Prop} {m : Machine} (base : Nat), (∀ r, P r → m.Held r) →
    VM.Meets P (fun c m => c.run base m) Returned c m

theorem isArrayName_className (check : RuntimeCheck) : isArrayName check.className = false := by
  cases check <;> decide

theorem isArrayName_throwableClass {e : Fault} {name : String} (h : e.throwableClass = some name) :
    isArrayName name = false := by
  cases e <;> cases h <;> decide

namespace VM

variable {α β σ : Type} {P : Ref → Prop} {c : Context} {m : Machine} {r : Ref}

/-- A loop over a list. -/
theorem meets_forIn {as : List α} {f : α → σ → VM (ForInStep σ)} {init : σ}
    (hf : ∀ a ∈ as, ∀ s m', m.Leads P m' → Meets P (f a s) (fun _ _ => True) c m') :
    Meets P (forIn as init f) (fun _ _ => True) c m := by
  induction as generalizing init m with
  | nil => exact meets_pure trivial
  | cons a as ih =>
    rw [List.forIn_cons]
    refine meets_of_sound fun hm => ?_
    refine (hf a List.mem_cons_self init m (.refl hm P)).bind fun step m₁ h₁ _ => ?_
    cases step with
    | done s => exact meets_pure trivial
    | yield s => exact ih fun a' ha' s' m' h' => hf a' (List.mem_cons_of_mem a ha') s' m' (h₁.trans h')

/-! ### Initialization -/

theorem meets_installConstants (hP : ∀ r, P r → m.Held r) (id : ClassId) :
    Meets P (installConstants id) (fun _ _ => True) c m := by
  refine (meets_getClass id).seq ?_
  rintro cl _ - ⟨rfl, hcl⟩
  refine Meets.bind (meets_forIn fun f hf s m₁ h₁ => ?_) fun _ _ _ _ => meets_pure trivial
  split
  · next hstatic =>
    split
    · next index hindex =>
      split
      · next hconstant =>
        refine (meets_stringConstant (h₁.held hP) id _).bind fun string m₂ h₂ hstring => ?_
        refine Meets.seq (Q := fun _ _ => True) (meets_of_ok rfl (fun hm => ?_) fun _ => trivial)
          fun _ _ _ _ => meets_pure trivial
        dsimp only
        rcases hset : m₂.registry.setStatic? id f.slot (.ref string) with _ | r
        · exact .refl hm _
        · have hcl₂ := h₂.table id cl (h₁.table id cl hcl)
          have htype := hm.registry.built.type_of_stringConstant hcl₂ (List.mem_filter.2 ⟨hf, hstatic⟩)
            hindex hconstant
          refine hm.leads_setStatic (f := ⟨id, f.slot, true, f.type⟩) ⟨cl, f, hcl₂, hf, ?_⟩ rfl ?_
            (Value.all_ref.2 hstring.1) hset
          · rw [← hstatic]
          · rw [htype]
            rfl
      · exact meets_pure trivial
    · exact meets_pure trivial
  · exact meets_pure trivial

theorem Meets.outcome {x : VM Unit} {Q : Unit → Machine → Prop} (className : String)
    (hx : Meets P x Q c m) : Meets P (outcome className x) (fun _ _ => True) c m := by
  refine hx.attempt.bind fun o m₁ _ ho => ?_
  split
  · exact meets_pure trivial
  · exact meets_pure trivial
  · exact (quiet_describe (ho.2 _ rfl)).seq fun _ _ _ _ => meets_pure trivial
  · exact meets_pure trivial
  · exact meets_throw fun s hs => by cases hs

theorem meets_setInitState (id : ClassId) (state : InitState) :
    Quiet (setInitState id state) (fun _ _ => True) c m :=
  meets_of_ok rfl (fun hm => hm.leads_modifyState id
    (hm.typed.modifyState_of_eq id (fun _ => rfl) fun _ => rfl) (fun _ => rfl) (fun _ => rfl)
    (fun _ _ h => h) fun _ _ h => .inl h) fun _ => trivial

/-- Superclasses first: the induction is on the class. -/
theorem meets_initializeClass (hc : c.Sound) (id : ClassId) :
    ∀ {m : Machine}, (∀ r, P r → m.Held r) →
      Meets P (initializeClass initializer id) (fun _ _ => True) c m := by
  induction id using Nat.strongRecOn with
  | ind id ih =>
    intro m hP
    rw [initializeClass]
    refine meets_reading rfl ?_
    split
    · exact meets_pure trivial
    · exact meets_pure trivial
    · exact meets_pure trivial
    · refine (meets_setInitState id _).seq fun _ m₁ h₁ _ => ?_
      have hP₁ : ∀ r, P r → m₁.Held r := (h₁.mono fun _ _ => trivial).held hP
      -- what follows the initializer, the constants and the superclass
      extract_lets finish afterConstants afterAbove
      have hfinish : ∀ outcome m', Meets P (finish outcome) (fun _ _ => True) c m' := by
        intro outcome m'
        dsimp only [finish]
        split
        · exact (meets_setInitState id _).seq fun _ _ _ _ => meets_pure trivial
        · exact (meets_setInitState id _).seq fun _ _ _ _ => meets_pure trivial
      have hconstants : ∀ constants m₂, m.registry.table.Within m₂.registry.table →
          (∀ r, P r → m₂.Held r) → Meets P (afterConstants constants) (fun _ _ => True) c m₂ := by
        intro constants m₂ htable hP₂
        dsimp only [afterConstants]
        split
        · next clinit hclinit =>
          refine Meets.bind (Q := fun _ _ => True) ?_ fun outcome m₃ _ _ => hfinish outcome m₃
          refine meets_reading rfl (Meets.outcome _ (Q := fun _ _ => True) ?_)
          have hdeclares := (ClassTable.declares_of_declaredMethod? hclinit).mono htable
          exact (hc.call clinit [] hP₂ hdeclares (by simp)).bind fun _ _ _ _ => meets_pure trivial
        · exact Meets.bind (Q := fun _ _ => True) (meets_pure trivial) fun o m₃ _ _ => hfinish o m₃
      have habove : ∀ above m₂, m.registry.table.Within m₂.registry.table →
          (∀ r, P r → m₂.Held r) → Meets P (afterAbove above) (fun _ _ => True) c m₂ := by
        intro above m₂ htable hP₂
        dsimp only [afterAbove]
        split
        · refine Meets.bind (Q := fun _ _ => True) ?_ fun constants m₃ h₃ _ =>
            hconstants constants m₃ (htable.trans h₃.table) (h₃.held hP₂)
          exact meets_reading rfl ((meets_installConstants hP₂ id).outcome _)
        · exact Meets.bind (Q := fun _ _ => True) (meets_pure trivial) fun constants m₃ h₃ _ =>
            hconstants constants m₃ (htable.trans h₃.table) (h₃.held hP₂)
      split
      · next s hs =>
        exact (ih s (initializedBefore?_lt hs) hP₁).bind fun above m₂ h₂ _ =>
          habove above m₂ (h₁.table.trans h₂.table) (h₂.held hP₁)
      · exact Meets.bind (Q := fun _ _ => True) (meets_pure trivial) fun above m₂ h₂ _ =>
          habove above m₂ (h₁.table.trans h₂.table) (h₂.held hP₁)

theorem meets_ensureInitialized (hc : c.Sound) (hP : ∀ r, P r → m.Held r) (id : ClassId) :
    Meets P (ensureInitialized id) (fun _ _ => True) c m :=
  (meets_initializeClass hc id hP).bind fun o _ _ _ =>
    (meets_ofExcept o).mono fun _ _ _ _ => trivial

/-! ### Throwables -/

/-- A throwable is held while its message and its stack trace are created. -/
theorem meets_newThrowable (hc : c.Sound) (hP : ∀ r, P r → m.Held r) {className : String}
    (hname : isArrayName className = false) (message : Option String) :
    Meets P (newThrowable className message) (fun r m' => m'.heap.IsLive r) c m := by
  refine (meets_coreClass className).seq fun id m₁ h₁ hid => ?_
  have hP₁ : ∀ r, P r → m₁.Held r := (h₁.mono fun _ _ => trivial).held hP
  refine (meets_ensureInitialized hc hP₁ id).bind fun _ m₂ h₂ _ => ?_
  have hplain : m₂.registry.table.componentOf? id = none :=
    h₂.sound.registry.componentOf?_of_names (h₂.names hid.1) hname
  refine (meets_newInstance (h₂.held hP₁) hplain).bind fun exception m₃ h₃ hexception => ?_
  have hlive := hexception.1.isLive
  refine Meets.bind (Q := fun _ m' => m'.heap.IsLive exception) ?_ fun _ _ _ hlive => meets_pure hlive
  refine Meets.holding (h₃.held (h₂.held hP₁)) (by simpa using hlive) (fun _ _ _ h => h) ?_
  have hheld : (m₃.hold [exception]).Held exception := .inl List.mem_cons_self
  have htrace {m₄ : Machine} (h₄ : (m₃.hold [exception]).Leads (m₃.hold [exception]).Held m₄) :
      Meets (m₃.hold [exception]).Held (fillInStackTrace exception false)
        (fun _ m' => m'.heap.IsLive exception) c m₄ := by
    have hlive₄ := h₄.isLive hheld hlive
    exact (meets_fillInStackTrace (h₄.held fun _ h => h) hlive₄ false).mono
      fun _ _ h _ => h.isLive hheld hlive₄
  split
  · refine (meets_coreField _ _ _).seq fun slot m₄ h₄ hslot => ?_
    have hheld₄ : ∀ r, (m₃.hold [exception]).Held r → m₄.Held r :=
      (h₄.mono fun _ _ => trivial).held fun _ h => h
    refine (meets_newString hheld₄ _).bind fun string m₅ h₅ hstring => ?_
    have hlive₅ := h₅.isLive hheld (h₄.isLive trivial hlive)
    have hplace := (hslot.1.mono h₅.table).slotTakes (v := .ref string) h₅.sound.registry.built
      (by simp [assignedFields]) rfl
    refine (meets_setField hlive₅ hplace (Value.all_ref.2 hstring.1.isLive)).seq fun _ m₆ h₆ _ => ?_
    exact htrace (((h₄.mono fun _ _ => trivial).trans h₅).trans (h₆.mono fun _ _ => trivial))
  · exact meets_of_sound fun hm => htrace (.refl hm _)

theorem meets_throwNew (hc : c.Sound) (hP : ∀ r, P r → m.Held r) {className : String}
    (hname : isArrayName className = false) (message : Option String) {Q : α → Machine → Prop} :
    Meets P (throwNew className message) Q c m := by
  refine (meets_newThrowable hc hP hname message).bind fun exception m₁ _ hlive => ?_
  exact meets_throw fun r hr => by cases hr; exact hlive

theorem meets_materialize (hc : c.Sound) (hP : ∀ r, P r → m.Held r) {e : Abrupt}
    (he : ∀ r, e = .thrown r → m.heap.IsLive r) :
    Meets P (materialize e) (fun r m' => m'.heap.IsLive r) c m := by
  unfold materialize
  split
  · exact meets_pure (he _ rfl)
  · exact meets_newThrowable hc hP (isArrayName_className _) _
  · split
    · next name hname => exact meets_newThrowable hc hP (isArrayName_throwableClass hname) _
    · exact meets_throw fun r hr => by cases hr
  · exact meets_throw fun r hr => by cases hr

/-! ### Unwinding -/

theorem quiet_leaveFrame : Quiet leaveFrame (fun _ _ => True) c m := by
  refine meets_of_sound fun hm => meets_reading rfl ?_
  split
  · exact meets_pure trivial
  · next f hf =>
    have hmem : f ∈ m.frames.list := List.mem_of_mem_head? hf
    refine (meets_modify fun hm => hm.leads_pop _).bind ?_
    rintro _ _ - rfl
    split
    · next r hr =>
      have hleave := meets_leaveCallMonitor (c := c) (m := { m with frames := m.frames.pop })
        ((hm.frames f hmem).monitor r hr)
      exact hleave.attempt.bind fun _ _ _ _ => meets_pure trivial
    · exact meets_pure trivial

theorem quiet_unwindTo (base : Nat) : Quiet (unwindTo base) (fun _ _ => True) c m := by
  refine meets_reading rfl ?_
  refine Meets.bind (Q := fun _ _ => True) ?_ fun _ _ _ _ => meets_pure trivial
  exact meets_forIn fun _ _ _ _ _ => quiet_leaveFrame.bind fun _ _ _ _ => meets_pure trivial

theorem quiet_catches (cls thrown : ClassId) (h : Handler) :
    Quiet (catches cls thrown h) (fun _ _ => True) c m := by
  unfold catches
  split
  · exact meets_pure trivial
  · next index _ =>
    have hresolve := meets_link (c := c) (m := m) (x := (resolveClass · cls index))
      (fun _ _ => True) fun _ => (admits_resolves _).resolveClass cls index
    refine hresolve.attempt.bind fun o m₁ _ _ => ?_
    split
    · exact meets_reading rfl (meets_pure trivial)
    · exact meets_pure trivial

theorem quiet_firstHandler (cls thrown : ClassId) (pc : Nat) (rows : List Handler) :
    Quiet (firstHandler cls thrown pc rows) (fun _ _ => True) c m := by
  induction rows generalizing m with
  | nil => exact meets_pure trivial
  | cons h rest ih =>
    rw [firstHandler]
    refine meets_ite (fun _ => (quiet_catches cls thrown h).bind fun b m₁ _ _ => ?_) fun _ => ih
    exact meets_ite (fun _ => meets_pure trivial) fun _ => ih

theorem quiet_findHandler (hr : m.heap.IsLive r) : Quiet (findHandler r) (fun _ _ => True) c m := by
  refine meets_currentFrame.bind ?_
  rintro f _ - ⟨rfl, -⟩
  refine (meets_classOf hr).bind ?_
  rintro thrown _ - ⟨rfl, -⟩
  exact quiet_firstHandler _ _ _ _

theorem holds_beginHandler {Q : Ref → Prop} (hr : Q r) (handler : Nat) :
    (Frame.beginHandler r handler).Holds Q fun _ => True := by
  intro f hf
  rcases Nat.eq_zero_or_pos f.code.maxStack with hfull | hroom
  · rw [Frame.beginHandler_of_full r handler hfull]
    exact ⟨⟨hf.locals, (fun v hv => by cases hv), hf.monitor⟩, rfl⟩
  · rw [Frame.beginHandler_of_room r handler hroom]
    refine ⟨⟨hf.locals, ?_, hf.monitor⟩, trivial⟩
    rintro v (_ | ⟨_, hv⟩)
    exacts [Value.all_ref.2 hr, by cases hv]

/-- Frames are left, or one of them catches the exception; nothing is created, so it stays. -/
theorem quiet_dispatch (base count : Nat) (hr : m.heap.IsLive r) :
    Quiet (dispatch r base count) (fun _ _ => True) c m := by
  induction count generalizing m with
  | zero => exact meets_throw fun s hs => by cases hs; exact hr
  | succ count ih =>
    rw [dispatch]
    refine meets_reading rfl (meets_guard (fun _ => ?_) fun _ => ?_)
    · exact meets_throw fun s hs => by cases hs; exact hr
    refine ((quiet_findHandler hr).notingFailure (by simp)).bind fun target m₁ h₁ _ => ?_
    have hr₁ := h₁.isLive trivial hr
    split
    · next handler =>
      exact (((meets_onFrame (holds_beginHandler hr₁ handler)).mono fun _ _ _ _ => trivial).notingFailure
        (by simp))
    · exact quiet_leaveFrame.bind fun _ m₂ h₂ _ => ih (h₂.isLive trivial hr₁)

theorem meets_handle (hc : c.Sound) (hP : ∀ r, P r → m.Held r) {e : Abrupt}
    (he : ∀ r, e = .thrown r → m.heap.IsLive r) (base : Nat) :
    Meets P (handle e base) (fun _ _ => True) c m := by
  refine (meets_materialize hc hP he).attempt.bind fun o m₁ _ ho => ?_
  split
  · next exception =>
    exact meets_reading rfl ((quiet_dispatch base _ (ho.1 _ rfl)).weaken fun _ _ => trivial)
  · next fatal =>
    refine (quiet_unwindTo base).seq fun _ m₂ h₂ _ => meets_throw fun r hr => ?_
    exact h₂.isLive trivial (ho.2 r (congrArg _ hr))

end VM

end Jvm.Execution
