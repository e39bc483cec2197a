import Mathlib
import Jvm.Proofs.Execution.Instructions

/-! # Threads keep a machine sound

Tasks keep a machine sound: by induction on the budget, since what an instruction calls and what runs after
it have less of it (`Context.sound_ofTasks`). What a host asks for is a task with some preparations, which
hold on to the arguments until a frame has them. -/

namespace Jvm.Execution

open Linking

namespace VM

variable {α : Type} {P : Ref → Prop} {x : VM α} {Q : α → Machine → Prop} {c : Context} {m m' : Machine}
  {r : Ref} {method : Method} {args : List Value} {env : Environment}

/-! ### Tasks -/

/-- What a computation comes to that goes on from a machine that another one leads to. -/
theorem Meets.after (hx : Meets P x Q c m') (h : m.Leads P m') : match x c m' with
    | .ok a m'' => m.Leads P m'' ∧ Q a m''
    | .error e m'' => m.Ends P e m'' := by
  have hx := hx h.sound
  rcases hres : x c m' with ⟨a, m''⟩ | ⟨e, m''⟩
  · rw [hres] at hx
    exact ⟨h.trans hx.1, hx.2⟩
  · rw [hres] at hx
    exact hx.after h

/-- A run after a computation that has no result of its own. -/
theorem Meets.thenRun {x : VM Unit} {Q : Unit → Machine → Prop} (hx : Meets P x Q c m) (hc : c.Sound)
    (hP : ∀ r, P r → m.Held r) (base : Nat) :
    Meets P (fun c s => match x c s with
      | .ok () s => c.run base s
      | .error e s => .error e s) Returned c m := by
  intro hm
  rcases h : x c m with ⟨_, m'⟩ | ⟨e, m'⟩
  · obtain ⟨hleads, -⟩ := hx.of_eq_ok hm h
    simp only [h]
    exact (hc.run base (hleads.held hP)).after hleads
  · simp only [h]
    exact hx.of_eq_error hm h

variable {budget : Nat} (hc : (Context.ofTasks env (perform env budget)).Sound)

include hc

/-- A call of a method with code enters a frame, which runs with what is left of the budget. -/
theorem meets_performCall (hP : ∀ r, P r → m.Held r) (hmethod : m.registry.table.Declares method)
    (hargs : ∀ v ∈ args, v.All m.heap.IsLive) :
    Meets P (call method args) Returned (.ofTasks env (perform env (budget + 1))) m := by
  intro hm
  -- the outer context first, since the one inside stays as it is
  simp only [call, Context.ofTasks]
  simp only [perform]
  split_ifs
  · exact meets_callNative hc hP hmethod hargs hm
  · exact (meets_pushFrame hP hmethod hargs).thenRun hc hP m.frames.size hm

/-- Frames run step by step; what ends a step goes down the frames. -/
theorem meets_performFrames (hP : ∀ r, P r → m.Held r) (base : Nat) :
    Meets P (fun c s => c.run base s) Returned (.ofTasks env (perform env (budget + 1))) m := by
  intro hm
  simp only [Context.ofTasks]
  simp only [perform]
  rcases h : step base (.ofTasks env (perform env budget)) m with ⟨_ | result, m'⟩ | ⟨e, m'⟩
  · obtain ⟨hleads, -⟩ := (meets_step hc hP base).of_eq_ok hm h
    exact (hc.run base (hleads.held hP)).after hleads
  · obtain ⟨hleads, hresult⟩ := (meets_step hc hP base).of_eq_ok hm h
    exact ⟨hleads, hresult result rfl⟩
  · have hends := (meets_step hc hP base).of_eq_error hm h
    cases e with
    | stuck => exact hends
    | thrown | raised | fault =>
      have hleads := hends.leads (by simp)
      have hP' := hleads.held hP
      exact ((meets_handle hc hP' hends.thrown base).thenRun hc hP' base).after hleads

end VM

/-- **Tasks keep machines sound.** The induction is on the budget. -/
theorem Context.sound_ofTasks {env : Environment} (henv : env.natives = .core) (budget : Nat) :
    (Context.ofTasks env (perform env budget)).Sound := by
  induction budget with
  | zero =>
    have hstuck {P : Ref → Prop} {m : Machine} : VM.Meets P (throw .stuck : VM (Option Value)) Returned
        (.ofTasks env (perform env 0)) m :=
      VM.meets_throw fun r hr => by cases hr
    exact ⟨henv, fun _ _ _ _ _ => hstuck, fun _ _ => hstuck⟩
  | succ budget ih =>
    exact ⟨henv, fun _ _ hP hmethod hargs => VM.meets_performCall ih hP hmethod hargs,
      fun base hP => VM.meets_performFrames ih hP base⟩

namespace VM

variable {α : Type} {P : Ref → Prop} {x : VM α} {Q : α → Machine → Prop} {c : Context} {m : Machine}
  {r : Ref} {method : Method} {args : List Value}

/-! ### What a host asks for -/

theorem meets_escape (hc : c.Sound) (hP : ∀ r, P r → m.Held r) {e : Abrupt}
    (he : ∀ r, e = .thrown r → m.heap.IsLive r) : Meets P (escape e) (fun _ _ => True) c m := by
  unfold escape
  split
  · exact (quiet_uncaught (he _ rfl)).weaken fun _ _ => trivial
  · exact meets_reading rfl (meets_pure trivial)
  · refine meets_ite (fun _ => meets_pure trivial) fun _ => ?_
    refine (meets_materialize hc hP fun r hr => by cases hr).attempt.bind fun o m₁ _ ho => ?_
    split
    · exact (quiet_uncaught (ho.1 _ rfl)).weaken fun _ _ => trivial
    · exact meets_pure trivial
  · exact meets_pure trivial

theorem Meets.forHost (hx : Meets P x Q c m) (hc : c.Sound) (hP : ∀ r, P r → m.Held r) :
    Meets P (VM.forHost x) Q c m := by
  refine hx.attempt.bind fun o m₁ h₁ ho => ?_
  split
  · exact meets_pure (ho.1 _ rfl)
  · exact (meets_escape hc (h₁.held hP) fun r hr => ho.2 r (congrArg _ hr)).bind fun _ _ _ _ => meets_fail _

/-- Once a frame holds the arguments of a call, they are held no more. -/
theorem meets_callFirst (hc : c.Sound) {held : List Ref} (hheld : ∀ r ∈ held, r ∈ m.pinned)
    (hmethod : m.registry.table.Declares method) (hargs : ∀ v ∈ args, v.All m.heap.IsLive) :
    Meets (· ∈ held) (callFirst held method args) Returned c m := by
  have hP : ∀ r, r ∈ held → m.Held r := fun r hr => .inl (hheld r hr)
  refine meets_ite (fun _ => meets_callNative hc hP hmethod hargs) fun _ => meets_reading rfl ?_
  refine (meets_pushFrame hP hmethod hargs).bind fun _ m₁ h₁ _ => ?_
  refine (meets_modify fun hm => ?_).bind ?_
  · refine hm.leads_pinned (fun r hr => ?_) fun r hr _ => hr
    exact hm.pinned r (h₁.pinned r hr (hheld r hr))
  · rintro _ _ - rfl
    exact hc.run _ fun r hr => .inl hr

theorem quiet_mainMethod (id : ClassId) :
    Quiet (mainMethod id) (fun method m' => m'.registry.table.Declares method) c m := by
  refine meets_reading rfl ?_
  split
  · next method hmethod =>
    exact meets_pure (ClassTable.declares_of_declaredMethod? (Option.filter_eq_some_iff.1 hmethod).1)
  · exact meets_fail _

theorem quiet_staticMethod (className name descriptor : String) :
    Quiet (staticMethod className name descriptor)
      (fun method m' => m'.registry.table.Declares method) c m := by
  refine (meets_link (fun _ _ => True) fun hr => (resolves_loadClass hr .app className).mono
    fun _ _ _ _ => trivial).bind fun id m₁ _ _ => meets_reading rfl ?_
  split
  · next method hmethod =>
    exact meets_pure (ClassTable.declares_of_method? (Option.filter_eq_some_iff.1 hmethod).1)
  · exact meets_fail _

/-- The array of arguments is held until the frame of the program holds it. -/
theorem meets_runMain (hc : c.Sound) (className : String) (texts : List String) :
    Meets (· ∈ m.pinned) (runMain className texts) (fun _ _ => True) c m := by
  refine (meets_link (fun _ _ => True) fun hr => (resolves_loadClass hr .app className).mono
    fun _ _ _ _ => trivial).seq fun id m₁ h₁ _ => ?_
  refine (quiet_mainMethod id).seq fun main m₂ h₂ hmain => ?_
  have hP₂ : ∀ r, r ∈ m.pinned → m₂.Held r := ((h₁.trans h₂).mono fun _ _ => trivial).held fun _ => .inl
  refine (meets_ensureInitialized hc hP₂ id).bind fun _ m₃ h₃ _ => ?_
  refine (meets_newStringArray (h₃.held hP₂) texts).bind fun argv m₄ h₄ hargv => meets_reading rfl ?_
  have hargs : ∀ v ∈ [Value.ref argv], v.All m₄.heap.IsLive := by simpa using hargv
  have hcall : Meets (· ∈ m₄.pinned) (pinning [argv] (callFirst m₄.pinned main [.ref argv]))
      Returned c m₄ := by
    have hmain₄ := (hmain.mono h₃.table).mono h₄.table
    refine Meets.pinning (meets_callFirst (m := m₄.hold [argv]) hc (fun r hr => ?_) hmain₄ hargs)
      (fun _ hr => hr) (fun _ hr => hr) (fun _ _ _ h => h) (by simpa using hargv)
    exact List.mem_append_right _ hr
  have hleads := (((h₁.trans h₂).mono fun _ _ => trivial).trans h₃).trans h₄
  refine Meets.bind (Q := Returned) ?_ fun _ _ _ _ => meets_pure trivial
  exact (hcall.forHost hc fun _ => .inl).weaken fun r hr => hleads.pinned r hr hr

/-- The arguments of a call are held until a frame holds them; its result is there. -/
theorem meets_invokeStaticMethod (hc : c.Sound) (hargs : ∀ v ∈ args, v.All m.heap.IsLive)
    (className name descriptor : String) :
    Meets (· ∈ m.pinned) (invokeStaticMethod className name descriptor args) Returned c m := by
  refine (quiet_staticMethod className name descriptor).seq fun method m₁ h₁ hmethod =>
    meets_reading rfl ?_
  have hlive : ∀ r ∈ objectsIn args, m₁.heap.IsLive r :=
    Value.all_filterMap.2 fun v hv => h₁.value (hargs v hv)
  have hcall : Meets (· ∈ m₁.pinned) (do
      ensureInitialized method.owner
      forHost (callFirst m₁.pinned method args)) Returned c (m₁.hold (objectsIn args)) := by
    refine (meets_ensureInitialized (P := (m₁.hold (objectsIn args)).Held) hc (fun _ h => h) _).andThen
      (fun r hr => .inl (List.mem_append_right _ hr)) fun _ m₂ h₂ _ => ?_
    have hheld : ∀ r ∈ (m₁.hold (objectsIn args)).pinned, r ∈ m₂.pinned := fun r hr =>
      h₂.pinned r (.inl hr) hr
    have hlive₂ : ∀ r ∈ objectsIn args, m₂.heap.IsLive r := fun r hr =>
      h₂.isLive (.inl (List.mem_append_left _ hr)) (hlive r hr)
    have hbelow : ∀ r ∈ m₁.pinned, r ∈ m₂.pinned := fun r hr => hheld r (List.mem_append_right _ hr)
    exact (meets_callFirst hc hbelow (hmethod.mono h₂.table) (Value.all_filterMap.1 hlive₂)).forHost hc
      fun r hr => .inl (hbelow r hr)
  exact (hcall.pinning (fun _ hr => hr) (fun _ hr => hr) (fun _ _ _ h => h) hlive).weaken
    fun r hr => h₁.pinned r trivial hr

theorem Meets.reporting (hx : Meets P x Q c m) : Meets P (VM.reporting x) Q c m := by
  refine hx.attempt.bind fun o m₁ _ ho => ?_
  split
  · exact meets_pure (ho.1 _ rfl)
  · exact (quiet_write _ _).seq fun _ _ _ _ => meets_fail _
  · exact meets_throw fun r hr => ho.2 r (congrArg _ hr)

end VM

end Jvm.Execution
