import Mathlib
import Jvm.Proofs.Linking.Outermost

/-! # One class for each name

A request from outside leaves its outcome in the registry, and nothing that happens later takes it away. So a
loader has one class under a name for good, and the array class of a class leads back to it. -/

namespace Jvm.Linking

variable {paths : ClassPaths} {r r' : Registry} {loader : Loader} {name : String} {id : ClassId}
  {c : LinkedClass} {stack : List Key} {outcome : Except Fault ClassId}

/-! ## Recorded outcomes -/

/-- What a registry knows about a request. -/
inductive Registry.Knows (r : Registry) : Loader → String → Except Fault ClassId → Prop
  | core {name : String} {outcome : Except Fault ClassId}
    (h : r.loaded[(Loader.boot, name)]? = some outcome) : r.Knows .boot name outcome
  | delegated {name : String} {outcome : Except Fault ClassId}
    (h : r.loaded[(Loader.boot, name)]? = some outcome)
    (hfound : ∀ text, outcome ≠ .error (.classNotFound text)) : r.Knows .app name outcome
  | own {name text : String} {outcome : Except Fault ClassId}
    (hboot : r.loaded[(Loader.boot, name)]? = some (.error (.classNotFound text)))
    (h : r.loaded[(Loader.app, name)]? = some outcome) : r.Knows .app name outcome

/-- What is known stays known. -/
theorem Registry.Knows.mono (hr : r.Extends r') (h : r.Knows loader name outcome) :
    r'.Knows loader name outcome := by
  cases h with
  | core h => exact .core (hr.loaded _ _ h)
  | delegated h hfound => exact .delegated (hr.loaded _ _ h) hfound
  | own hboot h => exact .own (hr.loaded _ _ hboot) (hr.loaded _ _ h)

/-! ## Requests that are repeated -/

theorem attempt_of_eq_ofExcept {α : Type} {x : Linker α} {a : Except Fault α}
    (h : x r = Linker.ofExcept a r) : Linker.attempt x r = .ok a r := by
  rw [Linker.attempt, h]
  cases a <;> rfl

theorem Linker.Meets.attempt {α : Type} {T : Registry → Registry → Prop} {x : Linker α}
    {Q : α → Registry → Prop} (hx : Linker.Meets T x Q r) {a : Except Fault α}
    (h : Linker.attempt x r = .ok a r') : T r r' := by
  rcases hrun : x r with ⟨b, r₁⟩ | ⟨e, r₁⟩
  · rw [Linker.attempt, hrun] at h
    cases h
    exact (hx.of_eq_ok hrun).1
  · rw [Linker.attempt, hrun] at h
    cases h
    exact hx.of_eq_error hrun

/-- What is known about a request is its outcome, and nothing changes. -/
theorem load_of_knows (h : r.Knows loader name outcome) :
    load paths stack loader name r = Linker.ofExcept outcome r := by
  cases h with
  | core h =>
    rw [load]
    exact define_of_recorded h
  | delegated h hfound =>
    have hdefine : define paths stack .boot name r = _ := define_of_recorded h
    rw [load]
    cases outcome with
    | ok id => exact tryCatch_of_ok hdefine
    | error e =>
      rw [tryCatch_of_error hdefine]
      split
      · next text => exact absurd rfl (hfound text)
      · rfl
  | own hboot h =>
    have hdefine : define paths stack .boot name r = _ := define_of_recorded hboot
    rw [load, tryCatch_of_error hdefine]
    exact define_of_recorded h

theorem Linker.loaded_of_attempt_recorded {key : Key} {x : Linker ClassId}
    (h : Linker.attempt (Linker.recorded key x) r = .ok outcome r') : r'.loaded[key]? = some outcome := by
  rcases hx : x r with ⟨id, r₁⟩ | ⟨e, r₁⟩
  · rw [Linker.attempt, Linker.recorded_of_ok hx] at h
    cases h
    rw [Registry.loaded_remember, if_pos rfl]
  · rw [Linker.attempt, Linker.recorded_of_error hx] at h
    cases h
    rw [Registry.loaded_remember, if_pos rfl]

/-- The outcome of a definition that is asked for from outside is recorded. -/
theorem loaded_of_define (h : Linker.attempt (define paths [] loader name) r = .ok outcome r') :
    r'.loaded[(loader, name)]? = some outcome := by
  cases hknown : r.loaded[(loader, name)]? with
  | some result =>
    rw [attempt_of_eq_ofExcept (define_of_recorded hknown)] at h
    cases h
    exact hknown
  | none =>
    rw [define, Linker.attempt, bind_of_ok (get_eq r), hknown] at h
    exact Linker.loaded_of_attempt_recorded h

/-- A request from outside lets its outcome be known. -/
theorem knows_of_load (hr : r.Linked) (h : Linker.attempt (loadClass paths loader name) r = .ok outcome r') :
    r'.Knows loader name outcome := by
  cases loader with
  | boot =>
    rw [loadClass, load] at h
    exact .core (loaded_of_define h)
  | app =>
    rw [loadClass, load, Linker.attempt] at h
    rcases hboot : define paths [] .boot name r with ⟨id, r₁⟩ | ⟨e, r₁⟩
    · have hloaded : r₁.loaded[(Loader.boot, name)]? = some (.ok id) :=
        loaded_of_define (by rw [Linker.attempt, hboot])
      rw [tryCatch_of_ok hboot] at h
      cases h
      exact .delegated hloaded fun text h => by cases h
    · have hloaded : r₁.loaded[(Loader.boot, name)]? = some (.error e) :=
        loaded_of_define (by rw [Linker.attempt, hboot])
      rw [tryCatch_of_error hboot] at h
      cases e
      case classNotFound text =>
        have happ : Linker.attempt (define paths [] .app name) r₁ = .ok outcome r' := h
        have hr₁ := (meets_define paths [] .boot name hr fun h => by cases h).of_eq_error hboot
        have hextends := (meets_define paths [] .app name hr₁.linked fun _ => ⟨_, hloaded⟩).attempt happ
        exact .own (hextends.grows.loaded _ _ hloaded) (loaded_of_define happ)
      all_goals
        cases h
        exact .delegated hloaded fun text h => by cases h

/-! ## Array classes -/

/-- An array class leads back to the class of its elements, and is of the same loader. -/
theorem meets_arrayClassOf (hr : r.Linked) (component : ClassId) :
    Linker.Meets (Registry.Loads []) (arrayClassOf paths component) (fun a r' =>
      ∃ c b, r'.table.class? component = some c ∧ r'.table.class? a = some b ∧
        b.component? = some (.reference component) ∧ b.loader = c.loader) r := by
  refine (Linker.meets_getClass (.refl hr []) component).bind ?_
  rintro c r - ⟨rfl, hc⟩
  refine (meets_load paths [] c.loader (arrayNameOf c) hr).mono fun a r' h hnames => ?_
  have hc' := h.grows.table component c hc
  obtain ⟨b, hb, hrest⟩ := h.linked.exists_array hc' hnames
  exact ⟨c, b, hc', hb, hrest⟩

/-! ## One class for each name -/

/-- What a program can rely on about the classes that it asks for, whatever happens in a session. -/
structure ClassPaths.KeepIdentity (paths : ClassPaths) : Prop where
  reached : ∀ (d : Driver) n moves,
    Orderly paths (d.after paths n moves).registry (d.after paths n moves).past
  again : ∀ r past loader name outcome r', Orderly paths r past →
    Linker.attempt (loadClass paths loader name) r = .ok outcome r' →
    ∀ t later, Orderly paths t (later ++ .changed r r' :: past) →
      loadClass paths loader name t = Linker.ofExcept outcome t
  named : ∀ r past loader name id r', Orderly paths r past → loadClass paths loader name r = .ok id r' →
    ∃ c, r'.table.class? id = some c ∧ c.name = name ∧ (c.loader = loader ∨ c.loader = .boot)
  unique : ∀ r past i j c d, Orderly paths r past → r.table.class? i = some c → r.table.class? j = some d →
    c.loader = d.loader → c.name = d.name → i = j
  arrays : ∀ r past id a r', Orderly paths r past → arrayClassOf paths id r = .ok a r' →
    ∃ c b, r'.table.class? id = some c ∧ r'.table.class? a = some b ∧
      b.component? = some (.reference id) ∧ b.loader = c.loader

theorem leads_of_attempt {α : Type} {x : Linker α} {a : Except Fault α}
    (h : Linker.attempt x r = .ok a r') : x.leads r = r' := by
  rcases hrun : x r with ⟨b, r₁⟩ | ⟨e, r₁⟩
  all_goals
    rw [Linker.attempt, hrun] at h
    cases h
    rw [Linker.leads, hrun]

/-- **Loading is idempotent and classes are identified by their loader and name.** -/
theorem keepIdentity (paths : ClassPaths) : paths.KeepIdentity where
  reached d n moves := orderly_after d paths n moves
  again r past loader name outcome r' h hload t later ht := by
    have hr' : (Request.load loader name).apply paths r = r' := leads_of_attempt hload
    have hchanged : Orderly paths r' (.changed r r' :: past) :=
      .changed h (hr' ▸ .request (.load loader name) trivial)
    have hknows := knows_of_load h.wellFormed.linked hload
    exact load_of_knows (hknows.mono (hchanged.precedes ht (List.suffix_append _ _)).toExtends)
  named r past loader name id r' h hload := by
    obtain ⟨c, hc, hname, hloader⟩ := ((meets_load paths [] loader name h.wellFormed.linked).of_eq_ok hload).2
    refine ⟨c, hc, hname, ?_⟩
    cases hc : c.loader with
    | boot => exact .inr rfl
    | app => exact .inl (hloader.elim hc.symm.trans Eq.symm)
  unique r past i j c d h hc hd hloader hname := h.wellFormed.linked.eq_of_name hc hd hname
  arrays r past id a r' h harray := ((meets_arrayClassOf h.wellFormed.linked id).of_eq_ok harray).2

end Jvm.Linking
