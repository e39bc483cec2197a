import Mathlib
import Jvm.Proofs.Linking.Protocol

/-! # Preparing classes in a session

`Watched.Runs` says what a part of a session leads to; where it is cut off, everything has happened in order
up to there. `keeps_prepare` says that a class is prepared so. -/

namespace Jvm.Linking

variable {α β : Type} {paths : ClassPaths} {s : Session} {id : ClassId}

/-! ## Parts of a session -/

/-- What a part of a session leads to, unless it is cut off. -/
def Watched.Runs (paths : ClassPaths) (x : Watched α) (Q : α → Session → Prop) (s : Session) : Prop :=
  match x s with
  | .ok a s' => Q a s'
  | .error _ s' => Orderly paths s'.registry s'.past

namespace Watched

variable {x : Watched α} {g : α → Watched β} {Q : α → Session → Prop} {R : β → Session → Prop}

theorem runs_of_ok {a : α} {s' : Session} (h : x s = .ok a s') (ha : Q a s') : Runs paths x Q s := by
  unfold Runs; rw [h]; exact ha

theorem runs_of_error {s' : Session} (h : x s = .error () s')
    (horderly : Orderly paths s'.registry s'.past) : Runs paths x Q s := by
  unfold Runs; rw [h]; exact horderly

theorem Runs.of_eq_ok (hx : Runs paths x Q s) {a : α} {s' : Session} (h : x s = .ok a s') : Q a s' := by
  unfold Runs at hx; rwa [h] at hx

theorem Runs.of_eq_error (hx : Runs paths x Q s) {s' : Session} (h : x s = .error () s') :
    Orderly paths s'.registry s'.past := by
  unfold Runs at hx; rwa [h] at hx

theorem runs_pure {a : α} (ha : Q a s) : Runs paths (pure a) Q s := runs_of_ok rfl ha

theorem Runs.mono {R : α → Session → Prop} (hx : Runs paths x Q s) (himp : ∀ a s', Q a s' → R a s') :
    Runs paths x R s := by
  rcases h : x s with ⟨a, s'⟩ | ⟨⟨⟩, s'⟩
  · exact runs_of_ok h (himp a s' (hx.of_eq_ok h))
  · exact runs_of_error h (hx.of_eq_error h)

theorem Runs.bind (hx : Runs paths x Q s) (hg : ∀ a s', Q a s' → Runs paths (g a) R s') :
    Runs paths (x >>= g) R s := by
  rcases h : x s with ⟨a, s'⟩ | ⟨⟨⟩, s'⟩
  · have hga := hg a s' (hx.of_eq_ok h)
    unfold Runs at hga ⊢
    rwa [bind_of_ok h]
  · exact runs_of_error (bind_of_error h) (hx.of_eq_error h)

end Watched

open Watched (Runs runs_pure runs_of_ok runs_of_error)

theorem getThe_registry (s : Session) : (getThe Registry : Watched Registry) s = .ok s.registry s := rfl

theorem setInitState_eq (s : Session) (id : ClassId) (state : InitState) :
    (setInitState id state : Watched Unit) s = .ok () (s.change (s.registry.setInit id state)) := rfl

/-- What a part of a session leads to within the activations that are running. -/
abbrev Watched.Keeps (paths : ClassPaths) (x : Watched α) (Q : α → Session → Prop) (s : Session) : Prop :=
  Runs paths x (fun a s' => s.Advances (fun _ => False) s' ∧ s'.Sound paths ∧ Q a s') s

open Watched (Keeps)

/-! ## One initialization -/

section

variable {d : Driver} {prepare : ClassId → Watched (Except Fault Unit)} {n : Nat} {c : LinkedClass}

namespace Session

/-- A class whose initialization begins does not wait for its superclass any more. -/
theorem Settled.begins {waiting : ClassId → Prop} (hset : s.Settled waiting) (hs : s.Sound paths)
    (hwaiting : ∀ k, waiting k → s.registry.table.superOf? k = some id)
    (hc : s.registry.table.class? id = some c) (hlinked : s.registry.initState id = .linked) :
    (s.change (s.registry.setInit id .initializing)).Settled (· = id) := by
  have hstate := Registry.initState_setInit hs.wellFormed.linked hc .initializing
  have hprecedes := Registry.precedes_setInit hs.wellFormed hc (by rw [hlinked]; exact .begins)
  rintro k ⟨e, he, hkind⟩ hrunning
  by_cases hk : k = id
  · exact .inr (.inr hk)
  · have hrunning₀ := ((hstate k).trans (if_neg hk)).symm.trans hrunning
    rcases hset k ⟨e, he, hkind⟩ hrunning₀ with hready | ⟨t, ht, hrun⟩ | hwait
    · exact .inl (hready.mono hprecedes (List.suffix_cons _ _) he)
    · have hne : t ≠ id := by
        rintro rfl
        rw [hlinked] at hrun
        cases hrun
      exact .inr (.inl ⟨t, ht, ((hstate t).trans (if_neg hne)).trans hrun⟩)
    · exact .inr (.inl ⟨id, hwaiting k hwait, (hstate id).trans (if_pos rfl)⟩)

end Session

theorem superOf?_of_initializedBefore? {t : ClassTable} {above : ClassId}
    (h : initializedBefore? t id = some above) : t.superOf? id = some above := by
  obtain ⟨c, hc, hs⟩ := Option.bind_eq_some_iff.1 h
  split at hs
  · cases hs
  · exact (ClassTable.superOf?_of_class? hc).trans hs

/-- A class that is not an interface, and whose initialization is running, has instances or subclasses. -/
theorem Session.Sound.isOrdinary (hs : s.Sound paths) (hrunning : s.registry.initState id = .initializing)
    (hc : s.registry.table.class? id = some c) (hi : c.isInterface = false) : s.IsOrdinary id := by
  refine ⟨c, hc, ?_⟩
  cases hkind : c.kind with
  | ordinary => rfl
  | interface => simp [LinkedClass.isInterface, hkind] at hi
  | array component =>
    have := hs.arrays id c hc (by simp [LinkedClass.isArray, LinkedClass.component?, hkind])
    rw [hrunning] at this
    cases this

/-- A class for which its superclasses are ready stays one. -/
theorem Session.Advances.isReady {s' : Session} {except : ClassId → Prop} (h : s.Advances except s')
    (hc : s.registry.table.class? id = some c) (hready : s.IsOrdinary id → s.IsReady id)
    (hord : s'.IsOrdinary id) : s'.IsReady id := by
  obtain ⟨e, he, hkind⟩ := hord
  obtain rfl := Option.some.inj (he.symm.trans (h.registry.table id c hc))
  exact (hready ⟨e, hc, hkind⟩).mono h.registry h.past hc

/-- Whether the initialization of a class begins, with the session before and the one in which it is running. -/
structure Session.Begins (paths : ClassPaths) (s : Session) (id : ClassId) (c : LinkedClass) (s₁ : Session) : Prop where
  sound : s.Sound paths
  cls : s.registry.table.class? id = some c
  linked : s.registry.initState id = .linked
  eq : s₁ = s.change (s.registry.setInit id .initializing)

namespace Session.Begins

variable {s₁ s' : Session} {except : ClassId → Prop} (h : s.Begins paths id c s₁)

include h

theorem table_eq : s₁.registry.table = s.registry.table := h.eq ▸ rfl

theorem class? : s₁.registry.table.class? id = some c := h.table_eq ▸ h.cls

theorem sound_after : s₁.Sound paths :=
  h.eq ▸ h.sound.setInit h.cls (by rw [h.linked]; exact .begins) (by simp)

theorem initState (i : ClassId) :
    s₁.registry.initState i = if i = id then .initializing else s.registry.initState i :=
  h.eq ▸ Registry.initState_setInit h.sound.wellFormed.linked h.cls .initializing i

theorem running (hadv : s₁.Advances except s') : s'.registry.initState id = .initializing := by
  rw [hadv.held id] <;> simp [h.initState]

/-- No step of the initialization has been made, as long as only others go on. -/
theorem quiet (hadv : s₁.Advances (fun _ => False) s') : ∀ e ∈ s'.past, ¬ e.IsStep id := by
  intro e he hstep
  have hne : s₁.registry.initState id ≠ .linked := by simp [h.initState]
  have he := hadv.quiet id (fun h => h) hne e he hstep
  rw [h.eq] at he
  rcases List.mem_cons.1 he with rfl | he
  · exact hstep
  · exact h.sound.unbegun id h.linked e he hstep

/-- The initialization ends, and leaves the class in another state. -/
theorem keeps_end (hadv : s₁.Advances (· = id) s') (hs' : s'.Sound paths) {state : InitState}
    (hmoves : InitState.initializing.Moves state) (hne : state ≠ .initializing)
    (hready : s'.IsOrdinary id → state = .initialized → s'.IsReady id) {a : Except Fault Unit}
    (hanswers : ∀ r : Registry, r.initState id = state → r.Answers id a) :
    Runs paths (setInitState id state >>= fun _ => pure a) (fun a s'' => s.Advances (fun _ => False) s'' ∧
      s''.Sound paths ∧ s''.registry.Answers id a) s' := by
  have hc' := hadv.registry.table id c h.class?
  have hmoves : (s'.registry.initState id).Moves state := h.running hadv ▸ hmoves
  have hlast := Registry.initState_setInit hs'.wellFormed.linked hc' state id
  refine Runs.bind (runs_of_ok (setInitState_eq s' id state) (Q := fun _ s'' => _ = s'') rfl) ?_
  rintro _ _ rfl
  exact runs_pure ⟨.activation h.sound h.cls h.linked (h.eq ▸ hadv) hs' hmoves hne, hs'.setInit hc' hmoves hready,
    hanswers _ (hlast.trans (if_pos rfl))⟩

theorem superOf? {t : ClassId} (ht : initializedBefore? s.registry.table id = some t) :
    s₁.registry.table.superOf? id = some t := h.table_eq ▸ superOf?_of_initializedBefore? ht

/-- The class is ready for the rest when its superclass has been prepared. -/
theorem isReady (hset : s₁.Settled (· = id)) (hadv : s₁.Advances (fun _ => False) s') (hs' : s'.Sound paths)
    (hord : s'.IsOrdinary id) {t : ClassId} (hsup : s₁.registry.table.superOf? id = some t)
    (hanswers : s'.registry.Answers t (.ok ())) : s'.IsReady id := by
  have hsup' := (hadv.registry.table.superOf?_eq h.class?).trans hsup
  refine (hset.mono h.sound_after hadv).isReady hs' hord hsup' hanswers fun i hi hrun => ?_
  have hrun₁ := hadv.ended i hrun
  refine ⟨s.registry, s.registry.setInit id .initializing, hadv.past.subset (h.eq ▸ List.mem_cons_self), h.linked,
    ?_, ?_⟩
  · rw [Registry.initState_setInit h.sound.wellFormed.linked h.cls, if_pos rfl]
  · rwa [h.initState, if_neg hi] at hrun₁

/-- So is a class without a superclass. -/
theorem isReady_of_none (hord : s₁.IsOrdinary id) (hnone : initializedBefore? s.registry.table id = none) :
    s₁.IsReady id := by
  intro above hmem hne
  obtain ⟨e, he, hkind⟩ := hord
  rw [h.table_eq] at he
  have hsup : s₁.registry.table.superOf? id = none := by
    rw [initializedBefore?, he] at hnone
    rw [h.table_eq]
    refine (ClassTable.superOf?_of_class? he).trans ?_
    simpa [LinkedClass.isInterface, hkind] using hnone
  rcases ClassTable.mem_chain.1 hmem with rfl | ⟨t, ht, -⟩
  · exact absurd rfl hne
  · rw [hsup] at ht
    cases ht

end Session.Begins

section

variable (hfollow : ∀ s : Session, s.Sound paths → s.Settled (fun _ => False) →
  Keeps paths (d.follow paths prepare n) (fun _ _ => True) s)

include hfollow

/-- The constants are put in before the initializer is run. -/
theorem runs_constants (hs : s.Sound paths) (hset : s.Settled fun _ => False)
    (hrunning : s.registry.initState id = .initializing) (hquiet : ∀ e ∈ s.past, ¬ e.IsStep id) :
    Runs paths ((d.steps paths prepare n).constants id) (fun _ s' => s.Advances (· = id) s' ∧
      s'.Sound paths ∧ .constants id ∈ s'.past ∧ ∀ m, .initializer id m ∉ s'.past) s := by
  have hstep : s.Advances (· = id) (s.note (.constants id)) := Session.advances_note fun _ h => h.symm
  have hnote : (s.note (.constants id)).Sound paths := by
    refine hs.note (.constants hs.orderly hrunning (fun h => hquiet _ h rfl)
      fun m h => hquiet _ h rfl) fun i hi => ?_
    rw [← (hi : id = i), hrunning]
    simp
  refine Runs.bind (runs_of_ok rfl (Q := fun _ s' => s.note (.constants id) = s') rfl) ?_
  rintro _ _ rfl
  refine (hfollow _ hnote (hset.mono hs hstep)).mono ?_
  rintro _ s' ⟨hadv, hs', -⟩
  refine ⟨hstep.trans (hadv.mono fun _ => False.elim), hs', hadv.past.subset List.mem_cons_self, fun m hm => ?_⟩
  have hm := hadv.quiet id (fun h => h) (by rw [show (s.note _).registry = s.registry from rfl, hrunning]; simp)
    _ hm rfl
  rcases List.mem_cons.1 hm with hm | hm
  · cases hm
  · exact hquiet _ hm rfl

/-- The initializer is run once, when the constants are put in and the superclasses are ready. -/
theorem runs_initializer (hs : s.Sound paths) (hset : s.Settled fun _ => False)
    (hrunning : s.registry.initState id = .initializing) (hready : s.IsOrdinary id → s.IsReady id)
    (hconstants : .constants id ∈ s.past) (hfirst : ∀ m, .initializer id m ∉ s.past) (clinit : Method) :
    Runs paths ((d.steps paths prepare n).run id clinit)
      (fun _ s' => s.Advances (· = id) s' ∧ s'.Sound paths) s := by
  have hstep : s.Advances (· = id) (s.note (.initializer id clinit)) :=
    Session.advances_note fun _ h => h.symm
  have hnote : (s.note (.initializer id clinit)).Sound paths := by
    refine hs.note (.initializer hs.orderly hrunning hconstants hfirst
      fun c hc hi => hready (hs.isOrdinary hrunning hc hi)) fun i hi => ?_
    rw [← (hi : id = i), hrunning]
    simp
  refine Runs.bind (runs_of_ok rfl (Q := fun _ s' => s.note (.initializer id clinit) = s') rfl) ?_
  rintro _ _ rfl
  refine (hfollow _ hnote (hset.mono hs hstep)).mono ?_
  rintro _ s' ⟨hadv, hs', -⟩
  exact ⟨hstep.trans (hadv.mono fun _ => False.elim), hs'⟩

/-- A class that is prepared gets its superclass prepared first; the induction is on the class. -/
theorem keeps_initializeClass (id : ClassId) :
    ∀ {s : Session} {waiting : ClassId → Prop}, s.Sound paths → s.Settled waiting →
      (∀ k, waiting k → s.registry.table.superOf? k = some id) →
      (∃ c, s.registry.table.class? id = some c) →
      Keeps paths (initializeClass (d.steps paths prepare n) id) (fun a s' => s'.registry.Answers id a) s := by
  induction id using Nat.strongRecOn with
  | ind id ih =>
    intro s waiting hs hset hwaiting hclass
    obtain ⟨c, hc⟩ := hclass
    rw [initializeClass]
    refine Runs.bind (runs_of_ok (getThe_registry s) (Q := fun r s' => s.registry = r ∧ s = s')
      ⟨rfl, rfl⟩) ?_
    rintro _ _ ⟨rfl, rfl⟩
    cases hstate : s.registry.initState id with
    | initialized => exact runs_pure ⟨.refl s, hs, .inl hstate⟩
    | initializing => exact runs_pure ⟨.refl s, hs, .inr hstate⟩
    | failed e => exact runs_pure ⟨.refl s, hs, hstate⟩
    | linked =>
      obtain ⟨s₁, hs₁⟩ : ∃ s₁, s₁ = s.change (s.registry.setInit id .initializing) := ⟨_, rfl⟩
      have hbegins : s.Begins paths id c s₁ := ⟨hs, hc, hstate, hs₁⟩
      have hset₁ : s₁.Settled (· = id) := hs₁ ▸ hset.begins hs hwaiting hc hstate
      refine Runs.bind (runs_of_ok (setInitState_eq s id .initializing) (Q := fun _ s' => s₁ = s') hs₁) ?_
      rintro _ _ rfl
      -- what follows the initializer, the constants and the superclass
      extract_lets finish afterConstants afterAbove
      have hfinish : ∀ outcome {s'}, s₁.Advances (· = id) s' → s'.Sound paths →
          (outcome = .ok () → s'.IsOrdinary id → s'.IsReady id) →
          Runs paths (finish outcome) (fun a s'' => s.Advances (fun _ => False) s'' ∧ s''.Sound paths ∧
            s''.registry.Answers id a) s' := by
        intro outcome s' hadv hs' hready
        dsimp only [finish]
        split
        · exact hbegins.keeps_end hadv hs' .succeeds (by simp) (fun hord _ => hready rfl hord) fun _ => .inl
        · exact hbegins.keeps_end hadv hs' (.fails _) (by simp) (by simp) fun _ hfailed => hfailed
      have hconstants : ∀ constants {s'}, s₁.Advances (· = id) s' → s'.Sound paths →
          s'.Settled (· = id) → (constants = .ok () → (s'.IsOrdinary id → s'.IsReady id) ∧
            .constants id ∈ s'.past ∧ ∀ m, .initializer id m ∉ s'.past) →
          Runs paths (afterConstants constants) (fun a s'' => s.Advances (fun _ => False) s'' ∧
            s''.Sound paths ∧ s''.registry.Answers id a) s' := by
        intro constants s' hadv hs' hset' hok
        dsimp only [afterConstants]
        split
        · next clinit hclinit =>
          obtain ⟨hready, hmem, hfirst⟩ := hok rfl
          refine Runs.bind (runs_initializer hfollow hs' (hset'.of_isReady hready) (hbegins.running hadv) hready
            hmem hfirst clinit) fun outcome s'' h => hfinish outcome (hadv.trans h.1) h.2 fun _ => ?_
          exact h.1.isReady (hadv.registry.table id c hbegins.class?) hready
        · refine Runs.bind (runs_pure (Q := fun o s'' => _ = o ∧ s' = s'') ⟨rfl, rfl⟩) ?_
          rintro _ _ ⟨rfl, rfl⟩
          exact hfinish _ hadv hs' fun h => (hok h).1
      have habove : ∀ above {s'}, s₁.Advances (fun _ => False) s' → s'.Sound paths →
          (above = .ok () → s'.IsOrdinary id → s'.IsReady id) →
          Runs paths (afterAbove above) (fun a s'' => s.Advances (fun _ => False) s'' ∧
            s''.Sound paths ∧ s''.registry.Answers id a) s' := by
        intro above s' hadv hs' hready
        have hset' := hset₁.mono hbegins.sound_after hadv
        have hadv' : s₁.Advances (· = id) s' := hadv.mono fun _ => False.elim
        dsimp only [afterAbove]
        split
        · refine Runs.bind (runs_constants hfollow hs' (hset'.of_isReady (hready rfl)) (hbegins.running hadv)
            (hbegins.quiet hadv)) ?_
          rintro constants s'' ⟨h, hs'', hmem, hfirst⟩
          refine hconstants constants (hadv'.trans h) hs'' (hset'.mono hs' h) fun _ => ⟨?_, hmem, hfirst⟩
          exact h.isReady (hadv.registry.table id c hbegins.class?) (hready rfl)
        · next failure hfailure =>
          refine Runs.bind (runs_pure (Q := fun o s'' => above = o ∧ s' = s'') ⟨rfl, rfl⟩) ?_
          rintro _ _ ⟨rfl, rfl⟩
          exact hconstants _ hadv' hs' hset' fun h => absurd h hfailure
      split
      · next t ht =>
        have hsup := hbegins.superOf? ht
        refine Runs.bind (ih t (initializedBefore?_lt ht) hbegins.sound_after hset₁ (fun k hk => hk ▸ hsup)
          (ClassTable.exists_of_superOf? hsup)) fun above s₂ h => habove above h.1 h.2.1 fun hok hord => ?_
        obtain ⟨hadv, hs₂, hanswers⟩ := h
        subst hok
        exact hbegins.isReady hset₁ hadv hs₂ hord hsup hanswers
      · next hnone =>
        refine Runs.bind (runs_pure (Q := fun o s'' => .ok () = o ∧ s₁ = s'') ⟨rfl, rfl⟩) ?_
        rintro _ _ ⟨rfl, rfl⟩
        exact habove (.ok ()) (.refl s₁) hbegins.sound_after fun _ hord => hbegins.isReady_of_none hord hnone

end

/-! ## Sessions -/

theorem keeps_perform (hprepare : ∀ (id : ClassId) (s : Session), s.Sound paths →
      s.Settled (fun _ => False) → (∃ c, s.registry.table.class? id = some c) →
      Keeps paths (prepare id) (fun a s' => s'.registry.Answers id a) s)
    (hs : s.Sound paths) (hset : s.Settled fun _ => False) (m : Move) :
    Keeps paths (m.perform paths prepare) (fun _ _ => True) s := by
  cases m with
  | request q lasting =>
    obtain ⟨hs', hadv⟩ := hs.request (.request q lasting) (lasting.lasts hs.wellFormed)
    exact runs_of_ok rfl ⟨hadv, hs', trivial⟩
  | prepare id =>
    refine Runs.bind (runs_of_ok (getThe_registry s) (Q := fun r s' => s.registry = r ∧ s = s')
      ⟨rfl, rfl⟩) ?_
    rintro _ _ ⟨rfl, rfl⟩
    split
    · next hid =>
      refine Runs.bind (hprepare id s hs hset (ClassTable.class?_of_lt hid)) ?_
      rintro outcome s' ⟨hadv, hs', hout⟩
      refine runs_of_ok rfl ⟨hadv.trans (Session.advances_note fun _ => False.elim), ?_, trivial⟩
      exact hs'.note (.answered hs'.orderly hout) fun _ => False.elim
    · exact runs_pure ⟨.refl s, hs, trivial⟩

theorem keeps_follow (hprepare : ∀ (id : ClassId) (s : Session), s.Sound paths →
      s.Settled (fun _ => False) → (∃ c, s.registry.table.class? id = some c) →
      Keeps paths (prepare id) (fun a s' => s'.registry.Answers id a) s) (n : Nat) :
    ∀ s : Session, s.Sound paths → s.Settled (fun _ => False) →
      Keeps paths (d.follow paths prepare n) (fun _ _ => True) s := by
  induction n with
  | zero => exact fun s hs _ => runs_of_error rfl hs.orderly
  | succ n ih =>
    intro s hs hset
    refine Runs.bind (runs_of_ok rfl (Q := fun t s' => s = t ∧ s = s') ⟨rfl, rfl⟩) ?_
    rintro _ _ ⟨rfl, rfl⟩
    split
    · exact runs_pure ⟨.refl s, hs, trivial⟩
    · next m _ =>
      refine Runs.bind (keeps_perform hprepare hs hset m) ?_
      rintro _ s' ⟨hadv, hs', -⟩
      refine (ih s' hs' (hset.mono hs hadv)).mono ?_
      rintro _ s'' ⟨hadv', hs'', -⟩
      exact ⟨hadv.trans hadv', hs'', trivial⟩

/-- What happens while a class is prepared keeps to the order; the induction is on the nesting. -/
theorem keeps_prepare (n : Nat) : ∀ (id : ClassId) (s : Session), s.Sound paths →
    s.Settled (fun _ => False) → (∃ c, s.registry.table.class? id = some c) →
    Keeps paths (d.prepare paths n id) (fun a s' => s'.registry.Answers id a) s := by
  induction n with
  | zero => exact fun id s hs _ _ => runs_of_error rfl hs.orderly
  | succ n ih =>
    exact fun id s hs hset hclass =>
      keeps_initializeClass (keeps_follow ih n) id hs hset (fun _ => False.elim) hclass

end

end Jvm.Linking
