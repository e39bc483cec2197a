import Mathlib
import Jvm.Proofs.Linking.Preparation
import Jvm.Proofs.Linking.Specificity

/-! # Outermost initializations

What whoever asks for an initialization from outside can rely on: all that happens is in order, the class is
initialized or has failed for good, and how it came out is told again without anything being performed. -/

namespace Jvm.Linking

section

variable {paths : ClassPaths} {r r' : Registry} {past past' : List Event} {s s' : Session} {id : ClassId}
  {c : LinkedClass} {d : Driver} {n : Nat}

/-! ## Later registries -/

namespace Registry

theorem Changes.wellFormed (h : r.Changes paths r') (hr : r.WellFormed) : r'.WellFormed := by
  cases h with
  | request q lasting => exact (lasting.lasts hr).wellFormed
  | setInit => exact hr.setInit _ _

theorem Changes.precedes (h : r.Changes paths r') (hr : r.WellFormed) : r.Precedes r' := by
  cases h with
  | request q lasting => exact (lasting.lasts hr).precedes hr
  | setInit hc hmoves => exact precedes_setInit hr hc hmoves

/-- A class gets on with its initialization, or is left alone. -/
theorem Changes.moves (h : r.Changes paths r') (hr : r.WellFormed) (hc : r.table.class? id = some c) :
    (r.initState id).Moves (r'.initState id) := by
  cases h with
  | request q lasting => rw [(lasting.lasts hr).states id c hc]; exact .stays _
  | @setInit i d state hd hmoves =>
    rw [initState_setInit hr.linked hd]
    split
    · next heq => rw [heq]; exact hmoves
    · exact .stays _

end Registry

namespace Orderly

theorem wellFormed (h : Orderly paths r past) : r.WellFormed := by
  induction h with
  | start => exact Registry.wellFormed_empty
  | changed _ hchanges ih => exact hchanges.wellFormed ih
  | constants _ _ _ _ ih => exact ih
  | initializer _ _ _ _ _ ih => exact ih
  | answered _ _ ih => exact ih

/-- Every change lets the classes get on with their initialization, or leaves them alone. -/
theorem moves (h : Orderly paths r past) {r₁ r₂ : Registry} (hmem : .changed r₁ r₂ ∈ past)
    (hc : r₁.table.class? id = some c) : (r₁.initState id).Moves (r₂.initState id) := by
  induction h with
  | start => cases hmem
  | changed h hchanges ih =>
    rcases List.mem_cons.1 hmem with heq | hmem
    · cases heq
      exact hchanges.moves h.wellFormed hc
    · exact ih hmem
  | constants _ _ _ _ ih => exact ih ((List.mem_cons.1 hmem).resolve_left (by simp))
  | initializer _ _ _ _ _ ih => exact ih ((List.mem_cons.1 hmem).resolve_left (by simp))
  | answered _ _ ih => exact ih ((List.mem_cons.1 hmem).resolve_left (by simp))

theorem eq_of_past_eq (h : Orderly paths r past) (h' : Orderly paths r' past) : r = r' := by
  induction h with
  | start => cases h'; rfl
  | changed => cases h'; rfl
  | constants _ _ _ _ ih => cases h' with | constants h' => exact ih h'
  | initializer _ _ _ _ _ ih => cases h' with | initializer h' => exact ih h'
  | answered _ _ ih => cases h' with | answered h' => exact ih h'

/-- No class goes back as long as things happen in order. -/
theorem precedes (h : Orderly paths r past) (h' : Orderly paths r' past') (hsuffix : past <:+ past') :
    r.Precedes r' := by
  induction h' with
  | start =>
    obtain rfl := List.suffix_nil.1 hsuffix
    rw [h.eq_of_past_eq .start]
    exact .refl _
  | changed hlast hchanges ih =>
    rcases List.suffix_cons_iff.1 hsuffix with rfl | hsuffix
    · rw [h.eq_of_past_eq (.changed hlast hchanges)]
      exact .refl _
    · exact (ih hsuffix).trans (hchanges.precedes hlast.wellFormed)
  | constants hlast hid hfirst hinitializer ih =>
    rcases List.suffix_cons_iff.1 hsuffix with rfl | hsuffix
    · rw [h.eq_of_past_eq (.constants hlast hid hfirst hinitializer)]
      exact .refl _
    · exact ih hsuffix
  | initializer hlast hid hconstants hfirst hready ih =>
    rcases List.suffix_cons_iff.1 hsuffix with rfl | hsuffix
    · rw [h.eq_of_past_eq (.initializer hlast hid hconstants hfirst hready)]
      exact .refl _
    · exact ih hsuffix
  | answered hlast houtcome ih =>
    rcases List.suffix_cons_iff.1 hsuffix with rfl | hsuffix
    · rw [h.eq_of_past_eq (.answered hlast houtcome)]
      exact .refl _
    · exact ih hsuffix

end Orderly

/-- Requests leave the classes there are alone. -/
theorem Registry.lasts_after {requests : List Request} (h : ∀ q ∈ requests, q.Lasting) :
    Registry.empty.Lasts (Registry.after paths requests) := by
  have hlasting : Registry.Lasting .empty (Registry.after paths requests) :=
    Registry.keeps_after (fun _ hr => .refl hr) fun q hq r hr => (h q hq).lasts hr
  exact hlasting wellFormed_empty

/-! ## From outside -/

/-- Whether no initialization is running. -/
def Session.Idle (s : Session) : Prop := ∀ id, s.registry.initState id ≠ .initializing

theorem Session.Idle.settled (h : s.Idle) {waiting : ClassId → Prop} : s.Settled waiting :=
  fun id _ hinit => absurd hinit (h id)

theorem Session.Advances.idle {except : ClassId → Prop} (h : s.Advances except s') (hs : s.Idle) : s'.Idle :=
  fun id hinit => hs id (h.ended id hinit)

theorem Session.sound_start : Session.start.Sound paths where
  orderly := .start
  wellFormed := Registry.wellFormed_empty
  arrays id c hc := by cases hc
  unbegun _ _ e he := by cases he
  ready id hid := by
    obtain ⟨c, hc, -⟩ := hid
    cases hc

theorem Session.idle_start : Session.start.Idle := fun id h => by
  rw [Session.start, Registry.initState_of_class?_eq_none Registry.linked_empty rfl] at h
  cases h

/-- Between outermost moves no initialization is running. -/
theorem runs_perform (moves : List Move) (hs : s.Sound paths) (hidle : s.Idle) :
    Watched.Runs paths (d.perform paths n moves)
      (fun _ s' => s'.Sound paths ∧ s'.Idle ∧ s.past <:+ s'.past) s := by
  induction moves generalizing s with
  | nil => exact Watched.runs_pure ⟨hs, hidle, List.suffix_rfl⟩
  | cons m moves ih =>
    refine (keeps_perform (keeps_prepare n) hs hidle.settled m).bind ?_
    rintro _ s₁ ⟨hadv, hs₁, -⟩
    refine (ih hs₁ (hadv.idle hidle)).mono ?_
    rintro _ s' ⟨hs', hidle', hpast⟩
    exact ⟨hs', hidle', hadv.past.trans hpast⟩

/-- A class whose initialization has failed fails again at once. -/
theorem prepare_of_failed {e : Fault} (h : s.registry.initState id = .failed e) :
    d.prepare paths (n + 1) id s = .ok (.error e) s := by
  rw [Driver.prepare, initializeClass, bind_of_ok (getThe_registry s), h]
  rfl

/-- What holds of the initializations in a session, whoever performs their steps. -/
structure Driver.KeepsOrder (d : Driver) (paths : ClassPaths) (n : Nat) (moves : List Move) : Prop where
  -- Everything happens in order: for each class the constants are put in at most once, and then the
  -- initializer is run at most once, with the superclasses ready.
  orderly : Orderly paths (d.after paths n moves).registry (d.after paths n moves).past
  -- How far a class is initialized changes in no other way than that it begins, and then succeeds or
  -- fails for good.
  states : ∀ r r', .changed r r' ∈ (d.after paths n moves).past → ∀ id c, r.table.class? id = some c →
    (r.initState id).Moves (r'.initState id)
  -- When an outermost initialization succeeds, the class is initialized, and each superclass is, or has
  -- failed with a class below begun from within.
  succeeded : ∀ s s' id c, d.perform paths n moves .start = .ok () s → s.registry.table.class? id = some c →
    d.prepare paths n id s = .ok (.ok ()) s' → s'.registry.initState id = .initialized ∧
      (c.kind = .ordinary → ∀ above ∈ s'.registry.table.chain id,
        s'.registry.initState above = .initialized ∨ FailedWithin s'.registry s'.past id above)
  -- When an outermost initialization fails, so has the class, and whatever happens later the
  -- initialization fails in the same way, with nothing happening.
  failed : ∀ s s' id c e, d.perform paths n moves .start = .ok () s → s.registry.table.class? id = some c →
    d.prepare paths n id s = .ok (.error e) s' → s'.registry.initState id = .failed e ∧
      ∀ t : Session, Orderly paths t.registry t.past → s'.past <:+ t.past →
        ∀ k, d.prepare paths (k + 1) id t = .ok (.error e) t

theorem orderly_after (d : Driver) (paths : ClassPaths) (n : Nat) (moves : List Move) :
    Orderly paths (d.after paths n moves).registry (d.after paths n moves).past := by
  have hruns : Watched.Runs paths (d.perform paths n moves) _ .start :=
    runs_perform moves Session.sound_start Session.idle_start
  rw [Driver.after]
  split
  · next h => exact (hruns.of_eq_ok h).1.orderly
  · next h => exact hruns.of_eq_error h

/-- **Initializations keep to their order**, however they are nested and wherever they fail. -/
theorem keepsOrder (d : Driver) (paths : ClassPaths) (n : Nat) (moves : List Move) :
    d.KeepsOrder paths n moves := by
  have hreached {s : Session} (h : d.perform paths n moves .start = .ok () s) : s.Sound paths ∧ s.Idle := by
    have hruns := (runs_perform moves Session.sound_start Session.idle_start).of_eq_ok h
    exact ⟨hruns.1, hruns.2.1⟩
  have hkeeps {s s' : Session} {id : ClassId} {c : LinkedClass} {outcome : Except Fault Unit}
      (h : d.perform paths n moves .start = .ok () s) (hc : s.registry.table.class? id = some c)
      (hprepare : d.prepare paths n id s = .ok outcome s') :=
    (keeps_prepare n id s (hreached h).1 (hreached h).2.settled ⟨c, hc⟩).of_eq_ok hprepare
  refine ⟨orderly_after d paths n moves,
    fun r r' hmem id c hc => (orderly_after d paths n moves).moves hmem hc,
    fun s s' id c h hc hprepare => ?_, fun s s' id c e h hc hprepare => ?_⟩
  · obtain ⟨hadv, hs', hout⟩ := hkeeps h hc hprepare
    have hidle := hadv.idle (hreached h).2
    have hdone : s'.registry.initState id = .initialized := hout.resolve_right (hidle id)
    refine ⟨hdone, fun hkind above hmem => ?_⟩
    by_cases hne : above = id
    · exact .inl (hne ▸ hdone)
    · cases hs'.ready id ⟨c, hadv.registry.table id c hc, hkind⟩ hdone above hmem hne with
      | initialized h => exact .inl h
      | enclosing h => exact absurd h (hidle above)
      | failed h => exact .inr h
  · obtain ⟨-, hs', hout⟩ := hkeeps h hc hprepare
    refine ⟨hout, fun t ht hsuffix k => prepare_of_failed ?_⟩
    have hlast := (hs'.orderly.precedes ht hsuffix).states id
    rw [show s'.registry.initState id = .failed e from hout] at hlast
    exact hlast.eq_of_done (by simp) (by simp)

/-! ## A superclass that fails later -/

/-- Whether all superclasses are initialized when an outermost initialization succeeds. -/
def Driver.FinishesSuperclasses (d : Driver) (paths : ClassPaths) : Prop :=
  ∀ n moves s s' id c, d.perform paths n moves .start = .ok () s → s.registry.table.class? id = some c →
    c.kind = .ordinary → d.prepare paths n id s = .ok (.ok ()) s' →
      ∀ above ∈ s'.registry.table.chain id, s'.registry.initState above = .initialized

/-- How far a class is initialized after an outcome. -/
def InitState.ofOutcome : Except Fault Unit → InitState
  | .ok () => .initialized
  | .error e => .failed e

/-- A class that has no initializer, and whose superclass is ready, gets its constants put in; that decides
how it comes out. -/
theorem initializeClass_of_linked {steps : Initializer Watched} {outcome : Except Fault Unit}
    (hstate : s.registry.initState id = .linked)
    (habove : ∀ t, initializedBefore? s.registry.table id = some t →
      initializeClass steps t (s.change (s.registry.setInit id .initializing)) =
        .ok (.ok ()) (s.change (s.registry.setInit id .initializing)))
    (hdeclared : s.registry.table.declaredMethod? id classInitializerName "()V" = none)
    (hconstants : steps.constants id (s.change (s.registry.setInit id .initializing)) = .ok outcome s')
    {result : Except Fault Unit}
    (hresult : result = outcome.mapError (initializationFault (s.registry.table.nameOf id))) :
    initializeClass steps id s =
      .ok result (s'.change (s'.registry.setInit id (.ofOutcome result))) := by
  rw [initializeClass, bind_of_ok (getThe_registry s)]
  subst hresult
  split
  · next t ht =>
    rw [hstate]
    refine (bind_of_ok (habove t ht)).trans ((bind_of_ok hconstants).trans ?_)
    rw [hdeclared]
    cases outcome <;> rfl
  · rw [hstate]
    refine (bind_of_ok hconstants).trans ?_
    rw [hdeclared]
    cases outcome <;> rfl

theorem initializeClass_of_running {steps : Initializer Watched}
    (h : s.registry.initState id = .initializing ∨ s.registry.initState id = .initialized) :
    initializeClass steps id s = .ok (.ok ()) s := by
  rw [initializeClass, bind_of_ok (getThe_registry s)]
  rcases h with h | h <;> rw [h] <;> rfl

end

namespace Diamond

/-- A driver that initializes `C` while the constants of the object class are put in, and then fails. -/
def failing : Driver where
  next
    | .constants 0 :: _ => .move (.prepare 3)
    | .answered 3 _ :: _ => .finish (.error .stackOverflow)
    | _ => .finish (.ok ())

/-- The classes are loaded, and the object class is initialized. -/
def moves : List Move :=
  [.request (.load .boot "java/lang/Object") trivial, .request (.load .boot "I") trivial,
    .request (.load .boot "J") trivial, .request (.load .boot "C") trivial, .prepare 0]

theorem lasts_after : Registry.empty.Lasts (Registry.after paths requests) :=
  Registry.lasts_after (by simp [requests, Request.Lasting])

/-- A session in which the classes are loaded, and how far the object class and `C` are initialized. -/
structure Stage (s : Session) (ofObject ofC : InitState) : Prop where
  wellFormed : s.registry.WellFormed
  classObject : s.registry.table.class? 0 = some object
  classC : s.registry.table.class? 3 = some c
  stateObject : s.registry.initState 0 = ofObject
  stateC : s.registry.initState 3 = ofC

variable {s : Session} {a b : InitState}

theorem Stage.note (h : Stage s a b) (e : Event) : Stage (s.note e) a b := { h with }

theorem Stage.setObject (h : Stage s a b) (state : InitState) :
    Stage (s.change (s.registry.setInit 0 state)) state b where
  wellFormed := h.wellFormed.setInit 0 state
  classObject := h.classObject
  classC := h.classC
  stateObject := Registry.initState_setInit h.wellFormed.linked h.classObject state 0
  stateC := (Registry.initState_setInit h.wellFormed.linked h.classObject state 3).trans h.stateC

theorem Stage.setC (h : Stage s a b) (state : InitState) :
    Stage (s.change (s.registry.setInit 3 state)) a state where
  wellFormed := h.wellFormed.setInit 3 state
  classObject := h.classObject
  classC := h.classC
  stateObject := (Registry.initState_setInit h.wellFormed.linked h.classC state 0).trans h.stateObject
  stateC := Registry.initState_setInit h.wellFormed.linked h.classC state 3

/-- While the object class is being initialized, `C` can be. -/
theorem prepare_c (h : Stage s .initializing .linked) :
    ∃ s', failing.prepare paths 2 3 s = .ok (.ok ()) s' ∧ Stage s' .initializing .initialized := by
  have h₁ := (h.setC .initializing).note (.constants 3)
  refine ⟨_, initializeClass_of_linked h.stateC (fun t ht => ?_) ?_ rfl rfl, h₁.setC .initialized⟩
  · rw [initializedBefore?, h.classC] at ht
    cases ht
    exact initializeClass_of_running (.inl (h.setC .initializing).stateObject)
  · rw [ClassTable.declaredMethod?, h.classC]
    rfl

/-- The object class fails after `C` is initialized. -/
theorem prepare_object (h : Stage s .linked .linked) :
    ∃ s', failing.prepare paths 3 0 s = .ok (.error .stackOverflow) s' ∧
      Stage s' (.failed .stackOverflow) .initialized := by
  have h₁ := (h.setObject .initializing).note (.constants 0)
  obtain ⟨s₂, hs₂, h₂⟩ := prepare_c h₁
  have h₃ := h₂.note (.answered 3 (.ok ()))
  have hperform : (Move.prepare 3).perform paths (failing.prepare paths 2)
      ((s.change (s.registry.setInit 0 .initializing)).note (.constants 0)) =
        .ok () (s₂.note (.answered 3 (.ok ()))) := by
    rw [Move.perform, bind_of_ok (getThe_registry _), if_pos (ClassTable.lt_of_class? h₁.classC),
      bind_of_ok hs₂]
    rfl
  refine ⟨_, initializeClass_of_linked h.stateObject (fun t ht => ?_) ?_
    ((bind_of_ok hperform).trans rfl) rfl, h₃.setObject (.failed .stackOverflow)⟩
  · rw [initializedBefore?, h.classObject] at ht
    cases ht
  · rw [ClassTable.declaredMethod?, h.classObject]
    rfl

/-- When the classes are loaded none is initialized. -/
theorem stage_loaded (past : List Event) :
    Stage ⟨Registry.after paths requests, past⟩ .linked .linked where
  wellFormed := lasts_after.wellFormed
  classObject := holds_after.class? 0
  classC := holds_after.class? 3
  stateObject := lasts_after.fresh 0 object rfl (holds_after.class? 0)
  stateC := lasts_after.fresh 3 c rfl (holds_after.class? 3)

end Diamond

/-- **A superclass fails after its subclass**: the initialization of the object class initializes `C` and then
fails, and `C` stays initialized. -/
theorem not_finishesSuperclasses : ¬ Diamond.failing.FinishesSuperclasses Diamond.paths := by
  intro h
  obtain ⟨past, hloads⟩ : ∃ past, Diamond.failing.perform Diamond.paths 3 Diamond.moves .start =
      Diamond.failing.perform Diamond.paths 3 [.prepare 0]
        ⟨Registry.after Diamond.paths Diamond.requests, past⟩ := ⟨_, rfl⟩
  have hstart := Diamond.stage_loaded past
  obtain ⟨s, hs, hstage⟩ := Diamond.prepare_object hstart
  have hlast := hstage.note (.answered 0 (.error .stackOverflow))
  have hperform : (Move.prepare 0).perform Diamond.paths (Diamond.failing.prepare Diamond.paths 3)
      ⟨Registry.after Diamond.paths Diamond.requests, past⟩ =
        .ok () (s.note (.answered 0 (.error .stackOverflow))) := by
    rw [Move.perform, bind_of_ok (getThe_registry _), if_pos (ClassTable.lt_of_class? hstart.classObject),
      bind_of_ok hs]
    rfl
  have hchain : 0 ∈ (s.note (.answered 0 (.error .stackOverflow))).registry.table.chain 3 := by
    refine ClassTable.mem_chain.2 (.inr ⟨0, ?_, ClassTable.mem_chain_self 0⟩)
    rw [ClassTable.superOf?_of_class? hlast.classC]
    rfl
  have hdone := h 3 Diamond.moves _ _ 3 Diamond.c (hloads.trans ((bind_of_ok hperform).trans rfl))
    hlast.classC rfl (initializeClass_of_running (.inr hlast.stateC)) 0 hchain
  cases hlast.stateObject.symm.trans hdone

end Jvm.Linking
