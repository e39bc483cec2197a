import Mathlib
import Jvm.Proofs.Linking.Sessions

/-! # The order of initialization

Whatever a driver does, things happen in an orderly way. `Session.Sound` is what holds between any two events,
`Session.Advances` what a part of a session does to the activations that it is nested in: it lets the running
ones run, and ends those that it begins. -/

namespace Jvm.Linking

open ClassFile

/-! ## Chains and states -/

namespace ClassTable

variable {t t' : ClassTable} {id s above : ClassId} {c : LinkedClass}

theorem Within.superOf?_eq (h : t.Within t') (hc : t.class? id = some c) :
    t'.superOf? id = t.superOf? id := by
  rw [superOf?_of_class? hc, superOf?_of_class? (h id c hc)]

theorem exists_of_superOf? (hs : t.superOf? id = some s) : ∃ c, t.class? s = some c := by
  obtain ⟨d, hd, -⟩ := Option.bind_eq_some_iff.1 hs
  exact class?_of_lt ((superOf?_lt hs).trans (lt_of_class? hd))

/-- A class has the same superclasses however many classes are entered behind it. -/
theorem Within.mem_chain_iff (h : t.Within t') (hc : t.class? id = some c) :
    above ∈ t'.chain id ↔ above ∈ t.chain id := by
  induction id using Nat.strongRecOn generalizing c with
  | ind id ih =>
    rw [ClassTable.mem_chain, ClassTable.mem_chain, h.superOf?_eq hc]
    refine or_congr_right (exists_congr fun s => and_congr_right fun hs => ?_)
    obtain ⟨d, hd⟩ := exists_of_superOf? hs
    exact ih s (superOf?_lt hs) hd

end ClassTable

/-- How far a class may be initialized later on. -/
inductive InitState.Precedes : InitState → InitState → Prop
  | refl (state : InitState) : Precedes state state
  | linked (state : InitState) : Precedes .linked state
  | initializing {state : InitState} (h : state ≠ .linked) : Precedes .initializing state

namespace InitState

variable {a b c : InitState}

theorem Moves.precedes (h : a.Moves b) : a.Precedes b := by
  cases h with
  | stays => exact .refl _
  | begins => exact .linked _
  | succeeds => exact .initializing (by simp)
  | fails => exact .initializing (by simp)

theorem Precedes.ne_linked (h : a.Precedes b) (ha : a ≠ .linked) : b ≠ .linked := by
  cases h with
  | refl => exact ha
  | linked => exact absurd rfl ha
  | initializing hb => exact hb

theorem Precedes.trans (h₁ : a.Precedes b) (h₂ : b.Precedes c) : a.Precedes c := by
  cases h₁ with
  | refl => exact h₂
  | linked => exact .linked c
  | initializing hb => exact .initializing (h₂.ne_linked hb)

theorem Precedes.eq_of_done (h : a.Precedes b) (hl : a ≠ .linked) (hi : a ≠ .initializing) : b = a := by
  cases h with
  | refl => rfl
  | linked => exact absurd rfl hl
  | initializing => exact absurd rfl hi

end InitState

namespace Registry

variable {r r' : Registry} {id : ClassId} {c : LinkedClass}

/-- Setting how far a class is initialized concerns no other class. -/
theorem initState_setInit (hr : r.Linked) (hc : r.table.class? id = some c) (state : InitState)
    (i : ClassId) : (r.setInit id state).initState i = if i = id then state else r.initState i := by
  cases hs : r.state? i with
  | some s =>
    rw [setInit, initState_of_state? (exists_of_state? _ hs), initState_of_state? hs]
    split <;> rfl
  | none =>
    have hne : i ≠ id := by
      rintro rfl
      obtain ⟨s, hs'⟩ := hr.exists_state hc
      rw [hs'] at hs
      cases hs
    have hnone : (r.setInit id state).state? i = none := by
      rw [setInit, state?, modifyState, Array.getElem?_modify, show r.states[i]? = none from hs]
      simp
    rw [if_neg hne, initState, initState, hnone, hs]

theorem WellFormed.setInit (hr : r.WellFormed) (id : ClassId) (state : InitState) :
    (r.setInit id state).WellFormed :=
  hr.congr (by simp [Registry.setInit, modifyState]) rfl rfl

/-- How far the classes of a registry are initialized, and how far later on. -/
structure Precedes (r r' : Registry) : Prop extends Extends r r' where
  states : ∀ id, (r.initState id).Precedes (r'.initState id)

theorem Precedes.refl (r : Registry) : r.Precedes r := ⟨⟨.refl _, fun _ _ => id⟩, fun _ => .refl _⟩

theorem Precedes.trans {r₁ r₂ r₃ : Registry} (h₁ : r₁.Precedes r₂) (h₂ : r₂.Precedes r₃) :
    r₁.Precedes r₃ :=
  ⟨h₁.toExtends.trans h₂.toExtends, fun id => (h₁.states id).trans (h₂.states id)⟩

theorem Lasts.precedes (h : r.Lasts r') (hr : r.WellFormed) : r.Precedes r' where
  toExtends := h.toExtends
  states id := by
    cases hc : r.table.class? id with
    | some c => rw [h.states id c hc]; exact .refl _
    | none => rw [initState_of_class?_eq_none hr.linked hc]; exact .linked _

/-- A class is as far initialized as before, or it is a new array class. -/
theorem Lasts.initState_cases (h : r.Lasts r') (hr : r.WellFormed) (id : ClassId) :
    r'.initState id = r.initState id ∨ ∃ c, r'.table.class? id = some c ∧ c.isArray = true ∧
      r.initState id = .linked ∧ r'.initState id = .initialized := by
  cases hc : r.table.class? id with
  | some c => exact .inl (h.states id c hc)
  | none =>
    have hlinked := initState_of_class?_eq_none hr.linked hc
    cases hc' : r'.table.class? id with
    | none => exact .inl ((initState_of_class?_eq_none h.wellFormed.linked hc').trans hlinked.symm)
    | some c =>
      have hstart := h.fresh id c hc hc'
      rw [LinkedClass.startState] at hstart
      split at hstart
      · next harray => exact .inr ⟨c, rfl, harray, hlinked, hstart⟩
      · exact .inl (hstart.trans hlinked.symm)

theorem precedes_setInit (hr : r.WellFormed) (hc : r.table.class? id = some c) {state : InitState}
    (h : (r.initState id).Moves state) : r.Precedes (r.setInit id state) where
  toExtends := ⟨.refl _, fun _ _ h => h⟩
  states i := by
    rw [initState_setInit hr.linked hc]
    split
    · next heq => rw [heq]; exact h.precedes
    · exact .refl _

end Registry

/-! ## Superclasses that stay ready -/

section

variable {r r' : Registry} {past past' : List Event} {id above : ClassId} {c : LinkedClass}

theorem BeganWithin.mono (h : past <:+ past') (hbegan : BeganWithin past id above) :
    BeganWithin past' id above := by
  obtain ⟨r, r', hmem, hrest⟩ := hbegan
  exact ⟨r, r', h.subset hmem, hrest⟩

/-- A superclass that is ready for a class stays so, also if its own initialization fails. -/
theorem ReadyBelow.mono (hr : r.Precedes r') (hpast : past <:+ past') (hc : r.table.class? id = some c)
    (hmem : above ∈ r.table.chain id) (hne : above ≠ id) (h : ReadyBelow r past id above) :
    ReadyBelow r' past' id above := by
  have hlast := hr.states above
  cases h with
  | initialized h =>
    rw [h] at hlast
    exact .initialized (hlast.eq_of_done (by simp) (by simp))
  | enclosing h began =>
    rw [h] at hlast
    cases hstate : r'.initState above with
    | linked => rw [hstate] at hlast; exact absurd rfl (hlast.ne_linked (by simp))
    | initializing => exact .enclosing hstate (began.mono hpast)
    | initialized => exact .initialized hstate
    | failed e =>
      exact .failed ⟨e, id, hstate, ClassTable.mem_chain_self id, (hr.table.mem_chain_iff hc).2 hmem,
        Ne.symm hne, began.mono hpast⟩
  | failed h =>
    obtain ⟨e, below, h, mem, hbelow, hne', began⟩ := h
    rw [h] at hlast
    exact .failed ⟨e, below, hlast.eq_of_done (by simp) (by simp), (hr.table.mem_chain_iff hc).2 mem,
      hr.table.mem_chain hbelow, hne', began.mono hpast⟩

theorem SuperclassesReady.mono (hr : r.Precedes r') (hpast : past <:+ past')
    (hc : r.table.class? id = some c) (h : SuperclassesReady r past id) :
    SuperclassesReady r' past' id := by
  intro above hmem hne
  have hmem' := (hr.table.mem_chain_iff hc).1 hmem
  exact (h above hmem' hne).mono hr hpast hc hmem' hne

end

/-! ## What holds between events -/

/-- Whether an event is a step of the initialization of a class. -/
def Event.IsStep (id : ClassId) : Event → Prop
  | .constants i => i = id
  | .initializer i _ => i = id
  | _ => False

namespace Session

/-- Whether a class is one with instances or subclasses. -/
def IsOrdinary (s : Session) (id : ClassId) : Prop :=
  ∃ c, s.registry.table.class? id = some c ∧ c.kind = .ordinary

/-- Whether the superclasses of a class are ready for it. -/
def IsReady (s : Session) (id : ClassId) : Prop := SuperclassesReady s.registry s.past id

/-- What holds between any two events. -/
structure Sound (paths : ClassPaths) (s : Session) : Prop where
  orderly : Orderly paths s.registry s.past
  wellFormed : s.registry.WellFormed
  arrays : ∀ id c, s.registry.table.class? id = some c → c.isArray = true →
    s.registry.initState id = .initialized
  unbegun : ∀ id, s.registry.initState id = .linked → ∀ e ∈ s.past, ¬ e.IsStep id
  ready : ∀ id, s.IsOrdinary id → s.registry.initState id = .initialized → s.IsReady id

/-- Whether the superclasses of all classes whose initialization is running are ready, or are being
initialized, except for classes that wait for this. -/
def Settled (waiting : ClassId → Prop) (s : Session) : Prop :=
  ∀ id, s.IsOrdinary id → s.registry.initState id = .initializing → s.IsReady id ∨
    (∃ t, s.registry.table.superOf? id = some t ∧ s.registry.initState t = .initializing) ∨ waiting id

/-- What happens to a session within the activations that are running, except for the steps of some
classes. -/
structure Advances (except : ClassId → Prop) (s s' : Session) : Prop where
  past : s.past <:+ s'.past
  registry : s.registry.Precedes s'.registry
  held : ∀ id, s.registry.initState id ≠ .linked → s'.registry.initState id = s.registry.initState id
  quiet : ∀ id, ¬ except id → s.registry.initState id ≠ .linked →
    ∀ e ∈ s'.past, e.IsStep id → e ∈ s.past
  ended : ∀ id, s'.registry.initState id = .initializing → s.registry.initState id = .initializing
  within : ∀ id, (∀ c, s'.registry.table.class? id = some c → c.isArray = false) →
    s.registry.initState id = .linked → s'.registry.initState id ≠ .linked →
      ∀ t, s.registry.initState t = .initializing → BeganWithin s'.past id t

variable {paths : ClassPaths} {s s' s₁ s₂ : Session} {id : ClassId} {c : LinkedClass}
  {except waiting : ClassId → Prop}

theorem Advances.refl (s : Session) : s.Advances except s where
  past := List.suffix_rfl
  registry := .refl _
  held _ _ := rfl
  quiet _ _ _ _ he _ := he
  ended _ h := h
  within _ _ hlinked hne := absurd hlinked hne

theorem Advances.trans (h₁ : s.Advances except s₁) (h₂ : s₁.Advances except s₂) :
    s.Advances except s₂ where
  past := h₁.past.trans h₂.past
  registry := h₁.registry.trans h₂.registry
  held id h := (h₂.held id (by rw [h₁.held id h]; exact h)).trans (h₁.held id h)
  quiet id hexcept h e he hstep :=
    h₁.quiet id hexcept h e (h₂.quiet id hexcept (by rw [h₁.held id h]; exact h) e he hstep) hstep
  ended id h := h₁.ended id (h₂.ended id h)
  within id hclass hlinked hne t ht := by
    by_cases h : s₁.registry.initState id = .linked
    · refine h₂.within id hclass h hne t ?_
      rw [h₁.held t (by simp [ht]), ht]
    · exact (h₁.within id (fun d hd => hclass d (h₂.registry.table id d hd)) hlinked h t ht).mono h₂.past

theorem Advances.mono (h : s.Advances except s') (himp : ∀ id, except id → waiting id) :
    s.Advances waiting s' :=
  { h with quiet := fun id hid => h.quiet id fun hexcept => hid (himp id hexcept) }

/-- Classes that wait for something go on waiting. -/
theorem Settled.mono (h : s.Settled waiting) (hs : s.Sound paths) (hadv : s.Advances except s') :
    s'.Settled waiting := by
  rintro id ⟨c, hc, hkind⟩ hinit
  have hinit₀ := hadv.ended id hinit
  have hne : s.registry.initState id ≠ .linked := by simp [hinit₀]
  obtain ⟨d, hd⟩ := Registry.exists_of_initState hs.wellFormed.linked hne
  obtain rfl := Option.some.inj (hc.symm.trans (hadv.registry.table id d hd))
  rcases h id ⟨c, hd, hkind⟩ hinit₀ with hready | ⟨t, ht, hrunning⟩ | hwaiting
  · exact .inl (hready.mono hadv.registry hadv.past hd)
  · refine .inr (.inl ⟨t, (hadv.registry.table.superOf?_eq hd).trans ht, ?_⟩)
    rw [hadv.held t (by simp [hrunning]), hrunning]
  · exact .inr (.inr hwaiting)

/-! ### Single changes -/

/-- A request leaves all classes as far initialized as they are. -/
theorem Sound.request (hs : s.Sound paths) {r : Registry} (hchanges : s.registry.Changes paths r)
    (hlasts : s.registry.Lasts r) : (s.change r).Sound paths ∧ s.Advances except (s.change r) := by
  have hprecedes := hlasts.precedes hs.wellFormed
  have hstate := hlasts.initState_cases hs.wellFormed
  have hpast : s.past <:+ .changed s.registry r :: s.past := List.suffix_cons _ _
  refine ⟨⟨.changed hs.orderly hchanges, hlasts.wellFormed, fun id c hc harray => ?_,
    fun id hlinked e he hstep => ?_, fun id hid hinit => ?_⟩,
    ⟨hpast, hprecedes, fun id hne => ?_, fun id _ _ e he hstep => ?_, fun id hinit => ?_,
      fun id hclass hlinked hne t ht => ?_⟩⟩
  · cases hc₀ : s.registry.table.class? id with
    | some d =>
      obtain rfl := Option.some.inj (hc.symm.trans (hprecedes.table id d hc₀))
      exact (hlasts.states id c hc₀).trans (hs.arrays id c hc₀ harray)
    | none => exact (hlasts.fresh id c hc₀ hc).trans (if_pos harray)
  · have hlinked₀ : s.registry.initState id = .linked := by
      rcases hstate id with heq | ⟨-, -, -, h, -⟩
      exacts [heq.symm.trans hlinked, h]
    rcases List.mem_cons.1 he with rfl | he
    exacts [hstep, hs.unbegun id hlinked₀ e he hstep]
  · obtain ⟨c, hc, hkind⟩ := hid
    rcases hstate id with heq | ⟨d, hd, harray, -⟩
    · have hinit₀ : s.registry.initState id = .initialized := heq.symm.trans hinit
      have hne : s.registry.initState id ≠ .linked := by simp [hinit₀]
      obtain ⟨d, hd⟩ := Registry.exists_of_initState hs.wellFormed.linked hne
      obtain rfl := Option.some.inj (hc.symm.trans (hprecedes.table id d hd))
      exact (hs.ready id ⟨c, hd, hkind⟩ hinit₀).mono hprecedes hpast hd
    · obtain rfl := Option.some.inj (hc.symm.trans hd)
      simp [LinkedClass.isArray, LinkedClass.component?, hkind] at harray
  · rcases hstate id with heq | ⟨-, -, -, hlinked, -⟩
    exacts [heq, absurd hlinked hne]
  · rcases List.mem_cons.1 he with rfl | he
    exacts [hstep.elim, he]
  · rcases hstate id with heq | ⟨-, -, -, -, hdone⟩
    · exact heq.symm.trans hinit
    · cases hdone.symm.trans hinit
  · rcases hstate id with heq | ⟨c, hc, harray, -⟩
    · exact absurd (heq.trans hlinked) hne
    · rw [hclass c hc] at harray
      cases harray

/-- An event other than a change does nothing to the registry. -/
theorem Sound.note (hs : s.Sound paths) {e : Event} (horderly : Orderly paths s.registry (e :: s.past))
    (hstep : ∀ id, e.IsStep id → s.registry.initState id ≠ .linked) : (s.note e).Sound paths where
  orderly := horderly
  wellFormed := hs.wellFormed
  arrays := hs.arrays
  unbegun id hlinked e' he' hstep' := by
    rcases List.mem_cons.1 he' with rfl | he'
    · exact hstep id hstep' hlinked
    · exact hs.unbegun id hlinked e' he' hstep'
  ready id hid hinit := by
    obtain ⟨c, hc, hkind⟩ := hid
    exact (hs.ready id ⟨c, hc, hkind⟩ hinit).mono (.refl _) (List.suffix_cons _ _) hc

theorem advances_note {e : Event} (hstep : ∀ id, e.IsStep id → except id) :
    s.Advances except (s.note e) where
  past := List.suffix_cons _ _
  registry := .refl _
  held _ _ := rfl
  quiet id hexcept _ e' he' hstep' := by
    rcases List.mem_cons.1 he' with rfl | he'
    exacts [absurd (hstep id hstep') hexcept, he']
  ended _ h := h
  within _ _ hlinked hne := absurd hlinked hne

/-- A class gets on with its initialization; when it is initialized its superclasses have to be ready. -/
theorem Sound.setInit (hs : s.Sound paths) (hc : s.registry.table.class? id = some c)
    {state : InitState} (hmoves : (s.registry.initState id).Moves state)
    (hready : s.IsOrdinary id → state = .initialized → s.IsReady id) :
    (s.change (s.registry.setInit id state)).Sound paths := by
  have hstate := Registry.initState_setInit hs.wellFormed.linked hc state
  have hprecedes := Registry.precedes_setInit hs.wellFormed hc hmoves
  have hpast : s.past <:+ .changed s.registry (s.registry.setInit id state) :: s.past :=
    List.suffix_cons _ _
  refine ⟨.changed hs.orderly (.setInit hc hmoves), hs.wellFormed.setInit id state,
    fun i d hd harray => ?_, fun i hlinked e he hstep => ?_, fun i hi hinit => ?_⟩
  · have hinit := hs.arrays i d hd harray
    have hlast := hprecedes.states i
    rw [hinit] at hlast
    exact hlast.eq_of_done (by simp) (by simp)
  · have hlinked₀ : s.registry.initState i = .linked := by
      by_contra hne
      exact (hprecedes.states i).ne_linked hne hlinked
    rcases List.mem_cons.1 he with rfl | he
    · exact hstep
    · exact hs.unbegun i hlinked₀ e he hstep
  · obtain ⟨d, hd, hkind⟩ := hi
    by_cases hid : i = id
    · subst hid
      have heq := (hstate i).symm.trans hinit
      rw [if_pos rfl] at heq
      exact (hready ⟨d, hd, hkind⟩ heq).mono hprecedes hpast hd
    · have heq := (hstate i).symm.trans hinit
      rw [if_neg hid] at heq
      exact (hs.ready i ⟨d, hd, hkind⟩ heq).mono hprecedes hpast hd

/-- What happens while a class is being initialized, together with the change that ends its initialization,
happens within the activations that were running before. -/
theorem Advances.activation (hs : s.Sound paths) (hc : s.registry.table.class? id = some c)
    (hlinked : s.registry.initState id = .linked)
    (h : (s.change (s.registry.setInit id .initializing)).Advances (· = id) s') (hs' : s'.Sound paths)
    {state : InitState} (hmoves : (s'.registry.initState id).Moves state)
    (hne : state ≠ .initializing) :
    s.Advances except (s'.change (s'.registry.setInit id state)) := by
  have hc' := h.registry.table id c hc
  have hfirst := Registry.initState_setInit hs.wellFormed.linked hc .initializing
  have hlast := Registry.initState_setInit hs'.wellFormed.linked hc' state
  have hbegins := Registry.precedes_setInit hs.wellFormed hc (by rw [hlinked]; exact .begins)
  have hother : ∀ i, s.registry.initState i ≠ .linked → i ≠ id := by
    rintro i hi rfl
    exact hi hlinked
  have hpast : s.past <:+ s'.past := (List.suffix_cons _ _).trans h.past
  have hstarted : ∀ i, i ≠ id → (s.change (s.registry.setInit id .initializing)).registry.initState i =
      s.registry.initState i := fun i hi => (hfirst i).trans (if_neg hi)
  have hstopped : ∀ i, i ≠ id → (s'.change (s'.registry.setInit id state)).registry.initState i =
      s'.registry.initState i := fun i hi => (hlast i).trans (if_neg hi)
  refine ⟨hpast.trans (List.suffix_cons _ _),
    (hbegins.trans h.registry).trans (Registry.precedes_setInit hs'.wellFormed hc' hmoves),
    fun i hi => ?_, fun i _ hi e he hstep => ?_, fun i hi => ?_, fun i hclass hi hbegun t ht => ?_⟩
  · rw [hstopped i (hother i hi), h.held i (by rw [hstarted i (hother i hi)]; exact hi),
      hstarted i (hother i hi)]
  · rcases List.mem_cons.1 he with rfl | he
    · exact hstep.elim
    · have he := h.quiet i (hother i hi) (by rw [hstarted i (hother i hi)]; exact hi) e he hstep
      rcases List.mem_cons.1 he with rfl | he
      exacts [hstep.elim, he]
  · have hid : i ≠ id := by
      rintro rfl
      exact hne ((if_pos rfl).symm.trans ((hlast i).symm.trans hi))
    exact (hstarted i hid).symm.trans (h.ended i ((hstopped i hid).symm.trans hi))
  · have hrunning : t ≠ id := hother t (by simp [ht])
    refine BeganWithin.mono (List.suffix_cons _ _) ?_
    by_cases hid : i = id
    · subst hid
      exact ⟨s.registry, _, h.past.subset List.mem_cons_self, hi, (hfirst i).trans (if_pos rfl), ht⟩
    · exact h.within i hclass ((hstarted i hid).trans hi) (by rw [← hstopped i hid]; exact hbegun) t
        ((hstarted t hrunning).trans ht)

/-! ### Superclasses become ready -/

theorem Sound.isOrdinary_of_mem_chain (hs : s.Sound paths) (hid : s.IsOrdinary id) {above : ClassId}
    (h : above ∈ s.registry.table.chain id) : s.IsOrdinary above := by
  obtain ⟨c, hc, hkind⟩ := hid
  exact ClassTable.kind_of_mem_chain hs.wellFormed.built.tabled hc hkind h

/-- All superclasses of a class whose initialization has begun are initialized or being initialized, or
have failed after a class below was initialized from within. A class that waits for its superclass is not
among those below. -/
theorem Settled.above (hset : s.Settled (· = id)) (hs : s.Sound paths) {k : ClassId} (hk : k < id)
    (hord : s.IsOrdinary k)
    (hinit : s.registry.initState k = .initialized ∨ s.registry.initState k = .initializing)
    {above : ClassId} (hmem : above ∈ s.registry.table.chain k) :
    s.registry.initState above = .initialized ∨ s.registry.initState above = .initializing ∨
      FailedWithin s.registry s.past k above := by
  induction k using Nat.strongRecOn with
  | ind k ih =>
    by_cases hne : above = k
    · subst hne
      exact hinit.imp_right .inl
    · have hready : s.IsReady k ∨
          ∃ t, s.registry.table.superOf? k = some t ∧ s.registry.initState t = .initializing := by
        rcases hinit with hinit | hinit
        · exact .inl (hs.ready k hord hinit)
        · rcases hset k hord hinit with h | h | h
          exacts [.inl h, .inr h, absurd h hk.ne]
      rcases hready with hready | ⟨t, ht, hrunning⟩
      · cases hready above hmem hne with
        | initialized h => exact .inl h
        | enclosing h => exact .inr (.inl h)
        | failed h => exact .inr (.inr h)
      · rcases ClassTable.mem_chain.1 hmem with rfl | ⟨t', ht', hmem'⟩
        · exact absurd rfl hne
        · obtain rfl := Option.some.inj (ht.symm.trans ht')
          have hlt := ClassTable.superOf?_lt ht
          have hchain : ∀ i ∈ s.registry.table.chain t, i ∈ s.registry.table.chain k :=
            fun i hi => ClassTable.mem_chain.2 (.inr ⟨t, ht, hi⟩)
          rcases ih t hlt (hlt.trans hk)
            (hs.isOrdinary_of_mem_chain hord (hchain t (ClassTable.mem_chain_self t)))
            (.inr hrunning) hmem' with h | h | ⟨e, below, h, mem, hrest⟩
          exacts [.inl h, .inr (.inl h), .inr (.inr ⟨e, below, h, hchain below mem, hrest⟩)]

/-- A class is ready when its superclass is initialized, or was being initialized before. -/
theorem Settled.isReady (hset : s.Settled (· = id)) (hs : s.Sound paths) (hord : s.IsOrdinary id)
    {t : ClassId} (ht : s.registry.table.superOf? id = some t)
    (hinit : s.registry.initState t = .initialized ∨ s.registry.initState t = .initializing)
    (hbegan : ∀ i, i ≠ id → s.registry.initState i = .initializing → BeganWithin s.past id i) :
    s.IsReady id := by
  intro above hmem hne
  rcases ClassTable.mem_chain.1 hmem with rfl | ⟨t', ht', hmem'⟩
  · exact absurd rfl hne
  · obtain rfl := Option.some.inj (ht.symm.trans ht')
    have hchain : ∀ i ∈ s.registry.table.chain t, i ∈ s.registry.table.chain id :=
      fun i hi => ClassTable.mem_chain.2 (.inr ⟨t, ht, hi⟩)
    have hordt := hs.isOrdinary_of_mem_chain hord (hchain t (ClassTable.mem_chain_self t))
    rcases hset.above hs (ClassTable.superOf?_lt ht) hordt hinit hmem' with
      h | h | ⟨e, below, h, mem, hrest⟩
    · exact .initialized h
    · exact .enclosing h (hbegan above hne h)
    · exact .failed ⟨e, below, h, hchain below mem, hrest⟩

/-- A class that has become ready does not wait any more. -/
theorem Settled.of_isReady (hset : s.Settled (· = id)) (hready : s.IsOrdinary id → s.IsReady id) :
    s.Settled fun _ => False := by
  intro k hk hinit
  rcases hset k hk hinit with h | h | rfl
  exacts [.inl h, .inr (.inl h), .inl (hready hk)]

end Session

end Jvm.Linking
