import Mathlib
import Jvm.Proofs.Linking.Identity
import Jvm.Proofs.Linking.Matching
import Jvm.Proofs.Linking.Order
import Jvm.Proofs.Linking.Sessions

/-! # What is known about references

A reference that has been resolved is not looked up again. `Linker.Repeatable` says of a lookup that it would
come to the same in every registry that has grown since, and change nothing there: what loading has come to
is recorded, and the classes that it has found stay as they are (`repeatable_lookUp`). So what a registry
knows about references is always what looking them up comes to (`recalls_after`), and resolving a reference is
looking it up (`outcome_resolve`). -/

namespace Jvm.Linking

open ClassFile Assembly

variable {paths : ClassPaths} {α β : Type} {r r' : Registry}

/-! ## References -/

namespace Resolution

/-- What the references of a constant pool lead to. -/
inductive Kind where
  | classes
  | fields
  | methods
deriving DecidableEq

namespace Kind

/-- What a reference is resolved to. -/
abbrev Result : Kind → Type
  | classes => ClassId
  | fields => ClassTable.ResolvedField
  | methods => Method

/-- Where it is kept. -/
def place : (k : Kind) → Place k.Result
  | classes => Resolution.classes
  | fields => Resolution.fields
  | methods => Resolution.methods

/-- Finds what is at a pool index of a class. -/
def find (paths : ClassPaths) : (k : Kind) → LinkedClass → UInt16 → Linker k.Result
  | classes => findClass paths
  | fields => findField paths
  | methods => findMethod paths

/-- Looks up what is at a pool index of a class, whatever is known about it. -/
def lookUp (paths : ClassPaths) (k : Kind) (source : ClassId) (index : UInt16) : Linker k.Result := do
  k.find paths (← Linker.getClass source) index

/-- Resolves what is at a pool index of a class. -/
def resolve (paths : ClassPaths) : (k : Kind) → ClassId → UInt16 → Linker k.Result
  | classes => resolveClass paths
  | fields => resolveField paths
  | methods => resolveMethod paths

theorem resolve_eq (k : Kind) (source : ClassId) (index : UInt16) : k.resolve paths source index =
    remembered k.place source index (k.lookUp paths source index) := by
  cases k <;> rfl

/-- The request for what is at a pool index of a class. -/
def request : Kind → ClassId → UInt16 → Request
  | classes => .resolveClass
  | fields => .resolveField
  | methods => .resolveMethod

theorem apply_request (k : Kind) (source : ClassId) (index : UInt16) :
    (k.request source index).apply paths r = (k.resolve paths source index).leads r := by
  cases k <;> rfl

theorem get_modify (k : Kind) (f : Cache (Except Fault k.Result) → Cache (Except Fault k.Result))
    (s : ClassState) : k.place.get (k.place.modify f s) = f (k.place.get s) := by
  cases k <;> rfl

/-- What is known about other references does not change. -/
theorem get_modify_of_ne {k k' : Kind} (h : k' ≠ k)
    (f : Cache (Except Fault k.Result) → Cache (Except Fault k.Result)) (s : ClassState) :
    k'.place.get (k.place.modify f s) = k'.place.get s := by
  cases k <;> cases k' <;> first | rfl | exact absurd rfl h

theorem get_start (k : Kind) (init : InitState) (statics : Array Value) (n : Nat) :
    k.place.get (.start init statics n) = .empty n := by
  cases k <;> rfl

end Kind

end Resolution

/-! ## Lookups that are repeated -/

namespace Linker

theorem outcome_ofExcept (o : Except Fault α) (r : Registry) : (ofExcept o).outcome r = o := by
  cases o <;> rfl

theorem leads_ofExcept (o : Except Fault α) (r : Registry) : (ofExcept o).leads r = r := by
  cases o <;> rfl

theorem attempt_eq (x : Linker α) (r : Registry) : attempt x r = .ok (x.outcome r) (x.leads r) := by
  rw [attempt, outcome, leads]
  cases x r <;> rfl

variable {x y : Linker α} {g : α → Linker β}

theorem leads_congr (h : x r = y r) : x.leads r = y.leads r ∧ x.outcome r = y.outcome r := by
  rw [leads, leads, outcome, outcome, h]
  exact ⟨rfl, rfl⟩

theorem leads_of_ok {a : α} (h : x r = .ok a r') : x.leads r = r' ∧ x.outcome r = .ok a := by
  rw [leads, outcome, h]
  exact ⟨rfl, rfl⟩

theorem leads_of_error {e : Fault} (h : x r = .error e r') : x.leads r = r' ∧ x.outcome r = .error e := by
  rw [leads, outcome, h]
  exact ⟨rfl, rfl⟩

theorem eq_ok_of_outcome {a : α} (h : x.outcome r = .ok a) : x r = .ok a (x.leads r) := by
  rw [outcome] at h
  rw [leads]
  cases hx : x r with
  | ok b r' =>
    rw [hx] at h
    cases h
    rfl
  | error e r' =>
    rw [hx] at h
    cases h

theorem leads_bind_of_ok {a : α} (h : x r = .ok a r') :
    (x >>= g).leads r = (g a).leads r' ∧ (x >>= g).outcome r = (g a).outcome r' := by
  rw [leads, leads, outcome, outcome, bind_of_ok h]
  exact ⟨rfl, rfl⟩

end Linker

/-- Whether a computation links classes only, and comes to the same again later on. -/
structure Linker.Repeatable (x : Linker α) (r : Registry) : Prop where
  links : r.LinksTo (x.leads r)
  wellFormed : (x.leads r).WellFormed
  grows : r.Extends (x.leads r)
  again : ∀ r', (x.leads r).Extends r' → x r' = ofExcept (x.outcome r) r'

namespace Linker

theorem Repeatable.of_ok {x : Linker α} (h : x.Repeatable r) {a : α} (hx : x r = .ok a r') :
    r.LinksTo r' ∧ r'.WellFormed ∧ r.Extends r' ∧ ∀ s, r'.Extends s → x s = .ok a s := by
  obtain ⟨hleads, houtcome⟩ := leads_of_ok hx
  refine ⟨hleads ▸ h.links, hleads ▸ h.wellFormed, hleads ▸ h.grows, fun s hs => ?_⟩
  rw [h.again s (hleads ▸ hs), houtcome]
  rfl

theorem Repeatable.of_error {x : Linker α} (h : x.Repeatable r) {e : Fault} (hx : x r = .error e r') :
    r.LinksTo r' ∧ r'.WellFormed ∧ r.Extends r' ∧ ∀ s, r'.Extends s → x s = .error e s := by
  obtain ⟨hleads, houtcome⟩ := leads_of_error hx
  refine ⟨hleads ▸ h.links, hleads ▸ h.wellFormed, hleads ▸ h.grows, fun s hs => ?_⟩
  rw [h.again s (hleads ▸ hs), houtcome]
  rfl

theorem repeatable_ofExcept (hr : r.WellFormed) (o : Except Fault α) : (ofExcept o).Repeatable r := by
  cases o <;> exact ⟨.refl _, hr, ⟨.refl _, fun _ _ => id⟩, fun _ _ => rfl⟩

theorem repeatable_pure (hr : r.WellFormed) (a : α) : (pure a : Linker α).Repeatable r :=
  repeatable_ofExcept hr (.ok a)

theorem repeatable_throw (hr : r.WellFormed) (e : Fault) : (throw e : Linker α).Repeatable r :=
  repeatable_ofExcept hr (.error e)

theorem Repeatable.bind {x : Linker α} {g : α → Linker β} (hx : x.Repeatable r)
    (hg : ∀ a r', x r = .ok a r' → r.Extends r' → r'.WellFormed → (g a).Repeatable r') :
    (x >>= g).Repeatable r := by
  rcases h : x r with ⟨a, r₁⟩ | ⟨e, r₁⟩
  · obtain ⟨hlinks, hwell, hgrows, hagain⟩ := hx.of_ok h
    have hga := hg a r₁ h hgrows hwell
    obtain ⟨hleads, houtcome⟩ := leads_bind_of_ok (g := g) h
    refine ⟨hleads ▸ hlinks.trans hga.links, hleads ▸ hga.wellFormed, hleads ▸ hgrows.trans hga.grows,
      fun r' hr' => ?_⟩
    rw [hleads] at hr'
    rw [bind_of_ok (hagain r' (hga.grows.trans hr')), hga.again r' hr', houtcome]
  · obtain ⟨hlinks, hwell, hgrows, hagain⟩ := hx.of_error h
    obtain ⟨hleads, houtcome⟩ := leads_of_error (bind_of_error (g := g) h)
    refine ⟨hleads ▸ hlinks, hleads ▸ hwell, hleads ▸ hgrows, fun r' hr' => ?_⟩
    rw [bind_of_error (hagain r' (hleads ▸ hr')), houtcome]
    rfl

/-- What is read from the registry is the same later on. -/
theorem Repeatable.of_eq {x y : Linker α} (hy : y.Repeatable r) (h : ∀ r', r.Extends r' → x r' = y r') :
    x.Repeatable r := by
  obtain ⟨hleads, houtcome⟩ := leads_congr (h r ⟨.refl _, fun _ _ => id⟩)
  refine ⟨hleads ▸ hy.links, hleads ▸ hy.wellFormed, hleads ▸ hy.grows, fun r' hr' => ?_⟩
  rw [h r' (hy.grows.trans (hleads ▸ hr')), hy.again r' (hleads ▸ hr'), houtcome]

theorem repeatable_get {g : Registry → Linker α} {y : Linker α} (hy : y.Repeatable r)
    (h : ∀ r', r.Extends r' → g r' r' = y r') : (get >>= g).Repeatable r :=
  hy.of_eq fun r' hr' => (bind_of_ok (get_eq r')).trans (h r' hr')

theorem repeatable_getClass {id : ClassId} {c : LinkedClass} {g : LinkedClass → Linker α}
    (hc : r.table.class? id = some c) (hg : (g c).Repeatable r) : (getClass id >>= g).Repeatable r :=
  hg.of_eq fun _ hr' => bind_of_ok (getClass_of_class? (hr'.table id c hc))

end Linker

open Linker

/-- Loading comes to what is recorded from then on. -/
theorem repeatable_loadClass (hr : r.WellFormed) (loader : Loader) (name : String) :
    (loadClass paths loader name).Repeatable r := by
  obtain ⟨hwell, hgrows⟩ := ((admits_persists paths).load loader name r).leads hr
  refine ⟨(builds_load paths [] loader name r).leads, hwell, hgrows, fun r' hr' => ?_⟩
  exact load_of_knows ((knows_of_load hr.linked (attempt_eq ..)).mono hr')

/-- A class that has been loaded is there. -/
theorem exists_of_loadClass (hr : r.WellFormed) {loader : Loader} {name : String} {id : ClassId}
    (h : loadClass paths loader name r = .ok id r') : ∃ c, r'.table.class? id = some c :=
  let ⟨c, hc, _⟩ := ((meets_load paths [] loader name hr.linked).of_eq_ok h).2
  ⟨c, hc⟩

namespace Resolution

theorem repeatable_findClass (hr : r.WellFormed) (c : LinkedClass) (index : UInt16) :
    (findClass paths c index).Repeatable r :=
  (repeatable_ofExcept hr _).bind fun name _ _ _ hr₁ => repeatable_loadClass hr₁ c.loader name

theorem repeatable_findField (hr : r.WellFormed) (c : LinkedClass) (index : UInt16) :
    (findField paths c index).Repeatable r := by
  refine (repeatable_ofExcept hr _).bind fun m r₁ _ _ hr₁ => ?_
  refine (repeatable_loadClass hr₁ c.loader m.owner).bind fun id r₂ hload _ hr₂ => ?_
  obtain ⟨d, hd⟩ := exists_of_loadClass hr₁ hload
  rcases hfield : r₂.table.field? id m.name m.descriptor with _ | f
  · refine repeatable_get (repeatable_throw hr₂ (.noSuchField (m.owner ++ "." ++ m.name ++ ":" ++
      m.descriptor))) fun r' hr' => ?_
    rw [hr'.table.field?_eq hr₂.built hd, hfield]
  · refine repeatable_get (repeatable_pure hr₂ f) fun r' hr' => ?_
    rw [hr'.table.field?_eq hr₂.built hd, hfield]

theorem repeatable_findInterfaceMethod (hr : r.WellFormed) {id : ClassId} {c : LinkedClass}
    (hc : r.table.class? id = some c) (n d : String) :
    (findInterfaceMethod paths id n d).Repeatable r := by
  rcases hdeclared : r.table.declaredMethod? id n d with _ | m
  · have hobject : Linker.Repeatable (do
        let object ← loadClass paths .boot objectName
        let table := (← get).table
        let m := (table.declaredMethod? object n d).filter fun m => !m.isStatic && !m.isPrivate
        return m.or (table.interfaceMethod? id n d)) r := by
      refine (repeatable_loadClass hr .boot objectName).bind fun object r₁ hload hr₁ hwell => ?_
      obtain ⟨o, ho⟩ := exists_of_loadClass hr hload
      refine repeatable_get (repeatable_pure hwell (((r₁.table.declaredMethod? object n d).filter
        fun m => !m.isStatic && !m.isPrivate).or (r₁.table.interfaceMethod? id n d))) fun r' hr' => ?_
      rw [hr'.table.declaredMethod?_eq hwell.built ho,
        hr'.table.interfaceMethod?_eq hwell.built (hr₁.table id c hc)]
    refine repeatable_get hobject fun r' hr' => ?_
    rw [hr'.table.declaredMethod?_eq hr.built hc, hdeclared]
  · refine repeatable_get (repeatable_pure hr (some m)) fun r' hr' => ?_
    rw [hr'.table.declaredMethod?_eq hr.built hc, hdeclared]

theorem repeatable_findMethodIn (hr : r.WellFormed) {id : ClassId} {c : LinkedClass}
    (hc : r.table.class? id = some c) (inInterface : Bool) (m : Member) :
    (findMethodIn paths id inInterface m).Repeatable r := by
  refine repeatable_getClass hc ?_
  split
  · exact repeatable_throw hr _
  · exact repeatable_throw hr _
  · exact repeatable_findInterfaceMethod hr hc m.name m.descriptor
  · refine repeatable_get (repeatable_pure hr (r.table.method? id m.name m.descriptor)) fun r' hr' => ?_
    rw [hr'.table.method?_eq hr.built hc]

theorem repeatable_findMethod (hr : r.WellFormed) (c : LinkedClass) (index : UInt16) :
    (findMethod paths c index).Repeatable r := by
  refine (repeatable_ofExcept hr _).bind fun constant r₁ _ _ hr₁ => ?_
  refine (repeatable_ofExcept hr₁ _).bind fun m r₂ _ _ hr₂ => ?_
  refine (repeatable_loadClass hr₂ c.loader m.owner).bind fun id r₃ hload _ hr₃ => ?_
  obtain ⟨d, hd⟩ := exists_of_loadClass hr₂ hload
  refine (repeatable_findMethodIn hr₃ hd _ m).bind fun method r₄ _ _ hr₄ => ?_
  split
  · exact repeatable_pure hr₄ _
  · exact repeatable_throw hr₄ _

theorem Kind.repeatable_find (k : Kind) (hr : r.WellFormed) (c : LinkedClass) (index : UInt16) :
    (k.find paths c index).Repeatable r := by
  cases k with
  | classes => exact repeatable_findClass hr c index
  | fields => exact repeatable_findField hr c index
  | methods => exact repeatable_findMethod hr c index

/-- **Looking a reference up comes to the same later on.** -/
theorem Kind.repeatable_lookUp (k : Kind) (hr : r.WellFormed) {source : ClassId} {c : LinkedClass}
    (hc : r.table.class? source = some c) (index : UInt16) : (k.lookUp paths source index).Repeatable r :=
  repeatable_getClass hc (k.repeatable_find hr c index)

end Resolution

/-! ## What is kept -/

open Resolution (Kind)

variable {source : ClassId} {index : UInt16} {k : Kind}

namespace Registry

/-- What a registry knows about a reference of a class. -/
def known? (r : Registry) (k : Kind) (source : ClassId) (index : UInt16) : Option (Except Fault k.Result) :=
  (r.state? source).bind fun s => (k.place.get s).find? index

/-- Whether what is known about references is what looking them up comes to, now and later on. -/
def Recalls (paths : ClassPaths) (r : Registry) : Prop :=
  ∀ (k : Kind) source index outcome, r.known? k source index = some outcome →
    ∀ r', r.Extends r' → k.lookUp paths source index r' = Linker.ofExcept outcome r'

theorem recalls_empty : Registry.empty.Recalls paths := fun k source index outcome h => by
  simp [known?, state?, empty] at h

/-- As long as no more is known, it stays right. -/
theorem Recalls.mono (h : r.Recalls paths) (hr : r.Extends r')
    (hknown : ∀ (k : Kind) source index outcome, r'.known? k source index = some outcome →
      r.known? k source index = some outcome) : r'.Recalls paths :=
  fun k source index outcome ho s hs =>
    h k source index outcome (hknown k source index outcome ho) s (hr.trans hs)

/-- Nothing is known about the references of new classes. -/
theorem LinksTo.known?_eq (h : r.LinksTo r') (hr : r.WellFormed) {outcome : Except Fault k.Result}
    (hknown : r'.known? k source index = some outcome) : r.known? k source index = some outcome := by
  obtain ⟨s', hs', hfind⟩ := Option.bind_eq_some_iff.1 hknown
  cases hs : r.state? source with
  | some s =>
    obtain rfl := Option.some.inj (hs'.symm.trans (h.state? hs))
    rw [known?, hs]
    exact hfind
  | none =>
    obtain ⟨hsize, hstarted⟩ := h.started hr.linked.states
    obtain ⟨c, hc⟩ : ∃ c, r'.table.class? source = some c :=
      ClassTable.class?_of_lt (hsize ▸ (Array.getElem?_eq_some_iff.1 hs').1)
    rw [(hstarted source c s' hs hc hs').2, k.get_start, find?_empty] at hfind
    cases hfind

theorem extends_modifyState (r : Registry) (id : ClassId) (change : ClassState → ClassState) :
    r.Extends (r.modifyState id change) :=
  ⟨.refl _, fun _ _ h => h⟩

end Registry

theorem Linker.Repeatable.recalls {x : Linker α} (hx : x.Repeatable r) (hr : r.WellFormed)
    (h : r.Recalls paths) : (x.leads r).Recalls paths :=
  h.mono hx.grows fun _ _ _ _ => hx.links.known?_eq hr

/-- What is asked of a class that is not there fails. -/
theorem leads_of_no_class {id : ClassId} {g : LinkedClass → Linker α} (h : r.table.class? id = none) :
    (Linker.getClass id >>= g).leads r = r := by
  have hget : Linker.getClass id r = .error (.internal ("no class numbered " ++ toString id)) r := by
    rw [Linker.getClass, bind_of_ok (get_eq r), show r.class? id = none from h]
    rfl
  rw [Linker.leads, bind_of_error hget]

namespace Resolution

/-- A reference that is known is not looked up. -/
theorem Kind.resolve_of_known {outcome : Except Fault k.Result} (h : r.known? k source index = some outcome) :
    k.resolve paths source index r = Linker.ofExcept outcome r := by
  have hknown : ((r.state? source).bind fun s => (k.place.get s).find? index) = some outcome := h
  rw [k.resolve_eq, remembered, bind_of_ok (get_eq r), hknown]

/-- Otherwise it is looked up, and what this comes to is kept. -/
theorem Kind.resolve_of_unknown (paths : ClassPaths) (h : r.known? k source index = none) :
    k.resolve paths source index r = Linker.ofExcept ((k.lookUp paths source index).outcome r)
      (((k.lookUp paths source index).leads r).modifyState source
        (k.place.modify (·.record index ((k.lookUp paths source index).outcome r)))) := by
  have hknown : ((r.state? source).bind fun s => (k.place.get s).find? index) = none := h
  rw [k.resolve_eq, remembered, bind_of_ok (get_eq r), hknown]
  exact bind_of_ok (Linker.attempt_eq ..)

end Resolution

/-- Whether two registries have the same classes, and loading has come to the same. -/
structure Registry.SameClasses (r r' : Registry) : Prop where
  table : r.table = r'.table
  loaded : r.loaded = r'.loaded

/-- Resolving a reference comes to what looking it up comes to, and loads the same classes. -/
theorem Registry.Recalls.resolve (h : r.Recalls paths) (k : Kind) (source : ClassId) (index : UInt16) :
    (k.resolve paths source index).outcome r = (k.lookUp paths source index).outcome r ∧
      ((k.resolve paths source index).leads r).SameClasses ((k.lookUp paths source index).leads r) := by
  cases hknown : r.known? k source index with
  | some outcome =>
    have hagain := h k source index outcome hknown r ⟨.refl _, fun _ _ => id⟩
    rw [Linker.outcome, Linker.outcome, leads, leads, Kind.resolve_of_known hknown, hagain]
    exact ⟨rfl, rfl, rfl⟩
  | none =>
    have hrun := Kind.resolve_of_unknown paths hknown
    generalize (k.lookUp paths source index).outcome r = o at hrun ⊢
    rw [Linker.outcome, leads, hrun]
    cases o <;> exact ⟨rfl, rfl, rfl⟩

/-- What looking a reference up comes to may be kept. -/
theorem Registry.Recalls.record (h : r.Recalls paths) {outcome : Except Fault k.Result}
    (ho : ∀ s, r.state? source = some s → ∀ r', r.Extends r' →
      k.lookUp paths source index r' = Linker.ofExcept outcome r') :
    (r.modifyState source (k.place.modify (·.record index outcome))).Recalls paths := by
  intro k' source' index' outcome' hknown r' hr'
  have hgrows : r.Extends r' := (extends_modifyState ..).trans hr'
  obtain ⟨s', hs', hfind⟩ := Option.bind_eq_some_iff.1 hknown
  obtain ⟨s, hs, rfl | ⟨rfl, rfl⟩⟩ := state?_modifyState hs'
  · exact h k' source' index' outcome' (by rw [known?, hs]; exact hfind) r' hgrows
  · by_cases hk : k' = k
    · subst hk
      rw [Kind.get_modify] at hfind
      rcases find?_record hfind with hfind | ⟨rfl, rfl⟩
      · exact h k' source' index' outcome' (by rw [known?, hs]; exact hfind) r' hgrows
      · exact ho s hs r' hgrows
    · rw [Kind.get_modify_of_ne hk] at hfind
      exact h k' source' index' outcome' (by rw [known?, hs]; exact hfind) r' hgrows

/-- What becomes known by resolving a reference is right. -/
theorem Registry.Recalls.leads_resolve (h : r.Recalls paths) (hr : r.WellFormed) (k : Kind) (source : ClassId)
    (index : UInt16) : ((k.resolve paths source index).leads r).Recalls paths := by
  cases hknown : r.known? k source index with
  | some outcome =>
    rw [leads, Kind.resolve_of_known hknown]
    cases outcome <;> exact h
  | none =>
    have hleads : (k.resolve paths source index).leads r = ((k.lookUp paths source index).leads r).modifyState
        source (k.place.modify (·.record index ((k.lookUp paths source index).outcome r))) := by
      rw [leads, Kind.resolve_of_unknown paths hknown]
      cases (k.lookUp paths source index).outcome r <;> rfl
    rw [hleads]
    cases hc : r.table.class? source with
    | none =>
      rw [show (k.lookUp paths source index).leads r = r from leads_of_no_class hc]
      refine h.record fun s hs => ?_
      obtain ⟨c, hc'⟩ : ∃ c, r.table.class? source = some c :=
        ClassTable.class?_of_lt (hr.linked.states ▸ (Array.getElem?_eq_some_iff.1 hs).1)
      rw [hc] at hc'
      cases hc'
    | some c =>
      have hx : (k.lookUp paths source index).Repeatable r := k.repeatable_lookUp hr hc index
      exact (hx.recalls hr h).record fun _ _ => hx.again

/-! ## Requests -/

/-- Whether a request leaves alone what has been loaded, and what is known about references apart from the
one that it resolves. -/
def Request.Transparent : Request → Prop
  | .update _ change => ∀ (k : Kind) (s : ClassState), k.place.get (change s) = k.place.get s
  | .teardown _ => False
  | _ => True

theorem Request.Transparent.ne_teardown {q : Request} (h : q.Transparent) (held : List ClassId) :
    q ≠ .teardown held := by
  rintro rfl
  exact h

/-- A change that does not touch what is known about references. -/
theorem known?_modifyState {id : ClassId} {change : ClassState → ClassState}
    (hchange : ∀ (k : Kind) (s : ClassState), k.place.get (change s) = k.place.get s)
    {outcome : Except Fault k.Result} (h : (r.modifyState id change).known? k source index = some outcome) :
    r.known? k source index = some outcome := by
  obtain ⟨s', hs', hfind⟩ := Option.bind_eq_some_iff.1 h
  obtain ⟨s, hs, rfl | ⟨rfl, rfl⟩⟩ := Registry.state?_modifyState hs'
  · rw [Registry.known?, hs]
    exact hfind
  · rw [hchange] at hfind
    rw [Registry.known?, hs]
    exact hfind

/-- What is known about references stays right whatever is asked. -/
theorem recalls_apply (h : r.Recalls paths) (hr : r.WellFormed) {q : Request} (hq : q.Transparent) :
    (q.apply paths r).Recalls paths := by
  cases q with
  | load loader name => exact (repeatable_loadClass hr loader name).recalls hr h
  | resolveClass source index => exact h.leads_resolve hr .classes source index
  | resolveField source index => exact h.leads_resolve hr .fields source index
  | resolveMethod source index => exact h.leads_resolve hr .methods source index
  | arrayClassOf component =>
    have hload : ∀ c, (loadClass paths c.loader (arrayNameOf c)).Repeatable r := fun c =>
      repeatable_loadClass hr c.loader (arrayNameOf c)
    cases hc : r.table.class? component with
    | none => rwa [Request.apply, arrayClassOf, leads_of_no_class hc]
    | some c => exact (repeatable_getClass hc (hload c)).recalls hr h
  | primitiveArrayClass element => exact (repeatable_loadClass hr .boot _).recalls hr h
  | update id change =>
    exact h.mono (Registry.extends_modifyState r id change) fun _ _ _ _ => known?_modifyState hq
  | intern text object => exact h.mono ⟨.refl _, fun _ _ h => h⟩ fun _ _ _ _ h => h
  | teardown held => exact hq.elim

end Jvm.Linking
