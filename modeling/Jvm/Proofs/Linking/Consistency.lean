import Mathlib
import Jvm.Proofs.Linking.Loads
import Jvm.Proofs.Linking.Selection

/-! # Registries of running machines

A registry is consistent if loading has made its classes and what it knows about references are declared
methods and fields. Whatever a program asks of a consistent registry leaves it consistent, and does not touch
what its classes hold on to (`Resolves`); the static fields of a new class have the values that they start
with. The array classes that are found have the elements asked for. -/

namespace Jvm.Linking

/-- The methods that calls select from are declared by their owners. -/
theorem ClassTable.Built.exists_owner {t : ClassTable} (ht : t.Built) {id : ClassId} {c : LinkedClass}
    (hc : t.class? id = some c) {m : Method} (hm : m ∈ c.vtable) :
    ∃ d, t.class? m.owner = some d ∧ m ∈ d.methods := by
  have hvirtual : c.virtual? m.name m.descriptor = some m :=
    (ht.tabled id c hc).indexed.method?_eq_some.2 ⟨hm, rfl, rfl⟩
  rw [← ClassTable.selected?_of_class? hc] at hvirtual
  obtain ⟨hdeclared, -⟩ := (ClassTable.obtains_of_selected? ht.tabled hvirtual).owner ht.tabled
  obtain ⟨d, hd, hselectable⟩ := Option.bind_eq_some_iff.1 hdeclared
  exact ⟨d, hd, List.mem_of_find?_eq_some hselectable⟩

namespace Registry

/-- Whether loading has made the classes of a registry. -/
structure WellFormed (r : Registry) : Prop where
  linked : r.Linked
  built : r.table.Built

theorem wellFormed_empty : Registry.empty.WellFormed := ⟨linked_empty, .empty⟩

/-- Whether a registry is one that loading and resolving lead to. -/
structure Consistent (r : Registry) : Prop where
  linked : r.Linked
  built : r.table.Built
  methods : ∀ id s (index : UInt16) m, r.state? id = some s →
    s.methodRefs.find? index = some (.ok m) → r.table.Declares m
  fields : ∀ id s (index : UInt16) f, r.state? id = some s →
    s.fieldRefs.find? index = some (.ok f) → r.table.DeclaresField f

/-- Whether a class is there, and some values are those that its static fields start with. -/
def StartsWith (r : Registry) (id : ClassId) (statics : Array Value) : Prop :=
  ∃ c, r.table.class? id = some c ∧
    c.staticFields.map (Field.initialValue c.pool) = statics.toList.map .ok

/-- How a registry changes while classes are loaded and references resolved. -/
structure Resolves (r r' : Registry) : Prop where
  consistent : r.Consistent → r'.Consistent ∧ r.Grows r'
  table : r.table.Within r'.table
  states : ∀ id s, r.state? id = some s → ∃ s', r'.state? id = some s' ∧ s.Resolved s'
  fresh : r.Consistent → ∀ id s', r.state? id = none → r'.state? id = some s' →
    r'.StartsWith id s'.statics

variable {r r₁ r₂ : Registry}

theorem StartsWith.mono {id : ClassId} {statics : Array Value} (h : r.StartsWith id statics)
    (htable : r.table.Within r₁.table) : r₁.StartsWith id statics := by
  obtain ⟨c, hc, hstatics⟩ := h
  exact ⟨c, htable id c hc, hstatics⟩

theorem consistent_empty : Registry.empty.Consistent where
  linked := linked_empty
  built := .empty
  methods id s index m hs := by simp [state?, empty] at hs
  fields id s index f hs := by simp [state?, empty] at hs

theorem Resolves.refl (r : Registry) : r.Resolves r :=
  ⟨fun hr => ⟨hr, .refl r⟩, .refl _, fun _ s hs => ⟨s, hs, rfl⟩,
    fun _ _ _ hnone hs => by rw [hnone] at hs; cases hs⟩

theorem Resolves.trans (h₁ : r.Resolves r₁) (h₂ : r₁.Resolves r₂) : r.Resolves r₂ where
  consistent hr := by
    obtain ⟨hr₁, hgrows₁⟩ := h₁.consistent hr
    obtain ⟨hr₂, hgrows₂⟩ := h₂.consistent hr₁
    exact ⟨hr₂, hgrows₁.trans hgrows₂⟩
  table := h₁.table.trans h₂.table
  states id s hs := by
    obtain ⟨s₁, hs₁, hresolved₁⟩ := h₁.states id s hs
    obtain ⟨s₂, hs₂, hresolved₂⟩ := h₂.states id s₁ hs₁
    refine ⟨s₂, hs₂, ?_⟩
    unfold ClassState.Resolved at *
    rw [hresolved₂, hresolved₁]
  fresh hr id s₂ hnone hs₂ := by
    cases hs₁ : r₁.state? id with
    | none => exact h₂.fresh (h₁.consistent hr).1 id s₂ hs₁ hs₂
    | some s₁ =>
      obtain ⟨s, hs, hresolved⟩ := h₂.states id s₁ hs₁
      obtain rfl := Option.some.inj (hs₂.symm.trans hs)
      rw [show s₂.statics = s₁.statics by rw [hresolved]]
      exact (h₁.fresh hr id s₁ hnone hs₁).mono h₂.table

instance : IsTrans Registry Resolves := ⟨fun _ _ _ => Resolves.trans⟩

/-! ### Loading -/

/-- While classes are loaded nothing changes about those there are. -/
theorem LinksTo.state? (h : r.LinksTo r₁) {id : ClassId} {s : ClassState} (hs : r.state? id = some s) :
    r₁.state? id = some s := by
  induction h with
  | refl => exact hs
  | tail _ hlast ih =>
    cases hlast with
    | entered hc known =>
      have hlt := (Array.getElem?_eq_some_iff.1 ih).1
      rw [Registry.state?, Array.getElem?_push, if_neg hlt.ne]
      exact ih
    | recorded loaded => exact ih

/-- Nothing is known about the references of new classes. -/
theorem LinksTo.known {α : Type} (h : r.LinksTo r₁) (place : Resolution.Place α)
    {D : ClassTable → α → Prop} (hstart : ∀ init statics n, place.get (.start init statics n) = .empty n)
    (hmono : ∀ t t' a, ClassTable.Within t t' → D t a → D t' a)
    (hr : ∀ id s (index : UInt16) a, r.state? id = some s →
      (place.get s).find? index = some (.ok a) → D r.table a) :
    ∀ id s (index : UInt16) a, r₁.state? id = some s →
      (place.get s).find? index = some (.ok a) → D r₁.table a := by
  induction h with
  | refl => exact hr
  | @tail r₁ r₂ _ hlast ih =>
    cases hlast with
    | entered hc known =>
      intro id s index a hs ha
      refine hmono _ _ a (ClassTable.within_push known) ?_
      rw [Registry.state?, Array.getElem?_push] at hs
      split at hs
      · cases hs
        rw [hstart, find?_empty] at ha
        cases ha
      · exact ih id s index a hs ha
    | recorded loaded => exact ih

/-- A class that is entered starts, with nothing known about its references. -/
theorem LinksTo.started (h : r.LinksTo r₁) (hr : r.states.size = r.table.size) :
    r₁.states.size = r₁.table.size ∧ ∀ id c s, r.state? id = none → r₁.table.class? id = some c →
      r₁.state? id = some s → r₁.StartsWith id s.statics ∧
        s = .start (if c.isArray then .initialized else .linked) s.statics c.pool.size := by
  induction h with
  | refl => exact ⟨hr, fun id c s hnone _ hs => by rw [hnone] at hs; cases hs⟩
  | @tail r₁ r₂ _ hlast ih =>
    cases hlast with
    | @entered c hc known init hinit statics hstatics =>
      refine ⟨by simpa [ClassTable.push, ClassTable.size] using ih.1, fun id d s hnone hd hs => ?_⟩
      have hd' := hd
      rw [ClassTable.class?_push] at hd
      rw [Registry.state?, Array.getElem?_push, ih.1] at hs
      by_cases hid : id = r₁.table.size
      · rw [if_pos hid] at hd hs
        cases hd
        cases hs
        exact ⟨⟨c, hd', hstatics⟩, by rw [hinit]; rfl⟩
      · rw [if_neg hid] at hd hs
        obtain ⟨hstarts, heq⟩ := ih.2 id d s hnone hd hs
        exact ⟨hstarts.mono (ClassTable.within_push known), heq⟩
    | recorded loaded => exact ih

theorem LinksTo.resolves (h : r.LinksTo r₁) (hloads : r.Linked → r.Loads [] r₁) : r.Resolves r₁ where
  consistent hr := by
    have hl := hloads hr.linked
    refine ⟨⟨hl.linked, h.buildsOn.built hr.built, ?_, ?_⟩, hl.grows⟩
    · exact h.known Resolution.methods (fun _ _ _ => rfl) (fun _ _ _ => .mono) hr.methods
    · exact h.known Resolution.fields (fun _ _ _ => rfl) (fun _ _ _ => .mono) hr.fields
  table := h.buildsOn.table
  states id s hs := ⟨s, h.state? hs, rfl⟩
  fresh hr id s hnone hs := by
    obtain ⟨hsize, hstarted⟩ := h.started hr.linked.states
    have hlt : id < r₁.table.size := hsize ▸ (Array.getElem?_eq_some_iff.1 hs).1
    obtain ⟨c, hc⟩ := ClassTable.class?_of_lt hlt
    exact (hstarted id c s hnone hc hs).1

/-- A registry with the classes of a linked one, and what loading came to there, is linked. -/
theorem Linked.congr (hr : r.Linked) (hstates : r₁.states.size = r.states.size)
    (htable : r₁.table = r.table) (hloaded : r₁.loaded = r.loaded) : r₁.Linked := by
  have hextends : r.Extends r₁ := ⟨htable ▸ .refl _, fun _ _ h => hloaded ▸ h⟩
  refine ⟨by rw [hstates, hr.states, htable], fun id c hc => ?_, fun loader name id h => ?_,
    fun id c hc happ => ?_, fun id c hc => ?_⟩
  · rw [htable] at hc
    exact hextends.loaded _ _ (hr.found id c hc)
  · rw [hloaded] at h
    exact (hr.names loader name id h).mono hextends
  · rw [htable] at hc
    rw [hloaded]
    exact hr.missing id c hc happ
  · rw [htable] at hc
    exact (hr.shape id c hc).mono hextends

/-- The state of a class after a change. -/
theorem state?_modifyState {id i : ClassId} {change : ClassState → ClassState} {s' : ClassState}
    (h : (r.modifyState id change).state? i = some s') :
    ∃ s, r.state? i = some s ∧ (s' = s ∨ i = id ∧ s' = change s) := by
  rw [state?, Registry.modifyState, Array.getElem?_modify] at h
  split at h
  · next heq =>
    obtain ⟨s, hs, rfl⟩ := Option.map_eq_some_iff.1 h
    exact ⟨s, hs, .inr ⟨heq.symm, rfl⟩⟩
  · exact ⟨s', h, .inl rfl⟩

theorem exists_of_state? {id i : ClassId} (change : ClassState → ClassState) {s : ClassState}
    (h : r.state? i = some s) : (r.modifyState id change).state? i = some (if i = id then change s else s) := by
  rw [state?, Registry.modifyState, Array.getElem?_modify]
  split
  · next heq => rw [if_pos heq.symm, show r.states[i]? = some s from h]; rfl
  · next hne => rw [if_neg (Ne.symm hne)]; exact h

theorem Consistent.modifyState (hr : r.Consistent) (id : ClassId) {change : ClassState → ClassState}
    (hmethods : ∀ (s : ClassState) (index : UInt16) m, (change s).methodRefs.find? index = some (.ok m) →
      s.methodRefs.find? index = some (.ok m) ∨ r.table.Declares m)
    (hfields : ∀ (s : ClassState) (index : UInt16) f, (change s).fieldRefs.find? index = some (.ok f) →
      s.fieldRefs.find? index = some (.ok f) ∨ r.table.DeclaresField f) :
    (r.modifyState id change).Consistent where
  linked := hr.linked.congr (by simp [Registry.modifyState]) rfl rfl
  built := hr.built
  methods i s' index m hs' hm := by
    obtain ⟨s, hs, rfl | ⟨-, rfl⟩⟩ := state?_modifyState hs'
    · exact hr.methods i _ index m hs hm
    · exact (hmethods s index m hm).elim (hr.methods i s index m hs) fun hm => hm
  fields i s' index f hs' hf := by
    obtain ⟨s, hs, rfl | ⟨-, rfl⟩⟩ := state?_modifyState hs'
    · exact hr.fields i _ index f hs hf
    · exact (hfields s index f hf).elim (hr.fields i s index f hs) fun hf => hf

end Registry

theorem ClassState.Resolved.roots_eq {s s' : ClassState} (h : s.Resolved s') : s'.roots = s.roots := by
  rw [h]
  rfl

/-- What a class holds on to: the objects in static fields, its class object and its string constants. -/
theorem ClassState.mem_roots {s : ClassState} {x : Ref} : x ∈ s.roots ↔
    .ref x ∈ s.statics ∨ s.classObject = some x ∨ some x ∈ s.strings := by
  have hstatic : x ∈ s.statics.toList.filterMap Value.object? ↔ .ref x ∈ s.statics := by
    rw [List.mem_filterMap]
    constructor
    · rintro ⟨v, hv, hx⟩
      cases v <;> cases hx
      exact Array.mem_toList_iff.1 hv
    · exact fun h => ⟨_, Array.mem_toList_iff.2 h, rfl⟩
  simp [roots, hstatic]

theorem Cache.mem_record {α : Type} {known : Cache α} {index : UInt16} {a b : α}
    (h : some b ∈ known.record index a) : some b ∈ known ∨ b = a := by
  obtain ⟨i, hi⟩ := Array.getElem?_of_mem h
  unfold record at hi
  rw [Array.getElem?_modify] at hi
  split at hi
  · obtain ⟨old, hold, hor⟩ := Option.map_eq_some_iff.1 hi
    cases old with
    | none => cases hor; exact .inr rfl
    | some d => cases hor; exact .inl (Array.mem_of_getElem? hold)
  · exact .inl (Array.mem_of_getElem? hi)

/-- Loading and resolving keep a registry consistent. -/
theorem admits_resolves (paths : ClassPaths) : Linker.Admits paths Registry.Resolves where
  refl := .refl
  load loader name r := by
    have hbuilds := builds_load paths [] loader name r
    rcases h : loadClass paths loader name r with ⟨id, r'⟩ | ⟨e, r'⟩
    · exact Linker.meets_of_ok h ((hbuilds.of_eq_ok h).1.resolves fun hr =>
        ((meets_load paths [] loader name hr).of_eq_ok h).1) trivial
    · exact Linker.meets_of_error h ((hbuilds.of_eq_error h).resolves fun hr =>
        (meets_load paths [] loader name hr).of_eq_error h)
  resolved r id change hresolved hmethods hfields := by
    refine ⟨fun hr => ⟨hr.modifyState id hmethods hfields,
      ⟨⟨.refl _, fun _ _ h => h⟩, fun i s' hs' => ?_, rfl⟩⟩,
      .refl _, fun i s hs => ⟨_, Registry.exists_of_state? change hs, ?_⟩, fun _ i s' hnone hs' => ?_⟩
    · obtain ⟨s, hs, rfl | ⟨-, rfl⟩⟩ := Registry.state?_modifyState hs'
      exacts [.inr ⟨_, hs, rfl⟩, .inr ⟨s, hs, (hresolved s).roots_eq⟩]
    · split
      exacts [hresolved s, rfl]
    · obtain ⟨s, hs, -⟩ := Registry.state?_modifyState hs'
      rw [hnone] at hs
      cases hs

section

variable {paths : ClassPaths} {r : Registry}

/-- Loading a class comes to a class of the name. -/
theorem resolves_loadClass (hr : r.Consistent) (loader : Loader) (name : String) :
    Linker.Meets Registry.Resolves (loadClass paths loader name)
      (fun id r' => r'.Names loader name id) r := by
  have hresolves := (admits_resolves paths).load loader name r
  rcases h : loadClass paths loader name r with ⟨id, r'⟩ | ⟨e, r'⟩
  · exact Linker.meets_of_ok h (hresolves.of_eq_ok h).1
      ((meets_load paths [] loader name hr.linked).of_eq_ok h).2
  · exact Linker.meets_of_error h (hresolves.of_eq_error h)

/-- Resolving a method reference comes to a declared method. -/
theorem resolves_resolveMethod (hr : r.Consistent) (source : ClassId) (index : UInt16) :
    Linker.Meets Registry.Resolves (resolveMethod paths source index)
      (fun m r' => r'.table.Declares m) r := by
  refine ((admits_resolves paths).resolveMethod source index).mono fun m r' h hm => ?_
  rcases hm with hm | ⟨s, hs, hknown⟩
  · exact hm
  · exact (hr.methods source s index m hs hknown).mono h.table

/-- Resolving a field reference comes to a declared field. -/
theorem resolves_resolveField (hr : r.Consistent) (source : ClassId) (index : UInt16) :
    Linker.Meets Registry.Resolves (resolveField paths source index)
      (fun f r' => r'.table.DeclaresField f) r := by
  refine ((admits_resolves paths).resolveField source index).mono fun f r' h hf => ?_
  rcases hf with hf | ⟨s, hs, hknown⟩
  · exact hf
  · exact (hr.fields source s index f hs hknown).mono h.table

end

namespace Registry

variable {r : Registry}

/-- A class that is found under a name that is no array name is no array class. -/
theorem Consistent.componentOf?_of_names (hr : r.Consistent) {loader : Loader} {name : String}
    {id : ClassId} (hid : r.Names loader name id) (hname : isArrayName name = false) :
    r.table.componentOf? id = none := by
  obtain ⟨c, hc, rfl, -⟩ := hid
  rw [ClassTable.componentOf?_of_class? hc]
  exact hr.linked.component?_eq_none_of_name hc hname

/-- A class that is found under an array name is an array class, with the elements that the name says. -/
theorem Linked.exists_component (hr : r.Linked) {id : ClassId} {c : LinkedClass}
    (hc : r.table.class? id = some c) (hname : isArrayName c.name = true) :
    (∃ p, c.component? = some (.primitive p) ∧ elementName? c.name = some (.primitive p)) ∨
      ∃ e d, c.component? = some (.reference e) ∧ r.table.class? e = some d ∧ d.loader = c.loader ∧
        elementName? c.name = some (.reference d.name) := by
  have harray := hr.isArrayName_eq hc
  rw [hname] at harray
  obtain ⟨component, hcomponent⟩ := Option.isSome_iff_exists.1 harray.symm
  have hshape := (hr.shape id c hc).array component (kind_of_component? hcomponent)
  cases component with
  | primitive p => exact .inl ⟨p, hcomponent, hshape.primitive p rfl⟩
  | reference e =>
    obtain ⟨d, hd, hrest⟩ := hshape.reference e rfl
    exact .inr ⟨e, d, hcomponent, hd, hrest⟩

/-- Every class has a state. -/
theorem Linked.exists_state (hr : r.Linked) {id : ClassId} {c : LinkedClass}
    (hc : r.table.class? id = some c) : ∃ s, r.state? id = some s := by
  have hlt : id < r.states.size := by
    rw [hr.states]
    exact ClassTable.lt_of_class? hc
  exact ⟨r.states[id], Array.getElem?_eq_getElem hlt⟩

/-- Two classes found under one name are the same. -/
theorem Linked.eq_of_names (hr : r.Linked) {l₁ l₂ : Loader} {name : String} {a b : ClassId}
    (ha : r.Names l₁ name a) (hb : r.Names l₂ name b) : a = b := by
  obtain ⟨c, hc, hcname, -⟩ := ha
  obtain ⟨d, hd, hdname, -⟩ := hb
  exact hr.eq_of_name hc hd (hcname.trans hdname.symm)

/-- The method of a class is declared by its owner. -/
theorem Consistent.exists_owner (hr : r.Consistent) {m : Method} (hm : r.table.Declares m) :
    ∃ c, r.table.class? m.owner = some c ∧ m ∈ c.methods := by
  obtain ⟨id, c, hc, hmem⟩ := hm
  obtain ⟨rfl, -⟩ := (hr.built.tabled id c hc).declared m hmem
  exact ⟨c, hc, hmem⟩

/-- The methods that calls select from are declared ones. -/
theorem Consistent.declares_of_mem_vtable (hr : r.Consistent) {id : ClassId} {c : LinkedClass}
    (hc : r.table.class? id = some c) {m : Method} (hm : m ∈ c.vtable) : r.table.Declares m := by
  obtain ⟨d, hd, hmem⟩ := hr.built.exists_owner hc hm
  exact ⟨_, d, hd, hmem⟩

theorem Consistent.declares_of_virtual? (hr : r.Consistent) {id : ClassId} {c : LinkedClass}
    (hc : r.table.class? id = some c) {n d : String} {m : Method} (hm : c.virtual? n d = some m) :
    r.table.Declares m :=
  hr.declares_of_mem_vtable hc ((hr.built.tabled id c hc).indexed.method?_eq_some.1 hm).1

/-- What a registry keeps alive is what its classes hold on to and the strings that stand for their
text. -/
theorem Linked.mem_roots (hr : r.Linked) {x : Ref} : x ∈ r.roots ↔
    (∃ id s, r.state? id = some s ∧ x ∈ s.roots) ∨ ∃ text, r.interned? text = some x := by
  have hloaded : ∀ id, id ∈ r.loadedClasses ↔ ∃ key : Key, r.loaded[key]? = some (.ok id) := by
    intro id
    rw [loadedClasses, List.mem_filterMap]
    constructor
    · rintro ⟨⟨key, result⟩, hmem, hresult⟩
      refine ⟨key, ?_⟩
      rw [Std.HashMap.mem_toList_iff_getElem?_eq_some] at hmem
      cases result with
      | error e => cases hresult
      | ok i => cases hresult; exact hmem
    · rintro ⟨key, h⟩
      exact ⟨(key, .ok id), Std.HashMap.mem_toList_iff_getElem?_eq_some.2 h, rfl⟩
  have hinterned : x ∈ r.interned.toList.map (·.2) ↔ ∃ text, r.interned? text = some x := by
    simp only [List.mem_map, Prod.exists, Std.HashMap.mem_toList_iff_getElem?_eq_some, interned?]
    exact ⟨fun ⟨text, _, h, heq⟩ => ⟨text, heq ▸ h⟩, fun ⟨text, h⟩ => ⟨text, x, h, rfl⟩⟩
  rw [roots, List.mem_append, hinterned, List.mem_flatMap]
  refine or_congr_left ⟨?_, ?_⟩
  · rintro ⟨id, -, hx⟩
    cases hs : r.state? id with
    | none => rw [hs] at hx; cases hx
    | some s => rw [hs] at hx; exact ⟨id, s, hs, hx⟩
  · rintro ⟨id, s, hs, hx⟩
    have hlt : id < r.table.size := by
      rw [← hr.states]
      exact (Array.getElem?_eq_some_iff.1 hs).1
    obtain ⟨c, hc⟩ : ∃ c, r.table.class? id = some c := ClassTable.class?_of_lt hlt
    exact ⟨id, (hloaded id).2 ⟨_, hr.found id c hc⟩, by rw [hs]; exact hx⟩

end Registry

/-! ### Array classes -/

section

variable {paths : ClassPaths} {r : Registry}

/-- The class under the name of the arrays of a class has this class as its component, and its loader. -/
theorem Registry.Linked.exists_array (hr : r.Linked) {component id : ClassId} {c : LinkedClass}
    (hc : r.table.class? component = some c) (hid : r.Names c.loader (arrayNameOf c) id) :
    ∃ d, r.table.class? id = some d ∧ d.component? = some (.reference component) ∧ d.loader = c.loader := by
  obtain ⟨d, hd, hname, -⟩ := hid
  have hcname := hr.isArrayName_eq hc
  have harray : isArrayName (arrayNameOf c) = true := by
    unfold arrayNameOf
    split <;> simp [isArrayName]
  rcases hr.exists_component hd (hname ▸ harray) with ⟨p, -, hp⟩ | ⟨e, f, he, hf, hloader, helement⟩
  · have := elementName?_arrayNameOf hcname (hname ▸ hp)
    cases this
  · have heq := elementName?_arrayNameOf hcname (hname ▸ helement)
    have hfname : f.name = c.name := ElementName.reference.inj heq
    obtain rfl := hr.eq_of_name hf hc hfname
    obtain rfl := Option.some.inj (hf.symm.trans hc)
    exact ⟨d, hd, he, hloader.symm⟩

theorem resolves_arrayClassOf (hr : r.Consistent) (component : ClassId) :
    Linker.Meets Registry.Resolves (arrayClassOf paths component)
      (fun id r' => r'.table.componentOf? id = some (.reference component)) r := by
  refine (Linker.meets_getClass (.refl r) component).bind ?_
  rintro c r - ⟨rfl, hc⟩
  refine (resolves_loadClass hr c.loader (arrayNameOf c)).mono fun id r' h hid => ?_
  obtain ⟨d, hd, hcomponent, -⟩ := (h.consistent hr).1.linked.exists_array (h.table _ _ hc) hid
  rw [ClassTable.componentOf?_of_class? hd, hcomponent]

theorem resolves_primitiveArrayClass (hr : r.Consistent) (element : Primitive) :
    Linker.Meets Registry.Resolves (primitiveArrayClass paths element)
      (fun id r' => r'.table.componentOf? id = some (.primitive element)) r := by
  refine (resolves_loadClass hr .boot _).mono fun id r' h hid => ?_
  have hr' := (h.consistent hr).1.linked
  obtain ⟨d, hd, hname, -⟩ := hid
  rw [ClassTable.componentOf?_of_class? hd]
  have harray : isArrayName (String.ofList ['[', element.letter]) = true := by simp [isArrayName]
  rcases hr'.exists_component hd (hname ▸ harray) with ⟨p, hp, helement⟩ | ⟨e, f, -, -, -, helement⟩
  · rw [hname, elementName?_letter] at helement
    cases helement
    exact hp
  · rw [hname, elementName?_letter] at helement
    cases helement

end

end Jvm.Linking
