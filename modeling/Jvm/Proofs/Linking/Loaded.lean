import Mathlib
import Jvm.Linking.Resolution
import Jvm.Proofs.Linking.Hierarchy

/-! # What loading makes of the registry

`Registry.Linked` says what the classes of a registry have in common: each is found under its own name,
array classes are built alike, and nothing in a class or in what it starts with refers to an object.
`Linked.regular`: this makes assignability transitive. `meets_load`: every request keeps it, adds to what
there is and takes nothing away, whatever class files there are. -/

namespace Jvm.Linking

open ClassFile Assembly

/-! ## Names of array classes -/

theorem ofChars?_object {rest : List Char} {t : FieldType}
    (h : FieldType.ofChars? ('[' :: 'L' :: rest) = some t) : ∃ name, t = .array (.object name) := by
  unfold FieldType.ofChars? FieldType.read at h
  simp only [List.takeWhile, List.dropWhile, beq_self_eq_true, List.length_cons, List.length_nil,
    show ('L' == '[') = false from rfl, FieldType.readElement] at h
  split at h
  · next t' hread =>
    cases h
    split at hread
    · cases hread
    · obtain ⟨⟨u, left⟩, hu, heq⟩ := Option.map_eq_some_iff.1 hread
      split at hu
      · split at hu
        · cases hu; cases heq; exact ⟨_, rfl⟩
        · cases hu
      · cases hu
  · cases h

theorem ofChars?_array {rest : List Char} {t : FieldType}
    (h : FieldType.ofChars? ('[' :: '[' :: rest) = some t) : ∃ u, t = .array (.array u) := by
  unfold FieldType.ofChars? FieldType.read at h
  simp only [List.takeWhile, List.dropWhile, beq_self_eq_true, List.length_cons] at h
  split at h
  · next t' hread =>
    cases h
    split at hread
    · cases hread
    · obtain ⟨⟨u, left⟩, -, heq⟩ := Option.map_eq_some_iff.1 hread
      cases heq
      exact ⟨_, rfl⟩
  · cases h

/-- The array class of a class has elements of this class. -/
theorem elementName?_arrayNameOf {c : LinkedClass} {e : ElementName}
    (hname : isArrayName c.name = c.isArray) (h : elementName? (arrayNameOf c) = some e) :
    e = .reference c.name := by
  unfold arrayNameOf at h
  cases harray : c.isArray with
  | true =>
    obtain ⟨rest, hrest⟩ : ∃ rest, c.name.toList = '[' :: rest := by
      rw [harray] at hname
      unfold isArrayName at hname
      cases hlist : c.name.toList <;> simp_all
    rw [harray, if_pos rfl] at h
    simp only [elementName?, String.toList_append, hrest, show "[".toList = ['['] from rfl,
      List.cons_append, List.nil_append] at h
    split at h
    · next hchars => obtain ⟨u, hu⟩ := ofChars?_array hchars; cases hu
    · cases h; rw [← hrest, String.ofList_toList]
    · next hne hchars =>
      obtain ⟨u, hu⟩ := ofChars?_array hchars
      exact (hne u (FieldType.array.inj hu)).elim
    · cases h
  | false =>
    rw [harray, if_neg (by simp)] at h
    simp only [elementName?, String.toList_append, show "[L".toList = ['[', 'L'] from rfl,
      show ";".toList = [';'] from rfl, List.cons_append, List.nil_append] at h
    split at h
    · cases h
      simp
    · next hchars => obtain ⟨u, hu⟩ := ofChars?_object hchars; cases hu
    · next hne _ hchars =>
      obtain ⟨u, hu⟩ := ofChars?_object hchars
      exact (hne u (FieldType.array.inj hu)).elim
    · cases h

theorem elementName?_letter (p : Primitive) :
    elementName? (String.ofList ['[', p.letter]) = some (.primitive p) := by
  cases p <;> cbv

/-! ## Linked registries -/

namespace Registry

/-- Whether a registry has a class, under a loader's name for it. -/
def Names (r : Registry) (loader : Loader) (name : String) (id : ClassId) : Prop :=
  ∃ c, r.table.class? id = some c ∧ c.name = name ∧ (c.loader = loader ∨ loader = .app)

/-- What holds for an array class with a component type. -/
structure ArrayShape (r : Registry) (c : LinkedClass) (component : Component) : Prop where
  name : isArrayName c.name = true
  superclass : ∃ id, r.loaded[(Loader.boot, objectName)]? = some (.ok id) ∧ c.superclass = some id
  interfaces : ∃ i j, r.loaded[(Loader.boot, CoreClasses.cloneableName)]? = some (.ok i) ∧
    r.loaded[(Loader.boot, CoreClasses.serializableName)]? = some (.ok j) ∧ c.interfaces = [i, j]
  primitive : ∀ p, component = .primitive p → elementName? c.name = some (.primitive p)
  reference : ∀ e, component = .reference e → ∃ d, r.table.class? e = some d ∧
    d.loader = c.loader ∧ elementName? c.name = some (.reference d.name)

/-- What holds for a class that is no array class. -/
structure PlainShape (r : Registry) (c : LinkedClass) : Prop where
  name : isArrayName c.name = false
  superclass : c.superclass = none ↔ c.name = objectName
  interfaces : c.isInterface = true → ∀ s, c.superclass = some s →
    ∃ d, r.table.class? s = some d ∧ d.name = objectName

/-- What holds for every class of a registry. -/
structure Shape (r : Registry) (c : LinkedClass) : Prop where
  template : ∀ v ∈ c.template, v.object? = none
  array : ∀ component, c.kind = .array component → r.ArrayShape c component
  plain : c.component? = none → r.PlainShape c

/-- Whether the classes of a registry are those that loading makes. -/
structure Linked (r : Registry) : Prop where
  states : r.states.size = r.table.size
  found : ∀ id c, r.table.class? id = some c → r.loaded[(c.loader, c.name)]? = some (.ok id)
  names : ∀ loader name id, r.loaded[(loader, name)]? = some (.ok id) → r.Names loader name id
  missing : ∀ id c, r.table.class? id = some c → c.loader = .app →
    ∃ e, r.loaded[(Loader.boot, c.name)]? = some (.error e)
  shape : ∀ id c, r.table.class? id = some c → r.Shape c

theorem linked_empty : Registry.empty.Linked where
  states := rfl
  found id c h := by simp [empty, ClassTable.class?, ClassTable.empty] at h
  names loader name id h := by simp [empty] at h
  missing id c h := by simp [empty, ClassTable.class?, ClassTable.empty] at h
  shape id c h := by simp [empty, ClassTable.class?, ClassTable.empty] at h

variable {r r' : Registry}

theorem kind_of_component? {c : LinkedClass} {component : Component}
    (h : c.component? = some component) : c.kind = .array component := by
  unfold LinkedClass.component? at h
  split at h
  · next hk => cases h; exact hk
  · cases h

theorem Linked.isArrayName_eq (hr : r.Linked) {id : ClassId} {c : LinkedClass}
    (hc : r.table.class? id = some c) : isArrayName c.name = c.isArray := by
  cases hcomp : c.component? with
  | none => simpa [LinkedClass.isArray, hcomp] using ((hr.shape id c hc).plain hcomp).name
  | some component =>
    simpa [LinkedClass.isArray, hcomp] using
      ((hr.shape id c hc).array component (kind_of_component? hcomp)).name

/-- Two classes of one name have one number. -/
theorem Linked.eq_of_name (hr : r.Linked) {a b : ClassId} {c d : LinkedClass}
    (hc : r.table.class? a = some c) (hd : r.table.class? b = some d) (hname : c.name = d.name) :
    a = b := by
  have hca := hr.found a c hc
  have hdb := hr.found b d hd
  -- a class of the program is missing among the core classes
  have hcross : ∀ {x y : ClassId} {e f : LinkedClass}, r.table.class? x = some e →
      r.table.class? y = some f → e.name = f.name → e.loader = .boot → f.loader = .app → False := by
    intro x y e f he hf hn hboot happ
    obtain ⟨fault, hfault⟩ := hr.missing y f hf happ
    have := hr.found x e he
    rw [hboot, hn, hfault] at this
    cases this
  cases hcl : c.loader <;> cases hdl : d.loader
  · rw [hcl, hname] at hca
    rw [hdl] at hdb
    exact Except.ok.inj (Option.some.inj (hca.symm.trans hdb))
  · exact (hcross hc hd hname hcl hdl).elim
  · exact (hcross hd hc hname.symm hdl hcl).elim
  · rw [hcl, hname] at hca
    rw [hdl] at hdb
    exact Except.ok.inj (Option.some.inj (hca.symm.trans hdb))

theorem Linked.component?_eq_none_of_superclass (hr : r.Linked) {id : ClassId} {c : LinkedClass}
    (hc : r.table.class? id = some c) (hs : c.superclass = none) : c.component? = none := by
  cases hcomp : c.component? with
  | none => rfl
  | some component =>
    obtain ⟨o, -, ho⟩ :=
      ((hr.shape id c hc).array component (kind_of_component? hcomp)).superclass
    rw [hs] at ho
    cases ho

theorem Linked.component?_eq_none_of_name (hr : r.Linked) {id : ClassId} {c : LinkedClass}
    (hc : r.table.class? id = some c) (hname : isArrayName c.name = false) :
    c.component? = none := by
  have := hr.isArrayName_eq hc
  rw [hname] at this
  simpa [LinkedClass.isArray] using this.symm

theorem Linked.regular (hr : r.Linked) : r.table.Regular where
  arrays a b c d hc hd hca hda := by
    obtain ⟨p, hp⟩ := Option.isSome_iff_exists.1 hca
    obtain ⟨q, hq⟩ := Option.isSome_iff_exists.1 hda
    have hc' := (hr.shape a c hc).array p (kind_of_component? hp)
    have hd' := (hr.shape b d hd).array q (kind_of_component? hq)
    obtain ⟨x, hx, hcx⟩ := hc'.superclass
    obtain ⟨y, hy, hdy⟩ := hd'.superclass
    obtain ⟨i, j, hi, hj, hcij⟩ := hc'.interfaces
    obtain ⟨k, l, hk, hl, hdkl⟩ := hd'.interfaces
    rw [hx] at hy
    rw [hi] at hk
    rw [hj] at hl
    cases hy; cases hk; cases hl
    exact ⟨hcx.trans hdy.symm, hcij.trans hdkl.symm⟩
  root a b c d hc hd hcs hds := by
    have hcn := ((hr.shape a c hc).plain (hr.component?_eq_none_of_superclass hc hcs)).superclass.1 hcs
    have hdn := ((hr.shape b d hd).plain (hr.component?_eq_none_of_superclass hd hds)).superclass.1 hds
    exact hr.eq_of_name hc hd (hcn.trans hdn.symm)
  interfaces a s c d hc hint hs hd := by
    have hplain : c.component? = none := by
      unfold LinkedClass.isInterface at hint
      simp [LinkedClass.component?, eq_of_beq hint]
    obtain ⟨d', hd', hname⟩ := ((hr.shape a c hc).plain hplain).interfaces hint s hs
    rw [hd] at hd'
    cases hd'
    have hdplain := hr.component?_eq_none_of_name hd (by rw [hname]; decide)
    exact ((hr.shape s d hd).plain hdplain).superclass.2 hname

/-! ## Growing registries -/

/-- Whether a registry has more classes than another one. -/
structure Extends (r r' : Registry) : Prop where
  table : r.table.Within r'.table
  loaded : ∀ (key : Key) (result : Except Fault ClassId),
    r.loaded[key]? = some result → r'.loaded[key]? = some result

/-- How a registry changes while classes are loaded and references resolved: it gets more classes, which
hold on to nothing yet. -/
structure Grows (r r' : Registry) : Prop extends Extends r r' where
  roots : ∀ id s', r'.state? id = some s' → s'.roots = [] ∨
    ∃ s, r.state? id = some s ∧ s'.roots = s.roots
  interned : r'.interned = r.interned

theorem Grows.refl (r : Registry) : r.Grows r :=
  ⟨⟨.refl _, fun _ _ => id⟩, fun _ s' hs => .inr ⟨s', hs, rfl⟩, rfl⟩

theorem Grows.trans {r₁ r₂ r₃ : Registry} (h₁₂ : r₁.Grows r₂) (h₂₃ : r₂.Grows r₃) :
    r₁.Grows r₃ where
  table := h₁₂.table.trans h₂₃.table
  loaded key result h := h₂₃.loaded key result (h₁₂.loaded key result h)
  roots id s₃ h₃ := by
    rcases h₂₃.roots id s₃ h₃ with h | ⟨s₂, h₂, heq⟩
    · exact .inl h
    · rcases h₁₂.roots id s₂ h₂ with h | ⟨s₁, h₁, heq'⟩
      · exact .inl (heq.trans h)
      · exact .inr ⟨s₁, h₁, heq.trans heq'⟩
  interned := h₂₃.interned.trans h₁₂.interned

theorem Names.mono (h : r.Extends r') {loader : Loader} {name : String} {id : ClassId}
    (hid : r.Names loader name id) : r'.Names loader name id := by
  obtain ⟨c, hc, hrest⟩ := hid
  exact ⟨c, h.table id c hc, hrest⟩

theorem ArrayShape.mono (h : r.Extends r') {c : LinkedClass} {component : Component}
    (hc : r.ArrayShape c component) : r'.ArrayShape c component where
  name := hc.name
  superclass := by
    obtain ⟨id, hid, hs⟩ := hc.superclass
    exact ⟨id, h.loaded _ _ hid, hs⟩
  interfaces := by
    obtain ⟨i, j, hi, hj, hij⟩ := hc.interfaces
    exact ⟨i, j, h.loaded _ _ hi, h.loaded _ _ hj, hij⟩
  primitive := hc.primitive
  reference e he := by
    obtain ⟨d, hd, hrest⟩ := hc.reference e he
    exact ⟨d, h.table e d hd, hrest⟩

theorem Shape.mono (h : r.Extends r') {c : LinkedClass} (hc : r.Shape c) : r'.Shape c where
  template := hc.template
  array component hcomp := (hc.array component hcomp).mono h
  plain hcomp :=
    { name := (hc.plain hcomp).name
      superclass := (hc.plain hcomp).superclass
      interfaces := fun hint s hs => by
        obtain ⟨d, hd, hname⟩ := (hc.plain hcomp).interfaces hint s hs
        exact ⟨d, h.table s d hd, hname⟩ }

/-- The registry with the outcome of loading recorded. -/
def remember (r : Registry) (key : Key) (result : Except Fault ClassId) : Registry :=
  { r with loaded := r.loaded.insert key result }

theorem loaded_remember (r : Registry) (key key' : Key) (result : Except Fault ClassId) :
    (r.remember key result).loaded[key']? =
      if key = key' then some result else r.loaded[key']? := by
  simp only [remember, Std.HashMap.getElem?_insert, beq_iff_eq]

/-- Recording the outcome of a first attempt takes nothing away. -/
theorem grows_remember {key : Key} (hnew : r.loaded[key]? = none)
    (result : Except Fault ClassId) : r.Grows (r.remember key result) where
  table := .refl _
  loaded key' result' h := by
    rw [loaded_remember]
    split
    · next heq => rw [heq, h] at hnew; cases hnew
    · exact h
  roots _ s' hs := .inr ⟨s', hs, rfl⟩
  interned := rfl

theorem Linked.remember (hr : r.Linked) {key : Key} (hnew : r.loaded[key]? = none)
    {result : Except Fault ClassId} (hid : ∀ id, result = .ok id → r.Names key.1 key.2 id) :
    (r.remember key result).Linked where
  states := hr.states
  found id c hc := (grows_remember hnew result).loaded _ _ (hr.found id c hc)
  names loader name id h := by
    rw [loaded_remember] at h
    split at h
    · next heq => cases heq; exact hid id (Option.some.inj h)
    · exact hr.names loader name id h
  missing id c hc happ := by
    obtain ⟨e, he⟩ := hr.missing id c hc happ
    exact ⟨e, (grows_remember hnew result).loaded _ _ he⟩
  shape id c hc := (hr.shape id c hc).mono (grows_remember hnew result).toExtends

/-- Whether a registry is another one with one more class, the last, which is found under a key as soon as
this is recorded. -/
structure Published (r : Registry) (key : Key) (id : ClassId) (r' : Registry) : Prop where
  number : id = r.table.size
  entered : ∃ c known, r'.table = r.table.push c known ∧ (c.loader, c.name) = key ∧ r.Shape c
  states : ∃ s, r'.states = r.states.push s ∧ s.roots = []
  loaded : r'.loaded = r.loaded
  interned : r'.interned = r.interned

theorem Published.grows {key : Key} {id : ClassId} (h : r.Published key id r') :
    r.Grows r' where
  table := by
    obtain ⟨d, known, htable, -, -⟩ := h.entered
    rw [htable]
    exact ClassTable.within_push known
  loaded key result hres := by rw [h.loaded]; exact hres
  roots a s' hs' := by
    obtain ⟨s, hs, hroots⟩ := h.states
    rw [state?, hs, Array.getElem?_push] at hs'
    split at hs'
    · cases hs'; exact .inl hroots
    · exact .inr ⟨s', hs', rfl⟩
  interned := h.interned

/-- A published class, recorded under its key, makes another linked registry. -/
theorem Published.linked {key : Key} {id : ClassId} (h : r.Published key id r') (hr : r.Linked)
    (hnew : r.loaded[key]? = none)
    (hmissing : key.1 = .app → ∃ e, r.loaded[(Loader.boot, key.2)]? = some (.error e)) :
    (r'.remember key (.ok id)).Linked := by
  have hgrows := h.grows
  have hnew' : r'.loaded[key]? = none := by rw [h.loaded]; exact hnew
  have hgrows' := hgrows.trans (grows_remember hnew' (.ok id))
  obtain ⟨c, known, htable, hkey, hshape⟩ := h.entered
  obtain ⟨s, hstates, -⟩ := h.states
  have hclass : ∀ a d, (r'.remember key (.ok id)).table.class? a = some d →
      (a = id ∧ d = c) ∨ r.table.class? a = some d := by
    intro a d hd
    rw [show (r'.remember key (.ok id)).table = r'.table from rfl, htable, ClassTable.class?_push] at hd
    split at hd
    · next heq => cases hd; exact .inl ⟨heq.trans h.number.symm, rfl⟩
    · exact .inr hd
  have hthis : (r'.remember key (.ok id)).table.class? id = some c := by
    rw [show (r'.remember key (.ok id)).table = r'.table from rfl, htable, ClassTable.class?_push,
      if_pos h.number]
  refine ⟨?_, fun a d hd => ?_, fun loader name a ha => ?_, fun a d hd happ => ?_,
    fun a d hd => ?_⟩
  · change r'.states.size = r'.table.classes.size
    rw [hstates, htable]
    simpa [ClassTable.push, ClassTable.size] using hr.states
  · rcases hclass a d hd with ⟨rfl, rfl⟩ | hd
    · rw [loaded_remember, if_pos hkey.symm]
    · exact hgrows'.loaded _ _ (hr.found a d hd)
  · rw [loaded_remember] at ha
    split at ha
    · next heq =>
      obtain rfl := Except.ok.inj (Option.some.inj ha)
      rw [heq] at hkey
      cases hkey
      exact ⟨c, hthis, rfl, .inl rfl⟩
    · rw [h.loaded] at ha
      exact (hr.names loader name a ha).mono hgrows'.toExtends
  · rcases hclass a d hd with ⟨rfl, rfl⟩ | hd
    · obtain ⟨e, he⟩ := hmissing (by rw [← hkey]; exact happ)
      rw [← hkey] at he
      exact ⟨e, hgrows'.loaded _ _ he⟩
    · obtain ⟨e, he⟩ := hr.missing a d hd happ
      exact ⟨e, hgrows'.loaded _ _ he⟩
  · rcases hclass a d hd with ⟨rfl, rfl⟩ | hd
    · exact hshape.mono hgrows'.toExtends
    · exact (hr.shape a d hd).mono hgrows'.toExtends

end Registry

end Jvm.Linking
