import Mathlib
import Jvm.Proofs.ClassFile.Descriptors
import Jvm.Proofs.Linking.Fields
import Jvm.Proofs.Linking.Teardown

/-! # Assignability orders classes

`ClassTable.Above` is the closure of the direct superclasses and superinterfaces. Among the classes of a
registry assignability is a partial order with the object class on top (`Linked.fits_antisymm`,
`Fits.trans`): it is this closure for classes and interfaces (`WellFormed.fits_iff_above`), and for arrays of
references it goes by the elements (`fits_arrays_iff`). -/

namespace Jvm.Linking

open ClassFile Assembly

/-! ## Names of array classes -/

/-- The name of the array class of some elements. -/
def ElementName.arrayChars : ElementName → List Char
  | primitive type => ['[', type.letter]
  | reference name =>
    if name.toList.head? = some '[' then '[' :: name.toList else '[' :: 'L' :: (name.toList ++ [';'])

theorem chars_of_primitive? {t : FieldType} {p : Primitive} (h : primitive? t = some p) :
    t.chars = [p.letter] := by
  cases t <;> cases h <;> rfl

/-- The elements of an array class say its name. -/
theorem toList_of_elementName? {name : String} {e : ElementName} (h : elementName? name = some e) :
    name.toList = e.arrayChars := by
  unfold elementName? at h
  split at h
  · next rest hname =>
    split at h
    · next cls hchars =>
      -- the name of an object type does not begin like that of an array
      obtain ⟨hcls, hrest⟩ := FieldType.ofChars?_eq_some_iff.mp hchars
      obtain rfl : 'L' :: (cls.toList ++ [';']) = rest := List.tail_eq_of_cons_eq hrest
      have hhead : cls.toList.head? ≠ some '[' := fun hhead =>
        (hcls.name cls rfl).bracket (List.mem_of_mem_head? hhead)
      obtain rfl := Option.some.inj h
      rw [hname, ElementName.arrayChars, List.drop_one, List.tail_cons, List.dropLast_concat,
        String.toList_ofList, if_neg hhead]
    · next element hchars =>
      obtain ⟨-, hrest⟩ := FieldType.ofChars?_eq_some_iff.mp hchars
      obtain rfl : '[' :: element.chars = rest := List.tail_eq_of_cons_eq hrest
      obtain rfl := Option.some.inj h
      rw [hname, ElementName.arrayChars, String.toList_ofList, if_pos List.head?_cons]
    · next element _ _ hchars =>
      obtain ⟨-, hrest⟩ := FieldType.ofChars?_eq_some_iff.mp hchars
      obtain rfl : element.chars = rest := List.tail_eq_of_cons_eq hrest
      obtain ⟨p, hp, rfl⟩ := Option.map_eq_some_iff.1 h
      rw [hname, ElementName.arrayChars, chars_of_primitive? hp]
    · cases h
  · cases h

/-- There is one name for the array class of some elements. -/
theorem eq_of_elementName? {name other : String} {e : ElementName} (h : elementName? name = some e)
    (h' : elementName? other = some e) : name = other := by
  rw [← String.toList_inj, toList_of_elementName? h, toList_of_elementName? h']

/-! ## The closure of superclasses and superinterfaces -/

namespace ClassTable

variable {t : ClassTable} {a b d : ClassId}

/-- Whether a class of a table is an interface. -/
def IsInterface (t : ClassTable) (id : ClassId) : Prop :=
  ∃ c, t.class? id = some c ∧ c.isInterface = true

theorem above_of_mem_chain (h : b ∈ t.chain a) : t.Above a b := by
  induction a using Nat.strongRecOn with
  | ind a ih =>
    rcases mem_chain.1 h with rfl | ⟨s, hs, hb⟩
    · exact .refl
    · exact .head (.inl hs) (ih s (superOf?_lt hs) hb)

theorem above_of_reachesInterface (h : t.reachesInterface a b = true) : t.Above a b := by
  induction a using Nat.strongRecOn with
  | ind a ih =>
    rcases reachesInterface_iff.1 h with rfl | ⟨i, hi, hib⟩
    · exact .refl
    · exact .head (.inr hi) (ih i (interfacesOf_lt hi) hib)

/-- What is above a class comes before it. -/
theorem le_of_above (h : t.Above a b) : b ≤ a := by
  induction h with
  | refl => exact le_rfl
  | tail _ hstep ih =>
    rcases hstep with hs | hi
    · exact (superOf?_lt hs).le.trans ih
    · exact (interfacesOf_lt hi).le.trans ih

theorem not_isArray_of_isInterface {c : LinkedClass} (h : c.isInterface = true) : c.isArray = false := by
  unfold LinkedClass.isInterface at h
  simp [LinkedClass.isArray, LinkedClass.component?, eq_of_beq h]

/-- The superinterfaces of a class that is no array class are interfaces. -/
theorem Built.isInterface_of_mem (ht : t.Built) {c : LinkedClass} (hc : t.class? a = some c)
    (hplain : c.isArray = false) : ∀ i ∈ t.interfacesOf a, t.IsInterface i := by
  intro i hi
  rw [interfacesOf_of_class? hc] at hi
  exact (ht.tabled a c hc).implementing hplain i hi

/-- What is reached by superinterfaces is an interface. -/
theorem Built.isInterface_of_reaches (ht : t.Built) (ha : ∀ i ∈ t.interfacesOf a, t.IsInterface i)
    (h : t.reachesInterface a b = true) (hne : b ≠ a) : t.IsInterface b := by
  induction a using Nat.strongRecOn with
  | ind a ih =>
    rcases reachesInterface_iff.1 h with rfl | ⟨i, hi, hib⟩
    · exact absurd rfl hne
    · by_cases hbi : b = i
      · subst hbi
        exact ha b hi
      · obtain ⟨c, hc, hinterface⟩ := ha i hi
        have hplain := not_isArray_of_isInterface hinterface
        exact ih i (interfacesOf_lt hi) (ht.isInterface_of_mem hc hplain) hib hbi

/-! ## Arrays -/

/-- What a class fits that is no array class is no array class. -/
theorem plain_of_fits (h : t.Fits a b) (ha : t.componentOf? a = none) : t.componentOf? b = none := by
  cases h with
  | refl => exact ha
  | primitives hca => rw [ha] at hca; cases hca
  | arrays hca => rw [ha] at hca; cases hca
  | extending hb hcomp => rw [componentOf?_of_class? hb, hcomp]
  | implementing hb hcomp => rw [componentOf?_of_class? hb, hcomp]

theorem fits_arrays_iff {x y : ClassId} (ha : t.componentOf? a = some (.reference x))
    (hb : t.componentOf? b = some (.reference y)) : t.Fits a b ↔ t.Fits x y := by
  refine ⟨fun h => ?_, .arrays ha hb⟩
  cases h with
  | refl =>
    obtain ⟨rfl⟩ := Component.reference.inj (Option.some.inj (ha.symm.trans hb))
    exact .refl _
  | primitives hca => rw [ha] at hca; cases hca
  | arrays hca hcb hxy =>
    obtain ⟨rfl⟩ := Component.reference.inj (Option.some.inj (ha.symm.trans hca))
    obtain ⟨rfl⟩ := Component.reference.inj (Option.some.inj (hb.symm.trans hcb))
    exact hxy
  | extending hc hcomp => rw [componentOf?_of_class? hc, hcomp] at hb; cases hb
  | implementing hc hcomp => rw [componentOf?_of_class? hc, hcomp] at hb; cases hb

end ClassTable

/-! ## The classes of a registry -/

namespace Registry

variable {r : Registry} {a b d : ClassId} {c : LinkedClass}

/-- A superclass is no array class. -/
theorem WellFormed.plain_of_superOf? (hr : r.WellFormed) (h : r.table.superOf? a = some b) :
    r.table.componentOf? b = none := by
  obtain ⟨c, hc, hs⟩ := Option.bind_eq_some_iff.1 h
  cases hcomp : c.component? with
  | none =>
    have hplain : c.isArray = false := by simp [LinkedClass.isArray, hcomp]
    obtain ⟨e, he, hkind, -⟩ := (hr.built.tabled a c hc).extending b hs
    have hordinary := ClassTable.isArray_of_kind (hkind hplain)
    rw [ClassTable.componentOf?_of_class? he]
    simpa [LinkedClass.isArray] using hordinary
  | some component =>
    have hshape := (hr.linked.shape a c hc).array component (kind_of_component? hcomp)
    obtain ⟨o, ho, hsuper⟩ := hshape.superclass
    obtain rfl : o = b := Option.some.inj (hsuper.symm.trans hs)
    obtain ⟨e, he, hname, -⟩ := hr.linked.names _ _ _ ho
    rw [ClassTable.componentOf?_of_class? he]
    exact hr.linked.component?_eq_none_of_name he (by rw [hname]; decide)

theorem WellFormed.plain_of_mem_chain (hr : r.WellFormed) (h : b ∈ r.table.chain a) (hne : b ≠ a) :
    r.table.componentOf? b = none := by
  induction a using Nat.strongRecOn with
  | ind a ih =>
    rcases ClassTable.mem_chain.1 h with rfl | ⟨s, hs, hb⟩
    · exact absurd rfl hne
    · by_cases hbs : b = s
      · subst hbs
        exact hr.plain_of_superOf? hs
      · exact ih s (ClassTable.superOf?_lt hs) hb hbs

theorem exists_of_componentOf?_eq_none (hb : b < r.table.size) (hplain : r.table.componentOf? b = none) :
    ∃ e, r.table.class? b = some e ∧ e.component? = none := by
  obtain ⟨e, he⟩ := ClassTable.class?_of_lt hb
  rw [ClassTable.componentOf?_of_class? he] at hplain
  exact ⟨e, he, hplain⟩

/-- The superinterfaces of the superclasses are interfaces, if those of the class are. -/
theorem WellFormed.isInterface_of_mem_chain (hr : r.WellFormed) (hc : r.table.class? a = some c)
    (ha : ∀ i ∈ r.table.interfacesOf a, r.table.IsInterface i) (hd : d ∈ r.table.chain a) :
    ∀ i ∈ r.table.interfacesOf d, r.table.IsInterface i := by
  by_cases hda : d = a
  · rw [hda]
    exact ha
  · have hlt : d < r.table.size :=
      (ClassTable.le_of_mem_chain hd).trans_lt (ClassTable.lt_of_class? hc)
    obtain ⟨e, he, hplain⟩ := exists_of_componentOf?_eq_none hlt (hr.plain_of_mem_chain hd hda)
    exact hr.built.isInterface_of_mem he (by simp [LinkedClass.isArray, hplain])

/-- What is above a class is a superclass, or is reached from one by superinterfaces: the superclass of an
interface is the object class, which every chain ends in. -/
theorem WellFormed.above_iff (hr : r.WellFormed) (hc : r.table.class? a = some c)
    (ha : ∀ i ∈ r.table.interfacesOf a, r.table.IsInterface i) :
    r.table.Above a b ↔ ∃ d ∈ r.table.chain a, r.table.reachesInterface d b = true := by
  constructor
  · intro h
    induction h with
    | refl => exact ⟨a, ClassTable.mem_chain_self a, ClassTable.reachesInterface_iff.2 (.inl rfl)⟩
    | @tail x y _ hstep ih =>
      obtain ⟨d, hd, hdx⟩ := ih
      rcases hstep with hs | hi
      · -- a superclass of an interface, or one more step up the chain
        have hy : y ∈ r.table.chain x := ClassTable.mem_chain.2 (.inr ⟨y, hs, ClassTable.mem_chain_self y⟩)
        refine ⟨y, ?_, ClassTable.reachesInterface_iff.2 (.inl rfl)⟩
        by_cases hxd : x = d
        · exact ClassTable.mem_chain_trans hd (hxd ▸ hy)
        · obtain ⟨e, he, hinterface⟩ := hr.built.isInterface_of_reaches
            (hr.isInterface_of_mem_chain hc ha hd) hdx hxd
          have hsuper : e.superclass = some y := by rw [← ClassTable.superOf?_of_class? he, hs]
          exact hr.linked.regular.mem_chain_of_implements he hinterface hd hdx hsuper
            (ClassTable.mem_chain_self y)
      · have hxy : r.table.reachesInterface x y = true := ClassTable.reachesInterface_iff.2
          (.inr ⟨y, hi, ClassTable.reachesInterface_iff.2 (.inl rfl)⟩)
        exact ⟨d, hd, ClassTable.reachesInterface_trans hdx hxy⟩
  · rintro ⟨d, hd, hdb⟩
    exact (ClassTable.above_of_mem_chain hd).trans (ClassTable.above_of_reachesInterface hdb)

/-- Between classes of which one at least is no array class, assignability is the closure of superclasses
and superinterfaces. -/
theorem WellFormed.fits_iff_above (hr : r.WellFormed) (hc : r.table.class? a = some c)
    (ha : ∀ i ∈ r.table.interfacesOf a, r.table.IsInterface i)
    (hplain : r.table.componentOf? a = none ∨ r.table.componentOf? b = none) :
    r.table.Fits a b ↔ r.table.Above a b := by
  constructor
  · intro h
    cases h with
    | refl => exact .refl
    | primitives hca hcb => rw [hca, hcb] at hplain; simp at hplain
    | arrays hca hcb => rw [hca, hcb] at hplain; simp at hplain
    | extending _ _ _ hmem => exact ClassTable.above_of_mem_chain hmem
    | implementing _ _ _ hd hdb =>
      exact (ClassTable.above_of_mem_chain hd).trans (ClassTable.above_of_reachesInterface hdb)
  · intro h
    by_cases hba : b = a
    · rw [hba]
      exact .refl a
    · have hlt : b < r.table.size := (ClassTable.le_of_above h).trans_lt (ClassTable.lt_of_class? hc)
      obtain ⟨d, hd, hdb⟩ := (hr.above_iff hc ha).1 h
      by_cases hbd : b = d
      · rw [← hbd] at hd hdb
        obtain ⟨e, he, hcomp⟩ := exists_of_componentOf?_eq_none hlt (hr.plain_of_mem_chain hd hba)
        cases hi : e.isInterface with
        | false => exact .extending he hcomp hi hd
        | true => exact .implementing he hcomp hi hd hdb
      · obtain ⟨e, he, hi⟩ := hr.built.isInterface_of_reaches
          (hr.isInterface_of_mem_chain hc ha hd) hdb hbd
        have hcomp : e.component? = none := by
          simpa [LinkedClass.isArray] using ClassTable.not_isArray_of_isInterface hi
        exact .implementing he hcomp hi hd hdb

/-! ## A partial order -/

theorem le_of_fits (h : r.table.Fits a b) (hb : r.table.componentOf? b = none) : b ≤ a := by
  cases h with
  | refl => exact le_rfl
  | primitives _ hcb => rw [hb] at hcb; cases hcb
  | arrays _ hcb => rw [hb] at hcb; cases hcb
  | extending _ _ _ hmem => exact ClassTable.le_of_mem_chain hmem
  | implementing _ _ _ hd hdb =>
    exact (ClassTable.le_of_reachesInterface hdb).trans (ClassTable.le_of_mem_chain hd)

/-- There is one array class at most for each component type. -/
theorem Linked.eq_of_component (hr : r.Linked) {component : Component}
    (ha : r.table.componentOf? a = some component) (hb : r.table.componentOf? b = some component) :
    a = b := by
  obtain ⟨c, hc, hcomp⟩ := ClassTable.exists_of_componentOf? ha
  obtain ⟨d, hd, hcomp'⟩ := ClassTable.exists_of_componentOf? hb
  have hshape := (hr.shape a c hc).array component (kind_of_component? hcomp)
  have hshape' := (hr.shape b d hd).array component (kind_of_component? hcomp')
  cases component with
  | primitive p =>
    have hname := eq_of_elementName? (hshape.primitive p rfl) (hshape'.primitive p rfl)
    exact hr.eq_of_name hc hd hname
  | reference e =>
    obtain ⟨f, hf, -, helement⟩ := hshape.reference e rfl
    obtain ⟨f', hf', -, helement'⟩ := hshape'.reference e rfl
    obtain rfl := Option.some.inj (hf.symm.trans hf')
    exact hr.eq_of_name hc hd (eq_of_elementName? helement helement')

/-- Of two classes that fit each other neither has the greater number, unless both are array classes. -/
theorem eq_of_fits_of_plain (hab : r.table.Fits a b) (hba : r.table.Fits b a)
    (hb : r.table.componentOf? b = none) : a = b := by
  have ha : r.table.componentOf? a = none := ClassTable.plain_of_fits hba hb
  exact le_antisymm (le_of_fits hba ha) (le_of_fits hab hb)

/-- Classes that fit each other are the same. -/
theorem Linked.fits_antisymm (hr : r.Linked) (hab : r.table.Fits a b) (hba : r.table.Fits b a) :
    a = b := by
  induction hab with
  | refl => rfl
  | primitives ha hb => exact hr.eq_of_component ha hb
  | arrays ha hb _ ih =>
    obtain rfl := ih ((ClassTable.fits_arrays_iff hb ha).1 hba)
    exact hr.eq_of_component ha hb
  | extending he hcomp hi hmem =>
    have hplain := (ClassTable.componentOf?_of_class? he).trans hcomp
    exact eq_of_fits_of_plain (.extending he hcomp hi hmem) hba hplain
  | implementing he hcomp hi hd hdb =>
    have hplain := (ClassTable.componentOf?_of_class? he).trans hcomp
    exact eq_of_fits_of_plain (.implementing he hcomp hi hd hdb) hba hplain

/-- Every class fits the object class. -/
theorem Linked.exists_fits_object (hr : r.Linked) (hc : r.table.class? a = some c) :
    ∃ o d, r.table.class? o = some d ∧ d.name = objectName ∧ r.table.Fits a o := by
  obtain ⟨o, d, ho, hd, hroot⟩ := ClassTable.exists_root hc
  have hcomp := hr.component?_eq_none_of_superclass hd hroot
  refine ⟨o, d, hd, ((hr.shape o d hd).plain hcomp).superclass.1 hroot, ?_⟩
  cases hi : d.isInterface with
  | false => exact .extending hd hcomp hi ho
  | true => exact .implementing hd hcomp hi ho (ClassTable.reachesInterface_iff.2 (.inl rfl))

/-- An array class fits an interface that it names. -/
theorem fits_of_mem_interfacesOf (hb : b ∈ r.table.interfacesOf a) (hi : r.table.IsInterface b) :
    r.table.Fits a b := by
  obtain ⟨e, he, hinterface⟩ := hi
  have hcomp : e.component? = none := by
    simpa [LinkedClass.isArray] using ClassTable.not_isArray_of_isInterface hinterface
  exact .implementing he hcomp hinterface (ClassTable.mem_chain_self a)
    (ClassTable.reachesInterface_iff.2 (.inr ⟨b, hb, ClassTable.reachesInterface_iff.2 (.inl rfl)⟩))

/-! ## All classes of a registry -/

/-- Whether a registry has loaded a class. -/
def HasLoaded (r : Registry) (id : ClassId) : Prop := ∃ key : Key, r.loaded[key]? = some (.ok id)

/-- Whether a registry has loaded a class, and it has a name. -/
def HasNamed (r : Registry) (name : String) (id : ClassId) : Prop :=
  r.HasLoaded id ∧ ∃ c, r.table.class? id = some c ∧ c.name = name

/-- Whether assignability orders the classes that a registry has loaded. -/
structure Ordered (r : Registry) : Prop where
  refl : ∀ a, r.HasLoaded a → r.table.isAssignable a a = true
  trans : ∀ a b c, r.HasLoaded a → r.HasLoaded b → r.HasLoaded c →
    r.table.isAssignable a b = true → r.table.isAssignable b c = true → r.table.isAssignable a c = true
  antisymm : ∀ a b, r.HasLoaded a → r.HasLoaded b →
    r.table.isAssignable a b = true → r.table.isAssignable b a = true → a = b
  object : ∀ a, r.HasLoaded a → (∃ o, r.HasNamed objectName o) ∧
    ∀ o, r.HasNamed objectName o → r.table.isAssignable a o = true
  arrays : ∀ a b x y, r.HasLoaded a → r.HasLoaded b → r.table.componentOf? a = some (.reference x) →
    r.table.componentOf? b = some (.reference y) →
      (r.table.isAssignable a b = true ↔ r.table.isAssignable x y = true)
  core : ∀ a, r.HasLoaded a → (r.table.componentOf? a).isSome → ∀ n,
    n = CoreClasses.cloneableName ∨ n = CoreClasses.serializableName →
      (∃ i, r.HasNamed n i) ∧ ∀ i, r.HasNamed n i → r.table.IsInterface i →
        r.table.isAssignable a i = true
  closure : ∀ a b, r.HasLoaded a → r.HasLoaded b → r.table.componentOf? a = none →
    (r.table.isAssignable a b = true ↔ r.table.Above a b)
  closureOfArray : ∀ a b, r.HasLoaded a → r.HasLoaded b → r.table.componentOf? b = none →
    (∀ i ∈ r.table.interfacesOf a, r.table.IsInterface i) →
      (r.table.isAssignable a b = true ↔ r.table.Above a b)

theorem Linked.hasLoaded_iff (hr : r.Linked) : r.HasLoaded a ↔ ∃ c, r.table.class? a = some c := by
  constructor
  · rintro ⟨key, h⟩
    obtain ⟨c, hc, -⟩ := hr.names key.1 key.2 a h
    exact ⟨c, hc⟩
  · rintro ⟨c, hc⟩
    exact ⟨(c.loader, c.name), hr.found a c hc⟩

theorem Linked.eq_of_hasNamed (hr : r.Linked) {name : String} (ha : r.HasNamed name a)
    (hb : r.HasNamed name b) : a = b := by
  obtain ⟨-, c, hc, hname⟩ := ha
  obtain ⟨-, d, hd, hname'⟩ := hb
  exact hr.eq_of_name hc hd (hname.trans hname'.symm)

/-- A class that loading has come to under a name. -/
theorem Linked.hasNamed_of_loaded (hr : r.Linked) {loader : Loader} {name : String}
    (h : r.loaded[(loader, name)]? = some (.ok a)) : r.HasNamed name a := by
  obtain ⟨c, hc, hname, -⟩ := hr.names loader name a h
  exact ⟨⟨(loader, name), h⟩, c, hc, hname⟩

/-- The object class has been loaded with any class, which fits it. -/
theorem Linked.exists_hasNamed_object (hr : r.Linked) (ha : r.HasLoaded a) :
    ∃ o, r.HasNamed objectName o ∧ r.table.Fits a o := by
  obtain ⟨c, hc⟩ := hr.hasLoaded_iff.1 ha
  obtain ⟨o, d, hd, hname, hfits⟩ := hr.exists_fits_object hc
  exact ⟨o, ⟨hr.hasLoaded_iff.2 ⟨d, hd⟩, d, hd, hname⟩, hfits⟩

/-- What can be cloned and what can be serialized has been loaded with any array class, which names it. -/
theorem Linked.exists_hasNamed_core (hr : r.Linked) (harray : (r.table.componentOf? a).isSome) {n : String}
    (hn : n = CoreClasses.cloneableName ∨ n = CoreClasses.serializableName) :
    ∃ k, r.HasNamed n k ∧ k ∈ r.table.interfacesOf a := by
  obtain ⟨component, hcomp⟩ := Option.isSome_iff_exists.1 harray
  obtain ⟨c, hc, hcomp⟩ := ClassTable.exists_of_componentOf? hcomp
  obtain ⟨i, j, hi, hj, hinterfaces⟩ :=
    ((hr.shape a c hc).array component (kind_of_component? hcomp)).interfaces
  rw [ClassTable.interfacesOf_of_class? hc, hinterfaces]
  rcases hn with rfl | rfl
  · exact ⟨i, hr.hasNamed_of_loaded hi, List.mem_cons_self⟩
  · exact ⟨j, hr.hasNamed_of_loaded hj, List.mem_cons_of_mem _ List.mem_cons_self⟩

theorem WellFormed.ordered (hr : r.WellFormed) : r.Ordered where
  refl a _ := ClassTable.isAssignable_iff.2 (.refl a)
  trans a b c _ _ _ hab hbc := by
    rw [ClassTable.isAssignable_iff] at hab hbc ⊢
    exact hab.trans hr.linked.regular hbc
  antisymm a b _ _ hab hba := by
    rw [ClassTable.isAssignable_iff] at hab hba
    exact hr.linked.fits_antisymm hab hba
  object a ha := by
    obtain ⟨o, ho, hfits⟩ := hr.linked.exists_hasNamed_object ha
    refine ⟨⟨o, ho⟩, fun o' ho' => ?_⟩
    rw [hr.linked.eq_of_hasNamed ho' ho, ClassTable.isAssignable_iff]
    exact hfits
  arrays a b x y _ _ ha hb := by
    rw [ClassTable.isAssignable_iff, ClassTable.isAssignable_iff]
    exact ClassTable.fits_arrays_iff ha hb
  core a _ harray n hn := by
    obtain ⟨k, hk, hka⟩ := hr.linked.exists_hasNamed_core harray hn
    refine ⟨⟨k, hk⟩, fun k' hk' hinterface => ?_⟩
    rw [hr.linked.eq_of_hasNamed hk' hk] at hinterface ⊢
    rw [ClassTable.isAssignable_iff]
    exact fits_of_mem_interfacesOf hka hinterface
  closure a b ha _ hplain := by
    obtain ⟨c, hc⟩ := hr.linked.hasLoaded_iff.1 ha
    have hcomp : c.isArray = false := by
      rw [ClassTable.componentOf?_of_class? hc] at hplain
      simp [LinkedClass.isArray, hplain]
    rw [ClassTable.isAssignable_iff]
    exact hr.fits_iff_above hc (hr.built.isInterface_of_mem hc hcomp) (.inl hplain)
  closureOfArray a b ha _ hplain hinterfaces := by
    obtain ⟨c, hc⟩ := hr.linked.hasLoaded_iff.1 ha
    rw [ClassTable.isAssignable_iff]
    exact hr.fits_iff_above hc hinterfaces (.inr hplain)

end Registry

/-! ## Behind classes that are forgotten -/

section

variable {b : Nat} {t₀ t : ClassTable} {r₀ r : Registry} {i j : ClassId}

theorem ClassTable.Behind.above (h : Behind b t₀ t) (hij : t₀.Above i j) : t.Above (i + b) (j + b) := by
  induction hij with
  | refl => exact .refl
  | tail _ hstep ih =>
    refine .tail ih ?_
    rw [h.superOf?, h.interfacesOf]
    rcases hstep with hs | hi
    · exact .inl (by rw [hs]; rfl)
    · exact .inr (List.mem_map_of_mem hi)

theorem ClassTable.Behind.exists_above (h : Behind b t₀ t) {x : ClassId} (hx : t.Above (i + b) x) :
    ∃ j, t₀.Above i j ∧ x = j + b := by
  induction hx with
  | refl => exact ⟨i, .refl, rfl⟩
  | tail _ hstep ih =>
    obtain ⟨j, hij, rfl⟩ := ih
    rw [h.superOf?, h.interfacesOf] at hstep
    rcases hstep with hs | hi
    · obtain ⟨k, hk, rfl⟩ := Option.map_eq_some_iff.1 hs
      exact ⟨k, .tail hij (.inl hk), rfl⟩
    · obtain ⟨k, hk, rfl⟩ := List.mem_map.1 hi
      exact ⟨k, .tail hij (.inr hk), rfl⟩

theorem ClassTable.Behind.above_iff (h : Behind b t₀ t) :
    t.Above (i + b) (j + b) ↔ t₀.Above i j := by
  refine ⟨fun hij => ?_, h.above⟩
  obtain ⟨k, hk, hkb⟩ := h.exists_above hij
  obtain rfl : j = k := Nat.add_right_cancel hkb
  exact hk

theorem ClassTable.Behind.isAssignable (h : Behind b t₀ t) :
    t.isAssignable (i + b) (j + b) = true ↔ t₀.isAssignable i j = true := by
  rw [isAssignable_iff, isAssignable_iff]
  exact h.fits_iff

theorem ClassTable.Behind.isInterface (h : Behind b t₀ t) : t.IsInterface (i + b) ↔ t₀.IsInterface i := by
  constructor
  · rintro ⟨c, hc, hi⟩
    obtain ⟨c₀, hc₀, rfl⟩ := h.exists_class? hc
    rw [LinkedClass.isInterface_renumber] at hi
    exact ⟨c₀, hc₀, hi⟩
  · rintro ⟨c₀, hc₀, hi⟩
    exact ⟨_, h.class? hc₀, by rw [LinkedClass.isInterface_renumber, hi]⟩

theorem Registry.Behind.hasLoaded (h : r₀.Behind b r) {id : ClassId} :
    r.HasLoaded id ↔ ∃ id₀, r₀.HasLoaded id₀ ∧ id = id₀ + b := by
  constructor
  · rintro ⟨key, hkey⟩
    obtain ⟨id₀, hkey₀, rfl⟩ := h.loaded_ok_iff.1 hkey
    exact ⟨id₀, ⟨key, hkey₀⟩, rfl⟩
  · rintro ⟨id₀, ⟨key, hkey₀⟩, rfl⟩
    exact ⟨key, h.loaded_ok_iff.2 ⟨id₀, hkey₀, rfl⟩⟩

theorem Registry.Behind.hasNamed (h : r₀.Behind b r) {name : String} {id : ClassId} :
    r.HasNamed name id ↔ ∃ id₀, r₀.HasNamed name id₀ ∧ id = id₀ + b := by
  constructor
  · rintro ⟨hid, c, hc, hname⟩
    obtain ⟨id₀, hid₀, rfl⟩ := h.hasLoaded.1 hid
    obtain ⟨c₀, hc₀, rfl⟩ := h.classes.exists_class? hc
    exact ⟨id₀, ⟨hid₀, c₀, hc₀, hname⟩, rfl⟩
  · rintro ⟨id₀, ⟨hid₀, c₀, hc₀, hname⟩, rfl⟩
    exact ⟨h.hasLoaded.2 ⟨id₀, hid₀, rfl⟩, _, h.classes.class? hc₀, hname⟩

/-- The order is the same behind other classes. -/
theorem Registry.Ordered.behind (h₀ : r₀.Ordered) (h : r₀.Behind b r) : r.Ordered where
  refl a ha := by
    obtain ⟨a₀, ha₀, rfl⟩ := h.hasLoaded.1 ha
    exact h.classes.isAssignable.2 (h₀.refl a₀ ha₀)
  trans a d c ha hd hc hab hbc := by
    obtain ⟨a₀, ha₀, rfl⟩ := h.hasLoaded.1 ha
    obtain ⟨d₀, hd₀, rfl⟩ := h.hasLoaded.1 hd
    obtain ⟨c₀, hc₀, rfl⟩ := h.hasLoaded.1 hc
    rw [h.classes.isAssignable] at hab hbc ⊢
    exact h₀.trans a₀ d₀ c₀ ha₀ hd₀ hc₀ hab hbc
  antisymm a d ha hd hab hba := by
    obtain ⟨a₀, ha₀, rfl⟩ := h.hasLoaded.1 ha
    obtain ⟨d₀, hd₀, rfl⟩ := h.hasLoaded.1 hd
    rw [h.classes.isAssignable] at hab hba
    rw [h₀.antisymm a₀ d₀ ha₀ hd₀ hab hba]
  object a ha := by
    obtain ⟨a₀, ha₀, rfl⟩ := h.hasLoaded.1 ha
    obtain ⟨⟨o₀, ho₀⟩, hobject⟩ := h₀.object a₀ ha₀
    refine ⟨⟨o₀ + b, h.hasNamed.2 ⟨o₀, ho₀, rfl⟩⟩, fun o ho => ?_⟩
    obtain ⟨o₁, ho₁, rfl⟩ := h.hasNamed.1 ho
    exact h.classes.isAssignable.2 (hobject o₁ ho₁)
  arrays a d x y ha hd hx hy := by
    obtain ⟨a₀, ha₀, rfl⟩ := h.hasLoaded.1 ha
    obtain ⟨d₀, hd₀, rfl⟩ := h.hasLoaded.1 hd
    obtain ⟨x₀, hx₀, rfl⟩ := h.classes.componentOf?_reference.1 hx
    obtain ⟨y₀, hy₀, rfl⟩ := h.classes.componentOf?_reference.1 hy
    rw [h.classes.isAssignable, h.classes.isAssignable]
    exact h₀.arrays a₀ d₀ x₀ y₀ ha₀ hd₀ hx₀ hy₀
  core a ha harray n hn := by
    obtain ⟨a₀, ha₀, rfl⟩ := h.hasLoaded.1 ha
    rw [h.classes.componentOf?, Option.isSome_map] at harray
    obtain ⟨⟨i₀, hi₀⟩, hcore⟩ := h₀.core a₀ ha₀ harray n hn
    refine ⟨⟨i₀ + b, h.hasNamed.2 ⟨i₀, hi₀, rfl⟩⟩, fun i hi hinterface => ?_⟩
    obtain ⟨i₁, hi₁, rfl⟩ := h.hasNamed.1 hi
    exact h.classes.isAssignable.2 (hcore i₁ hi₁ (h.classes.isInterface.1 hinterface))
  closure a d ha hd hplain := by
    obtain ⟨a₀, ha₀, rfl⟩ := h.hasLoaded.1 ha
    obtain ⟨d₀, hd₀, rfl⟩ := h.hasLoaded.1 hd
    rw [h.classes.componentOf?, Option.map_eq_none_iff] at hplain
    rw [h.classes.isAssignable, h.classes.above_iff]
    exact h₀.closure a₀ d₀ ha₀ hd₀ hplain
  closureOfArray a d ha hd hplain hinterfaces := by
    obtain ⟨a₀, ha₀, rfl⟩ := h.hasLoaded.1 ha
    obtain ⟨d₀, hd₀, rfl⟩ := h.hasLoaded.1 hd
    rw [h.classes.componentOf?, Option.map_eq_none_iff] at hplain
    rw [h.classes.isAssignable, h.classes.above_iff]
    refine h₀.closureOfArray a₀ d₀ ha₀ hd₀ hplain fun i₀ hi₀ => ?_
    refine h.classes.isInterface.1 (hinterfaces (i₀ + b) ?_)
    rw [h.classes.interfacesOf]
    exact List.mem_map_of_mem hi₀

end

/-- **Assignability orders classes**: whatever is asked of a registry, teardowns included, assignability is a
partial order of the classes that it has loaded, with the object class on top. -/
theorem ordered_after (paths : ClassPaths) (requests : List Request) :
    (Registry.after paths requests).Ordered := by
  obtain ⟨b, r₀, hr₀, -, h⟩ := regrown_after paths requests
  exact hr₀.ordered.behind h

/-- Whether arrays are assignable to what can be cloned and what can be serialized. -/
def Registry.ArraysFitCore (r : Registry) : Prop :=
  ∀ a i n, r.HasLoaded a → (r.table.componentOf? a).isSome →
    n = CoreClasses.cloneableName ∨ n = CoreClasses.serializableName → r.HasNamed n i →
      r.table.isAssignable a i = true

/-- **A `Cloneable` that is no interface**: no array is assignable to it. -/
theorem not_arraysFitCore : ¬ (Registry.after OddCore.paths OddCore.requests).ArraysFitCore := by
  intro h
  have hclass := OddCore.holds_after.class?
  have hfound := OddCore.holds_after.found
  have hints : (Registry.after OddCore.paths OddCore.requests).table.componentOf? 3 =
      some (.primitive .int) := ClassTable.componentOf?_of_class? (hclass 3)
  have hfits := h 3 1 _ ⟨_, hfound 3 OddCore.ints rfl⟩ (by rw [hints]; rfl) (.inl rfl)
    ⟨⟨_, hfound 1 OddCore.cloneable rfl⟩, OddCore.cloneable, hclass 1, rfl⟩
  rw [ClassTable.isAssignable_iff] at hfits
  -- an ordinary class has to be a superclass of the array class
  cases hfits with
  | primitives _ hb => rw [ClassTable.componentOf?_of_class? (hclass 1)] at hb; cases hb
  | arrays _ hb => rw [ClassTable.componentOf?_of_class? (hclass 1)] at hb; cases hb
  | extending _ _ _ hmem =>
    rcases ClassTable.mem_chain.1 hmem with hne | ⟨s, hs, hmem⟩
    · cases hne
    · rw [ClassTable.superOf?_of_class? (hclass 3)] at hs
      cases hs
      exact absurd (ClassTable.le_of_mem_chain hmem) (by decide)
  | implementing hb _ hi =>
    cases (hclass 1).symm.trans hb
    cases hi

end Jvm.Linking
