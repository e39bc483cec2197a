import Mathlib
import Jvm.Proofs.Linking.Consistency
import Jvm.Proofs.Linking.Entering

/-! # The fields of instances and of classes

`ClassTable.layout` lists the instance fields of a class and of its superclasses, those of the superclasses
first. Their slots are 0, 1, 2 and so on, as far as the template of the class goes (`Built.slots_layout`), and
the template holds the values that the fields start with (`Built.template_layout`). Array classes have no
fields, not even those of the object class. The static fields of a class count from zero by themselves, and
the registry keeps a value for each (`Registry.HoldsStatics`). `fieldsLaidOut_after` puts this together. -/

namespace Jvm.Linking

open ClassFile

namespace ClassTable

variable {t t' : ClassTable} {id : ClassId} {c : LinkedClass} {f : Field}

/-! ## What a class inherits -/

/-- The template that a class begins with, that of its superclass. -/
def inherited (t : ClassTable) (c : LinkedClass) : Array Value :=
  ((c.superclass.bind t.class?).map (·.template)).getD #[]

theorem inherited_of_none (h : c.superclass = none) : t.inherited c = #[] := by
  rw [inherited, h]
  rfl

theorem inherited_of_some {s : ClassId} {d : LinkedClass} (hs : c.superclass = some s)
    (hd : t.class? s = some d) : t.inherited c = d.template := by
  rw [inherited, hs, Option.bind_some, hd]
  rfl

/-- How a class comes by its fields. -/
structure Fielded (t : ClassTable) (c : LinkedClass) : Prop where
  extending : c.isArray = false → ∀ s ∈ c.superclass, ∃ d, t.class? s = some d ∧ d.isArray = false
  declared : c.isArray = false → ∃ bytes file, ClassFile.parse bytes = .ok file ∧
    file.name = .ok c.name ∧ List.Forall₂ (Field.DeclaredBy file.pool) file.fields c.fields
  laidOut : c.isArray = false → c.LaidOut (t.inherited c)
  arrays : c.isArray = true → c.fields = [] ∧ c.template = #[]

theorem Fielded.mono (h : t.Within t') (hc : t.Fielded c) : t'.Fielded c where
  extending hplain s hs := by
    obtain ⟨d, hd, hdplain⟩ := hc.extending hplain s hs
    exact ⟨d, h s d hd, hdplain⟩
  declared := hc.declared
  laidOut hplain := by
    have hsame : t'.inherited c = t.inherited c := by
      cases hs : c.superclass with
      | none => rw [inherited_of_none hs, inherited_of_none hs]
      | some s =>
        obtain ⟨d, hd, -⟩ := hc.extending hplain s hs
        rw [inherited_of_some hs hd, inherited_of_some hs (h s d hd)]
    rw [hsame]
    exact hc.laidOut hplain
  arrays := hc.arrays

theorem superclass_of_linkedClass {self : ClassId} {loader : Loader} {name : String} {file : ClassFile}
    {superclass : Option (ClassId × LinkedClass)} {interfaces : List (ClassId × LinkedClass)}
    {statics : Array Value}
    (h : linkedClass self loader name file superclass interfaces = .ok (c, statics)) :
    c.name = name ∧ c.superclass = superclass.map (·.1) := by
  unfold linkedClass at h
  obtain ⟨fields, -, h⟩ := Verification.exists_of_bind h
  obtain ⟨verified, -, h⟩ := Verification.exists_of_bind h
  obtain ⟨methods, -, h⟩ := Verification.exists_of_bind h
  cases h
  exact ⟨rfl, rfl⟩

theorem isArray_of_kind (h : c.kind = .ordinary) : c.isArray = false := by
  simp [LinkedClass.isArray, LinkedClass.component?, h]

/-- A class that is entered comes by its fields in this way. -/
theorem Links.fielded (hc : t.Links c) : t.Fielded c := by
  cases hc with
  | @file loader name bytes file superclass interfaces _ statics hparse hname hsuper _ hlinked =>
    obtain ⟨hdeclared, hlaid, -⟩ := laidOut_of_linkedClass hlinked
    obtain ⟨rfl, hsuperclass⟩ := superclass_of_linkedClass hlinked
    have hinherited : t.inherited c = (superclass.map (·.2.template)).getD #[] := by
      cases superclass with
      | none => exact inherited_of_none hsuperclass
      | some s => exact inherited_of_some hsuperclass (hsuper s rfl).1
    have harray := isArray_of_linkedClass hlinked
    refine ⟨fun _ s hs => ?_, fun _ => ⟨bytes, file, hparse, hname, hdeclared⟩,
      fun _ => hinherited ▸ hlaid, fun h => ?_⟩
    · rw [hsuperclass] at hs
      obtain ⟨p, hp, rfl⟩ := Option.map_eq_some_iff.1 hs
      obtain ⟨hd, superName, hcheck⟩ := hsuper p hp
      exact ⟨p.2, hd, isArray_of_kind (kind_of_checkSuperclass hcheck)⟩
    · rw [harray] at h
      cases h
  | array hobject =>
    refine ⟨fun h => ?_, fun h => ?_, fun h => ?_, fun _ => ⟨rfl, rfl⟩⟩
    all_goals cases h

theorem Built.fielded (ht : t.Built) : ∀ id c, t.class? id = some c → t.Fielded c := by
  refine ht.forall (P := fun t _ c => t.Fielded c) (fun t t' _ c h hc => hc.mono h) ?_
  intro t c known _ _ hc
  exact hc.fielded.mono (within_push known)

/-! ## The fields along the superclasses -/

/-- The declared instance fields of the class of a number. -/
def instanceFieldsOf (t : ClassTable) (id : ClassId) : List Field :=
  ((t.class? id).map (·.instanceFields)).getD []

/-- The instance fields of a class and of its superclasses, those of the superclasses first. -/
def layout (t : ClassTable) (id : ClassId) : List Field :=
  (t.chain id).reverse.flatMap t.instanceFieldsOf

theorem instanceFieldsOf_of_class? (h : t.class? id = some c) :
    t.instanceFieldsOf id = c.instanceFields := by
  rw [instanceFieldsOf, h]
  rfl

theorem mem_layout : f ∈ t.layout id ↔
    ∃ b ∈ t.chain id, ∃ d, t.class? b = some d ∧ f ∈ d.instanceFields := by
  unfold layout
  rw [List.mem_flatMap]
  constructor
  · rintro ⟨b, hb, hf⟩
    cases hd : t.class? b with
    | none =>
      rw [instanceFieldsOf, hd] at hf
      cases hf
    | some d =>
      rw [instanceFieldsOf_of_class? hd] at hf
      exact ⟨b, List.mem_reverse.1 hb, d, hd, hf⟩
  · rintro ⟨b, hb, d, hd, hf⟩
    refine ⟨b, List.mem_reverse.2 hb, ?_⟩
    rw [instanceFieldsOf_of_class? hd]
    exact hf

theorem layout_of_root (hc : t.class? id = some c) (hs : c.superclass = none) :
    t.layout id = c.instanceFields := by
  have hsuper : t.superOf? id = none := by rw [superOf?_of_class? hc, hs]
  rw [layout, chain]
  split
  · next s hs' => rw [hsuper] at hs'; cases hs'
  · rw [List.reverse_singleton, List.flatMap_singleton, instanceFieldsOf_of_class? hc]

theorem layout_of_extending {s : ClassId} (hc : t.class? id = some c) (hs : c.superclass = some s) :
    t.layout id = t.layout s ++ c.instanceFields := by
  have hsuper : t.superOf? id = some s := by rw [superOf?_of_class? hc, hs]
  rw [layout, chain]
  split
  · next s' hs' =>
    rw [hsuper] at hs'
    cases hs'
    rw [List.reverse_cons, List.flatMap_append, List.flatMap_singleton, instanceFieldsOf_of_class? hc]
    rfl
  · next hs' => rw [hsuper] at hs'; cases hs'

/-- The template of a class holds what the fields on the chain start with. -/
theorem Built.template_layout (ht : t.Built) (hc : t.class? id = some c) (hplain : c.isArray = false) :
    c.template.toList = (t.layout id).map (·.type.defaultValue) := by
  -- the superclass has a smaller number
  induction id using Nat.strongRecOn generalizing c with
  | ind id ih =>
    have hfielded := ht.fielded id c hc
    have hlaid := hfielded.laidOut hplain
    cases hs : c.superclass with
    | none =>
      rw [inherited_of_none hs] at hlaid
      rw [layout_of_root hc hs, hlaid.template]
      rfl
    | some s =>
      obtain ⟨d, hd, hdplain⟩ := hfielded.extending hplain s hs
      have hlt : s < id := superOf?_lt ((superOf?_of_class? hc).trans hs)
      rw [inherited_of_some hs hd] at hlaid
      rw [layout_of_extending hc hs, List.map_append, hlaid.template, ih s hlt hd hdplain]

theorem Built.size_template (ht : t.Built) (hc : t.class? id = some c) (hplain : c.isArray = false) :
    c.template.size = (t.layout id).length := by
  rw [← Array.length_toList, ht.template_layout hc hplain, List.length_map]

/-- The slots along the chain are 0, 1, 2 and so on. -/
theorem Built.slots_layout (ht : t.Built) (hc : t.class? id = some c) (hplain : c.isArray = false) :
    (t.layout id).map (·.slot) = List.range c.template.size := by
  rw [ht.size_template hc hplain]
  induction id using Nat.strongRecOn generalizing c with
  | ind id ih =>
    have hfielded := ht.fielded id c hc
    have hlaid := hfielded.laidOut hplain
    cases hs : c.superclass with
    | none =>
      rw [inherited_of_none hs] at hlaid
      rw [layout_of_root hc hs, hlaid.instanceSlots, List.range_eq_range']
      rfl
    | some s =>
      obtain ⟨d, hd, hdplain⟩ := hfielded.extending hplain s hs
      have hlt : s < id := superOf?_lt ((superOf?_of_class? hc).trans hs)
      rw [inherited_of_some hs hd] at hlaid
      have hslots := hlaid.instanceSlots
      rw [ht.size_template hd hdplain] at hslots
      have hcount := List.range'_append_1 (s := 0) (m := (t.layout s).length)
        (n := c.instanceFields.length)
      rw [Nat.zero_add] at hcount
      rw [layout_of_extending hc hs, List.map_append, ih s hlt hd hdplain, hslots,
        List.length_append, List.range_eq_range', List.range_eq_range', hcount]

/-- Fields whose slots count from zero are found at their slots. -/
theorem slot_eq_of_getElem? {fs : List Field} {n i : Nat} (hslots : fs.map (·.slot) = List.range n)
    (hi : fs[i]? = some f) : f.slot = i := by
  have hslot := congrArg (·[i]?) hslots
  simp only [List.getElem?_map, hi, Option.map_some] at hslot
  obtain ⟨hlt, heq⟩ := List.getElem?_eq_some_iff.1 hslot.symm
  rw [← heq, List.getElem_range]

/-- A field on the chain has its slot in the template, with what a field of its type starts with. -/
theorem Built.getElem?_template (ht : t.Built) (hc : t.class? id = some c) (hplain : c.isArray = false)
    (hf : f ∈ t.layout id) : c.template[f.slot]? = some f.type.defaultValue := by
  obtain ⟨i, hi⟩ := List.mem_iff_getElem?.1 hf
  rw [slot_eq_of_getElem? (ht.slots_layout hc hplain) hi, ← Array.getElem?_toList,
    ht.template_layout hc hplain, List.getElem?_map, hi]
  rfl

end ClassTable

/-! ## The values of static fields -/

/-- Whether every class has a value for each of its static fields. -/
structure Registry.HoldsStatics (r : Registry) : Prop where
  states : r.states.size = r.table.size
  statics : ∀ id c s, r.table.class? id = some c → r.state? id = some s →
    s.statics.size = c.staticFields.length

/-- Whether a request leaves classes the number of static fields that they have. -/
def Request.KeepsStatics : Request → Prop
  | .update _ change => ∀ s : ClassState, (change s).statics.size = s.statics.size
  | _ => True

namespace Registry

variable {r r₁ r₂ : Registry} {id : ClassId} {c : LinkedClass}

/-- Whether all classes keep the values of their static fields from one registry to another one. -/
def KeepsStatics (r r' : Registry) : Prop := r.HoldsStatics → r'.HoldsStatics

instance : IsTrans Registry KeepsStatics := ⟨fun _ _ _ h₁ h₂ h => h₂ (h₁ h)⟩

theorem holdsStatics_empty : Registry.empty.HoldsStatics :=
  ⟨rfl, fun id c s hc => by simp [empty, ClassTable.class?, ClassTable.empty] at hc⟩

theorem Links.keepsStatics (h : r.Links r₁) : r.KeepsStatics r₁ := by
  intro hr
  cases h with
  | @entered c hc known init hinit statics hstatics =>
    refine ⟨by simpa [ClassTable.push, ClassTable.size] using hr.states, fun id d s hd hs => ?_⟩
    rw [ClassTable.class?_push] at hd
    rw [state?, Array.getElem?_push, hr.states] at hs
    by_cases hid : id = r.table.size
    · rw [if_pos hid] at hd hs
      cases hd
      cases hs
      have hlength := congrArg List.length hstatics
      rw [List.length_map, List.length_map, Array.length_toList] at hlength
      exact hlength.symm
    · rw [if_neg hid] at hd hs
      exact hr.statics id d s hd hs
  | recorded loaded => exact ⟨hr.states, hr.statics⟩

theorem LinksTo.keepsStatics (h : r.LinksTo r₁) : r.KeepsStatics r₁ := by
  induction h with
  | refl => exact id
  | tail _ hlast ih => exact fun hr => hlast.keepsStatics (ih hr)

/-- A change to the state of a class is felt by this class only. -/
theorem keepsStatics_modifyState {change : ClassState → ClassState}
    (hchange : ∀ s : ClassState, (change s).statics.size = s.statics.size) :
    r.KeepsStatics (r.modifyState id change) := by
  intro hr
  refine ⟨by simpa [modifyState] using hr.states, fun i d s' hd hs' => ?_⟩
  obtain ⟨s, hs, rfl | ⟨-, rfl⟩⟩ := state?_modifyState hs'
  · exact hr.statics i d _ hd hs
  · rw [hchange]
    exact hr.statics i d s hd hs

theorem keepsStatics_teardown (held : List ClassId) : r.KeepsStatics (r.teardown held) := by
  intro hr
  refine ⟨by simpa [teardown] using hr.states, fun i d s' hd hs' => ?_⟩
  rw [teardown, state?, Array.getElem?_map] at hs'
  obtain ⟨s, hs, rfl⟩ := Option.map_eq_some_iff.1 hs'
  exact hr.statics i d s hd hs

end Registry

theorem admits_keepsStatics (paths : ClassPaths) : Linker.Admits paths Registry.KeepsStatics where
  refl _ := id
  load loader name r := by
    have hload := builds_load paths [] loader name r
    rcases h : loadClass paths loader name r with ⟨id, r'⟩ | ⟨e, r'⟩
    · exact Linker.meets_of_ok h (hload.of_eq_ok h).1.keepsStatics trivial
    · exact Linker.meets_of_error h (hload.of_eq_error h).keepsStatics
  resolved r id change hresolved _ _ :=
    Registry.keepsStatics_modifyState fun s => by rw [hresolved s]

theorem Request.KeepsStatics.apply {paths : ClassPaths} {q : Request} (h : q.KeepsStatics)
    (r : Registry) : r.KeepsStatics (q.apply paths r) := by
  refine (admits_keepsStatics paths).apply ?_ ?_ ?_
  · rintro id change rfl
    exact Registry.keepsStatics_modifyState h
  · exact fun _ _ hr => ⟨hr.states, hr.statics⟩
  · rintro held -
    exact Registry.keepsStatics_teardown held

theorem holdsStatics_after (paths : ClassPaths) {requests : List Request}
    (h : ∀ q ∈ requests, q.KeepsStatics) : (Registry.after paths requests).HoldsStatics := by
  have hkeeps : Registry.KeepsStatics .empty (Registry.after paths requests) :=
    Registry.keeps_after (fun _ => id) fun q hq r => (h q hq).apply r
  exact hkeeps Registry.holdsStatics_empty

/-! ## The layout of all classes -/

/-- How the fields of a class are laid out. -/
structure Registry.FieldsLaidOut (r : Registry) (id : ClassId) (c : LinkedClass) : Prop where
  declared : c.isArray = false → ∃ bytes file, ClassFile.parse bytes = .ok file ∧
    file.name = .ok c.name ∧ List.Forall₂ (Field.DeclaredBy file.pool) file.fields c.fields
  template : c.isArray = false → c.template.toList =
    (r.table.inherited c).toList ++ c.instanceFields.map (·.type.defaultValue)
  distinct : c.isArray = false → ((r.table.layout id).map (·.slot)).Nodup
  holds : c.isArray = false → ∀ b ∈ r.table.chain id, ∀ d, r.table.class? b = some d →
    ∀ f ∈ d.instanceFields, f.slot < c.template.size ∧
      c.template[f.slot]? = some f.type.defaultValue
  arrays : c.isArray = true → c.fields = [] ∧ c.template = #[]
  staticSlots : (c.staticFields.map (·.slot)).Nodup
  statics : ∃ s, r.state? id = some s ∧ ∀ f ∈ c.staticFields, f.slot < s.statics.size

/-- The static fields of a class count from zero, array classes have none. -/
theorem ClassTable.Fielded.staticSlots {t : ClassTable} {c : LinkedClass} (h : t.Fielded c) :
    c.staticFields.map (·.slot) = List.range c.staticFields.length := by
  cases harray : c.isArray with
  | false => exact (h.laidOut harray).staticSlots
  | true =>
    have hnone : c.staticFields = [] := by
      rw [LinkedClass.staticFields, (h.arrays harray).1]
      rfl
    rw [hnone]
    rfl

/-- **The layout of fields**: whatever is asked of a registry, the instance fields of a class follow those of
its superclass, no two fields of the chain share a slot, and every slot holds what its field starts with. The
static fields of a class have slots and values of their own. -/
theorem fieldsLaidOut_after (paths : ClassPaths) (requests : List Request)
    (hkeeps : ∀ q ∈ requests, q.KeepsStatics) (id : ClassId) (c : LinkedClass)
    (hc : (Registry.after paths requests).table.class? id = some c) :
    (Registry.after paths requests).FieldsLaidOut id c := by
  have hbuilt := built_after paths requests
  have hholds := holdsStatics_after paths hkeeps
  have hfielded := hbuilt.fielded id c hc
  have hslots := hfielded.staticSlots
  refine ⟨hfielded.declared, fun hplain => (hfielded.laidOut hplain).template, fun hplain => ?_,
    fun hplain b hb d hd f hf => ?_, hfielded.arrays, ?_, ?_⟩
  · rw [hbuilt.slots_layout hc hplain]
    exact List.nodup_range
  · have hvalue := hbuilt.getElem?_template hc hplain (ClassTable.mem_layout.2 ⟨b, hb, d, hd, hf⟩)
    exact ⟨(Array.getElem?_eq_some_iff.1 hvalue).1, hvalue⟩
  · rw [hslots]
    exact List.nodup_range
  · have hlt : id < (Registry.after paths requests).states.size := by
      rw [hholds.states]
      exact ClassTable.lt_of_class? hc
    have hstate : (Registry.after paths requests).state? id = some _ := Array.getElem?_eq_getElem hlt
    refine ⟨_, hstate, fun f hf => ?_⟩
    rw [hholds.statics id c _ hc hstate]
    have hmem : f.slot ∈ c.staticFields.map (·.slot) := List.mem_map_of_mem hf
    rw [hslots] at hmem
    exact List.mem_range.1 hmem

/-! ### Arrays over an object class with a field

The object class has an instance field `x`. `Cloneable` is an ordinary class here and `Serializable` an
interface. A matrix has fields of one word and of two words, its class a constant. -/

namespace OddCore

/-- The class file of the object class. -/
def objectBytes : List UInt8 :=
  [0xCA, 0xFE, 0xBA, 0xBE, 0, 0, 0, 52, 0, 5,
   1, 0, 16, 106, 97, 118, 97, 47, 108, 97, 110, 103, 47, 79, 98, 106, 101, 99, 116, 7, 0, 1,
   1, 0, 1, 120, 1, 0, 1, 73,
   0, 0x21, 0, 2, 0, 0, 0, 0, 0, 1, 0, 0, 0, 3, 0, 4, 0, 0, 0, 0, 0, 0]

/-- The class file of `Cloneable`. -/
def cloneableBytes : List UInt8 :=
  [0xCA, 0xFE, 0xBA, 0xBE, 0, 0, 0, 52, 0, 5,
   1, 0, 19, 106, 97, 118, 97, 47, 108, 97, 110, 103, 47, 67, 108, 111, 110, 101, 97, 98, 108, 101,
   7, 0, 1,
   1, 0, 16, 106, 97, 118, 97, 47, 108, 97, 110, 103, 47, 79, 98, 106, 101, 99, 116, 7, 0, 3,
   0, 0x21, 0, 2, 0, 4, 0, 0, 0, 0, 0, 0, 0, 0]

/-- The class file of `Serializable`. -/
def serializableBytes : List UInt8 :=
  [0xCA, 0xFE, 0xBA, 0xBE, 0, 0, 0, 52, 0, 5,
   1, 0, 20, 106, 97, 118, 97, 47, 105, 111, 47, 83, 101, 114, 105, 97, 108, 105, 122, 97, 98, 108, 101,
   7, 0, 1,
   1, 0, 16, 106, 97, 118, 97, 47, 108, 97, 110, 103, 47, 79, 98, 106, 101, 99, 116, 7, 0, 3,
   6, 1, 0, 2, 0, 4, 0, 0, 0, 0, 0, 0, 0, 0]

/-- The class file of a class with the fields `static int made`, `static final long limit = 4096`, `int rows`,
`double scale` and `int[][] cells`. -/
def matrixBytes : List UInt8 :=
  [0xCA, 0xFE, 0xBA, 0xBE, 0, 0, 0, 52, 0, 18,
   1, 0, 6, 77, 97, 116, 114, 105, 120, 7, 0, 1,
   1, 0, 16, 106, 97, 118, 97, 47, 108, 97, 110, 103, 47, 79, 98, 106, 101, 99, 116, 7, 0, 3,
   1, 0, 3, 91, 91, 73, 7, 0, 5, 1, 0, 1, 73, 1, 0, 1, 74, 1, 0, 1, 68,
   1, 0, 4, 109, 97, 100, 101, 1, 0, 5, 108, 105, 109, 105, 116, 1, 0, 4, 114, 111, 119, 115,
   1, 0, 5, 115, 99, 97, 108, 101, 1, 0, 5, 99, 101, 108, 108, 115,
   1, 0, 13, 67, 111, 110, 115, 116, 97, 110, 116, 86, 97, 108, 117, 101, 5, 0, 0, 0, 0, 0, 0, 16, 0,
   0, 0x21, 0, 2, 0, 4, 0, 0, 0, 5,
   0, 8, 0, 10, 0, 7, 0, 0, 0, 0x18, 0, 11, 0, 8, 0, 1, 0, 15, 0, 0, 0, 2, 0, 16,
   0, 0, 0, 12, 0, 7, 0, 0, 0, 0, 0, 13, 0, 9, 0, 0, 0, 0, 0, 14, 0, 5, 0, 0, 0, 0, 0, 0]

/-- The class paths. -/
def paths : ClassPaths where
  boot := .ofFiles [("java/lang/Object", objectBytes), ("java/lang/Cloneable", cloneableBytes),
    ("java/io/Serializable", serializableBytes), ("Matrix", matrixBytes)]
  app := .empty

/-- The core classes are loaded, the classes of arrays of integers and of arrays of these, and the class of
matrices. -/
def requests : List Request :=
  [.load .boot "java/lang/Object", .load .boot "java/lang/Cloneable", .load .boot "java/io/Serializable",
    .load .boot "[I", .load .boot "[[I", .load .boot "Matrix"]

/-- A class file without methods. -/
def file (constants : Array Constant) (access superClass : UInt16) (fields : List MemberInfo) :
    ClassFile where
  minor := 0
  major := 52
  pool := ⟨constants⟩
  access := ⟨access⟩
  thisClass := 2
  superClass := superClass
  interfaces := []
  fields := fields
  methods := []
  attributes := []

def objectFile : ClassFile :=
  file #[.unusable, .utf8 "java/lang/Object", .classRef 1, .utf8 "x", .utf8 "I"] 0x21 0 [⟨⟨0⟩, 3, 4, []⟩]

def cloneableFile : ClassFile :=
  file #[.unusable, .utf8 "java/lang/Cloneable", .classRef 1, .utf8 "java/lang/Object", .classRef 3]
    0x21 4 []

def serializableFile : ClassFile :=
  file #[.unusable, .utf8 "java/io/Serializable", .classRef 1, .utf8 "java/lang/Object", .classRef 3]
    0x601 4 []

def matrixFile : ClassFile :=
  file #[.unusable, .utf8 "Matrix", .classRef 1, .utf8 "java/lang/Object", .classRef 3, .utf8 "[[I", .classRef 5,
    .utf8 "I", .utf8 "J", .utf8 "D", .utf8 "made", .utf8 "limit", .utf8 "rows", .utf8 "scale", .utf8 "cells",
    .utf8 "ConstantValue", .long 4096, .unusable] 0x21 4
    [⟨⟨8⟩, 10, 7, []⟩, ⟨⟨0x18⟩, 11, 8, [⟨15, .constantValue 16⟩]⟩, ⟨⟨0⟩, 12, 7, []⟩, ⟨⟨0⟩, 13, 9, []⟩, ⟨⟨0⟩, 14, 5, []⟩]

theorem parse_objectBytes : parse objectBytes = .ok objectFile := by rfl

theorem parse_cloneableBytes : parse cloneableBytes = .ok cloneableFile := by rfl

theorem parse_serializableBytes : parse serializableBytes = .ok serializableFile := by rfl

set_option maxRecDepth 2000 in
theorem parse_matrixBytes : parse matrixBytes = .ok matrixFile := by rfl

/-- A class linked from a class file. -/
def linked (name : String) (kind : ClassKind) (superclass : Option ClassId) (fields : List Field)
    (file : ClassFile) : LinkedClass where
  name := name
  loader := .boot
  access := file.access
  kind := kind
  superclass := superclass
  interfaces := []
  fields := fields
  template := #[.int 0]
  methods := []
  methodTable := .empty
  pool := file.pool
  source := none

def object : LinkedClass :=
  linked "java/lang/Object" .ordinary none [⟨"x", "I", .int, ⟨0⟩, 0, none⟩] objectFile

def cloneable : LinkedClass := linked "java/lang/Cloneable" .ordinary (some 0) [] cloneableFile

def serializable : LinkedClass := linked "java/io/Serializable" .interface (some 0) [] serializableFile

def ints : LinkedClass := arrayClass .boot "[I" (.primitive .int) 0 1 2 object.methodTable

def grids : LinkedClass := arrayClass .boot "[[I" (.reference 3) 0 1 2 object.methodTable

def matrix : LinkedClass :=
  { linked "Matrix" .ordinary (some 0)
      [⟨"made", "I", .int, ⟨8⟩, 0, none⟩, ⟨"limit", "J", .long, ⟨0x18⟩, 1, some 16⟩, ⟨"rows", "I", .int, ⟨0⟩, 1, none⟩,
        ⟨"scale", "D", .double, ⟨0⟩, 2, none⟩, ⟨"cells", "[[I", .array (.array .int), ⟨0⟩, 3, none⟩] matrixFile with
    template := #[.int 0, .int 0, .double 0, .null] }

theorem linkedClass_object :
    linkedClass 0 .boot "java/lang/Object" objectFile none [] = .ok (object, #[]) := by
  decide +kernel

theorem linkedClass_cloneable : linkedClass 1 .boot "java/lang/Cloneable" cloneableFile
    (some (0, object)) [] = .ok (cloneable, #[]) := by
  decide +kernel

theorem linkedClass_serializable : linkedClass 2 .boot "java/io/Serializable" serializableFile
    (some (0, object)) [] = .ok (serializable, #[]) := by
  decide +kernel

theorem linkedClass_matrix : linkedClass 5 .boot "Matrix" matrixFile (some (0, object)) [] =
    .ok (matrix, #[.int 0, .long 4096]) := by
  decide +kernel

/-- The object class is loaded first. -/
theorem holds_object {paths : ClassPaths} (hfind : paths.boot.find "java/lang/Object" = .ok (some objectBytes)) :
    (Request.apply paths .empty (.load .boot "java/lang/Object")).Holds [object] :=
  holds_apply_load holds_empty (by decide) (by decide) hfind parse_objectBytes rfl rfl
    (fun _ => rfl) (fun s hs => by cases hs) rfl (fun p hp => by cases hp) linkedClass_object rfl (by decide)

theorem holds_after : (Registry.after paths requests).Holds
    [object, cloneable, serializable, ints, grids, matrix] := by
  have h₁ : (Request.apply paths .empty (.load .boot "java/lang/Object")).Holds [object] := holds_object rfl
  have h₂ : (Request.apply paths _ (.load .boot "java/lang/Cloneable")).Holds [object, cloneable] :=
    holds_apply_load h₁ (by decide) (by decide) rfl parse_cloneableBytes rfl rfl
      (fun h => by cases h) (fun s hs => by cases hs; exact ⟨rfl, rfl⟩) rfl (fun p hp => by cases hp)
      linkedClass_cloneable rfl (by decide)
  have h₃ : (Request.apply paths _ (.load .boot "java/io/Serializable")).Holds
      [object, cloneable, serializable] :=
    holds_apply_load h₂ (by decide) (by decide) rfl parse_serializableBytes rfl rfl
      (fun h => by cases h) (fun s hs => by cases hs; exact ⟨rfl, rfl⟩) rfl (fun p hp => by cases hp)
      linkedClass_serializable rfl (by decide)
  have h₄ : (Request.apply paths _ (.load .boot "[I")).Holds [object, cloneable, serializable, ints] :=
    holds_apply_load_array h₃ (by decide) (by decide) rfl rfl (h₃.found 1 cloneable rfl)
      (h₃.found 2 serializable rfl) (by decide)
  have h₅ : (Request.apply paths _ (.load .boot "[[I")).Holds [object, cloneable, serializable, ints, grids] :=
    holds_apply_load_arrays h₄ (e := 3) (by decide) (by decide) rfl rfl rfl rfl (h₄.found 1 cloneable rfl)
      (h₄.found 2 serializable rfl) (by decide)
  exact holds_apply_load h₅ (by decide) (by decide) rfl parse_matrixBytes rfl rfl (fun h => by cases h)
    (fun s hs => by cases hs; exact ⟨rfl, rfl⟩) rfl (fun p hp => by cases hp) linkedClass_matrix rfl (by decide)

end OddCore

/-- Matrices inherit the field of the object class here, and have fields of one word and of two words behind
it; their class has static fields of its own. -/
theorem fieldsLaidOut_matrix : (∀ q ∈ OddCore.requests, q.KeepsStatics) ∧
    (Registry.after OddCore.paths OddCore.requests).table.class? 5 = some OddCore.matrix ∧
    (Registry.after OddCore.paths OddCore.requests).FieldsLaidOut 5 OddCore.matrix := by
  have hkeeps : ∀ q ∈ OddCore.requests, q.KeepsStatics := by
    simp [OddCore.requests, Request.KeepsStatics]
  have hclass := OddCore.holds_after.class? 5
  exact ⟨hkeeps, hclass, fieldsLaidOut_after _ _ hkeeps 5 OddCore.matrix hclass⟩

/-- Whether all classes but interfaces begin with the template of their superclass. -/
def ClassTable.ExtendsTemplates (t : ClassTable) : Prop :=
  ∀ id c, t.class? id = some c → c.isInterface = false → c.template.toList =
    (t.inherited c).toList ++ c.instanceFields.map (·.type.defaultValue)

/-- **Arrays have no fields**: where the object class has one, array classes do not begin with its
template. -/
theorem not_extendsTemplates :
    ¬ (Registry.after OddCore.paths OddCore.requests).table.ExtendsTemplates := by
  intro h
  have hclass := OddCore.holds_after.class?
  have hinherited : (Registry.after OddCore.paths OddCore.requests).table.inherited OddCore.ints =
      #[.int 0] := ClassTable.inherited_of_some rfl (hclass 0)
  have hints := h 3 OddCore.ints (hclass 3) rfl
  rw [hinherited] at hints
  cases hints

end Jvm.Linking
