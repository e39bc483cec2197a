import Mathlib
import Jvm.Proofs.Linking.Assignability

/-! # Where fields are found

Looking a field up goes over the declared fields, the superinterfaces and the superclass, while instances are
laid out along the superclasses only. `found_after`: a field that belongs to instances and is found in a class
or a superclass has its slot in the template, where no other field of the chain has one. A field that is found
in an interface has a slot of the interface, which says nothing about instances of the class. -/

namespace Jvm.Linking

open ClassFile

/-! ## Instance fields -/

/-- What holds of an instance field that is found when it is looked up in a class. -/
structure Registry.FieldFound (r : Registry) (id : ClassId) (c : LinkedClass) (n d : String)
    (f : ClassTable.ResolvedField) : Prop where
  declared : ∃ o g, r.table.class? f.owner = some o ∧ g ∈ o.instanceFields ∧ g.name = n ∧
    g.descriptor = d ∧ f = ⟨f.owner, g.slot, false, g.type⟩
  above : r.table.Above id f.owner
  laidOut : c.isArray = false → ¬ r.table.IsInterface f.owner → f.owner ∈ r.table.chain id ∧
    f.slot < c.template.size ∧ c.template[f.slot]? = some f.type.defaultValue
  interface : ∀ o, r.table.class? f.owner = some o → o.isInterface = true →
    f.slot < o.template.size ∧ o.template[f.slot]? = some f.type.defaultValue

/-- The slot of an instance field is in the template of every class with the owner in its chain. -/
theorem ClassTable.Built.slot_lt {t : ClassTable} (ht : t.Built) {id owner : ClassId} {c o : LinkedClass}
    (hc : t.class? id = some c) (hplain : c.isArray = false) (howner : owner ∈ t.chain id)
    (ho : t.class? owner = some o) {g : Field} (hg : g ∈ o.instanceFields) :
    g.slot < c.template.size ∧ c.template[g.slot]? = some g.type.defaultValue := by
  have hvalue := ht.getElem?_template hc hplain (ClassTable.mem_layout.2 ⟨owner, howner, o, ho, hg⟩)
  exact ⟨(Array.getElem?_eq_some_iff.1 hvalue).1, hvalue⟩

theorem Registry.WellFormed.fieldFound {r : Registry} (hr : r.WellFormed) {id : ClassId} {c : LinkedClass}
    (hc : r.table.class? id = some c) {n d : String} {f : ClassTable.ResolvedField}
    (h : r.table.field? id n d = some f) (hinstance : f.isStatic = false) :
    r.FieldFound id c n d f := by
  obtain ⟨habove, hdeclared⟩ := ClassTable.exists_of_field? h
  obtain ⟨o, g, ho, hg, hname, hdescriptor, hf⟩ := ClassTable.exists_of_declaredField? hdeclared
  have hstatic : g.isStatic = false := by
    rw [hf] at hinstance
    exact hinstance
  have hgi : g ∈ o.instanceFields := List.mem_filter.2 ⟨hg, by simp [hstatic]⟩
  have hslot : f.slot = g.slot := congrArg ClassTable.ResolvedField.slot hf
  have htype : f.type = g.type := congrArg ClassTable.ResolvedField.type hf
  refine ⟨⟨o, g, ho, hgi, hname, hdescriptor, by rw [← hstatic]; exact hf⟩, habove,
    fun hplain hnot => ?_, fun o' ho' hi => ?_⟩
  · have hchain : f.owner ∈ r.table.chain id := by
      have hinterfaces := hr.built.isInterface_of_mem hc hplain
      obtain ⟨e, he, hreach⟩ := (hr.above_iff hc hinterfaces).1 habove
      by_cases howner : f.owner = e
      · rw [howner]
        exact he
      · exact absurd (hr.built.isInterface_of_reaches (hr.isInterface_of_mem_chain hc hinterfaces he)
          hreach howner) hnot
    rw [hslot, htype]
    exact ⟨hchain, hr.built.slot_lt hc hplain hchain ho hgi⟩
  · obtain rfl := Option.some.inj (ho.symm.trans ho')
    rw [hslot, htype]
    exact hr.built.slot_lt ho (ClassTable.not_isArray_of_isInterface hi) (ClassTable.mem_chain_self _) ho hgi

/-! ## Behind classes that are forgotten -/

theorem ClassTable.Behind.declaredField? {t₀ t : ClassTable} {b : Nat} (h : Behind b t₀ t) (id : ClassId)
    (n d : String) : t.declaredField? (id + b) n d =
      (t₀.declaredField? id n d).map fun f => { f with owner := f.owner + b } := by
  unfold ClassTable.declaredField?
  rw [h id]
  cases t₀.class? id with
  | none => rfl
  | some c =>
    have hfield : (c.renumber (· + b)).field? n d = c.field? n d := rfl
    simp only [Option.map_some, Option.bind_eq_bind, Option.bind_some, hfield]
    cases c.field? n d <;> rfl

/-- A search over classes that are behind others finds what the search over the classes finds. -/
theorem findSome?_renumbered {ids : List ClassId} {b : Nat}
    {find find₀ : ClassId → Option ClassTable.ResolvedField}
    (h : ∀ i ∈ ids, find (i + b) = (find₀ i).map fun f => { f with owner := f.owner + b }) :
    (ids.map (· + b)).findSome? find =
      (ids.findSome? find₀).map fun f => { f with owner := f.owner + b } := by
  induction ids with
  | nil => rfl
  | cons i rest ih =>
    rw [List.map_cons, List.findSome?_cons, List.findSome?_cons, h i List.mem_cons_self]
    cases find₀ i with
    | none => exact ih fun j hj => h j (List.mem_cons_of_mem _ hj)
    | some f => rfl

theorem ClassTable.Behind.field? {t₀ t : ClassTable} {b : Nat} (h : Behind b t₀ t) (id : ClassId)
    (n d : String) : t.field? (id + b) n d =
      (t₀.field? id n d).map fun f => { f with owner := f.owner + b } := by
  induction id using Nat.strongRecOn with
  | ind id ih =>
    have hinterfaces : ((t₀.interfacesOf id).map (· + b)).findSome? (t.field? · n d) = _ :=
      findSome?_renumbered fun i hi => ih i (interfacesOf_lt hi)
    have hsuper : ((t₀.superOf? id).map (· + b)).bind (t.field? · n d) =
        ((t₀.superOf? id).bind (t₀.field? · n d)).map fun f => { f with owner := f.owner + b } := by
      cases hs : t₀.superOf? id with
      | none => rfl
      | some s => exact ih s (superOf?_lt hs)
    rw [field?_eq, field?_eq, h.declaredField?, h.interfacesOf, h.superOf?, hinterfaces, hsuper,
      Option.map_or, Option.map_or]

/-- A field is found in the same place behind other classes. -/
theorem Registry.FieldFound.behind {r₀ r : Registry} {b : Nat} (h : r₀.Behind b r) {id : ClassId}
    {c : LinkedClass} {n d : String} {f : ClassTable.ResolvedField} (hf : r₀.FieldFound id c n d f) :
    r.FieldFound (id + b) (c.renumber (· + b)) n d { f with owner := f.owner + b } where
  declared := by
    obtain ⟨o, g, ho, hg, hname, hdescriptor, heq⟩ := hf.declared
    refine ⟨_, g, h.classes.class? ho, hg, hname, hdescriptor, ?_⟩
    rw [heq]
  above := h.classes.above hf.above
  laidOut hplain hnot := by
    rw [LinkedClass.isArray_renumber] at hplain
    obtain ⟨hchain, hslot⟩ := hf.laidOut hplain fun hi => hnot (h.classes.isInterface.2 hi)
    exact ⟨h.classes.mem_chain.2 ⟨f.owner, hchain, rfl⟩, hslot⟩
  interface o ho hi := by
    obtain ⟨o₀, ho₀, rfl⟩ := h.classes.exists_class? ho
    rw [LinkedClass.isInterface_renumber] at hi
    exact hf.interface o₀ ho₀ hi

/-- Whether every instance field that is found is where lookup says. -/
def Registry.FindsFields (r : Registry) : Prop :=
  ∀ id c n d f, r.HasLoaded id → r.table.class? id = some c → r.table.field? id n d = some f →
    f.isStatic = false → r.FieldFound id c n d f

/-- **Where fields are found**: whatever is asked of a registry, an instance field that is found outside of
interfaces is one of the class or of a superclass, and has its slot in the template. -/
theorem found_after (paths : ClassPaths) (requests : List Request) :
    (Registry.after paths requests).FindsFields := by
  intro id c n d f hid hc hfield hinstance
  obtain ⟨b, r₀, hr₀, -, h⟩ := regrown_after paths requests
  obtain ⟨id₀, -, rfl⟩ := h.hasLoaded.1 hid
  obtain ⟨c₀, hc₀, rfl⟩ := h.classes.exists_class? hc
  rw [h.classes.field?] at hfield
  obtain ⟨f₀, hf₀, rfl⟩ := Option.map_eq_some_iff.1 hfield
  exact (hr₀.fieldFound hc₀ hf₀ hinstance).behind h

/-! ### An interface with an instance field

The interface `I` has an instance field `y`. The class `C` implements it, and has a field `z` in the slot that
`y` has in `I`. -/

namespace Misplaced

/-- The class file of `I`. -/
def interfaceBytes : List UInt8 :=
  [0xCA, 0xFE, 0xBA, 0xBE, 0, 0, 0, 52, 0, 6,
   1, 0, 1, 73, 7, 0, 1,
   1, 0, 16, 106, 97, 118, 97, 47, 108, 97, 110, 103, 47, 79, 98, 106, 101, 99, 116, 7, 0, 3,
   1, 0, 1, 121,
   6, 1, 0, 2, 0, 4, 0, 0, 0, 1, 0, 1, 0, 5, 0, 1, 0, 0, 0, 0, 0, 0]

/-- The class file of `C`. -/
def classBytes : List UInt8 :=
  [0xCA, 0xFE, 0xBA, 0xBE, 0, 0, 0, 52, 0, 9,
   1, 0, 1, 67, 7, 0, 1,
   1, 0, 16, 106, 97, 118, 97, 47, 108, 97, 110, 103, 47, 79, 98, 106, 101, 99, 116, 7, 0, 3,
   1, 0, 1, 73, 7, 0, 5, 1, 0, 1, 122, 1, 0, 1, 74,
   0, 0x21, 0, 2, 0, 4, 0, 1, 0, 6, 0, 1, 0, 1, 0, 7, 0, 8, 0, 0, 0, 0, 0, 0]

/-- The class paths. -/
def paths : ClassPaths where
  boot := .ofFiles [("java/lang/Object", OddCore.objectBytes), ("I", interfaceBytes), ("C", classBytes)]
  app := .empty

def requests : List Request :=
  [.load .boot "java/lang/Object", .load .boot "I", .load .boot "C"]

def interfaceFile : ClassFile :=
  OddCore.file #[.unusable, .utf8 "I", .classRef 1, .utf8 "java/lang/Object", .classRef 3, .utf8 "y"]
    0x601 4 [⟨⟨1⟩, 5, 1, []⟩]

def classFile : ClassFile :=
  { OddCore.file #[.unusable, .utf8 "C", .classRef 1, .utf8 "java/lang/Object", .classRef 3, .utf8 "I",
      .classRef 5, .utf8 "z", .utf8 "J"] 0x21 4 [⟨⟨1⟩, 7, 8, []⟩] with interfaces := [6] }

theorem parse_interfaceBytes : parse interfaceBytes = .ok interfaceFile := by rfl

theorem parse_classBytes : parse classBytes = .ok classFile := by rfl

def i : LinkedClass :=
  { OddCore.linked "I" .interface (some 0) [⟨"y", "I", .int, ⟨1⟩, 1, none⟩] interfaceFile with
    template := #[.int 0, .int 0] }

def c : LinkedClass :=
  { OddCore.linked "C" .ordinary (some 0) [⟨"z", "J", .long, ⟨1⟩, 1, none⟩] classFile with
    interfaces := [1], template := #[.int 0, .long 0] }

theorem linkedClass_i :
    linkedClass 1 .boot "I" interfaceFile (some (0, OddCore.object)) [] = .ok (i, #[]) := by
  decide +kernel

theorem linkedClass_c :
    linkedClass 2 .boot "C" classFile (some (0, OddCore.object)) [(1, i)] = .ok (c, #[]) := by
  decide +kernel

theorem holds_after : (Registry.after paths requests).Holds [OddCore.object, i, c] := by
  have h₁ : (Request.apply paths .empty (.load .boot "java/lang/Object")).Holds [OddCore.object] :=
    OddCore.holds_object rfl
  have h₂ : (Request.apply paths _ (.load .boot "I")).Holds [OddCore.object, i] :=
    holds_apply_load h₁ (by decide) (by decide) rfl parse_interfaceBytes rfl rfl
      (fun h => by cases h) (fun s hs => by cases hs; exact ⟨rfl, rfl⟩) rfl (fun p hp => by cases hp)
      linkedClass_i rfl (by decide)
  exact holds_apply_load h₂ (by decide) (by decide) rfl parse_classBytes rfl rfl
    (fun h => by cases h) (fun s hs => by cases hs; exact ⟨rfl, rfl⟩) rfl
    (fun p hp => by obtain rfl := List.mem_singleton.1 hp; exact ⟨rfl, rfl⟩) linkedClass_c rfl (by decide)

/-- The field of the interface is found in the class. -/
theorem field?_c : (Registry.after paths requests).table.field? 2 "y" "I" = some ⟨1, 1, false, .int⟩ := by
  have hi := holds_after.class? 1
  have hc := holds_after.class? 2
  have hnone : (Registry.after paths requests).table.declaredField? 2 "y" "I" = none := by
    rw [ClassTable.declaredField?, hc]
    rfl
  have hsome : (Registry.after paths requests).table.declaredField? 1 "y" "I" =
      some ⟨1, 1, false, .int⟩ := by
    rw [ClassTable.declaredField?, hi]
    rfl
  have hinterfaces : (Registry.after paths requests).table.interfacesOf 2 = [1] := by
    rw [ClassTable.interfacesOf, hc]
    rfl
  have hfound : (Registry.after paths requests).table.field? 1 "y" "I" = some ⟨1, 1, false, .int⟩ := by
    rw [ClassTable.field?_eq, hsome, Option.some_or]
  rw [ClassTable.field?_eq, hnone, hinterfaces, List.findSome?_cons, hfound]
  rfl

end Misplaced

/-- Whether all instance fields that are found in a class are in the template of the class. -/
def Registry.FindsInTemplates (r : Registry) : Prop :=
  ∀ id c n d f, r.table.class? id = some c → r.table.field? id n d = some f → f.isStatic = false →
    c.template[f.slot]? = some f.type.defaultValue

/-- **A field that no instance has**: the field of an interface is found in a class whose instances have
another one in its slot. -/
theorem not_findsInTemplates : ¬ (Registry.after Misplaced.paths Misplaced.requests).FindsInTemplates := by
  intro h
  have hslot := h 2 Misplaced.c "y" "I" _ (Misplaced.holds_after.class? 2) Misplaced.field?_c rfl
  cases hslot

end Jvm.Linking
