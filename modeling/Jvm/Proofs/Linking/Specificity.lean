import Mathlib
import Jvm.Proofs.Linking.Entering
import Jvm.Proofs.Linking.Selection

/-! # Which superinterface a method comes from

A method that no superclass declares comes from a superinterface. An interface that declares it hides the
interfaces above it on the ways that lead through it (`Hidden`); on other ways the order decides.
`unhidden_after` says which method is selected, and `not_hides_after` that a way past the hiding interface
is enough for a hidden method. -/

namespace Jvm.Linking

/-! ## The order of answers -/

section

variable {id : ClassId} {m : Method}

theorem foldl_settle_abstract (howner : m.owner ≠ id) (hinterface : m.inInterface = true)
    (habstract : m.isAbstract = true) : ∀ answers : List (Option Method),
      answers.foldl (settle id) (some m) =
        (answers.reduceOption.find? (!·.isAbstract)).or (some m)
  | [] => rfl
  | none :: answers => foldl_settle_abstract howner hinterface habstract answers
  | some m' :: answers => by
    have hway : givesWay id m m' = !m'.isAbstract := by simp [givesWay, howner, hinterface, habstract]
    rw [List.foldl_cons, List.reduceOption_cons_of_some, List.find?_cons, settle, hway]
    cases hm' : m'.isAbstract with
    | true => exact foldl_settle_abstract howner hinterface habstract answers
    | false => exact foldl_settle_stays (fun _ => by simp [givesWay, hm']) answers

/-- Of the answers of superinterfaces the first one with an implementation counts, or else the first. -/
theorem foldl_settle_first : ∀ {answers : List (Option Method)},
    (∀ m, some m ∈ answers → m.owner ≠ id ∧ m.inInterface = true) →
      answers.foldl (settle id) none =
        (answers.reduceOption.find? (!·.isAbstract)).or answers.reduceOption.head?
  | [], _ => rfl
  | none :: answers, h => by
    have hrest : ∀ m, some m ∈ answers → m.owner ≠ id ∧ m.inInterface = true :=
      fun m hm => h m (List.mem_cons_of_mem _ hm)
    change answers.foldl (settle id) none = _
    rw [foldl_settle_first hrest, List.reduceOption_cons_of_none]
  | some m :: answers, h => by
    obtain ⟨howner, hinterface⟩ := h m List.mem_cons_self
    rw [List.foldl_cons, settle_none, List.reduceOption_cons_of_some, List.find?_cons, List.head?_cons]
    cases hm : m.isAbstract with
    | true => exact foldl_settle_abstract howner hinterface hm answers
    | false => exact foldl_settle_stays (fun _ => by simp [givesWay, hm]) answers

end

/-! ## Hiding -/

namespace ClassTable

/-- The ways from a class up to another one, with the classes between them. -/
inductive Way (t : ClassTable) : ClassId → List ClassId → ClassId → Prop
  | direct {id p : ClassId} {c : LinkedClass} (hc : t.class? id = some c) (hp : p ∈ c.sources) :
    Way t id [] p
  | via {id p i : ClassId} {between : List ClassId} {c : LinkedClass} (hc : t.class? id = some c)
    (hp : p ∈ c.sources) (h : Way t p between i) : Way t id (p :: between) i

/-- Whether on every way up from a class to another one some class between them declares a method that
calls of a name and a descriptor select by the receiver. -/
def Hidden (t : ClassTable) (n d : String) (id i : ClassId) : Prop :=
  ∀ between, t.Way id between i → ∃ j ∈ between, (t.declared? n d j).isSome = true

/-- Whether no superclass of a class declares a method of a name and a descriptor. -/
def Undeclared (t : ClassTable) (n d : String) (id : ClassId) : Prop :=
  ∀ b ∈ t.chain id, t.declared? n d b = none

/-- Whether an interface never gives a method to a class that has another superinterface that extends the
interface and declares the method anew. -/
def Hides (t : ClassTable) : Prop :=
  ∀ id n d, t.Undeclared n d id → ∀ i j, t.IsSuperinterface id i → t.IsSuperinterface id j → i ≠ j →
    t.reachesInterface j i = true → (t.declared? n d j).isSome = true →
      ∀ m, t.selected? n d id = some m → m.owner ≠ i

/-- How a method is selected that no superclass declares. -/
structure SelectsUnhidden (t : ClassTable) (n d : String) (id : ClassId) (c : LinkedClass) : Prop where
  hidden : ∀ i, t.Hidden n d id i → ∀ m, t.selected? n d id = some m → m.owner ≠ i
  -- Of what the superclass and then the superinterfaces in their order select, it is the first one that
  -- has an implementation, or else the first.
  first : t.selected? n d id =
    ((c.sources.filterMap (t.selected? n d)).find? (!·.isAbstract)).or
      (c.sources.filterMap (t.selected? n d)).head?

/-- Whether methods that no superclass declares are selected so for all classes. -/
def Unhidden (t : ClassTable) : Prop :=
  ∀ id c, t.class? id = some c → ∀ n d, t.Undeclared n d id → t.SelectsUnhidden n d id c

section

variable {t : ClassTable} {id : ClassId} {c : LinkedClass} {n d : String} {m : Method}
  (ht : ∀ id c, t.class? id = some c → t.Tabled id c)

include ht

/-- A class comes by a method of its own, or on a way on which no class declares one. -/
theorem Obtains.way (h : t.Obtains n d id m) : m.owner = id ∨ t.declared? n d id = none ∧
    ∃ between, t.Way id between m.owner ∧ ∀ j ∈ between, t.declared? n d j = none := by
  induction h with
  | own h =>
    obtain ⟨-, -, howner, -⟩ := exists_of_declared? ht h
    exact .inl howner
  | @above id p c m hc hnone hp h ih =>
    refine .inr ⟨hnone, ?_⟩
    rcases ih with rfl | ⟨hown, between, hway, hbetween⟩
    · exact ⟨[], .direct hc hp, fun j hj => by cases hj⟩
    · exact ⟨p :: between, .via hc hp hway, List.forall_mem_cons.2 ⟨hown, hbetween⟩⟩

/-- What a class has from above is of a smaller number. -/
theorem Obtains.owner_le (h : t.Obtains n d id m) : m.owner ≤ id := by
  induction h with
  | own h =>
    obtain ⟨-, -, rfl, -⟩ := exists_of_declared? ht h
    exact Nat.le_refl _
  | above hc _ hp _ ih => exact ih.trans (lt_of_mem_sources hc hp).le

theorem selectsUnhidden (hc : t.class? id = some c) (h : t.Undeclared n d id) :
    t.SelectsUnhidden n d id c := by
  have hnone : t.declared? n d id = none := h id (mem_chain_self id)
  refine ⟨?_, ?_⟩
  · rintro i hi m hm rfl
    have hobtains := obtains_of_selected? ht hm
    rcases hobtains.way ht with howner | ⟨-, between, hway, hbetween⟩
    · have hdeclared := (hobtains.owner ht).1
      rw [howner, hnone] at hdeclared
      cases hdeclared
    · obtain ⟨j, hj, hdeclared⟩ := hi between hway
      rw [hbetween j hj] at hdeclared
      cases hdeclared
  · have hanswers : (c.sources.map (t.selected? n d)).reduceOption =
        c.sources.filterMap (t.selected? n d) := List.filterMap_map
    rw [selected?_of_class? hc, (ht id c hc).selects, ← declared?_of_class? hc, hnone, ← hanswers]
    refine foldl_settle_first fun m hm => ?_
    obtain ⟨p, hp, hm⟩ := List.mem_map.1 hm
    have hobtains := obtains_of_selected? ht hm
    refine ⟨((hobtains.owner_le ht).trans_lt (lt_of_mem_sources hc hp)).ne, ?_⟩
    -- no superclass declares the method, so an interface does
    obtain ⟨hdeclared, howner⟩ := (Obtains.above hc hnone hp hobtains).owner ht
    rcases howner with hmem | ⟨-, hinterface⟩
    · rw [h _ hmem] at hdeclared
      cases hdeclared
    · exact hinterface

end

end ClassTable

/-- **Methods of superinterfaces**: whatever is asked of a registry, a method that no superclass declares
is not that of a hidden superinterface, and otherwise the order of the superclass and the superinterfaces
decides. -/
theorem unhidden_after (paths : ClassPaths) (requests : List Request) :
    (Registry.after paths requests).table.Unhidden :=
  fun _ _ hc _ _ h => ClassTable.selectsUnhidden (built_after paths requests).tabled hc h

/-! ### A way past the hiding interface

The interface `I` has a method `m`, the interface `J` extends `I` and has a method `m` of its own, and the
class `C` implements `I` and `J`, in this order. -/

namespace Diamond

open ClassFile

/-- The class file of the object class. -/
def objectBytes : List UInt8 :=
  [0xCA, 0xFE, 0xBA, 0xBE, 0, 0, 0, 52, 0, 3,
   1, 0, 16, 106, 97, 118, 97, 47, 108, 97, 110, 103, 47, 79, 98, 106, 101, 99, 116, 7, 0, 1,
   0, 0x21, 0, 2, 0, 0, 0, 0, 0, 0, 0, 0, 0, 0]

/-- The class file of `I`. -/
def iBytes : List UInt8 :=
  [0xCA, 0xFE, 0xBA, 0xBE, 0, 0, 0, 52, 0, 8,
   1, 0, 1, 73, 7, 0, 1,
   1, 0, 16, 106, 97, 118, 97, 47, 108, 97, 110, 103, 47, 79, 98, 106, 101, 99, 116, 7, 0, 3,
   1, 0, 1, 109, 1, 0, 3, 40, 41, 86, 1, 0, 4, 67, 111, 100, 101,
   6, 1, 0, 2, 0, 4, 0, 0, 0, 0, 0, 1,
   0, 1, 0, 5, 0, 6, 0, 1, 0, 7, 0, 0, 0, 13, 0, 0, 0, 1, 0, 0, 0, 1, 177, 0, 0, 0, 0, 0, 0]

/-- The class file of `J`. -/
def jBytes : List UInt8 :=
  [0xCA, 0xFE, 0xBA, 0xBE, 0, 0, 0, 52, 0, 10,
   1, 0, 1, 74, 7, 0, 1,
   1, 0, 16, 106, 97, 118, 97, 47, 108, 97, 110, 103, 47, 79, 98, 106, 101, 99, 116, 7, 0, 3,
   1, 0, 1, 73, 7, 0, 5, 1, 0, 1, 109, 1, 0, 3, 40, 41, 86, 1, 0, 4, 67, 111, 100, 101,
   6, 1, 0, 2, 0, 4, 0, 1, 0, 6, 0, 0, 0, 1,
   0, 1, 0, 7, 0, 8, 0, 1, 0, 9, 0, 0, 0, 13, 0, 0, 0, 1, 0, 0, 0, 1, 177, 0, 0, 0, 0, 0, 0]

/-- The class file of `C`. -/
def cBytes : List UInt8 :=
  [0xCA, 0xFE, 0xBA, 0xBE, 0, 0, 0, 52, 0, 9,
   1, 0, 1, 67, 7, 0, 1,
   1, 0, 16, 106, 97, 118, 97, 47, 108, 97, 110, 103, 47, 79, 98, 106, 101, 99, 116, 7, 0, 3,
   1, 0, 1, 73, 7, 0, 5, 1, 0, 1, 74, 7, 0, 7,
   0, 0x21, 0, 2, 0, 4, 0, 2, 0, 6, 0, 8, 0, 0, 0, 0, 0, 0]

/-- The class paths. -/
def paths : ClassPaths where
  boot := .ofFiles [("java/lang/Object", objectBytes), ("I", iBytes), ("J", jBytes), ("C", cBytes)]
  app := .empty

/-- The classes are loaded one after the other. -/
def requests : List Request :=
  [.load .boot "java/lang/Object", .load .boot "I", .load .boot "J", .load .boot "C"]

/-- A class file with a superclass of its own name space. -/
def file (constants : Array Constant) (access : UInt16) (superClass : UInt16)
    (interfaces : List UInt16) (methods : List MemberInfo) : ClassFile where
  minor := 0
  major := 52
  pool := ⟨constants⟩
  access := ⟨access⟩
  thisClass := 2
  superClass := superClass
  interfaces := interfaces
  fields := []
  methods := methods
  attributes := []

/-- A method that only returns, with the pool indices of its name, its descriptor and its attribute. -/
def member (name descriptor code : UInt16) : MemberInfo :=
  ⟨⟨1⟩, name, descriptor, [.mk code (.code 0 1 [177] [] [])]⟩

def objectFile : ClassFile :=
  file #[.unusable, .utf8 "java/lang/Object", .classRef 1] 0x21 0 [] []

def iFile : ClassFile :=
  file #[.unusable, .utf8 "I", .classRef 1, .utf8 "java/lang/Object", .classRef 3, .utf8 "m",
    .utf8 "()V", .utf8 "Code"] 0x601 4 [] [member 5 6 7]

def jFile : ClassFile :=
  file #[.unusable, .utf8 "J", .classRef 1, .utf8 "java/lang/Object", .classRef 3, .utf8 "I",
    .classRef 5, .utf8 "m", .utf8 "()V", .utf8 "Code"] 0x601 4 [6] [member 7 8 9]

def cFile : ClassFile :=
  file #[.unusable, .utf8 "C", .classRef 1, .utf8 "java/lang/Object", .classRef 3, .utf8 "I",
    .classRef 5, .utf8 "J", .classRef 7] 0x21 4 [6, 8] []

theorem parse_objectBytes : parse objectBytes = .ok objectFile := by rfl

theorem parse_iBytes : parse iBytes = .ok iFile := by rfl

theorem parse_jBytes : parse jBytes = .ok jFile := by rfl

theorem parse_cBytes : parse cBytes = .ok cFile := by rfl

/-- The method `m` of an interface. -/
def m (owner : ClassId) (className : String) : Method where
  owner := owner
  className := className
  name := "m"
  descriptor := "()V"
  type := ⟨[], none⟩
  access := ⟨1⟩
  code := some ⟨0, 1, ⟨#[⟨0, .leave none⟩], #[], #[some 0]⟩, [], []⟩
  slot := some 0
  inInterface := true

/-- A class linked from a class file, with the methods that it declares and the first of its method
table. -/
def linked (name : String) (kind : ClassKind) (superclass : Option ClassId)
    (interfaces : List ClassId) (methods : List Method) (table : MethodTable) (file : ClassFile) :
    LinkedClass where
  name := name
  loader := .boot
  access := file.access
  kind := kind
  superclass := superclass
  interfaces := interfaces
  fields := []
  template := #[]
  methods := methods
  methodTable := table
  pool := file.pool
  source := none

/-- A method table with one method. -/
def single (m : Method) : MethodTable := ⟨#[m], [("m", [("()V", 0)])]⟩

def object : LinkedClass := linked "java/lang/Object" .ordinary none [] [] .empty objectFile

def i : LinkedClass := linked "I" .interface (some 0) [] [m 1 "I"] (single (m 1 "I")) iFile

def j : LinkedClass := linked "J" .interface (some 0) [1] [m 2 "J"] (single (m 2 "J")) jFile

def c : LinkedClass := linked "C" .ordinary (some 0) [1, 2] [] (single (m 1 "I")) cFile

theorem linkedClass_object :
    linkedClass 0 .boot "java/lang/Object" objectFile none [] = .ok (object, #[]) := by
  decide +kernel

theorem linkedClass_i : linkedClass 1 .boot "I" iFile (some (0, object)) [] = .ok (i, #[]) := by
  decide +kernel

theorem linkedClass_j :
    linkedClass 2 .boot "J" jFile (some (0, object)) [(1, i)] = .ok (j, #[]) := by
  decide +kernel

theorem linkedClass_c :
    linkedClass 3 .boot "C" cFile (some (0, object)) [(1, i), (2, j)] = .ok (c, #[]) := by
  decide +kernel

/-- A class below the object class is entered behind the others. -/
theorem holds_apply (paths : ClassPaths) {r : Registry} {cs : List LinkedClass} {name : String}
    {bytes : List UInt8} {file : ClassFile} {interfaces : List (ClassId × LinkedClass)} {c : LinkedClass}
    (h : r.Holds (object :: cs)) (hnew : ∀ d ∈ object :: cs, d.name ≠ name)
    (harray : isArrayName name = false) (hfind : paths.boot.find name = .ok (some bytes))
    (hparse : parse bytes = .ok file) (hname : file.name = .ok name)
    (hsuperName : file.superName = .ok (some "java/lang/Object"))
    (hinterfaceNames : file.interfaceNames = .ok (interfaces.map (·.2.name)))
    (hinterfaces : ∀ p ∈ interfaces, (object :: cs)[p.1]? = some p.2 ∧ p.2.isInterface = true)
    (hlinked : linkedClass (object :: cs).length .boot name file (some (0, object)) interfaces =
      .ok (c, #[])) (hc : c.name = name) (known : ∀ p ∈ c.parents, p < (object :: cs).length) :
    (Request.apply paths r (.load .boot name)).Holds (object :: cs ++ [c]) := by
  have hsuper : file.superName = .ok ((some ((0 : ClassId), object)).map (·.2.name)) := hsuperName
  refine holds_apply_load h hnew harray hfind hparse hname hsuper (fun h => by cases h)
    (fun s hs => ?_) hinterfaceNames hinterfaces hlinked hc known
  cases hs
  refine ⟨rfl, ?_⟩
  cases file.access.isInterface <;> rfl

theorem holds_after : (Registry.after paths requests).Holds [object, i, j, c] := by
  have h₁ : (Request.apply paths .empty (.load .boot "java/lang/Object")).Holds [object] :=
    holds_apply_load holds_empty (by decide) (by decide) rfl parse_objectBytes rfl rfl
      (fun _ => rfl) (fun s hs => by cases hs) rfl (fun p hp => by cases hp) linkedClass_object rfl
      (by decide)
  have h₂ := holds_apply paths h₁ (by decide) (by decide) rfl parse_iBytes rfl rfl rfl
    (fun p hp => by cases hp) linkedClass_i rfl (by decide)
  have h₃ := holds_apply paths h₂ (by decide) (by decide) rfl parse_jBytes rfl rfl rfl
    (by simp [i, linked, LinkedClass.isInterface]) linkedClass_j rfl (by decide)
  exact holds_apply paths h₃ (by decide) (by decide) rfl parse_cBytes rfl rfl rfl
    (by simp [i, j, linked, LinkedClass.isInterface]) linkedClass_c rfl (by decide)

end Diamond

/-- **A way past the hiding interface**: `C` implements `I` directly before `J`, and a call of `m` selects
the method of `I` although `J` declares one. -/
theorem not_hides_after : ¬ (Registry.after Diamond.paths Diamond.requests).table.Hides := by
  intro h
  have hclass := Diamond.holds_after.class?
  generalize (Registry.after Diamond.paths Diamond.requests).table = t at h hclass
  have hundeclared : t.Undeclared "m" "()V" 3 := by
    intro b hb
    have hb : b = 3 ∨ b = 0 := by
      rcases ClassTable.mem_chain.1 hb with rfl | ⟨s, hs, hb⟩
      · exact .inl rfl
      · rw [ClassTable.superOf?_of_class? (hclass 3)] at hs
        cases hs
        rcases ClassTable.mem_chain.1 hb with rfl | ⟨s, hs, -⟩
        · exact .inr rfl
        · rw [ClassTable.superOf?_of_class? (hclass 0)] at hs
          cases hs
    rcases hb with rfl | rfl
    · rw [ClassTable.declared?_of_class? (hclass 3)]; rfl
    · rw [ClassTable.declared?_of_class? (hclass 0)]; rfl
  have hinterfaces : t.interfacesOf 3 = [1, 2] := ClassTable.interfacesOf_of_class? (hclass 3)
  have hsuper : ∀ k, k = 1 ∨ k = 2 → t.IsSuperinterface 3 k := fun k hk =>
    ⟨3, ClassTable.mem_chain_self 3, k, by simpa [hinterfaces] using hk,
      ClassTable.reachesInterface_iff.2 (.inl rfl)⟩
  refine h 3 "m" "()V" hundeclared 1 2 (hsuper 1 (.inl rfl)) (hsuper 2 (.inr rfl)) (by decide) ?_ ?_
    (Diamond.m 1 "I") ?_ rfl
  · refine ClassTable.reachesInterface_iff.2 (.inr ⟨1, ?_, ClassTable.reachesInterface_iff.2 (.inl rfl)⟩)
    rw [ClassTable.interfacesOf_of_class? (hclass 2)]
    exact List.mem_cons_self
  · rw [ClassTable.declared?_of_class? (hclass 2)]; rfl
  · rw [ClassTable.selected?_of_class? (hclass 3)]; rfl

end Jvm.Linking
