import Jvm.Linking.Class

/-! # The class table and the hierarchy

All linked classes by number. A class is entered after the classes it is built from, so their numbers are
smaller, and every walk up the hierarchy ends. -/

namespace Jvm.Linking

/-- The linked classes by number. -/
structure ClassTable where
  classes : Array LinkedClass
  ordered : ∀ (id : ClassId) (c : LinkedClass), classes[id]? = some c → ∀ p ∈ c.parents, p < id

namespace ClassTable

/-- A table without classes. -/
def empty : ClassTable := ⟨#[], fun _ _ h => by simp at h⟩

instance : Inhabited ClassTable := ⟨empty⟩

/-- The number of classes. -/
def size (t : ClassTable) : Nat := t.classes.size

/-- The class of a number. -/
def class? (t : ClassTable) (id : ClassId) : Option LinkedClass := t.classes[id]?

/-- Enters a class whose parents are in the table. -/
def push (t : ClassTable) (c : LinkedClass) (known : ∀ p ∈ c.parents, p < t.size) : ClassTable where
  classes := t.classes.push c
  ordered id d h p hp := by
    rw [Array.getElem?_push] at h
    split at h
    · cases h; subst_vars; exact known p hp
    · exact t.ordered id d h p hp

/-- The name of a class. -/
def nameOf (t : ClassTable) (id : ClassId) : String := ((t.class? id).map (·.name)).getD ""

/-- The direct superclass of a class. -/
def superOf? (t : ClassTable) (id : ClassId) : Option ClassId :=
  (t.class? id).bind (·.superclass)

/-- The direct superinterfaces of a class. -/
def interfacesOf (t : ClassTable) (id : ClassId) : List ClassId :=
  ((t.class? id).map (·.interfaces)).getD []

/-- The component type of an array class. -/
def componentOf? (t : ClassTable) (id : ClassId) : Option Component :=
  (t.class? id).bind (·.component?)

/-- Adds to marked classes all that they are built from. These come before them, so a pass from the last
class to the first is enough. -/
def markParents (t : ClassTable) (marks : Array Bool) : Array Bool :=
  (List.range t.size).foldr (fun id marks =>
    if marks.getD id false then
      (((t.class? id).map (·.parents)).getD []).foldl (·.setIfInBounds · true) marks
    else marks) marks

theorem superOf?_lt {t : ClassTable} {id s : ClassId} (h : t.superOf? id = some s) : s < id := by
  obtain ⟨c, hc, hs⟩ := Option.bind_eq_some_iff.1 h
  exact t.ordered id c hc s (by simp [LinkedClass.parents, hs])

theorem interfacesOf_lt {t : ClassTable} {id i : ClassId} (h : i ∈ t.interfacesOf id) : i < id := by
  unfold interfacesOf at h
  cases hc : t.class? id with
  | none => simp [hc] at h
  | some c => exact t.ordered id c hc i (by simp_all [LinkedClass.parents])

theorem componentOf?_lt {t : ClassTable} {id e : ClassId}
    (h : t.componentOf? id = some (.reference e)) : e < id := by
  obtain ⟨c, hc, he⟩ := Option.bind_eq_some_iff.1 h
  refine t.ordered id c hc e ?_
  unfold LinkedClass.component? at he
  split at he
  · simp_all [LinkedClass.parents]
  · cases he

/-! ## The hierarchy -/

/-- A class and its superclasses, upwards. -/
def chain (t : ClassTable) (id : ClassId) : List ClassId :=
  id :: match _h : t.superOf? id with
    | some s => t.chain s
    | none => []
termination_by id
decreasing_by exact superOf?_lt (by assumption)

/-- Whether a class is another one or extends it. -/
def isSubclass (t : ClassTable) (id other : ClassId) : Bool := (t.chain id).contains other

/-- Whether a class is an interface, or an interface above its direct superinterfaces is. -/
def reachesInterface (t : ClassTable) (id interface : ClassId) : Bool :=
  id == interface ||
    (t.interfacesOf id).attach.any fun ⟨i, _⟩ => t.reachesInterface i interface
termination_by id
decreasing_by exact interfacesOf_lt (by assumption)

/-- Whether a class is, extends or implements an interface. -/
def implements (t : ClassTable) (id interface : ClassId) : Bool :=
  (t.chain id).any (t.reachesInterface · interface)

/-- Whether a value of a class fits a variable of a class. -/
def isAssignable (t : ClassTable) (id target : ClassId) : Bool :=
  id == target ||
    match _h : t.componentOf? id, t.componentOf? target with
    | some (.primitive a), some (.primitive b) => a == b
    | some (.reference a), some (.reference b) => t.isAssignable a b
    | some _, some _ => false
    | none, some _ => false
    | _, none =>
      match t.class? target with
      | some c => if c.isInterface then t.implements id target else t.isSubclass id target
      | none => false
termination_by id
decreasing_by exact componentOf?_lt (by assumption)

/-! ## Members -/

/-- A field reference that has been looked up. -/
structure ResolvedField where
  owner : ClassId
  slot : Nat
  isStatic : Bool
  type : ClassFile.FieldType
deriving DecidableEq, Inhabited, Repr

/-- The declared field of a class. -/
def declaredField? (t : ClassTable) (id : ClassId) (name descriptor : String) :
    Option ResolvedField := do
  let f ← (← t.class? id).field? name descriptor
  return ⟨id, f.slot, f.isStatic, f.type⟩

/-- Looks a field up: among the declared fields, above the superinterfaces, above the superclass. -/
def field? (t : ClassTable) (id : ClassId) (name descriptor : String) : Option ResolvedField :=
  (t.declaredField? id name descriptor).or <|
    ((t.interfacesOf id).attach.findSome? fun ⟨i, _⟩ => t.field? i name descriptor).or <|
      match _h : t.superOf? id with
      | some s => t.field? s name descriptor
      | none => none
termination_by id
decreasing_by
  · exact interfacesOf_lt (by assumption)
  · exact superOf?_lt (by assumption)

/-- The declared method of a class. -/
def declaredMethod? (t : ClassTable) (id : ClassId) (name descriptor : String) : Option Method :=
  (t.class? id).bind (·.method? name descriptor)

/-- Adds the superinterfaces of a class and of its superclasses that are not yet in a list, each before
those above it. -/
def addInterfaces (t : ClassTable) (found : List ClassId) (id : ClassId) : List ClassId :=
  let found := (t.interfacesOf id).attach.foldl
    (fun found ⟨i, _⟩ =>
      if found.contains i then found else t.addInterfaces (found ++ [i]) i) found
  match _h : t.superOf? id with
  | some s => t.addInterfaces found s
  | none => found
termination_by id
decreasing_by
  · exact interfacesOf_lt (by assumption)
  · exact superOf?_lt (by assumption)

/-- The superinterfaces of a class. -/
def allInterfaces (t : ClassTable) (id : ClassId) : List ClassId := t.addInterfaces [] id

/-- Looks a method up above the superinterfaces of a class; one with an implementation comes first. -/
def interfaceMethod? (t : ClassTable) (id : ClassId) (name descriptor : String) : Option Method :=
  let candidates := (t.allInterfaces id).filterMap fun i =>
    (t.declaredMethod? i name descriptor).filter fun m => !m.isStatic && !m.isPrivate
  (candidates.find? (!·.isAbstract)).or candidates.head?

/-- Looks a method up: in a class and its superclasses, then in its superinterfaces. -/
def method? (t : ClassTable) (id : ClassId) (name descriptor : String) : Option Method :=
  ((t.chain id).findSome? fun c => t.declaredMethod? c name descriptor).or
    (t.interfaceMethod? id name descriptor)

end ClassTable

end Jvm.Linking
