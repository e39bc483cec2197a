import Mathlib
import Jvm.Linking.Loading

/-! # Classes with other numbers

Classes refer to each other by number, and the numbers say in which order they were linked. Linking only asks
whether two numbers are the same, so it comes to the same with other numbers (`linkedClass_renumber`). -/

namespace Jvm.Linking

open ClassFile

variable {f : ClassId → ClassId}

/-! ## What has numbers -/

/-- A method with the number of another class. -/
def Method.renumber (f : ClassId → ClassId) (m : Method) : Method := { m with owner := f m.owner }

/-- A method table with other numbers. -/
def MethodTable.renumber (f : ClassId → ClassId) (t : MethodTable) : MethodTable :=
  { t with methods := t.methods.map (·.renumber f) }

/-- A component type with another number. -/
def Component.renumber (f : ClassId → ClassId) : Component → Component
  | .primitive type => .primitive type
  | .reference cls => .reference (f cls)

/-- A kind with another number. -/
def ClassKind.renumber (f : ClassId → ClassId) : ClassKind → ClassKind
  | .array component => .array (component.renumber f)
  | kind => kind

/-- A class with other numbers. -/
def LinkedClass.renumber (f : ClassId → ClassId) (c : LinkedClass) : LinkedClass :=
  { c with
    kind := c.kind.renumber f
    superclass := c.superclass.map f
    interfaces := c.interfaces.map f
    methods := c.methods.map (·.renumber f)
    methodTable := c.methodTable.renumber f }

/-- A method layout with other numbers. -/
def MethodLayout.renumber (f : ClassId → ClassId) (l : MethodLayout) : MethodLayout :=
  ⟨l.methods.map (·.renumber f), l.table.renumber f⟩

namespace MethodTable

theorem methods_renumber (t : MethodTable) (s : Nat) :
    (t.renumber f).methods[s]? = t.methods[s]?.map (·.renumber f) := by
  simp [renumber]

theorem renumber_push (t : MethodTable) (m : Method) :
    (t.renumber f).push (m.renumber f) = (t.push m).renumber f := by
  simp [renumber, push, Method.renumber]

theorem renumber_replace (t : MethodTable) (s : Nat) (m : Method) :
    (t.renumber f).replace s (m.renumber f) = (t.replace s m).renumber f := by
  simp [renumber, replace]

theorem renumber_empty : MethodTable.empty.renumber f = .empty := by
  simp [renumber, empty]

end MethodTable

namespace LinkedClass

@[simp] theorem isInterface_renumber (c : LinkedClass) :
    (c.renumber f).isInterface = c.isInterface := by
  unfold isInterface renumber ClassKind.renumber
  cases c.kind <;> rfl

@[simp] theorem isArray_renumber (c : LinkedClass) : (c.renumber f).isArray = c.isArray := by
  unfold isArray component? renumber ClassKind.renumber
  cases c.kind <;> rfl

/-- Whether a class may be extended does not depend on numbers. -/
theorem checkSuperclass_renumber (name superName : String) (isInterface : Bool) (s : LinkedClass) :
    checkSuperclass name superName isInterface (s.renumber f) =
      checkSuperclass name superName isInterface s := by
  simp only [checkSuperclass, isInterface_renumber, isArray_renumber]
  rfl

end LinkedClass

/-! ## Layout -/

theorem bne_of_injective (hf : Function.Injective f) (a b : ClassId) : (f a != f b) = (a != b) := by
  rw [Bool.eq_iff_iff]
  simp [hf.eq_iff]

theorem add_renumber (hf : Function.Injective f) (l : MethodLayout) (m : Method) :
    (l.renumber f).add (m.renumber f) = (l.add m).map (·.renumber f) := by
  have hvirtual : (m.renumber f).isVirtual = m.isVirtual := rfl
  have hslot : (l.renumber f).table.slot? (m.renumber f).name (m.renumber f).descriptor =
      l.table.slot? m.name m.descriptor := rfl
  unfold MethodLayout.add
  rw [hvirtual, hslot]
  cases m.isVirtual with
  | false => rfl
  | true =>
    cases l.table.slot? m.name m.descriptor with
    | none =>
      have hpush := MethodTable.renumber_push (f := f) l.table { m with slot := some l.table.methods.size }
      have hsize : (l.renumber f).table.methods.size = l.table.methods.size := Array.size_map ..
      simp only [hsize]
      exact congrArg (fun t => Except.ok (MethodLayout.mk _ t)) hpush
    | some s =>
      have hreplace := MethodTable.renumber_replace (f := f) l.table s { m with slot := some s }
      have hold : ((l.renumber f).table.methods[s]?.filter fun old =>
          old.owner != (m.renumber f).owner && old.isFinal) =
          (l.table.methods[s]?.filter fun old => old.owner != m.owner && old.isFinal).map (·.renumber f) := by
        rw [MethodLayout.renumber, MethodTable.methods_renumber, Option.filter_map]
        congr 2
        funext old
        exact congrArg (· && old.isFinal) (bne_of_injective hf old.owner m.owner)
      simp only [hold]
      cases l.table.methods[s]?.filter fun old => old.owner != m.owner && old.isFinal with
      | some old => rfl
      | none => exact congrArg (fun t => Except.ok (MethodLayout.mk _ t)) hreplace

theorem foldlM_add_renumber (hf : Function.Injective f) (declared : List Method) (l : MethodLayout) :
    (declared.map (·.renumber f)).foldlM MethodLayout.add (l.renumber f) =
      (declared.foldlM MethodLayout.add l).map (·.renumber f) := by
  induction declared generalizing l with
  | nil => rfl
  | cons m declared ih =>
    rw [List.map_cons, List.foldlM_cons, List.foldlM_cons, add_renumber hf]
    cases h : l.add m with
    | ok l' => exact ih l'
    | error e => rfl

theorem givesWay_renumber (hf : Function.Injective f) (self : ClassId) (old m : Method) :
    givesWay (f self) (old.renumber f) (m.renumber f) = givesWay self old m := by
  have h := bne_of_injective hf old.owner self
  simp only [givesWay, Method.renumber, h]
  rfl

theorem inheritMethod_renumber (hf : Function.Injective f) (self : ClassId) (t : MethodTable) (m : Method) :
    inheritMethod (f self) (t.renumber f) (m.renumber f) = (inheritMethod self t m).renumber f := by
  have hslot : (t.renumber f).slot? (m.renumber f).name (m.renumber f).descriptor =
      t.slot? m.name m.descriptor := rfl
  unfold inheritMethod
  rw [hslot]
  cases t.slot? m.name m.descriptor with
  | none => exact MethodTable.renumber_push t m
  | some s =>
    have hold : ((t.renumber f).methods[s]?.filter (givesWay (f self) · (m.renumber f))).isSome =
        (t.methods[s]?.filter (givesWay self · m)).isSome := by
      rw [MethodTable.methods_renumber, Option.filter_map, Option.isSome_map]
      congr 2
      funext old
      exact givesWay_renumber hf self old m
    simp only [hold, MethodTable.renumber_replace]
    split <;> rfl

theorem layOutMethods_renumber (hf : Function.Injective f) (self : ClassId) (inherited : MethodTable)
    (declared : List Method) (interfaces : List LinkedClass) :
    layOutMethods (f self) (inherited.renumber f) (declared.map (·.renumber f))
      (interfaces.map (·.renumber f)) =
      (layOutMethods self inherited declared interfaces).map (·.renumber f) := by
  have hone (i : LinkedClass) (t : MethodTable) : (i.renumber f).vtable.foldl (inheritMethod (f self)) (t.renumber f) =
      (i.vtable.foldl (inheritMethod self) t).renumber f := by
    have hvtable : (i.renumber f).vtable.toList = i.vtable.toList.map (·.renumber f) :=
      Array.toList_map ..
    rw [← Array.foldl_toList, ← Array.foldl_toList, hvtable, List.foldl_map]
    exact List.foldl_hom (MethodTable.renumber f) fun t m => inheritMethod_renumber hf self t m
  have hall (t : MethodTable) : (interfaces.map (·.renumber f)).foldl
        (fun t i => i.vtable.foldl (inheritMethod (f self)) t) (t.renumber f) =
      (interfaces.foldl (fun t i => i.vtable.foldl (inheritMethod self) t) t).renumber f := by
    rw [List.foldl_map]
    exact List.foldl_hom (MethodTable.renumber f) fun t i => hone i t
  have hdeclared := foldlM_add_renumber hf declared ⟨[], inherited⟩
  unfold layOutMethods
  rw [show (⟨[], inherited.renumber f⟩ : MethodLayout) = MethodLayout.renumber f ⟨[], inherited⟩ from rfl,
    hdeclared]
  cases declared.foldlM MethodLayout.add ⟨[], inherited⟩ with
  | error e => rfl
  | ok l => exact congrArg (fun t => Except.ok (MethodLayout.mk (l.methods.map (·.renumber f)) t)) (hall l.table)

/-! ## Linking -/

/-- A class file is linked in the same way whatever the numbers are. -/
theorem linkedClass_renumber (hf : Function.Injective f) (self : ClassId) (loader : Loader) (name : String)
    (file : ClassFile) (superclass : Option (ClassId × LinkedClass))
    (interfaces : List (ClassId × LinkedClass)) :
    linkedClass (f self) loader name file (superclass.map fun p => (f p.1, p.2.renumber f))
      (interfaces.map fun p => (f p.1, p.2.renumber f)) =
      (linkedClass self loader name file superclass interfaces).map fun p => (p.1.renumber f, p.2) := by
  have htemplate : (superclass.map fun p => (f p.1, p.2.renumber f)).map (·.2.template) =
      superclass.map (·.2.template) := by
    cases superclass <;> rfl
  have htable : (if file.access.isInterface then MethodTable.empty else
      ((superclass.map fun p => (f p.1, p.2.renumber f)).map (·.2.methodTable)).getD .empty) =
      (if file.access.isInterface then MethodTable.empty else
        (superclass.map (·.2.methodTable)).getD .empty).renumber f := by
    cases file.access.isInterface <;> cases superclass <;>
      first | rfl | exact (MethodTable.renumber_empty).symm
  have hinterfaces : (interfaces.map fun p => (f p.1, p.2.renumber f)).map (·.2) =
      (interfaces.map (·.2)).map (·.renumber f) := by
    rw [List.map_map, List.map_map]
    rfl
  unfold linkedClass
  simp only [htemplate, htable, hinterfaces]
  cases layOutFields file.pool ((superclass.map (·.2.template)).getD #[]) file.fields with
  | error e => rfl
  | ok fields =>
    cases file.methods.mapM (verifyMethod file.pool name file.access.isInterface) with
    | error e => rfl
    | ok verified =>
      have hdeclared : verified.map (·.declare (f self) name file.access.isInterface) =
          (verified.map (·.declare self name file.access.isInterface)).map (·.renumber f) := by
        rw [List.map_map]
        rfl
      have hlayout := layOutMethods_renumber hf self (if file.access.isInterface then .empty else
        (superclass.map (·.2.methodTable)).getD .empty)
        (verified.map (·.declare self name file.access.isInterface)) (interfaces.map (·.2))
      simp only [bind, Except.bind, hdeclared, hlayout]
      cases layOutMethods self (if file.access.isInterface then .empty else
        (superclass.map (·.2.methodTable)).getD .empty)
        (verified.map (·.declare self name file.access.isInterface)) (interfaces.map (·.2)) with
      | error e => rfl
      | ok l =>
        have hsuper : (superclass.map fun p => (f p.1, p.2.renumber f)).map (·.1) =
            (superclass.map (·.1)).map f := by
          cases superclass <;> rfl
        have hkind : (if file.access.isInterface then ClassKind.interface else .ordinary).renumber f =
            if file.access.isInterface then .interface else .ordinary := by
          cases file.access.isInterface <;> rfl
        simp only [hsuper]
        simp only [Except.map, pure, Except.pure, LinkedClass.renumber, hkind, List.map_map,
          List.map_reverse, MethodLayout.renumber]
        rfl

end Jvm.Linking
