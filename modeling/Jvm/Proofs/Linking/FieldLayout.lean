import Mathlib
import Jvm.Linking.Loading
import Jvm.Proofs.Linking.Verified

/-! # The places of fields

The fields of a class file are laid out one after the other: the instance fields count on from those of the
superclass, the static fields from zero, and each place gets the value that a field of the type starts with.
`LinkedClass.LaidOut` says so of a linked class. -/

namespace Jvm.Linking

open ClassFile

/-- The declared fields that instances have. -/
def LinkedClass.instanceFields (c : LinkedClass) : List Field := c.fields.filter (!·.isStatic)

/-- The declared fields that the class itself has. -/
def LinkedClass.staticFields (c : LinkedClass) : List Field := c.fields.filter (·.isStatic)

/-- The value that a static field starts with, from its constant if it names one. -/
def Field.initialValue (pool : ConstantPool) (f : Field) : Except Fault Value :=
  match f.constant with
  | some index => do constantFieldValue (← pool.get index) f.type f.name
  | none => .ok f.type.defaultValue

/-- Whether a field is the one that a member of a class file declares. -/
structure Field.DeclaredBy (pool : ConstantPool) (m : MemberInfo) (f : Field) : Prop where
  name : pool.utf8 m.name = .ok f.name
  descriptor : pool.utf8 m.descriptor = .ok f.descriptor
  type : FieldType.parse f.descriptor = .ok f.type
  access : f.access = m.access

/-! ## Laying fields out -/

/-- Whether members have been laid out behind `inherited`. -/
structure FieldLayout.LaidOut (pool : ConstantPool) (inherited : Array Value)
    (members : List MemberInfo) (l : FieldLayout) : Prop where
  declared : List.Forall₂ (Field.DeclaredBy pool) members l.fields.reverse
  template : l.template.toList =
    inherited.toList ++ (l.fields.reverse.filter (!·.isStatic)).map (·.type.defaultValue)
  instanceSlots : (l.fields.reverse.filter (!·.isStatic)).map (·.slot) =
    List.range' inherited.size (l.fields.reverse.filter (!·.isStatic)).length
  staticSlots : (l.fields.reverse.filter (·.isStatic)).map (·.slot) = List.range l.statics.size
  statics : (l.fields.reverse.filter (·.isStatic)).map (Field.initialValue pool) =
    l.statics.toList.map .ok

namespace FieldLayout

variable {pool : ConstantPool} {inherited : Array Value} {members : List MemberInfo} {m : MemberInfo}
  {l l' : FieldLayout}

theorem laidOut_start : LaidOut pool inherited [] ⟨[], inherited, #[]⟩ where
  declared := .nil
  template := (List.append_nil _).symm
  instanceSlots := rfl
  staticSlots := rfl
  statics := rfl

/-- The template ends behind the slots in use. -/
theorem LaidOut.size_template (h : LaidOut pool inherited members l) :
    l.template.size = inherited.size + (l.fields.reverse.filter (!·.isStatic)).length := by
  rw [← Array.length_toList, h.template, List.length_append, Array.length_toList, List.length_map]

/-- One more static field takes the next static slot. -/
theorem LaidOut.addStatic (h : LaidOut pool inherited members l) {f : Field}
    (hf : f.DeclaredBy pool m) (hstatic : f.isStatic = true) (hslot : f.slot = l.statics.size)
    {value : Value} (hvalue : f.initialValue pool = .ok value) :
    LaidOut pool inherited (members ++ [m])
      { l with fields := f :: l.fields, statics := l.statics.push value } where
  declared := by
    rw [List.reverse_cons]
    exact List.rel_append h.declared (.cons hf .nil)
  template := by
    rw [List.reverse_cons, List.filter_append, List.filter_cons_of_neg (by simp [hstatic]),
      List.filter_nil, List.append_nil]
    exact h.template
  instanceSlots := by
    rw [List.reverse_cons, List.filter_append, List.filter_cons_of_neg (by simp [hstatic]),
      List.filter_nil, List.append_nil]
    exact h.instanceSlots
  staticSlots := by
    rw [List.reverse_cons, List.filter_append, List.filter_cons_of_pos hstatic, List.filter_nil,
      List.map_append, h.staticSlots, Array.size_push, List.range_succ, List.map_singleton, hslot]
  statics := by
    rw [List.reverse_cons, List.filter_append, List.filter_cons_of_pos hstatic, List.filter_nil,
      List.map_append, h.statics, List.map_singleton, hvalue, Array.toList_push, List.map_append,
      List.map_singleton]

/-- One more instance field takes the next place of the template. -/
theorem LaidOut.addInstance (h : LaidOut pool inherited members l) {f : Field}
    (hf : f.DeclaredBy pool m) (hstatic : f.isStatic = false) (hslot : f.slot = l.template.size) :
    LaidOut pool inherited (members ++ [m])
      { l with fields := f :: l.fields, template := l.template.push f.type.defaultValue } where
  declared := by
    rw [List.reverse_cons]
    exact List.rel_append h.declared (.cons hf .nil)
  template := by
    rw [List.reverse_cons, List.filter_append, List.filter_cons_of_pos (by simp [hstatic]),
      List.filter_nil, List.map_append, List.map_singleton, Array.toList_push, h.template,
      List.append_assoc]
  instanceSlots := by
    rw [List.reverse_cons, List.filter_append, List.filter_cons_of_pos (by simp [hstatic]),
      List.filter_nil, List.map_append, List.map_singleton, h.instanceSlots, hslot, h.size_template,
      List.length_append, List.length_singleton, List.range'_concat, Nat.one_mul]
  staticSlots := by
    rw [List.reverse_cons, List.filter_append, List.filter_cons_of_neg (by simp [hstatic]),
      List.filter_nil, List.append_nil]
    exact h.staticSlots
  statics := by
    rw [List.reverse_cons, List.filter_append, List.filter_cons_of_neg (by simp [hstatic]),
      List.filter_nil, List.append_nil]
    exact h.statics

theorem LaidOut.add (h : LaidOut pool inherited members l) (hadd : l.add pool m = .ok l') :
    LaidOut pool inherited (members ++ [m]) l' := by
  unfold FieldLayout.add at hadd
  obtain ⟨name, hname, hadd⟩ := Verification.exists_of_bind hadd
  obtain ⟨descriptor, hdescriptor, hadd⟩ := Verification.exists_of_bind hadd
  obtain ⟨type, htype, hadd⟩ := Verification.exists_of_bind hadd
  have hdeclared : ∀ slot constant,
      Field.DeclaredBy pool m ⟨name, descriptor, type, m.access, slot, constant⟩ :=
    fun slot constant => ⟨hname, hdescriptor, htype, rfl⟩
  cases hstatic : m.access.isStatic with
  | true =>
    rw [if_pos hstatic] at hadd
    dsimp only at hadd
    split at hadd
    · next index hindex =>
      obtain ⟨constant, hconstant, hadd⟩ := Verification.exists_of_bind hadd
      obtain ⟨value, hvalue, hadd⟩ := Verification.exists_of_bind hadd
      obtain rfl := Except.ok.inj hadd
      refine h.addStatic (hdeclared _ _) hstatic rfl ?_
      simp only [Field.initialValue, hindex, hconstant]
      exact hvalue
    · next hnone =>
      obtain rfl := Except.ok.inj hadd
      refine h.addStatic (hdeclared _ _) hstatic rfl ?_
      simp only [Field.initialValue, hnone]
  | false =>
    rw [if_neg (by simp [hstatic])] at hadd
    obtain rfl := Except.ok.inj hadd
    exact h.addInstance (hdeclared l.template.size none) hstatic rfl

theorem LaidOut.foldlM {rest : List MemberInfo} (h : LaidOut pool inherited members l)
    (hfold : rest.foldlM (FieldLayout.add pool) l = .ok l') :
    LaidOut pool inherited (members ++ rest) l' := by
  induction rest generalizing members l with
  | nil =>
    cases hfold
    rw [List.append_nil]
    exact h
  | cons m rest ih =>
    rw [List.foldlM_cons] at hfold
    obtain ⟨next, hadd, hfold⟩ := Verification.exists_of_bind hfold
    have hnext := ih (h.add hadd) hfold
    rw [List.append_assoc] at hnext
    exact hnext

theorem laidOut_of_layOutFields (h : layOutFields pool inherited members = .ok l) :
    LaidOut pool inherited members l :=
  laidOut_start.foldlM h

end FieldLayout

/-! ## Linked classes -/

/-- Whether a class has its fields laid out behind those in `inherited`. -/
structure LinkedClass.LaidOut (inherited : Array Value) (c : LinkedClass) : Prop where
  template : c.template.toList = inherited.toList ++ c.instanceFields.map (·.type.defaultValue)
  instanceSlots : c.instanceFields.map (·.slot) =
    List.range' inherited.size c.instanceFields.length
  staticSlots : c.staticFields.map (·.slot) = List.range c.staticFields.length

/-- A class that is linked declares the fields of its class file, laid out behind those of its
superclass, and its static fields have the values that they start with. -/
theorem laidOut_of_linkedClass {self : ClassId} {loader : Loader} {name : String} {file : ClassFile}
    {superclass : Option (ClassId × LinkedClass)} {interfaces : List (ClassId × LinkedClass)}
    {c : LinkedClass} {statics : Array Value}
    (h : linkedClass self loader name file superclass interfaces = .ok (c, statics)) :
    List.Forall₂ (Field.DeclaredBy file.pool) file.fields c.fields ∧
      c.LaidOut ((superclass.map (·.2.template)).getD #[]) ∧
      c.staticFields.map (Field.initialValue c.pool) = statics.toList.map .ok := by
  unfold linkedClass at h
  obtain ⟨l, hl, h⟩ := Verification.exists_of_bind h
  obtain ⟨verified, -, h⟩ := Verification.exists_of_bind h
  obtain ⟨methods, -, h⟩ := Verification.exists_of_bind h
  cases h
  have hlaid := FieldLayout.laidOut_of_layOutFields hl
  have hsize : l.statics.size = (l.fields.reverse.filter (·.isStatic)).length := by
    rw [← List.length_range (n := l.statics.size), ← hlaid.staticSlots, List.length_map]
  refine ⟨hlaid.declared, ⟨hlaid.template, hlaid.instanceSlots, ?_⟩, hlaid.statics⟩
  change (l.fields.reverse.filter (·.isStatic)).map (·.slot) = _
  rw [hlaid.staticSlots, hsize]
  rfl

end Jvm.Linking
