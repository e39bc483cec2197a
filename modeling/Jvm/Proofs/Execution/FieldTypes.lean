import Mathlib
import Jvm.Execution.Fields
import Jvm.Proofs.Linking.Fields

/-! # Values in fields

What a value has to be for a field is what an assignment to the field keeps of it (`keptIn`). A registry is
well typed if its static fields hold such values, but for constants that have not been cut down to the width
of their field (`Uncut`), and if every string constant that has been looked up stands for its text. Loading,
resolving and assignments keep a registry well typed.

Instances are assigned to by slot only: what stands in a slot is of the type of some field in this slot, and
nothing says of which class (`SlotTakes`). -/

namespace Jvm

open Linking ClassFile

namespace Execution

/-! ## What is kept -/

variable {type : FieldType} {v w : Value}

/-- What is kept is kept again. -/
theorem keptIn_keptIn (h : keptIn type v = some w) : keptIn type w = some w := by
  unfold keptIn at h
  split at h
  case h_1 n => cases h; simp [keptIn, Int32.and_assoc]
  case h_2 n => cases h; simp [keptIn, Arithmetic.i2b]
  case h_3 n => cases h; simp [keptIn, Arithmetic.i2c, Int32.and_assoc]
  case h_4 n => cases h; simp [keptIn, Arithmetic.i2s]
  case h_9 | h_10 =>
    split at h
    · next hv =>
      cases h
      simp only [keptIn, if_pos hv]
    · cases h
  case h_11 => cases h
  all_goals
    cases h
    rfl

theorem keptIn_defaultValue (type : FieldType) : keptIn type type.defaultValue = some type.defaultValue := by
  cases type <;> rfl

/-- A field of a reference type takes every reference. -/
theorem keptIn_of_isReference (htype : type.isReference = true) (hv : v.isReference = true) :
    keptIn type v = some v := by
  cases type with
  | object name | array component => exact if_pos hv
  | _ => cases htype

/-- The types whose values are ints of less than 32 bits. -/
def IsNarrow (type : FieldType) : Prop :=
  type = .boolean ∨ type = .byte ∨ type = .char ∨ type = .short

/-- A constant is of the type of its field, or an integer that has not been cut down. -/
theorem keptIn_of_constantFieldValue {c : Constant} {name : String}
    (h : constantFieldValue c type name = .ok v) :
    keptIn type v = some v ∨ IsNarrow type ∧ ∃ n, c = .integer n ∧ v = .int n := by
  unfold constantFieldValue at h
  dsimp only at h
  split at h
  case h_6 | h_7 | h_8 | h_1 => cases h; exact .inl rfl
  case h_2 n | h_3 n | h_4 n | h_5 n => cases h; exact .inr ⟨by simp [IsNarrow], n, rfl, rfl⟩
  case h_9 =>
    split_ifs at h
    cases h
    exact .inl rfl
  case h_10 => cases h

/-- A field with a string constant is one for strings. -/
theorem type_of_string_constant {index : UInt16} {name : String}
    (h : constantFieldValue (.string index) type name = .ok v) :
    type = .object CoreClasses.stringName := by
  unfold constantFieldValue at h
  dsimp only at h
  split at h
  case h_9 hc =>
    split_ifs at h with hcls
    rw [hcls]
    rfl
  case h_10 => cases h
  all_goals next hc => cases hc

/-- The fields that the machine itself assigns to, by name and descriptor: the names of class objects, and
the messages and stack traces of throwables. -/
def assignedFields : List (String × String) :=
  [("name", "Ljava/lang/String;"), ("detailMessage", "Ljava/lang/String;"),
    ("stackTrace", "[Ljava/lang/String;")]

theorem isReference_of_mem_assignedFields {name descriptor : String}
    (h : (name, descriptor) ∈ assignedFields) (htype : FieldType.parse descriptor = .ok type) :
    type.isReference = true := by
  simp only [assignedFields, List.mem_cons, List.not_mem_nil, or_false, Prod.mk.injEq] at h
  obtain ⟨-, rfl⟩ | ⟨-, rfl⟩ | ⟨-, rfl⟩ := h <;> cases htype <;> rfl

end Execution

namespace Linking

open Execution

/-! ## Static fields -/

/-- What the value of a static field may be. -/
inductive Field.Takes (c : LinkedClass) (f : Field) (v : Value) : Prop
  | kept (hv : keptIn f.type v = some v)
  | uncut {index : UInt16} {n : Int32} (htype : IsNarrow f.type) (hindex : f.constant = some index)
    (hn : c.pool.get index = .ok (.integer n)) (hv : v = .int n)

theorem Field.takes_initialValue {c : LinkedClass} {f : Field} {v : Value}
    (h : f.initialValue c.pool = .ok v) : f.Takes c v := by
  unfold Field.initialValue at h
  split at h
  · next index hindex =>
    obtain ⟨constant, hconstant, h⟩ := Verification.exists_of_bind h
    rcases keptIn_of_constantFieldValue h with hv | ⟨htype, n, rfl, hv⟩
    · exact .kept hv
    · exact .uncut htype hindex hconstant hv
  · cases h
    exact .kept (keptIn_defaultValue f.type)

namespace Registry

/-- Whether an object is the string for the text of a string constant. -/
def StandsFor (r : Registry) (c : LinkedClass) (index : UInt16) (x : Ref) : Prop :=
  ∃ i text, c.pool.get index = .ok (.string i) ∧ c.pool.utf8 i = .ok text ∧ r.interned? text = some x

/-- Whether static fields hold what they may, and string constants stand for their text. -/
structure WellTyped (r : Registry) : Prop where
  statics : ∀ id c s, r.table.class? id = some c → r.state? id = some s →
    ∀ f ∈ c.staticFields, ∃ v, s.statics[f.slot]? = some v ∧ f.Takes c v
  constants : ∀ id c s (index : UInt16) x, r.table.class? id = some c → r.state? id = some s →
    s.strings.find? index = some x → r.StandsFor c index x

variable {r r' : Registry} {id : ClassId} {c : LinkedClass}

theorem wellTyped_empty : Registry.empty.WellTyped where
  statics id c s _ hs := by simp [state?, empty] at hs
  constants id c s index x _ hs := by simp [state?, empty] at hs

/-- The values that static fields start with are values that they take. -/
theorem StartsWith.takes (hr : r.table.Built) {statics : Array Value} (h : r.StartsWith id statics)
    (hc : r.table.class? id = some c) {f : Field} (hf : f ∈ c.staticFields) :
    ∃ v, statics[f.slot]? = some v ∧ f.Takes c v := by
  obtain ⟨d, hd, hstatics⟩ := h
  cases hc.symm.trans hd
  obtain ⟨i, hi⟩ := List.mem_iff_getElem?.1 hf
  have hvalue := congrArg (·[i]?) hstatics
  simp only [List.getElem?_map, hi, Option.map_some] at hvalue
  obtain ⟨v, hv, hinitial⟩ := Option.map_eq_some_iff.1 hvalue.symm
  rw [ClassTable.slot_eq_of_getElem? (hr.fielded id c hc).staticSlots hi]
  exact ⟨v, by rw [← Array.getElem?_toList]; exact hv, Field.takes_initialValue hinitial.symm⟩

theorem Resolves.interned?_eq (h : r.Resolves r') (hr : r.Consistent) (text : String) :
    r'.interned? text = r.interned? text := by
  rw [interned?, (h.consistent hr).2.interned]
  rfl

/-- Loading and resolving keep a registry well typed. -/
theorem Resolves.wellTyped (h : r.Resolves r') (hr : r.Consistent) (hw : r.WellTyped) :
    r'.WellTyped := by
  obtain ⟨hr', hgrows⟩ := h.consistent hr
  -- a class with a state has been there, and is the same
  have hold {id : ClassId} {c : LinkedClass} {s : ClassState} (hc : r'.table.class? id = some c)
      (hs : r.state? id = some s) : r.table.class? id = some c := by
    have hlt : id < r.table.size := hr.linked.states ▸ (Array.getElem?_eq_some_iff.1 hs).1
    obtain ⟨d, hd⟩ := ClassTable.class?_of_lt hlt
    rw [hd, ← h.table id d hd, hc]
  refine ⟨fun id c s' hc hs' => ?_, fun id c s' index x hc hs' hx => ?_⟩
  · cases hs : r.state? id with
    | none => exact fun f => (h.fresh hr id s' hs hs').takes hr'.built hc
    | some s =>
      obtain ⟨s'', hs'', hresolved⟩ := h.states id s hs
      cases hs'.symm.trans hs''
      rw [show s'.statics = s.statics by rw [hresolved]]
      exact hw.statics id c s (hold hc hs) hs
  · rcases hgrows.roots id s' hs' with hnil | ⟨s, hs, -⟩
    · have hmem : x ∈ s'.roots := ClassState.mem_roots.2
        (.inr (.inr (Array.mem_of_getElem? (Option.join_eq_some_iff.1 hx))))
      rw [hnil] at hmem
      cases hmem
    · obtain ⟨s'', hs'', hresolved⟩ := h.states id s hs
      cases hs'.symm.trans hs''
      rw [show s'.strings = s.strings by rw [hresolved]] at hx
      obtain ⟨i, text, hi, htext, hinterned⟩ := hw.constants id c s index x (hold hc hs) hs hx
      exact ⟨i, text, hi, htext, (h.interned?_eq hr text).trans hinterned⟩

/-- A change of a class whose static fields keep taking what they hold, and whose string constants stand for
their texts. -/
theorem WellTyped.modifyState (hw : r.WellTyped) (id : ClassId) {change : ClassState → ClassState}
    (hstatics : ∀ c s, r.table.class? id = some c → ∀ f ∈ c.staticFields, ∀ v, s.statics[f.slot]? = some v →
      f.Takes c v → ∃ w, (change s).statics[f.slot]? = some w ∧ f.Takes c w)
    (hstrings : ∀ c s (index : UInt16) x, r.table.class? id = some c →
      (change s).strings.find? index = some x →
        s.strings.find? index = some x ∨ r.StandsFor c index x) :
    (r.modifyState id change).WellTyped where
  statics i c s' hc hs' f hf := by
    obtain ⟨s, hs, rfl | ⟨rfl, rfl⟩⟩ := state?_modifyState hs'
    · exact hw.statics i c _ hc hs f hf
    · obtain ⟨v, hv, htakes⟩ := hw.statics i c s hc hs f hf
      exact hstatics c s hc f hf v hv htakes
  constants i c s' index x hc hs' hx := by
    obtain ⟨s, hs, rfl | ⟨rfl, rfl⟩⟩ := state?_modifyState hs'
    · exact hw.constants i c _ index x hc hs hx
    · exact (hstrings c s index x hc hx).elim (hw.constants i c s index x hc hs) fun h => h

/-- A change of a class that leaves its static fields and string constants as they are. -/
theorem WellTyped.modifyState_of_eq (hw : r.WellTyped) (id : ClassId) {change : ClassState → ClassState}
    (hstatics : ∀ s : ClassState, (change s).statics = s.statics)
    (hstrings : ∀ s : ClassState, (change s).strings = s.strings) : (r.modifyState id change).WellTyped :=
  hw.modifyState id (fun _ s _ _ _ v hv htakes => ⟨v, (hstatics s).symm ▸ hv, htakes⟩)
    fun _ s _ _ _ hx => .inl (hstrings s ▸ hx)

/-- A string comes to stand for a text unless one does. -/
theorem interned?_intern (r : Registry) (text t : String) (x : Ref) : (r.intern text x).interned? t =
    if text = t ∧ r.interned? text = none then some x else r.interned? t := by
  simp only [interned?, intern, Std.HashMap.getElem?_insertIfNew, beq_iff_eq]
  simp

/-- The string that stands for a text stays when others come to do so. -/
theorem interned?_intern_of_eq_some {text t : String} {x y : Ref} (h : r.interned? t = some y) :
    (r.intern text x).interned? t = some y := by
  rw [interned?_intern, if_neg, h]
  rintro ⟨rfl, hnone⟩
  cases h.symm.trans hnone

/-- The string for its text becomes known as a string constant. -/
theorem WellTyped.recordString (hw : r.WellTyped) {index : UInt16} {x : Ref}
    (hx : ∀ c, r.table.class? id = some c → r.StandsFor c index x) :
    (r.recordString id index x).WellTyped :=
  hw.modifyState id (fun _ _ _ _ _ v hv htakes => ⟨v, hv, htakes⟩) fun c s i y hc hy =>
    (find?_record hy).imp_right fun ⟨hi, hy⟩ => by rw [hi, hy]; exact hx c hc

/-- An assignment of what a declared static field keeps. -/
theorem WellTyped.setStatic? (hw : r.WellTyped) (hr : r.Consistent) {f : ClassTable.ResolvedField}
    (hf : r.table.DeclaresField f) (hstatic : f.isStatic = true) {v : Value}
    (hv : keptIn f.type v = some v) (h : r.setStatic? f.owner f.slot v = some r') : r'.WellTyped := by
  unfold Registry.setStatic? at h
  split at h
  · cases h
    refine hw.modifyState f.owner (fun c s hc g hg w hw htakes => ?_) fun _ _ _ _ _ hx => .inl hx
    dsimp only
    rw [Array.getElem?_setIfInBounds]
    obtain ⟨d, f', hd, hf', heq⟩ := hf
    cases hc.symm.trans hd
    split
    · next hslot =>
      -- no two static fields share a slot
      have hstatic' : f'.isStatic = true := by
        rw [heq] at hstatic
        exact hstatic
      have hslots : (c.staticFields.map (·.slot)).Nodup := by
        rw [(hr.built.fielded f.owner c hc).staticSlots]
        exact List.nodup_range
      have hslot' : f'.slot = g.slot := (congrArg ClassTable.ResolvedField.slot heq).symm.trans hslot
      obtain rfl : f' = g := List.inj_on_of_nodup_map hslots (List.mem_filter.2 ⟨hf', hstatic'⟩) hg hslot'
      have htype : f.type = f'.type := congrArg ClassTable.ResolvedField.type heq
      refine ⟨v, ?_, .kept (htype ▸ hv)⟩
      rw [hslot, if_pos (Array.getElem?_eq_some_iff.1 hw).1]
    · exact ⟨w, hw, htakes⟩
  · cases h

theorem WellTyped.intern (hw : r.WellTyped) (text : String) (x : Ref) : (r.intern text x).WellTyped where
  statics := hw.statics
  constants id c s index y hc hs hy := by
    obtain ⟨i, t, hi, ht, hinterned⟩ := hw.constants id c s index y hc hs hy
    exact ⟨i, t, hi, ht, interned?_intern_of_eq_some hinterned⟩

end Registry

namespace ClassTable

variable {t : ClassTable} {id : ClassId} {c : LinkedClass} {f : Field}

/-- A static field of a linked class has a value to start with. -/
theorem Built.exists_initialValue (ht : t.Built) : ∀ id c, t.class? id = some c →
    ∀ f ∈ c.staticFields, ∃ v, f.initialValue c.pool = .ok v := by
  refine ht.forall (P := fun _ _ c => ∀ f ∈ c.staticFields, ∃ v, f.initialValue c.pool = .ok v)
    (fun _ _ _ _ _ h => h) fun t c known _ _ hc f hf => ?_
  cases hc with
  | file _ _ _ _ hlinked =>
    obtain ⟨-, -, hstatics⟩ := laidOut_of_linkedClass hlinked
    have hmem := List.mem_map_of_mem (f := Field.initialValue c.pool) hf
    rw [hstatics] at hmem
    obtain ⟨v, -, hv⟩ := List.mem_map.1 hmem
    exact ⟨v, hv.symm⟩
  | array hobject => cases hf

/-- A static field with a string constant is one for strings. -/
theorem Built.type_of_stringConstant (ht : t.Built) (hc : t.class? id = some c) (hf : f ∈ c.staticFields)
    {index : UInt16} (hindex : f.constant = some index) (hstring : VM.isStringConstant c index = true) :
    f.type = .object CoreClasses.stringName := by
  obtain ⟨v, hv⟩ := ht.exists_initialValue id c hc f hf
  simp only [Field.initialValue, hindex] at hv
  obtain ⟨constant, hconstant, hv⟩ := Verification.exists_of_bind hv
  simp only [VM.isStringConstant, ConstantPool.get?, hconstant, Except.toOption] at hstring
  split at hstring
  · next i hi =>
    cases hi
    exact type_of_string_constant hv
  · cases hstring

end ClassTable

/-! ## Instance fields -/

namespace ClassTable

variable {t t' : ClassTable} {id : ClassId} {c : LinkedClass} {f : Field} {slot : Nat} {v : Value}

/-- What may stand in a slot of an instance, of whatever class. -/
inductive SlotTakes (t : ClassTable) (slot : Nat) (v : Value) : Prop
  -- What a field keeps that a class has in this slot: an instance field, or one that the machine itself
  -- assigns to.
  | declared {id : ClassId} {c : LinkedClass} {f : Field} (hc : t.class? id = some c) (hf : f ∈ c.fields)
    (hassigned : f.isStatic = false ∨ (f.name, f.descriptor) ∈ assignedFields) (hslot : f.slot = slot)
    (hv : keptIn f.type v = some v)
  | chars (hslot : slot = charsSlot) (hv : v.isReference = true)

theorem SlotTakes.mono (h : t.SlotTakes slot v) (htable : t.Within t') : t'.SlotTakes slot v := by
  cases h with
  | declared hc hf hassigned hslot hv => exact .declared (htable _ _ hc) hf hassigned hslot hv
  | chars hslot hv => exact .chars hslot hv

/-- What is put into a declared instance field. -/
theorem DeclaresField.slotTakes {f : ResolvedField} (hf : t.DeclaresField f)
    (hinstance : f.isStatic = false) (hv : keptIn f.type v = some v) : t.SlotTakes f.slot v := by
  obtain ⟨c, g, hc, hg, heq⟩ := hf
  rw [heq] at hinstance hv ⊢
  exact .declared hc hg (.inl hinstance) rfl hv

/-- The type of a field is the one that its descriptor says. -/
theorem Built.parse_descriptor (ht : t.Built) (hc : t.class? id = some c) (hf : f ∈ c.fields) :
    FieldType.parse f.descriptor = .ok f.type := by
  have hfielded := ht.fielded id c hc
  cases harray : c.isArray with
  | true =>
    rw [(hfielded.arrays harray).1] at hf
    cases hf
  | false =>
    obtain ⟨bytes, file, -, -, hdeclared⟩ := hfielded.declared harray
    obtain ⟨i, hi, rfl⟩ := List.mem_iff_getElem.1 hf
    exact (hdeclared.get (hdeclared.length_eq ▸ hi) hi).type

/-- Whether a class has a field of a name and descriptor in a slot. -/
def HasFieldAt (t : ClassTable) (name descriptor : String) (slot : Nat) : Prop :=
  ∃ id c f, t.class? id = some c ∧ f ∈ c.fields ∧ f.name = name ∧ f.descriptor = descriptor ∧
    f.slot = slot

theorem hasFieldAt_of_field? {name descriptor : String} {f : ResolvedField}
    (h : t.field? id name descriptor = some f) : t.HasFieldAt name descriptor f.slot := by
  obtain ⟨c, g, hc, hg, hname, hdescriptor, heq⟩ := exists_of_declaredField? (exists_of_field? h).2
  exact ⟨_, c, g, hc, hg, hname, hdescriptor, (congrArg ResolvedField.slot heq).symm⟩

theorem HasFieldAt.mono {name descriptor : String} (h : t.HasFieldAt name descriptor slot)
    (htable : t.Within t') : t'.HasFieldAt name descriptor slot := by
  obtain ⟨id, c, f, hc, hf⟩ := h
  exact ⟨id, c, f, htable id c hc, hf⟩

/-- What the machine itself puts into a field. -/
theorem HasFieldAt.slotTakes {name descriptor : String} (h : t.HasFieldAt name descriptor slot)
    (ht : t.Built) (hmem : (name, descriptor) ∈ assignedFields) (hv : v.isReference = true) :
    t.SlotTakes slot v := by
  obtain ⟨id, c, f, hc, hf, rfl, rfl, hslot⟩ := h
  have htype := isReference_of_mem_assignedFields hmem (ht.parse_descriptor hc hf)
  exact .declared hc hf (.inr hmem) hslot (keptIn_of_isReference htype hv)

/-- What instances start with may stand in their slots. -/
theorem Built.slotTakes_template (ht : t.Built) (hc : t.class? id = some c) (hplain : c.isArray = false)
    (hv : c.template[slot]? = some v) : t.SlotTakes slot v := by
  rw [← Array.getElem?_toList, ht.template_layout hc hplain, List.getElem?_map] at hv
  obtain ⟨f, hf, rfl⟩ := Option.map_eq_some_iff.1 hv
  obtain ⟨b, -, d, hd, hmem⟩ := mem_layout.1 (List.mem_of_getElem? hf)
  obtain ⟨hmem, hinstance⟩ := List.mem_filter.1 hmem
  exact .declared hd hmem (.inl (by simpa using hinstance))
    (slot_eq_of_getElem? (ht.slots_layout hc hplain) hf) (keptIn_defaultValue f.type)

end ClassTable

end Linking

end Jvm
