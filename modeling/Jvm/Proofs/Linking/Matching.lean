import Mathlib
import Jvm.Proofs.Linking.MethodLookup

/-! # Lookups in tables that match

Two tables match along a relation of their numbers if classes of related numbers are the same but for the
numbers that they refer to. Fields and methods are looked up by what the classes are and not by the numbers
that they have, so in tables that match a lookup comes to the same (`Matching.field?`, `Matching.method?`). -/

namespace Jvm.Linking

variable {R : ClassId → ClassId → Prop}

/-! ## What matches -/

/-- Whether two methods are the same but for the numbers of the classes that declare them. -/
structure Method.Matches (R : ClassId → ClassId → Prop) (m m' : Method) : Prop where
  owner : R m.owner m'.owner
  same : m' = { m with owner := m'.owner }

/-- Whether two fields are the same but for the numbers of the classes that declare them. -/
structure ClassTable.ResolvedField.Matches (R : ClassId → ClassId → Prop) (f f' : ResolvedField) : Prop where
  owner : R f.owner f'.owner
  same : f' = { f with owner := f'.owner }

/-- Whether two classes are the same, as far as lookups see them, but for the numbers that they refer to. -/
structure LinkedClass.Matches (R : ClassId → ClassId → Prop) (c c' : LinkedClass) : Prop where
  superclass : Option.Rel R c.superclass c'.superclass
  interfaces : List.Forall₂ R c.interfaces c'.interfaces
  fields : c'.fields = c.fields
  methods : List.Forall₂ (Method.Matches R) c.methods c'.methods

/-- Whether classes of related numbers are the same, and each is related to one. -/
structure ClassTable.Matching (R : ClassId → ClassId → Prop) (t t' : ClassTable) : Prop where
  unique : Relator.BiUnique R
  classes : ∀ i i', R i i' → ∃ c c', t.class? i = some c ∧ t'.class? i' = some c' ∧ c.Matches R c'

/-! ## Values that are related -/

section

variable {α β γ δ : Type} {P : α → β → Prop} {Q : γ → δ → Prop}

theorem rel_or {a b : Option α} {a' b' : Option β} (ha : Option.Rel P a a') (hb : Option.Rel P b b') :
    Option.Rel P (a.or b) (a'.or b') := by
  cases ha with
  | some h => exact .some h
  | none => exact hb

theorem rel_bind {a : Option α} {a' : Option β} {f : α → Option γ} {f' : β → Option δ}
    (ha : Option.Rel P a a') (hf : ∀ x x', P x x' → Option.Rel Q (f x) (f' x')) :
    Option.Rel Q (a.bind f) (a'.bind f') := by
  cases ha with
  | some h => exact hf _ _ h
  | none => exact .none

theorem rel_filter {a : Option α} {a' : Option β} {p : α → Bool} {p' : β → Bool}
    (ha : Option.Rel P a a') (hp : ∀ x x', P x x' → p x = p' x') :
    Option.Rel P (a.filter p) (a'.filter p') := by
  cases ha with
  | none => exact .none
  | @some x x' h =>
    rw [Option.filter_some, Option.filter_some, hp x x' h]
    split
    exacts [.some h, .none]

theorem rel_head? {l : List α} {l' : List β} (h : List.Forall₂ P l l') : Option.Rel P l.head? l'.head? := by
  cases h with
  | nil => exact .none
  | cons h _ => exact .some h

theorem rel_find? {l : List α} {l' : List β} {p : α → Bool} {p' : β → Bool} (h : List.Forall₂ P l l')
    (hp : ∀ x x', P x x' → p x = p' x') : Option.Rel P (l.find? p) (l'.find? p') := by
  rw [← List.head?_filter, ← List.head?_filter]
  exact rel_head? (List.rel_filter (fun x x' hx => iff_of_eq (congrArg (· = true) (hp x x' hx))) h)

theorem rel_findSome? {l : List α} {l' : List β} {f : α → Option γ} {f' : β → Option δ}
    (h : List.Forall₂ P l l') (hf : ∀ x x', P x x' → Option.Rel Q (f x) (f' x')) :
    Option.Rel Q (l.findSome? f) (l'.findSome? f') := by
  rw [← List.head?_filterMap, ← List.head?_filterMap]
  exact rel_head? (List.rel_filterMap (fun x x' hx => hf x x' hx) h)

end

namespace ClassTable

variable {t t' : ClassTable} {i i' : ClassId} {n d : String}

/-! ## The hierarchy -/

theorem Matching.superOf? (h : t.Matching R t') (hi : R i i') :
    Option.Rel R (t.superOf? i) (t'.superOf? i') := by
  obtain ⟨c, c', hc, hc', hmatches⟩ := h.classes i i' hi
  rw [superOf?_of_class? hc, superOf?_of_class? hc']
  exact hmatches.superclass

theorem Matching.interfacesOf (h : t.Matching R t') (hi : R i i') :
    List.Forall₂ R (t.interfacesOf i) (t'.interfacesOf i') := by
  obtain ⟨c, c', hc, hc', hmatches⟩ := h.classes i i' hi
  rw [interfacesOf_of_class? hc, interfacesOf_of_class? hc']
  exact hmatches.interfaces

/-- Superinterfaces come before the class, for inductions on the number. -/
theorem Matching.interfacesOf_lt (h : t.Matching R t') (hi : R i i') :
    List.Forall₂ (fun j j' => j < i ∧ R j j') (t.interfacesOf i) (t'.interfacesOf i') :=
  (List.forall₂_and_left ..).2 ⟨fun _ hj => ClassTable.interfacesOf_lt hj, h.interfacesOf hi⟩

theorem Matching.superOf?_lt (h : t.Matching R t') (hi : R i i') :
    Option.Rel (fun s s' => s < i ∧ R s s') (t.superOf? i) (t'.superOf? i') := by
  have hsuper := h.superOf? hi
  cases hs : t.superOf? i <;> cases hs' : t'.superOf? i' <;> rw [hs, hs'] at hsuper
  · exact .none
  · cases hsuper
  · cases hsuper
  · cases hsuper with
    | some hrel => exact .some ⟨ClassTable.superOf?_lt hs, hrel⟩

theorem Matching.chain (h : t.Matching R t') (hi : R i i') : List.Forall₂ R (t.chain i) (t'.chain i') := by
  induction i using Nat.strongRecOn generalizing i' with
  | ind i ih =>
    rw [chain_eq, chain_eq]
    refine .cons hi ?_
    have hsuper := h.superOf?_lt hi
    generalize t.superOf? i = s at hsuper
    generalize t'.superOf? i' = s' at hsuper
    cases hsuper with
    | none => exact .nil
    | some hs => exact ih _ hs.1 hs.2

/-- The interfaces that a search has come by are related throughout. -/
theorem Matching.addInterfaces (h : t.Matching R t') {found found' : List ClassId}
    (hfound : List.Forall₂ R found found') (hi : R i i') :
    List.Forall₂ R (t.addInterfaces found i) (t'.addInterfaces found' i') := by
  induction i using Nat.strongRecOn generalizing i' found found' with
  | ind i ih =>
    have hown : List.Forall₂ R
        ((t.interfacesOf i).foldl
          (fun found j => if found.contains j then found else t.addInterfaces (found ++ [j]) j) found)
        ((t'.interfacesOf i').foldl
          (fun found j => if found.contains j then found else t'.addInterfaces (found ++ [j]) j) found') := by
      refine List.rel_foldl (R := fun j j' => j < i ∧ R j j') ?_ hfound (h.interfacesOf_lt hi)
      rintro found found' hfound j j' ⟨hlt, hj⟩
      have hmem : j ∈ found ↔ j' ∈ found' := List.rel_mem h.unique hj hfound
      have hcontains : found.contains j = found'.contains j' := by
        rw [Bool.eq_iff_iff, List.contains_iff_mem, List.contains_iff_mem, hmem]
      dsimp only
      rw [hcontains]
      split
      · exact hfound
      · exact ih j hlt (List.rel_append hfound (.cons hj .nil)) hj
    rw [addInterfaces_eq, addInterfaces_eq]
    dsimp only
    have hsuper := h.superOf?_lt hi
    generalize t.superOf? i = s at hsuper
    generalize t'.superOf? i' = s' at hsuper
    cases hsuper with
    | none => exact hown
    | some hs => exact ih _ hs.1 hown hs.2

/-! ## Fields -/

theorem Matching.declaredField? (h : t.Matching R t') (hi : R i i') :
    Option.Rel (ResolvedField.Matches R) (t.declaredField? i n d) (t'.declaredField? i' n d) := by
  obtain ⟨c, c', hc, hc', hmatches⟩ := h.classes i i' hi
  have hfield : c'.field? n d = c.field? n d := by
    rw [LinkedClass.field?, LinkedClass.field?, hmatches.fields]
  simp only [ClassTable.declaredField?, hc, hc', Option.bind_eq_bind, Option.bind_some, hfield]
  cases c.field? n d with
  | none => exact .none
  | some f => exact .some ⟨hi, rfl⟩

/-- Looking a field up in tables that match comes to the same. -/
theorem Matching.field? (h : t.Matching R t') (hi : R i i') :
    Option.Rel (ResolvedField.Matches R) (t.field? i n d) (t'.field? i' n d) := by
  induction i using Nat.strongRecOn generalizing i' with
  | ind i ih =>
    rw [field?_eq, field?_eq]
    refine rel_or (h.declaredField? hi) (rel_or ?_ ?_)
    · exact rel_findSome? (h.interfacesOf_lt hi) fun j j' hj => ih j hj.1 hj.2
    · exact rel_bind (h.superOf?_lt hi) fun s s' hs => ih s hs.1 hs.2

/-! ## Methods -/

theorem Matching.declaredMethod? (h : t.Matching R t') (hi : R i i') :
    Option.Rel (Method.Matches R) (t.declaredMethod? i n d) (t'.declaredMethod? i' n d) := by
  obtain ⟨c, c', hc, hc', hmatches⟩ := h.classes i i' hi
  simp only [ClassTable.declaredMethod?, hc, hc', Option.bind_some]
  exact rel_find? hmatches.methods fun m m' hm => by rw [hm.same]; rfl

theorem Matching.interfaceMethod? (h : t.Matching R t') (hi : R i i') :
    Option.Rel (Method.Matches R) (t.interfaceMethod? i n d) (t'.interfaceMethod? i' n d) := by
  have hall : List.Forall₂ R (t.allInterfaces i) (t'.allInterfaces i') := h.addInterfaces .nil hi
  have hcandidates : List.Forall₂ (Method.Matches R)
      ((t.allInterfaces i).filterMap fun j =>
        (t.declaredMethod? j n d).filter fun m => !m.isStatic && !m.isPrivate)
      ((t'.allInterfaces i').filterMap fun j =>
        (t'.declaredMethod? j n d).filter fun m => !m.isStatic && !m.isPrivate) :=
    List.rel_filterMap (fun j j' hj => rel_filter (h.declaredMethod? hj)
      fun m m' hm => by rw [hm.same]; rfl) hall
  exact rel_or (rel_find? hcandidates fun m m' hm => by rw [hm.same]; rfl) (rel_head? hcandidates)

/-- Looking a method up in tables that match comes to the same. -/
theorem Matching.method? (h : t.Matching R t') (hi : R i i') :
    Option.Rel (Method.Matches R) (t.method? i n d) (t'.method? i' n d) :=
  rel_or (rel_findSome? (h.chain hi) fun _ _ hj => h.declaredMethod? hj) (h.interfaceMethod? hi)

/-! ## Tables with more classes -/

/-- Whether two numbers are the same, that of a class of a table. -/
def Keeps (t : ClassTable) (i i' : ClassId) : Prop := i = i' ∧ ∃ c, t.class? i = some c

theorem forall₂_keeps {is : List ClassId} (h : ∀ i ∈ is, ∃ c, t.class? i = some c) :
    List.Forall₂ t.Keeps is is :=
  List.forall₂_same.2 fun i hi => ⟨rfl, h i hi⟩

/-- A table matches itself with more classes. -/
theorem Within.matching (h : t.Within t') (ht : t.Built) : t.Matching t.Keeps t' where
  unique := ⟨fun _ _ _ hi hj => hi.1.trans hj.1.symm, fun _ _ _ hi hj => hi.1.symm.trans hj.1⟩
  classes := by
    rintro i _ ⟨rfl, c, hc⟩
    have hparents : ∀ p ∈ c.parents, ∃ d, t.class? p = some d := fun p hp =>
      class?_of_lt ((t.ordered i c hc p hp).trans (lt_of_class? hc))
    refine ⟨c, c, hc, h i c hc, ?_, ?_, rfl, ?_⟩
    · cases hs : c.superclass with
      | none => exact .none
      | some s => exact .some ⟨rfl, hparents s (by simp [LinkedClass.parents, hs])⟩
    · exact forall₂_keeps fun j hj => hparents j (by simp [LinkedClass.parents, hj])
    · refine List.forall₂_same.2 fun m hm => ⟨⟨rfl, ?_⟩, rfl⟩
      rw [((ht.tabled i c hc).declared m hm).1]
      exact ⟨c, hc⟩

theorem eq_of_rel_eq {α : Type} {P : α → α → Prop} {a b : Option α} (h : Option.Rel P a b)
    (hP : ∀ x y, P x y → x = y) : a = b := by
  cases h with
  | none => rfl
  | some h => rw [hP _ _ h]

theorem field_eq_of_keeps {f f' : ResolvedField} (h : f.Matches t.Keeps f') : f = f' := by
  rw [h.same, ← h.owner.1]

theorem method_eq_of_keeps {m m' : Method} (h : m.Matches t.Keeps m') : m = m' := by
  rw [h.same, ← h.owner.1]

section

variable {c : LinkedClass} (h : t.Within t') (ht : t.Built) (hc : t.class? i = some c)

include h ht hc

/-- A field that is looked up in a class stays the same while classes are entered. -/
theorem Within.field?_eq : t'.field? i n d = t.field? i n d :=
  (eq_of_rel_eq ((h.matching ht).field? ⟨rfl, c, hc⟩) fun _ _ => field_eq_of_keeps).symm

theorem Within.declaredMethod?_eq : t'.declaredMethod? i n d = t.declaredMethod? i n d :=
  (eq_of_rel_eq ((h.matching ht).declaredMethod? ⟨rfl, c, hc⟩) fun _ _ => method_eq_of_keeps).symm

theorem Within.interfaceMethod?_eq : t'.interfaceMethod? i n d = t.interfaceMethod? i n d :=
  (eq_of_rel_eq ((h.matching ht).interfaceMethod? ⟨rfl, c, hc⟩) fun _ _ => method_eq_of_keeps).symm

/-- So does a method. -/
theorem Within.method?_eq : t'.method? i n d = t.method? i n d :=
  (eq_of_rel_eq ((h.matching ht).method? ⟨rfl, c, hc⟩) fun _ _ => method_eq_of_keeps).symm

end

end ClassTable

end Jvm.Linking
