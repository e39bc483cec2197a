import Mathlib
import Jvm.Proofs.Assembly.Pools
import Jvm.Proofs.ClassFile.Layout

/-! # How pools under construction grow

A pool grows by asking for entries (`Pool.Asks`). Where only entries are asked for that a class file can have
(`Entry.Fine`), a pool stays `Pool.WellMade`: it is laid out like the pool of a class file, and its constants
lead to constants of the kinds that they need. -/

namespace Jvm.Assembly

open ClassFile Text

/-! ### Entries of class files -/

/-- Whether a text has few enough bytes to be a constant. -/
def Short (s : String) : Prop := (ModifiedUtf8.encode s).length ≤ 65535

/-- Whether an entry can be in a class file: it is given by its content, its texts are short, and a member
reference has a descriptor of its kind. -/
def Entry.Fine : Entry → Prop
  | .raw _ => False
  | .utf8 s | .classRef s | .string s => Short s
  | .nameAndType name descriptor => Short name ∧ Short descriptor
  | .fieldRef owner name descriptor =>
    Short owner ∧ Short name ∧ Short descriptor ∧ ∃ t, FieldType.parse descriptor = .ok t
  | .methodRef owner name descriptor | .interfaceMethodRef owner name descriptor =>
    Short owner ∧ Short name ∧ Short descriptor ∧ ∃ t, MethodType.parse descriptor = .ok t
  | .integer _ | .float _ | .long _ | .double _ => True

instance (s : String) : Decidable (Short s) := inferInstanceAs (Decidable (_ ≤ _))

theorem isOk_iff {ε α : Type} {x : Except ε α} : x.isOk = true ↔ ∃ a, x = .ok a := by
  cases x <;> simp [Except.isOk, Except.toBool]

instance (descriptor : String) : Decidable (∃ t, FieldType.parse descriptor = .ok t) := decidable_of_iff _ isOk_iff

instance (descriptor : String) : Decidable (∃ t, MethodType.parse descriptor = .ok t) := decidable_of_iff _ isOk_iff

instance : DecidablePred Entry.Fine
  | .raw _ => inferInstanceAs (Decidable False)
  | .utf8 s | .classRef s | .string s => inferInstanceAs (Decidable (Short s))
  | .nameAndType .. | .fieldRef .. | .methodRef .. | .interfaceMethodRef .. => inferInstanceAs (Decidable (_ ∧ _))
  | .integer _ | .float _ | .long _ | .double _ => inferInstanceAs (Decidable True)

namespace Pool

variable {p q r : Pool} {P : Entry → Prop}

/-- Whether a pool grows into another one by asking for entries of some kind. -/
def Asks (P : Entry → Prop) : Pool → Pool → Prop :=
  Relation.ReflTransGen fun p q => ∃ e, P e ∧ q = (entry e p).2

theorem asks_entry {e : Entry} (he : P e) (p : Pool) : Asks P p (entry e p).2 := .single ⟨e, he, rfl⟩

theorem Asks.mono {P' : Entry → Prop} (h : Asks P p q) (hP : ∀ e, P e → P' e) : Asks P' p q :=
  Relation.ReflTransGen.mono (fun _ _ ⟨e, he, heq⟩ => ⟨e, hP e he, heq⟩) p q h

theorem Asks.grows (h : Asks P p q) : p.Extends q := by
  induction h with
  | refl => exact .refl p
  | tail _ hstep ih =>
    obtain ⟨e, -, rfl⟩ := hstep
    exact ih.trans ((gives_entry e).grows _)

theorem Asks.sound (h : Asks P p q) (hp : p.Sound) : q.Sound := by
  induction h with
  | refl => exact hp
  | tail _ hstep ih =>
    obtain ⟨e, -, rfl⟩ := hstep
    exact (gives_entry e).sound _ ih

/-! ### Well-made pools -/

/-- Whether the constants that a constant leads to are in a pool. -/
def Backs (p : Pool) : Constant → Prop
  | .classRef i | .string i => ∃ s, p.Holds i (.utf8 s)
  | .nameAndType i j => ∃ s t, p.Holds i (.utf8 s) ∧ p.Holds j (.utf8 t)
  | .fieldRef i j => ∃ owner name descriptor t, p.Names i (.classRef owner) ∧
    p.Names j (.nameAndType name descriptor) ∧ FieldType.parse descriptor = .ok t
  | .methodRef i j | .interfaceMethodRef i j => ∃ owner name descriptor t, p.Names i (.classRef owner) ∧
    p.Names j (.nameAndType name descriptor) ∧ MethodType.parse descriptor = .ok t
  | .utf8 _ | .integer _ | .float _ | .long _ | .double _ => True
  | .unusable | .methodHandle .. | .methodType _ | .invokeDynamic .. => False

theorem Extends.backs (h : p.Extends q) {c : Constant} (hc : p.Backs c) : q.Backs c := by
  cases c with
  | classRef | string =>
    obtain ⟨s, hs⟩ := hc
    exact ⟨s, h.holds hs⟩
  | nameAndType =>
    obtain ⟨s, t, hs, ht⟩ := hc
    exact ⟨s, t, h.holds hs, h.holds ht⟩
  | fieldRef | methodRef | interfaceMethodRef =>
    obtain ⟨owner, name, descriptor, t, howner, hnt, ht⟩ := hc
    exact ⟨owner, name, descriptor, t, h.names howner, h.names hnt, ht⟩
  | _ => exact hc

/-- Whether a pool can be the one of a class file. -/
structure WellMade (p : Pool) : Prop where
  sound : p.Sound
  laidOut : Pooled p.entries.toList (p.entries.toList.flatMap constantBytes)
  backs : ∀ c ∈ p.entries.toList, c ≠ .unusable → p.Backs c

theorem wellMade_empty : Pool.empty.WellMade := ⟨sound_empty, .nil, by simp [Pool.empty]⟩

/-- What asking for a constant adds: nothing, or the slots of this constant. -/
theorem toList_index (c : Constant) (p : Pool) : (index c p).2.entries.toList = p.entries.toList ∨
    (index c p).2.entries.toList = p.entries.toList ++ c.slots := by
  change (p.intern c).2.entries.toList = _ ∨ (p.intern c).2.entries.toList = _
  unfold intern
  split
  · exact .inl rfl
  · refine .inr ?_
    unfold add Constant.slots
    dsimp only
    split <;> simp

theorem WellMade.index (hp : p.WellMade) {c : Constant} (hrecords : Records (constantBytes c) c)
    (hbacks : p.Backs c) : (index c p).2.WellMade := by
  have hgives := gives_index c
  have hold (d : Constant) (hd : d ∈ p.entries.toList) (hne : d ≠ .unusable) : (Pool.index c p).2.Backs d :=
    (hgives.grows p).backs (hp.backs d hd hne)
  refine ⟨hgives.sound p hp.sound, ?_, ?_⟩ <;> rcases toList_index c p with hsame | hmore
  · rw [hsame]
    exact hp.laidOut
  · rw [hmore, List.flatMap_append, flatMap_slots]
    exact hp.laidOut.append hrecords
  · rw [hsame]
    exact hold
  · rw [hmore]
    intro d hd hne
    rcases List.mem_append.mp hd with hd | hd
    · exact hold d hd hne
    · obtain rfl : d = c := by
        unfold Constant.slots at hd
        split at hd <;> simp_all
      exact (hgives.grows p).backs hbacks

theorem WellMade.utf8 (hp : p.WellMade) {s : String} (hs : Short s) : (utf8 s p).2.WellMade :=
  hp.index ⟨_, ⟨hs, ModifiedUtf8.decode_encode s⟩, rfl⟩ trivial

theorem WellMade.classRef (hp : p.WellMade) {name : String} (hname : Short name) :
    (classRef name p).2.WellMade :=
  (hp.utf8 hname).index rfl ⟨name, (gives_index _).there p hp.sound⟩

theorem WellMade.nameAndType (hp : p.WellMade) {name descriptor : String} (hname : Short name)
    (hdescriptor : Short descriptor) : (nameAndType name descriptor p).2.WellMade := by
  have hfirst := hp.utf8 hname
  have hsecond := gives_index (.utf8 descriptor)
  exact (hfirst.utf8 hdescriptor).index rfl ⟨name, descriptor,
    (hsecond.grows _).holds ((gives_index _).there p hp.sound), hsecond.there _ hfirst.sound⟩

/-- Asking for a member reference of a kind, where what it leads to backs it. -/
theorem WellMade.member (hp : p.WellMade) {make : UInt16 → UInt16 → Constant} {owner name descriptor : String}
    (howner : Short owner) (hname : Short name) (hdescriptor : Short descriptor)
    (hrecords : ∀ i j, Records (constantBytes (make i j)) (make i j))
    (hbacks : ∀ q : Pool, ∀ i j, q.Names i (.classRef owner) → q.Names j (.nameAndType name descriptor) →
      q.Backs (make i j)) : (member make owner name descriptor p).2.WellMade := by
  have hfirst := hp.classRef howner
  have hsecond := gives_nameAndType name descriptor
  exact (hfirst.nameAndType hname hdescriptor).index (hrecords _ _) (hbacks _ _ _
    ((hsecond.grows _).names ((gives_classRef owner).there p hp.sound)) (hsecond.there _ hfirst.sound))

/-- **Asking for fine entries keeps a pool well made.** -/
theorem WellMade.entry (hp : p.WellMade) {e : Entry} (he : e.Fine) : (entry e p).2.WellMade := by
  cases e with
  | raw c => exact he.elim
  | utf8 s => exact hp.utf8 he
  | integer | float | long | double => exact hp.index rfl trivial
  | classRef name => exact hp.classRef he
  | string s => exact (hp.utf8 he).index rfl ⟨s, (gives_index _).there p hp.sound⟩
  | nameAndType name descriptor => exact hp.nameAndType he.1 he.2
  | fieldRef owner name descriptor =>
    obtain ⟨howner, hname, hdescriptor, t, ht⟩ := he
    exact hp.member howner hname hdescriptor (fun _ _ => rfl)
      fun q i j hi hj => ⟨owner, name, descriptor, t, hi, hj, ht⟩
  | methodRef owner name descriptor =>
    obtain ⟨howner, hname, hdescriptor, t, ht⟩ := he
    exact hp.member howner hname hdescriptor (fun _ _ => rfl)
      fun q i j hi hj => ⟨owner, name, descriptor, t, hi, hj, ht⟩
  | interfaceMethodRef owner name descriptor =>
    obtain ⟨howner, hname, hdescriptor, t, ht⟩ := he
    exact hp.member howner hname hdescriptor (fun _ _ => rfl)
      fun q i j hi hj => ⟨owner, name, descriptor, t, hi, hj, ht⟩

theorem WellMade.asks (hp : p.WellMade) (h : Asks Entry.Fine p q) : q.WellMade := by
  induction h with
  | refl => exact hp
  | tail _ hstep ih =>
    obtain ⟨e, he, rfl⟩ := hstep
    exact ih.entry he

end Pool

end Jvm.Assembly
