import Mathlib
import Jvm.Proofs.Linking.Consistency
import Jvm.Proofs.Linking.Entering
import Jvm.Proofs.Linking.Meaning

/-! # Registries that go by what names mean

A registry is faithful if the outcomes that it has recorded are those that the class paths give the names: the
classes are the same but for their numbers, the failures are the same, and where a name depends on itself the
recorded failure is circularity. -/

namespace Jvm.Linking

open ClassFile Assembly

/-! ## Classes of a registry -/

/-- The numbers that a class refers to. -/
def LinkedClass.Refers (c : LinkedClass) (id : ClassId) : Prop :=
  id ∈ c.parents ∨ (∃ m ∈ c.methods, m.owner = id) ∨ ∃ m ∈ c.vtable, m.owner = id

/-- Only the numbers that a class refers to count. -/
theorem LinkedClass.renumber_congr {c : LinkedClass} {f g : ClassId → ClassId}
    (h : ∀ id, c.Refers id → f id = g id) : c.renumber f = c.renumber g := by
  have hkind : c.kind.renumber f = c.kind.renumber g := by
    cases hkind : c.kind with
    | ordinary => rfl
    | interface => rfl
    | array component =>
      cases component with
      | primitive p => rfl
      | reference e =>
        have he := h e (.inl (by simp [parents, hkind]))
        simp only [ClassKind.renumber, Component.renumber, he]
  have hsuper : c.superclass.map f = c.superclass.map g := by
    cases hs : c.superclass with
    | none => rfl
    | some s => exact congrArg some (h s (.inl (by simp [parents, hs])))
  have hinterfaces : c.interfaces.map f = c.interfaces.map g :=
    List.map_congr_left fun i hi => h i (.inl (by simp [parents, hi]))
  have hmethods : c.methods.map (·.renumber f) = c.methods.map (·.renumber g) :=
    List.map_congr_left fun m hm => by simp only [Method.renumber, h m.owner (.inr (.inl ⟨m, hm, rfl⟩))]
  have htable : c.methodTable.methods.map (·.renumber f) = c.methodTable.methods.map (·.renumber g) :=
    Array.map_congr_left fun m hm => by simp only [Method.renumber, h m.owner (.inr (.inr ⟨m, hm, rfl⟩))]
  simp only [renumber, MethodTable.renumber, hkind, hsuper, hinterfaces, hmethods, htable]

namespace Registry

variable {r r' : Registry} {id : ClassId} {c : LinkedClass} {key : Key} {v : LinkedClass}

/-- The number of a class by its loader and name; the other numbers are not in use. -/
def canonicalOf (r : Registry) (id : ClassId) : ClassId :=
  match r.table.class? id with
  | some c => canonicalId c.key
  | none => 2 * id

theorem canonicalOf_of_class? (hc : r.table.class? id = some c) : r.canonicalOf id = canonicalId c.key := by
  rw [canonicalOf, hc]

theorem Linked.eq_of_key (hr : r.Linked) {a b : ClassId} {c d : LinkedClass}
    (hc : r.table.class? a = some c) (hd : r.table.class? b = some d) (h : c.key = d.key) : a = b :=
  hr.eq_of_name hc hd (congrArg Prod.snd h)

theorem canonicalOf_injective (hr : r.Linked) : Function.Injective r.canonicalOf := by
  intro a b h
  unfold canonicalOf at h
  cases hc : r.table.class? a <;> cases hd : r.table.class? b <;> rw [hc, hd] at h
  · exact Nat.eq_of_mul_eq_mul_left (by decide) h
  · exact (canonicalId_ne _ a h.symm).elim
  · exact (canonicalId_ne _ b h).elim
  · exact hr.eq_of_key hc hd (canonicalId_injective h)

/-- Whether a class that is numbered by names is one of a registry. -/
def Shows (r : Registry) (v : LinkedClass) (id : ClassId) : Prop :=
  ∃ c, r.table.class? id = some c ∧ v = c.renumber r.canonicalOf

/-- The classes that a class refers to are there. -/
theorem WellFormed.exists_of_refers (hr : r.WellFormed) (hc : r.table.class? id = some c) {i : ClassId}
    (h : c.Refers i) : ∃ d, r.table.class? i = some d := by
  rcases h with h | ⟨m, hm, rfl⟩ | ⟨m, hm, rfl⟩
  · exact ClassTable.class?_of_lt ((r.table.ordered id c hc i h).trans (ClassTable.lt_of_class? hc))
  · obtain ⟨rfl, -⟩ := (hr.built.tabled id c hc).declared m hm
    exact ⟨c, hc⟩
  · obtain ⟨d, hd, -⟩ := hr.built.exists_owner hc hm
    exact ⟨d, hd⟩

theorem canonicalOf_of_within (h : r.table.Within r'.table) {d : LinkedClass}
    (hd : r.table.class? id = some d) : r'.canonicalOf id = r.canonicalOf id := by
  rw [canonicalOf_of_class? hd, canonicalOf_of_class? (h id d hd)]

theorem Shows.mono (hr : r.WellFormed) (h : r.table.Within r'.table) (hv : r.Shows v id) : r'.Shows v id := by
  obtain ⟨c, hc, rfl⟩ := hv
  refine ⟨c, h id c hc, LinkedClass.renumber_congr fun i hi => ?_⟩
  obtain ⟨d, hd⟩ := hr.exists_of_refers hc hi
  exact (canonicalOf_of_within h hd).symm

/-- The numbers by names when one more class is entered. -/
def canonicalNext (r : Registry) (key : Key) (id : ClassId) : ClassId :=
  if id = r.table.size then canonicalId key else r.canonicalOf id

theorem canonicalNext_size : r.canonicalNext key r.table.size = canonicalId key := if_pos rfl

theorem canonicalNext_of_class? (hc : r.table.class? id = some c) : r.canonicalNext key id = r.canonicalOf id :=
  if_neg (ClassTable.lt_of_class? hc).ne

theorem canonicalOf_push (known : ∀ p ∈ c.parents, p < r.table.size) (htable : r'.table = r.table.push c known) :
    r'.canonicalOf = r.canonicalNext c.key := by
  funext i
  rw [canonicalOf, canonicalNext, htable, ClassTable.class?_push]
  by_cases hi : i = r.table.size
  · rw [if_pos hi, if_pos hi]
  · rw [if_neg hi, if_neg hi, canonicalOf]

/-- The class to be entered is not one of those there are, so no two classes get one number. -/
theorem canonicalNext_injective (hr : r.Linked) (hnew : r.loaded[key]? = none) :
    Function.Injective (r.canonicalNext key) := by
  have hother : ∀ i, canonicalId key ≠ r.canonicalOf i := by
    intro i h
    cases hc : r.table.class? i with
    | some c =>
      rw [canonicalOf_of_class? hc] at h
      have hfound := hr.found i c hc
      rw [show (c.loader, c.name) = key from (canonicalId_injective h).symm, hnew] at hfound
      cases hfound
    | none =>
      rw [canonicalOf, hc] at h
      exact canonicalId_ne key i h
  intro a b h
  unfold canonicalNext at h
  split at h <;> split at h
  · next ha hb => rw [ha, hb]
  · exact (hother b h).elim
  · exact (hother a h.symm).elim
  · exact canonicalOf_injective hr h

/-- For the classes there are nothing changes when one more is entered. -/
theorem WellFormed.renumber_canonicalNext (hr : r.WellFormed) (key : Key) (hc : r.table.class? id = some c) :
    c.renumber r.canonicalOf = c.renumber (r.canonicalNext key) :=
  LinkedClass.renumber_congr fun _ hi =>
    let ⟨_, hd⟩ := hr.exists_of_refers hc hi
    (canonicalNext_of_class? hd).symm

end Registry

/-! ## Recorded outcomes -/

/-- Whether a name depends on itself. -/
def Stuck (paths : ClassPaths) (key : Key) : Prop := ∀ n, (answer paths n key).run = none

/-- Whether the outcomes that a registry has recorded are those that the class paths give. -/
structure Registry.Faithful (paths : ClassPaths) (r : Registry) : Prop where
  found : ∀ key id, r.loaded[key]? = some (.ok id) →
    ∃ v, Yields (answer paths · key) (.ok v) ∧ r.Shows v id
  failed : ∀ key e, r.loaded[key]? = some (.error e) → Yields (answer paths · key) (.error e) ∨
    (∃ name, e = .classCircularity name) ∧ Stuck paths key

theorem Registry.faithful_empty (paths : ClassPaths) : Registry.empty.Faithful paths where
  found key id h := by simp [Registry.empty] at h
  failed key e h := by simp [Registry.empty] at h

end Jvm.Linking
