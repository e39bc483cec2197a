import Mathlib
import Jvm.Linking.Table

/-! # The order of classes

Which classes fit variables of which classes, as a relation: `isAssignable_iff` says that it is what the
table computes. `Fits.mono`: entering classes takes nothing away from it. `Fits.trans`: in a table in which
all array classes are built alike and all chains of superclasses end in one class, it is transitive,
covariant arrays included. -/

namespace Jvm.Linking.ClassTable

variable {t t' : ClassTable}

/-! ## Superclasses and superinterfaces -/

theorem mem_chain {a b : ClassId} :
    b ∈ t.chain a ↔ b = a ∨ ∃ s, t.superOf? a = some s ∧ b ∈ t.chain s := by
  rw [chain]
  split
  · next s hs => simp [hs]
  · next hs => simp [hs]

theorem mem_chain_self (a : ClassId) : a ∈ t.chain a := mem_chain.2 (.inl rfl)

theorem mem_chain_trans {a b c : ClassId} (hab : b ∈ t.chain a) (hbc : c ∈ t.chain b) :
    c ∈ t.chain a := by
  induction a using Nat.strongRecOn with
  | ind a ih =>
    rcases mem_chain.1 hab with rfl | ⟨s, hs, hbs⟩
    · exact hbc
    · exact mem_chain.2 (.inr ⟨s, hs, ih s (superOf?_lt hs) hbs⟩)

/-- A superclass comes before the class. -/
theorem le_of_mem_chain {a b : ClassId} (h : b ∈ t.chain a) : b ≤ a := by
  induction a using Nat.strongRecOn with
  | ind a ih =>
    rcases mem_chain.1 h with rfl | ⟨s, hs, h⟩
    · exact le_rfl
    · exact (ih s (superOf?_lt hs) h).trans (superOf?_lt hs).le

theorem reachesInterface_iff {a i : ClassId} :
    t.reachesInterface a i = true ↔ a = i ∨ ∃ j ∈ t.interfacesOf a, t.reachesInterface j i = true := by
  rw [reachesInterface]
  simp [List.any_eq_true]

/-- An interface above comes before the class. -/
theorem le_of_reachesInterface {a i : ClassId} (h : t.reachesInterface a i = true) : i ≤ a := by
  induction a using Nat.strongRecOn with
  | ind a ih =>
    rcases reachesInterface_iff.1 h with rfl | ⟨j, hj, hji⟩
    · exact le_rfl
    · exact (ih j (interfacesOf_lt hj) hji).trans (interfacesOf_lt hj).le

theorem reachesInterface_trans {a i j : ClassId} (hai : t.reachesInterface a i = true)
    (hij : t.reachesInterface i j = true) : t.reachesInterface a j = true := by
  induction a using Nat.strongRecOn with
  | ind a ih =>
    rcases reachesInterface_iff.1 hai with rfl | ⟨k, hk, hki⟩
    · exact hij
    · exact reachesInterface_iff.2 (.inr ⟨k, hk, ih k (interfacesOf_lt hk) hki⟩)

theorem implements_iff {a i : ClassId} :
    t.implements a i = true ↔ ∃ b ∈ t.chain a, t.reachesInterface b i = true := by
  simp [implements, List.any_eq_true]

/-- Whether a class is another one, or comes up among its superclasses, its superinterfaces, and theirs. -/
def Above (t : ClassTable) : ClassId → ClassId → Prop :=
  Relation.ReflTransGen fun a b => t.superOf? a = some b ∨ b ∈ t.interfacesOf a

/-! ## Assignability as a relation -/

/-- Whether values of one class fit variables of another one. -/
inductive Fits (t : ClassTable) : ClassId → ClassId → Prop
  | refl (a : ClassId) : Fits t a a
  | primitives {a b : ClassId} {p : Primitive} (ha : t.componentOf? a = some (.primitive p))
    (hb : t.componentOf? b = some (.primitive p)) : Fits t a b
  | arrays {a b x y : ClassId} (ha : t.componentOf? a = some (.reference x))
    (hb : t.componentOf? b = some (.reference y)) (hxy : Fits t x y) : Fits t a b
  | extending {a b : ClassId} {c : LinkedClass} (hb : t.class? b = some c)
    (hcomp : c.component? = none) (hc : c.isInterface = false) (hab : b ∈ t.chain a) : Fits t a b
  | implementing {a b d : ClassId} {c : LinkedClass} (hb : t.class? b = some c)
    (hcomp : c.component? = none) (hc : c.isInterface = true) (had : d ∈ t.chain a)
    (hdb : t.reachesInterface d b = true) : Fits t a b

theorem componentOf?_of_class? {a : ClassId} {c : LinkedClass} (h : t.class? a = some c) :
    t.componentOf? a = c.component? := by
  simp [componentOf?, h]

theorem exists_of_componentOf? {a : ClassId} {comp : Component} (h : t.componentOf? a = some comp) :
    ∃ c, t.class? a = some c ∧ c.component? = some comp :=
  Option.bind_eq_some_iff.1 h

/-- Above a class that is no array class the table looks at superclasses and superinterfaces. -/
theorem isAssignable_of_plain {a b : ClassId} (hb : t.componentOf? b = none) :
    t.isAssignable a b = true ↔ a = b ∨ ∃ c, t.class? b = some c ∧
      (if c.isInterface then t.implements a b else t.isSubclass a b) = true := by
  rw [isAssignable, Bool.or_eq_true, beq_iff_eq]
  refine or_congr_right ?_
  cases hclass : t.class? b with
  | none => split <;> simp_all
  | some c => split <;> simp_all

theorem isAssignable_of_array {a b : ClassId} {comp : Component}
    (hb : t.componentOf? b = some comp) :
    t.isAssignable a b = true ↔ a = b ∨
      (∃ p, t.componentOf? a = some (.primitive p) ∧ comp = .primitive p) ∨
      ∃ x y, t.componentOf? a = some (.reference x) ∧ comp = .reference y ∧
        t.isAssignable x y = true := by
  rw [isAssignable, Bool.or_eq_true, beq_iff_eq]
  refine or_congr_right ?_
  split
  · next p q hp hq =>
    obtain rfl := Option.some.inj (hb.symm.trans hq)
    simpa [hp] using eq_comm
  · next x y hx hy =>
    obtain rfl := Option.some.inj (hb.symm.trans hy)
    simp [hx]
  all_goals simp_all

theorem isAssignable_iff {a b : ClassId} : t.isAssignable a b = true ↔ t.Fits a b := by
  induction a using Nat.strongRecOn generalizing b with
  | ind a ih =>
    cases hcomp : t.componentOf? b with
    | none =>
      rw [isAssignable_of_plain hcomp]
      constructor
      · rintro (rfl | ⟨c, hc, h⟩)
        · exact .refl _
        · have hplain : c.component? = none := by rw [← componentOf?_of_class? hc, hcomp]
          cases hi : c.isInterface with
          | false => exact .extending hc hplain hi (by simpa [hi, isSubclass] using h)
          | true =>
            obtain ⟨d, hd, hdb⟩ := implements_iff.1 (by simpa [hi] using h)
            exact .implementing hc hplain hi hd hdb
      · intro h
        cases h with
        | refl => exact .inl rfl
        | primitives _ hb => simp [hcomp] at hb
        | arrays _ hb => simp [hcomp] at hb
        | extending hc _ hi hab => exact .inr ⟨_, hc, by simpa [hi, isSubclass] using hab⟩
        | implementing hc _ hi had hdb =>
          exact .inr ⟨_, hc, by simpa [hi] using implements_iff.2 ⟨_, had, hdb⟩⟩
    | some comp =>
      rw [isAssignable_of_array hcomp]
      constructor
      · rintro (rfl | ⟨p, ha, rfl⟩ | ⟨x, y, ha, rfl, hxy⟩)
        · exact .refl _
        · exact .primitives ha hcomp
        · exact .arrays ha hcomp ((ih x (componentOf?_lt ha)).1 hxy)
      · intro h
        cases h with
        | refl => exact .inl rfl
        | primitives ha hb => exact .inr (.inl ⟨_, ha, Option.some.inj (hcomp.symm.trans hb)⟩)
        | arrays ha hb hxy =>
          exact .inr (.inr ⟨_, _, ha, Option.some.inj (hcomp.symm.trans hb),
            (ih _ (componentOf?_lt ha)).2 hxy⟩)
        | extending hc hplain => rw [componentOf?_of_class? hc, hplain] at hcomp; cases hcomp
        | implementing hc hplain => rw [componentOf?_of_class? hc, hplain] at hcomp; cases hcomp

/-! ## More classes -/

/-- Whether all classes of a table are in another one, under the same numbers. -/
def Within (t t' : ClassTable) : Prop := ∀ id c, t.class? id = some c → t'.class? id = some c

theorem class?_push {c : LinkedClass} (known : ∀ p ∈ c.parents, p < t.size) (id : ClassId) :
    (t.push c known).class? id = if id = t.size then some c else t.class? id :=
  Array.getElem?_push

theorem lt_of_class? {a : ClassId} {c : LinkedClass} (h : t.class? a = some c) : a < t.size :=
  (Array.getElem?_eq_some_iff.1 h).1

theorem within_push {c : LinkedClass} (known : ∀ p ∈ c.parents, p < t.size) :
    t.Within (t.push c known) := by
  intro id d hd
  rw [class?_push, if_neg (lt_of_class? hd).ne]
  exact hd

theorem Within.refl (t : ClassTable) : t.Within t := fun _ _ => id

theorem Within.trans {t₁ t₂ t₃ : ClassTable} (h₁₂ : t₁.Within t₂) (h₂₃ : t₂.Within t₃) :
    t₁.Within t₃ :=
  fun id c hc => h₂₃ id c (h₁₂ id c hc)

theorem Within.componentOf? (h : t.Within t') {a : ClassId} {comp : Component}
    (ha : t.componentOf? a = some comp) : t'.componentOf? a = some comp := by
  obtain ⟨c, hc, hcomp⟩ := exists_of_componentOf? ha
  rw [componentOf?_of_class? (h a c hc), hcomp]

theorem Within.mem_chain (h : t.Within t') {a b : ClassId} (hab : b ∈ t.chain a) :
    b ∈ t'.chain a := by
  induction a using Nat.strongRecOn with
  | ind a ih =>
    rcases ClassTable.mem_chain.1 hab with rfl | ⟨s, hs, hbs⟩
    · exact mem_chain_self _
    · obtain ⟨c, hc, hsup⟩ := Option.bind_eq_some_iff.1 hs
      exact ClassTable.mem_chain.2
        (.inr ⟨s, by simp [superOf?, h a c hc, hsup], ih s (superOf?_lt hs) hbs⟩)

theorem Within.mem_interfacesOf (h : t.Within t') {a i : ClassId} (hi : i ∈ t.interfacesOf a) :
    i ∈ t'.interfacesOf a := by
  unfold interfacesOf at hi ⊢
  cases hc : t.class? a with
  | none => simp [hc] at hi
  | some c => simpa [hc, h a c hc] using hi

theorem Within.reachesInterface (h : t.Within t') {a i : ClassId}
    (hai : t.reachesInterface a i = true) : t'.reachesInterface a i = true := by
  induction a using Nat.strongRecOn with
  | ind a ih =>
    rcases reachesInterface_iff.1 hai with rfl | ⟨j, hj, hji⟩
    · exact reachesInterface_iff.2 (.inl rfl)
    · exact reachesInterface_iff.2
        (.inr ⟨j, h.mem_interfacesOf hj, ih j (interfacesOf_lt hj) hji⟩)

theorem Fits.mono (h : t.Within t') {a b : ClassId} (hab : t.Fits a b) : t'.Fits a b := by
  induction hab with
  | refl => exact .refl _
  | primitives ha hb => exact .primitives (h.componentOf? ha) (h.componentOf? hb)
  | arrays ha hb _ ih => exact .arrays (h.componentOf? ha) (h.componentOf? hb) ih
  | extending hb hcomp hc hab => exact .extending (h _ _ hb) hcomp hc (h.mem_chain hab)
  | implementing hb hcomp hc had hdb =>
    exact .implementing (h _ _ hb) hcomp hc (h.mem_chain had) (h.reachesInterface hdb)

/-! ## Transitivity -/

/-- What makes assignability transitive. -/
structure Regular (t : ClassTable) : Prop where
  arrays : ∀ (a b : ClassId) (c d : LinkedClass), t.class? a = some c → t.class? b = some d →
    c.isArray = true → d.isArray = true → c.superclass = d.superclass ∧ c.interfaces = d.interfaces
  root : ∀ (a b : ClassId) (c d : LinkedClass), t.class? a = some c → t.class? b = some d →
    c.superclass = none → d.superclass = none → a = b
  interfaces : ∀ (a s : ClassId) (c d : LinkedClass), t.class? a = some c → c.isInterface = true →
    c.superclass = some s → t.class? s = some d → d.superclass = none

theorem superOf?_of_class? {a : ClassId} {c : LinkedClass} (h : t.class? a = some c) :
    t.superOf? a = c.superclass := by
  simp [superOf?, h]

theorem class?_of_lt {a : ClassId} (h : a < t.size) : ∃ c, t.class? a = some c :=
  ⟨t.classes[a], Array.getElem?_eq_some_iff.2 ⟨h, rfl⟩⟩

/-- The chain of a class ends in a class without a superclass. -/
theorem exists_last {a : ClassId} {c : LinkedClass} (hc : t.class? a = some c) :
    ∃ o d, (t.chain a).getLast? = some o ∧ t.class? o = some d ∧ d.superclass = none := by
  induction a using Nat.strongRecOn generalizing c with
  | ind a ih =>
    rw [chain]
    split
    · next s hs =>
      have hlt := superOf?_lt hs
      obtain ⟨e, he⟩ := class?_of_lt (hlt.trans (lt_of_class? hc))
      obtain ⟨o, d, hlast, hd, hnone⟩ := ih s hlt he
      exact ⟨o, d, by rw [List.getLast?_cons, hlast]; rfl, hd, hnone⟩
    · next hs => exact ⟨a, c, rfl, hc, (superOf?_of_class? hc).symm.trans hs⟩

theorem exists_root {a : ClassId} {c : LinkedClass} (hc : t.class? a = some c) :
    ∃ r d, r ∈ t.chain a ∧ t.class? r = some d ∧ d.superclass = none := by
  obtain ⟨o, d, hlast, hrest⟩ := exists_last hc
  exact ⟨o, d, List.mem_of_getLast? hlast, hrest⟩

/-- A class that has another one in its chain, or reaches an interface from it, is in the table if the
other one is. -/
theorem exists_of_mem_chain {a b : ClassId} {c : LinkedClass} (hb : t.class? b = some c)
    (hab : b ∈ t.chain a) : ∃ d, t.class? a = some d := by
  rcases mem_chain.1 hab with rfl | ⟨s, hs, -⟩
  · exact ⟨c, hb⟩
  · obtain ⟨d, hd, -⟩ := Option.bind_eq_some_iff.1 hs
    exact ⟨d, hd⟩

theorem exists_of_reachesInterface {a i : ClassId} {c : LinkedClass} (hi : t.class? i = some c)
    (hai : t.reachesInterface a i = true) : ∃ d, t.class? a = some d := by
  rcases reachesInterface_iff.1 hai with rfl | ⟨j, hj, -⟩
  · exact ⟨c, hi⟩
  · unfold interfacesOf at hj
    cases hd : t.class? a with
    | none => simp [hd] at hj
    | some d => exact ⟨d, rfl⟩

/-- What lies above the superclass of an interface lies above every class that implements the
interface. -/
theorem Regular.mem_chain_of_implements (ht : t.Regular) {a d i s z : ClassId} {c : LinkedClass}
    (hi : t.class? i = some c) (hint : c.isInterface = true) (had : d ∈ t.chain a)
    (hdi : t.reachesInterface d i = true) (hs : c.superclass = some s) (hz : z ∈ t.chain s) :
    z ∈ t.chain a := by
  obtain ⟨e, he⟩ := exists_of_reachesInterface hi hdi
  obtain ⟨f, hf⟩ := exists_of_mem_chain he had
  obtain ⟨r, g, hr, hg, hroot⟩ := exists_root hf
  have hlt := superOf?_lt ((superOf?_of_class? hi).trans hs)
  obtain ⟨k, hk⟩ := class?_of_lt (hlt.trans (lt_of_class? hi))
  have htop := ht.interfaces i s c k hi hint hs hk
  obtain rfl := ht.root r s g k hg hk hroot htop
  rcases mem_chain.1 hz with rfl | ⟨u, hu, -⟩
  · exact hr
  · rw [superOf?_of_class? hk, htop] at hu
    cases hu

/-- Two array classes fit the same classes other than array classes. -/
theorem Regular.fits_of_arrays (ht : t.Regular) {a b z : ClassId} {p q : Component}
    (ha : t.componentOf? a = some p) (hb : t.componentOf? b = some q) (hbz : t.Fits b z)
    (hz : t.componentOf? z = none) : t.Fits a z := by
  obtain ⟨c, hc, hp⟩ := exists_of_componentOf? ha
  obtain ⟨d, hd, hq⟩ := exists_of_componentOf? hb
  obtain ⟨hsup, hints⟩ := ht.arrays a b c d hc hd (by simp [LinkedClass.isArray, hp])
    (by simp [LinkedClass.isArray, hq])
  have hne : z ≠ b := by rintro rfl; rw [hz] at hb; cases hb
  -- the chains differ in the array classes themselves only
  have hchain : ∀ w, w ≠ b → w ∈ t.chain b → w ∈ t.chain a := by
    intro w hw hmem
    rcases mem_chain.1 hmem with rfl | ⟨s, hs, hws⟩
    · exact absurd rfl hw
    · rw [superOf?_of_class? hd, ← hsup, ← superOf?_of_class? hc] at hs
      exact mem_chain.2 (.inr ⟨s, hs, hws⟩)
  cases hbz with
  | refl => exact absurd rfl hne
  | primitives _ h => rw [hz] at h; cases h
  | arrays _ h => rw [hz] at h; cases h
  | extending he hplain hi hmem => exact .extending he hplain hi (hchain z hne hmem)
  | @implementing _ _ w e he hplain hi hmem hreach =>
    by_cases hwb : w = b
    · subst hwb
      rcases reachesInterface_iff.1 hreach with rfl | ⟨j, hj, hjz⟩
      · exact absurd rfl hne
      · refine .implementing he hplain hi (mem_chain_self a) (reachesInterface_iff.2 (.inr ⟨j, ?_, hjz⟩))
        simpa [interfacesOf, hc, hd, hints] using hj
    · exact .implementing he hplain hi (hchain w hwb hmem) hreach

theorem Fits.trans (ht : t.Regular) {a b z : ClassId} (hab : t.Fits a b) (hbz : t.Fits b z) :
    t.Fits a z := by
  induction hab generalizing z with
  | refl => exact hbz
  | @primitives a b p ha hb =>
    cases hz : t.componentOf? z with
    | none => exact ht.fits_of_arrays ha hb hbz hz
    | some comp =>
      cases hbz with
      | refl => exact .primitives ha hb
      | primitives hb' hz' =>
        obtain ⟨rfl⟩ := Component.primitive.inj (Option.some.inj (hb.symm.trans hb'))
        exact .primitives ha hz'
      | arrays hb' => rw [hb] at hb'; cases hb'
      | extending hc hplain => rw [componentOf?_of_class? hc, hplain] at hz; cases hz
      | implementing hc hplain => rw [componentOf?_of_class? hc, hplain] at hz; cases hz
  | @arrays a b x y ha hb hxy ih =>
    cases hz : t.componentOf? z with
    | none => exact ht.fits_of_arrays ha hb hbz hz
    | some comp =>
      cases hbz with
      | refl => exact .arrays ha hb hxy
      | primitives hb' => rw [hb] at hb'; cases hb'
      | arrays hb' hz' hyz =>
        obtain ⟨rfl⟩ := Component.reference.inj (Option.some.inj (hb.symm.trans hb'))
        exact .arrays ha hz' (ih hyz)
      | extending hc hplain => rw [componentOf?_of_class? hc, hplain] at hz; cases hz
      | implementing hc hplain => rw [componentOf?_of_class? hc, hplain] at hz; cases hz
  | extending hc hplain hi hmem =>
    cases hbz with
    | refl => exact .extending hc hplain hi hmem
    | primitives hb => rw [componentOf?_of_class? hc, hplain] at hb; cases hb
    | arrays hb => rw [componentOf?_of_class? hc, hplain] at hb; cases hb
    | extending hc' hplain' hi' hmem' =>
      exact .extending hc' hplain' hi' (mem_chain_trans hmem hmem')
    | implementing hc' hplain' hi' hmem' hreach =>
      exact .implementing hc' hplain' hi' (mem_chain_trans hmem hmem') hreach
  | @implementing a b d c hc hplain hi hmem hreach =>
    have hsuper : ∀ w, w ∈ t.chain b → w = b ∨ w ∈ t.chain a := by
      intro w hw
      rcases mem_chain.1 hw with rfl | ⟨s, hs, hws⟩
      · exact .inl rfl
      · rw [superOf?_of_class? hc] at hs
        exact .inr (ht.mem_chain_of_implements hc hi hmem hreach hs hws)
    cases hbz with
    | refl => exact .implementing hc hplain hi hmem hreach
    | primitives hb => rw [componentOf?_of_class? hc, hplain] at hb; cases hb
    | arrays hb => rw [componentOf?_of_class? hc, hplain] at hb; cases hb
    | extending hc' hplain' hi' hmem' =>
      rcases hsuper _ hmem' with rfl | h
      · rw [hc] at hc'; cases hc'; rw [hi] at hi'; cases hi'
      · exact .extending hc' hplain' hi' h
    | implementing hc' hplain' hi' hmem' hreach' =>
      rcases hsuper _ hmem' with rfl | h
      · exact .implementing hc' hplain' hi' hmem (reachesInterface_trans hreach hreach')
      · exact .implementing hc' hplain' hi' h hreach'

end Jvm.Linking.ClassTable
