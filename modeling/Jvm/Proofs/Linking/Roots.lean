import Mathlib
import Jvm.Proofs.Linking.Specificity
import Jvm.Proofs.Linking.Teardown

/-! # Roots of the hierarchy

Interfaces and array classes extend the object class, and this has nothing above it: the interfaces above an
interface are its superinterfaces alone. `capped_after` says so of all classes, also of those that a torn
down registry has forgotten. -/

namespace Jvm.Linking

variable {paths : ClassPaths}

namespace ClassTable

/-- Whether nothing is above the superclasses of interfaces and array classes. -/
def Capped (t : ClassTable) : Prop := ∀ id c, t.class? id = some c → c.kind ≠ .ordinary →
  ∀ s ∈ c.superclass, t.superOf? s = none ∧ t.interfacesOf s = []

/-- The class without a superclass has no superinterfaces: the chains of these would have to end in it. -/
theorem Regular.interfacesOf_eq_nil {t : ClassTable} (ht : t.Regular) {s : ClassId} {d : LinkedClass}
    (hd : t.class? s = some d) (hroot : d.superclass = none) : t.interfacesOf s = [] := by
  refine List.eq_nil_iff_forall_not_mem.2 fun i hi => ?_
  have hlt := interfacesOf_lt hi
  obtain ⟨c, hc⟩ := class?_of_lt (hlt.trans (lt_of_class? hd))
  obtain ⟨o, e, ho, he, hnone⟩ := exists_root hc
  obtain rfl := ht.root o s e d he hd hnone hroot
  exact absurd (le_of_mem_chain ho) (Nat.not_le.2 hlt)

theorem Behind.capped {b : Nat} {t₀ t : ClassTable} (h : Behind b t₀ t) (h₀ : t₀.Capped) {id : ClassId}
    {c : LinkedClass} (hc : t.class? (id + b) = some c) (hkind : c.kind ≠ .ordinary) {s : ClassId}
    (hs : s ∈ c.superclass) : t.superOf? s = none ∧ t.interfacesOf s = [] := by
  obtain ⟨c₀, hc₀, rfl⟩ := h.exists_class? hc
  obtain ⟨s₀, hs₀, rfl⟩ := Option.map_eq_some_iff.1 hs
  have hordinary : c₀.kind ≠ .ordinary := by
    intro hordinary
    refine hkind ?_
    rw [LinkedClass.renumber, hordinary]
    rfl
  obtain ⟨hsuper, hinterfaces⟩ := h₀ id c₀ hc₀ hordinary s₀ hs₀
  rw [h.superOf?, h.interfacesOf, hsuper, hinterfaces]
  exact ⟨rfl, rfl⟩

theorem Within.superOf? {t t' : ClassTable} (h : t.Within t') {id : ClassId} {c : LinkedClass}
    (hc : t.class? id = some c) : t'.superOf? id = t.superOf? id := by
  rw [superOf?_of_class? hc, superOf?_of_class? (h id c hc)]

theorem Within.interfacesOf {t t' : ClassTable} (h : t.Within t') {id : ClassId} {c : LinkedClass}
    (hc : t.class? id = some c) : t'.interfacesOf id = t.interfacesOf id := by
  rw [interfacesOf_of_class? hc, interfacesOf_of_class? (h id c hc)]

end ClassTable

namespace Registry

/-- The superclass of an array class is the object class. -/
theorem Linked.superclass_of_array {r : Registry} (hr : r.Linked) {id s : ClassId} {c d : LinkedClass}
    {component : Component} (hc : r.table.class? id = some c) (hkind : c.kind = .array component)
    (hs : c.superclass = some s) (hd : r.table.class? s = some d) : d.superclass = none := by
  obtain ⟨o, ho, hsuper⟩ := ((hr.shape id c hc).array component hkind).superclass
  obtain rfl : o = s := Option.some.inj (hsuper.symm.trans hs)
  obtain ⟨d', hd', hname, -⟩ := hr.names _ _ _ ho
  obtain rfl : d' = d := Option.some.inj (hd'.symm.trans hd)
  have hplain := hr.component?_eq_none_of_name hd (by rw [hname]; decide)
  exact ((hr.shape o d' hd).plain hplain).superclass.2 hname

theorem Linked.capped {r : Registry} (hr : r.Linked) : r.table.Capped := by
  intro id c hc hkind s hs
  have hlt := ClassTable.superOf?_lt ((ClassTable.superOf?_of_class? hc).trans hs)
  obtain ⟨d, hd⟩ := ClassTable.class?_of_lt (hlt.trans (ClassTable.lt_of_class? hc))
  have hroot : d.superclass = none := by
    cases hk : c.kind with
    | ordinary => exact absurd hk hkind
    | interface =>
      exact hr.regular.interfaces id s c d hc (by rw [LinkedClass.isInterface, hk]; rfl) hs hd
    | array component => exact hr.superclass_of_array hc hk hs hd
  exact ⟨(ClassTable.superOf?_of_class? hd).trans hroot, hr.regular.interfacesOf_eq_nil hd hroot⟩

/-! ## Torn down registries -/

/-- Whether a registry has regrown behind classes that are above nothing they should not be above. -/
def RegrownCapped (paths : ClassPaths) (r : Registry) : Prop :=
  ∃ b r₀, RegrownFrom paths b r₀ r ∧ r.table.Capped

/-- Whether a registry stays of this kind. -/
def KeepsRoots (paths : ClassPaths) (r r' : Registry) : Prop :=
  RegrownCapped paths r → RegrownCapped paths r'

instance (paths : ClassPaths) : IsTrans Registry (KeepsRoots paths) := ⟨fun _ _ _ h₁ h₂ h => h₂ (h₁ h)⟩

theorem keepsRoots_of_eq {r r' : Registry} (htable : r'.table = r.table) (hloaded : r'.loaded = r.loaded) :
    r.KeepsRoots paths r' := by
  rintro ⟨b, r₀, h, hcapped⟩
  exact ⟨b, r₀, ⟨h.wellFormed, h.faithful, h.behind.congr rfl rfl htable hloaded⟩, htable ▸ hcapped⟩

/-- What is loaded goes behind the forgotten classes, which stay as they are. -/
theorem keepsRoots_load (paths : ClassPaths) (loader : Loader) (name : String) (r : Registry) :
    r.KeepsRoots paths ((loadClass paths loader name).leads r) := by
  rintro ⟨b, r₀, h, hcapped⟩
  have hwellFormed : ((load paths [] loader name).leads r₀).WellFormed := wellFormed_leads (loader, name) h.wellFormed
  have hbehind := (moves_load paths [] loader name h.behind).leads
  have hwithin : r.table.Within ((loadClass paths loader name).leads r).table :=
    (buildsOn_apply paths r (.load loader name)).table
  refine ⟨b, _, ⟨hwellFormed, faithful_leads (loader, name) h.wellFormed h.faithful, hbehind⟩, ?_⟩
  intro id c hc hkind s hs
  by_cases hid : b ≤ id
  · obtain ⟨i, rfl⟩ : ∃ i, id = i + b := ⟨id - b, (Nat.sub_add_cancel hid).symm⟩
    exact hbehind.classes.capped hwellFormed.linked.capped hc hkind hs
  · have hlt : id < r.table.size := (Nat.not_le.1 hid).trans_le (h.behind.size ▸ Nat.le_add_left b _)
    obtain ⟨c', hc'⟩ := ClassTable.class?_of_lt hlt
    obtain rfl : c' = c := Option.some.inj ((hwithin id c' hc').symm.trans hc)
    have hslt := ClassTable.superOf?_lt ((ClassTable.superOf?_of_class? hc').trans hs)
    obtain ⟨d, hd⟩ := ClassTable.class?_of_lt (hslt.trans hlt)
    rw [hwithin.superOf? hd, hwithin.interfacesOf hd]
    exact hcapped id c' hc' hkind s hs

end Registry

theorem admits_keepsRoots (paths : ClassPaths) : Linker.Admits paths (Registry.KeepsRoots paths) where
  refl _ := id
  load loader name r := Linker.meets_of_leads (Registry.keepsRoots_load paths loader name r)
  resolved _ _ _ _ _ _ := Registry.keepsRoots_of_eq rfl rfl

/-- Whatever is asked of a registry, nothing is above the superclasses of its interfaces and array
classes. -/
theorem capped_after (paths : ClassPaths) (requests : List Request) :
    (Registry.after paths requests).table.Capped := by
  have hkeeps : Registry.KeepsRoots paths .empty (Registry.after paths requests) := by
    refine Registry.keeps_after (fun _ => id) fun q _ r => (admits_keepsRoots paths).apply ?_ ?_ ?_
    · exact fun _ _ _ => Registry.keepsRoots_of_eq rfl rfl
    · exact fun _ _ => Registry.keepsRoots_of_eq rfl rfl
    · rintro held - ⟨_, _, -, hcapped⟩
      exact ⟨_, _, Registry.regrownFrom_teardown r held, hcapped⟩
  have hempty : ClassTable.empty.Capped := fun id c hc => by
    simp [ClassTable.class?, ClassTable.empty] at hc
  obtain ⟨-, -, -, hcapped⟩ := hkeeps ⟨0, .empty, Registry.regrownFrom_empty, hempty⟩
  exact hcapped

end Jvm.Linking
