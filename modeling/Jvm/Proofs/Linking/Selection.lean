import Mathlib
import Jvm.Proofs.Linking.Slots

/-! # Which method a call selects

What a class says about a name and a descriptor follows from the classes above it: `ClassTable.Obtains` are
the ways on which it comes by a method. `nearest_after` says that calls select the declaration of the nearest
superclass, and one of a superinterface only if there is none. -/

namespace Jvm.Linking

/-! ## Selection -/

section

variable {id : ClassId} {m : Method} {answers : List (Option Method)} {old : Option Method}

/-- What does not give way stays. -/
theorem foldl_settle_stays (h : ∀ m', givesWay id m m' = false) :
    ∀ answers : List (Option Method), answers.foldl (settle id) (some m) = some m
  | [] => rfl
  | none :: answers => foldl_settle_stays h answers
  | some m' :: answers => by
    rw [List.foldl_cons, settle, h m']
    exact foldl_settle_stays h answers

theorem settle_eq_some {new : Option Method} (h : settle id old new = some m) :
    old = some m ∨ new = some m := by
  cases old <;> cases new
  · cases h
  · exact .inr h
  · exact .inl h
  · simp only [settle] at h
    split at h
    · exact .inr h
    · exact .inl h

theorem foldl_settle_eq_some (h : answers.foldl (settle id) old = some m) :
    old = some m ∨ some m ∈ answers := by
  induction answers generalizing old with
  | nil => exact .inl h
  | cons new answers ih =>
    rcases ih h with h | h
    · rcases settle_eq_some h with h | rfl
      · exact .inl h
      · exact .inr List.mem_cons_self
    · exact .inr (List.mem_cons_of_mem _ h)

theorem foldl_settle_eq_none (h : answers.foldl (settle id) old = none) :
    old = none ∧ ∀ new ∈ answers, new = none := by
  induction answers generalizing old with
  | nil => exact ⟨h, fun new hnew => by cases hnew⟩
  | cons new answers ih =>
    obtain ⟨hsettle, hrest⟩ := ih h
    cases old <;> cases new <;> first
      | exact ⟨rfl, List.forall_mem_cons.2 ⟨rfl, hrest⟩⟩
      | cases hsettle

end

namespace ClassTable

/-- Whether a class comes by a method of a name and a descriptor: it declares it, or it declares none and a
class right above it comes by the method. -/
inductive Obtains (t : ClassTable) (n d : String) : ClassId → Method → Prop
  | own {id : ClassId} {m : Method} (h : t.declared? n d id = some m) : Obtains t n d id m
  | above {id p : ClassId} {c : LinkedClass} {m : Method} (hc : t.class? id = some c)
    (hnone : t.declared? n d id = none) (hp : p ∈ c.sources) (h : Obtains t n d p m) :
    Obtains t n d id m

/-- Whether an interface is a direct or inherited superinterface of a class or of one of its
superclasses. -/
def IsSuperinterface (t : ClassTable) (id i : ClassId) : Prop :=
  ∃ b ∈ t.chain id, ∃ j ∈ t.interfacesOf b, t.reachesInterface j i = true

section

variable {t : ClassTable} {id p : ClassId} {c : LinkedClass} {n d : String} {m : Method}

theorem mem_parents_of_mem_sources (hp : p ∈ c.sources) : p ∈ c.parents := by
  unfold LinkedClass.sources at hp
  unfold LinkedClass.parents
  refine List.mem_append_left _ ?_
  split at hp
  · exact hp
  · exact List.mem_append_right _ hp
  · exact List.mem_append_left _ hp

theorem lt_of_mem_sources (hc : t.class? id = some c) (hp : p ∈ c.sources) : p < id :=
  t.ordered id c hc p (mem_parents_of_mem_sources hp)

theorem isArray_of_ordinary (hkind : c.kind = .ordinary) : c.isArray = false := by
  rw [LinkedClass.isArray, LinkedClass.component?, hkind]
  rfl

theorem isArray_of_isInterface (hi : c.isInterface = true) : c.isArray = false := by
  have hkind : c.kind = .interface := by simpa [LinkedClass.isInterface] using hi
  rw [LinkedClass.isArray, LinkedClass.component?, hkind]
  rfl

theorem mem_sources_of_interface (hi : c.isInterface = true) : p ∈ c.sources ↔ p ∈ c.interfaces := by
  have hkind : c.kind = .interface := by simpa [LinkedClass.isInterface] using hi
  rw [LinkedClass.sources, hkind]

theorem mem_sources_of_ordinary (hkind : c.kind = .ordinary) :
    p ∈ c.sources ↔ p ∈ c.superclass ∨ p ∈ c.interfaces := by
  rw [LinkedClass.sources, hkind, List.mem_append, Option.mem_toList]
  rfl

theorem of_mem_sources (hp : p ∈ c.sources) :
    p ∈ c.superclass ∨ c.isArray = false ∧ p ∈ c.interfaces := by
  unfold LinkedClass.sources at hp
  split at hp
  · next hkind =>
    rcases List.mem_append.1 hp with hp | hp
    · exact .inl (Option.mem_toList.1 hp)
    · exact .inr ⟨isArray_of_ordinary hkind, hp⟩
  · next hkind => exact .inr ⟨isArray_of_isInterface (by rw [LinkedClass.isInterface, hkind]; rfl), hp⟩
  · exact .inl (Option.mem_toList.1 hp)

theorem interfacesOf_of_class? (hc : t.class? id = some c) : t.interfacesOf id = c.interfaces := by
  simp [interfacesOf, hc]

theorem IsSuperinterface.of_superclass {s i : ClassId} (hs : t.superOf? id = some s)
    (h : t.IsSuperinterface s i) : t.IsSuperinterface id i := by
  obtain ⟨b, hb, hi⟩ := h
  exact ⟨b, mem_chain.2 (.inr ⟨s, hs, hb⟩), hi⟩

variable (ht : ∀ id c, t.class? id = some c → t.Tabled id c)

include ht

theorem exists_of_declared? (h : t.declared? n d id = some m) :
    ∃ c, t.class? id = some c ∧ m.owner = id ∧ m.inInterface = c.isInterface := by
  obtain ⟨c, hc, hm⟩ := Option.bind_eq_some_iff.1 h
  obtain ⟨howner, hinterface, -⟩ := (ht id c hc).declared m (List.mem_of_find?_eq_some hm)
  exact ⟨c, hc, howner, hinterface⟩

/-- What a class declares is what it says. -/
theorem selected?_of_declared? (h : t.declared? n d id = some m) : t.selected? n d id = some m := by
  obtain ⟨c, hc, howner, -⟩ := exists_of_declared? ht h
  rw [selected?_of_class? hc, (ht id c hc).selects, ← declared?_of_class? hc, h]
  exact foldl_settle_stays (fun m' => by simp [givesWay, howner]) _

/-- What a class says is what it comes by. -/
theorem obtains_of_selected? (h : t.selected? n d id = some m) : t.Obtains n d id m := by
  induction id using Nat.strongRecOn with
  | ind id ih =>
    cases hown : t.declared? n d id with
    | some m' =>
      rw [selected?_of_declared? ht hown] at h
      cases h
      exact .own hown
    | none =>
      obtain ⟨c, hc, hm⟩ := Option.bind_eq_some_iff.1 h
      rw [(ht id c hc).selects, ← declared?_of_class? hc, hown] at hm
      rcases foldl_settle_eq_some hm with hm | hm
      · cases hm
      · obtain ⟨p, hp, hpm⟩ := List.mem_map.1 hm
        exact .above hc hown hp (ih p (lt_of_mem_sources hc hp) hpm)

/-- Where a class says nothing, it declares nothing and no class right above it says anything. -/
theorem none_of_selected? (hc : t.class? id = some c) (h : t.selected? n d id = none) :
    t.declared? n d id = none ∧ ∀ p ∈ c.sources, t.selected? n d p = none := by
  rw [selected?_of_class? hc, (ht id c hc).selects, ← declared?_of_class? hc] at h
  obtain ⟨hown, habove⟩ := foldl_settle_eq_none h
  exact ⟨hown, fun p hp => habove _ (List.mem_map_of_mem hp)⟩

/-! ### Ways up -/

/-- The superclasses of a class are classes. -/
theorem kind_of_mem_chain (hc : t.class? id = some c) (hkind : c.kind = .ordinary) {b : ClassId}
    (hb : b ∈ t.chain id) : ∃ e, t.class? b = some e ∧ e.kind = .ordinary := by
  induction id using Nat.strongRecOn generalizing c with
  | ind id ih =>
    rcases mem_chain.1 hb with rfl | ⟨s, hs, hbs⟩
    · exact ⟨c, hc, hkind⟩
    · have hsuper := (superOf?_of_class? hc).symm.trans hs
      obtain ⟨e, he, hordinary, -⟩ := (ht id c hc).extending s hsuper
      exact ih s (superOf?_lt hs) he (hordinary (isArray_of_ordinary hkind)) hbs

/-- What an interface comes by is declared by an interface above it. -/
theorem Obtains.of_interface (h : t.Obtains n d id m) (hc : t.class? id = some c)
    (hi : c.isInterface = true) : t.reachesInterface id m.owner = true ∧
      t.declared? n d m.owner = some m ∧ m.inInterface = true := by
  induction h generalizing c with
  | @own id m h =>
    obtain ⟨c', hc', rfl, hinterface⟩ := exists_of_declared? ht h
    cases hc.symm.trans hc'
    exact ⟨reachesInterface_iff.2 (.inl rfl), h, hinterface.trans hi⟩
  | @above id p c' m hc' hnone hp h ih =>
    obtain rfl : c = c' := Option.some.inj (hc.symm.trans hc')
    rw [mem_sources_of_interface hi] at hp
    obtain ⟨e, he, hinterface⟩ := (ht id c hc).implementing (isArray_of_isInterface hi) p hp
    obtain ⟨hreach, hrest⟩ := ih he hinterface
    exact ⟨reachesInterface_iff.2 (.inr ⟨p, by rwa [interfacesOf_of_class? hc], hreach⟩), hrest⟩

/-- What a class comes by is declared by one of its superclasses, or by a superinterface. -/
theorem Obtains.owner (h : t.Obtains n d id m) : t.declared? n d m.owner = some m ∧
    (m.owner ∈ t.chain id ∨ t.IsSuperinterface id m.owner ∧ m.inInterface = true) := by
  induction h with
  | @own id m h =>
    obtain ⟨-, -, rfl, -⟩ := exists_of_declared? ht h
    exact ⟨h, .inl (mem_chain_self _)⟩
  | @above id p c m hc hnone hp h ih =>
    rcases of_mem_sources hp with hp | ⟨harray, hp⟩
    · have hs := (superOf?_of_class? hc).trans hp
      refine ⟨ih.1, ?_⟩
      rcases ih.2 with hmem | ⟨hsuper, hinterface⟩
      · exact .inl (mem_chain.2 (.inr ⟨p, hs, hmem⟩))
      · exact .inr ⟨hsuper.of_superclass hs, hinterface⟩
    · obtain ⟨e, he, hi⟩ := (ht id c hc).implementing harray p hp
      obtain ⟨hreach, hdeclared, hinterface⟩ := h.of_interface ht he hi
      exact ⟨hdeclared, .inr ⟨⟨id, mem_chain_self id, p, by rwa [interfacesOf_of_class? hc], hreach⟩,
        hinterface⟩⟩

/-- Where a class says nothing, its superclasses do not either. -/
theorem none_of_mem_chain (hc : t.class? id = some c) (hkind : c.kind = .ordinary)
    (h : t.selected? n d id = none) {b : ClassId} (hb : b ∈ t.chain id) :
    t.selected? n d b = none := by
  induction id using Nat.strongRecOn generalizing c with
  | ind id ih =>
    rcases mem_chain.1 hb with rfl | ⟨s, hs, hbs⟩
    · exact h
    · have hsuper := (superOf?_of_class? hc).symm.trans hs
      obtain ⟨e, he, hordinary⟩ := kind_of_mem_chain ht hc hkind
        (mem_chain.2 (.inr ⟨s, hs, mem_chain_self s⟩))
      refine ih s (superOf?_lt hs) he hordinary ?_ hbs
      exact (none_of_selected? ht hc h).2 s ((mem_sources_of_ordinary hkind).2 (.inl hsuper))

/-- Where an interface says nothing, the interfaces above it do not either. -/
theorem none_of_reachesInterface {i j : ClassId} {e : LinkedClass} (he : t.class? i = some e)
    (hi : e.isInterface = true) (h : t.selected? n d i = none) (hij : t.reachesInterface i j = true) :
    t.selected? n d j = none := by
  induction i using Nat.strongRecOn generalizing e with
  | ind i ih =>
    rcases reachesInterface_iff.1 hij with rfl | ⟨k, hk, hkj⟩
    · exact h
    · have hlt := interfacesOf_lt hk
      rw [interfacesOf_of_class? he] at hk
      obtain ⟨f, hf, hinterface⟩ := (ht i e he).implementing (isArray_of_isInterface hi) k hk
      refine ih k hlt hf hinterface ?_ hkj
      exact (none_of_selected? ht he h).2 k ((mem_sources_of_interface hi).2 hk)

/-- What the nearest class declares is what a class says, whatever its superinterfaces say. -/
theorem selected?_of_chain (hc : t.class? id = some c) (hkind : c.kind = .ordinary)
    (h : (t.chain id).findSome? (t.declared? n d) = some m) : t.selected? n d id = some m := by
  induction id using Nat.strongRecOn generalizing c with
  | ind id ih =>
    rw [chain, List.findSome?_cons] at h
    cases hown : t.declared? n d id with
    | some m' =>
      rw [hown] at h
      cases h
      exact selected?_of_declared? ht hown
    | none =>
      rw [hown] at h
      dsimp only at h
      split at h
      · next s hs =>
        have hsuper := (superOf?_of_class? hc).symm.trans hs
        obtain ⟨e, he, hordinary⟩ := kind_of_mem_chain ht hc hkind
          (mem_chain.2 (.inr ⟨s, hs, mem_chain_self s⟩))
        have hselected := ih s (superOf?_lt hs) he hordinary h
        -- no interface declares the method, so it stays
        have hinterface : m.inInterface = false := by
          obtain ⟨b, hb, hm⟩ := List.exists_of_findSome?_eq_some h
          obtain ⟨f, hf, -, hin⟩ := exists_of_declared? ht hm
          obtain ⟨f', hf', hkind'⟩ := kind_of_mem_chain ht he hordinary hb
          obtain rfl := Option.some.inj (hf.symm.trans hf')
          rw [hin, LinkedClass.isInterface, hkind']
          rfl
        have hsources : c.sources = s :: c.interfaces := by
          rw [LinkedClass.sources, hkind, show c.superclass = some s from hsuper]
          rfl
        rw [selected?_of_class? hc, (ht id c hc).selects, ← declared?_of_class? hc, hown, hsources,
          List.map_cons, List.foldl_cons, settle_none, hselected]
        exact foldl_settle_stays (fun m' => by simp [givesWay, hinterface]) _
      · cases h

end

/-- What a call of a name and a descriptor selects for instances of a class. -/
structure SelectsNearest (t : ClassTable) (n d : String) (id : ClassId) : Prop where
  declared : ∀ m, (t.chain id).findSome? (t.declared? n d) = some m → t.selected? n d id = some m
  inherited : (t.chain id).findSome? (t.declared? n d) = none → ∀ m, t.selected? n d id = some m →
    ∃ i, t.IsSuperinterface id i ∧ t.declared? n d i = some m
  missing : (t.chain id).findSome? (t.declared? n d) = none →
    (t.selected? n d id = none ↔ ∀ i, t.IsSuperinterface id i → t.declared? n d i = none)

/-- Whether calls select the nearest method for instances of all classes that are no interfaces or array
classes. -/
def Nearest (t : ClassTable) : Prop := ∀ id c, t.class? id = some c → c.kind = .ordinary →
  ∀ n d, t.SelectsNearest n d id

theorem Built.nearest {t : ClassTable} (hb : t.Built) : t.Nearest := by
  intro id c hc hkind n d
  have ht := hb.tabled
  have hinherited : (t.chain id).findSome? (t.declared? n d) = none →
      ∀ m, t.selected? n d id = some m → ∃ i, t.IsSuperinterface id i ∧ t.declared? n d i = some m := by
    intro hnone m hm
    obtain ⟨hdeclared, howner⟩ := (obtains_of_selected? ht hm).owner ht
    rcases howner with hmem | ⟨hsuper, -⟩
    · rw [List.findSome?_eq_none_iff.1 hnone _ hmem] at hdeclared
      cases hdeclared
    · exact ⟨m.owner, hsuper, hdeclared⟩
  refine ⟨fun m hm => selected?_of_chain ht hc hkind hm, hinherited, fun hnone => ⟨?_, fun h => ?_⟩⟩
  · rintro h i ⟨b, hb, j, hj, hji⟩
    obtain ⟨e, he, hordinary⟩ := kind_of_mem_chain ht hc hkind hb
    have hnone := none_of_mem_chain ht hc hkind h hb
    rw [interfacesOf_of_class? he] at hj
    obtain ⟨f, hf, hinterface⟩ := (ht b e he).implementing (isArray_of_ordinary hordinary) j hj
    have hj' := (none_of_selected? ht he hnone).2 j ((mem_sources_of_ordinary hordinary).2 (.inr hj))
    have hi := none_of_reachesInterface ht hf hinterface hj' hji
    cases hdeclared : t.declared? n d i with
    | none => rfl
    | some m =>
      rw [selected?_of_declared? ht hdeclared] at hi
      cases hi
  · cases hm : t.selected? n d id with
    | none => rfl
    | some m =>
      obtain ⟨i, hi, hdeclared⟩ := hinherited hnone m hm
      rw [h i hi] at hdeclared
      cases hdeclared

end ClassTable

/-- **Selection**: whatever is asked of a registry, a call selects for instances of a class the declaration
of the nearest superclass, or if there is none that of a superinterface, as long as there is one. -/
theorem nearest_after (paths : ClassPaths) (requests : List Request) :
    (Registry.after paths requests).table.Nearest :=
  (built_after paths requests).nearest

end Jvm.Linking
