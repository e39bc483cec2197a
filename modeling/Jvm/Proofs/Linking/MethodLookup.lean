import Mathlib
import Jvm.Proofs.Linking.Roots

/-! # Looking a method up and selecting it

A lookup goes through a class and its superclasses and then through all superinterfaces, those of the class
first. A selection goes by the method table, which begins with that of the superclass, and in which an
interface hides those above it. Both take the first method with an implementation, or else the first
(`foremost`), so they agree where they come upon the same methods in the same order:
`selectsAllFound_after` says where that is. -/

namespace Jvm.Linking

/-! ## The foremost of some methods -/

/-- Of some methods the first one with an implementation, or else the first. -/
def foremost (methods : List Method) : Option Method :=
  (methods.find? (!·.isAbstract)).or methods.head?

/-- Whether a method stands beside one that is foremost: abstract methods do not stand beside an
implementation. -/
def Method.rivals (m m' : Method) : Bool := m.isAbstract || !m'.isAbstract

section

variable {m m' : Method} {methods : List Method}

theorem Method.rivals_self (m : Method) : m.rivals m = true := by
  cases h : m.isAbstract <;> simp [rivals, h]

theorem Method.rivals_of_isAbstract (h : m.isAbstract = true) (m' : Method) : m.rivals m' = true := by
  simp [rivals, h]

theorem Method.rivals_eq_false : m.rivals m' = false ↔ m'.isAbstract = true ∧ m.isAbstract = false := by
  simp [rivals, and_comm]

theorem foremost_eq_some : foremost methods = some m ↔ methods.find? m.rivals = some m ∧
    (m.isAbstract = true → ∀ m' ∈ methods, m'.isAbstract = true) := by
  cases hm : m.isAbstract with
  | false =>
    have hrivals : m.rivals = (!·.isAbstract) := funext fun m' => by simp [Method.rivals, hm]
    rw [foremost, Option.or_eq_some_iff, hrivals]
    constructor
    · rintro (h | ⟨hnone, hhead⟩)
      · exact ⟨h, fun h => by cases h⟩
      · have := List.find?_eq_none.1 hnone m (List.mem_of_head? hhead)
        simp [hm] at this
    · exact fun h => .inl h.1
  | true =>
    have hrivals : m.rivals = fun _ => true := funext (Method.rivals_of_isAbstract hm)
    have hfind : methods.find? m.rivals = methods.head? := by
      rw [hrivals]
      cases methods <;> rfl
    rw [foremost, Option.or_eq_some_iff, hfind, List.find?_eq_none]
    constructor
    · rintro (h | ⟨hall, hhead⟩)
      · have := List.find?_some h
        simp [hm] at this
      · exact ⟨hhead, fun _ m' hm' => by simpa using hall m' hm'⟩
    · exact fun h => .inr ⟨fun m' hm' => by simpa using h.2 rfl m' hm', h.1⟩

/-- Beside a method that stands beside another one, the foremost stands beside it too. -/
theorem exists_foremost (hmem : m' ∈ methods) (h : m.rivals m' = true) :
    ∃ f, foremost methods = some f ∧ m.rivals f = true := by
  cases hfind : methods.find? (!·.isAbstract) with
  | some f =>
    have hf := List.find?_some hfind
    exact ⟨f, by rw [foremost, hfind]; rfl, by rw [Method.rivals, hf, Bool.or_true]⟩
  | none =>
    have habstract : m.isAbstract = true := by
      have := List.find?_eq_none.1 hfind m' hmem
      simpa [Method.rivals, this] using h
    obtain ⟨f, hf⟩ : ∃ f, methods.head? = some f := by
      cases methods with
      | nil => cases hmem
      | cons f _ => exact ⟨f, rfl⟩
    exact ⟨f, by rw [foremost, hfind, hf]; rfl, Method.rivals_of_isAbstract habstract f⟩

/-- A method that is foremost among some, or stands behind another one, is foremost together with an answer
before them unless this is another method that stands beside it. -/
theorem foremost_append_iff {answer : Option Method}
    (hall : m.isAbstract = true → ∀ m' ∈ methods, m'.isAbstract = true)
    (hcases : methods.find? m.rivals = some m ∨ ∃ m' ∈ answer, m.rivals m' = true) :
    foremost (answer.toList ++ methods) = some m ↔ ∀ m' ∈ answer, m.rivals m' = true → m' = m := by
  rw [foremost_eq_some]
  cases answer with
  | none =>
    rcases hcases with hfind | ⟨m', hm', -⟩
    · exact iff_of_true ⟨hfind, hall⟩ fun m' hm' => by cases hm'
    · cases hm'
  | some m' =>
    rw [Option.toList_some, List.singleton_append]
    cases hrivals : m.rivals m' with
    | true =>
      rw [List.find?_cons_of_pos hrivals]
      refine ⟨fun h m₁ hm₁ _ => ?_, fun h => ?_⟩
      · cases hm₁
        exact Option.some.inj h.1
      · obtain rfl := h m' rfl hrivals
        exact ⟨rfl, fun habstract => List.forall_mem_cons.2 ⟨habstract, hall habstract⟩⟩
    | false =>
      rw [List.find?_cons_of_neg (by simp [hrivals])]
      have hnone : ∀ m₁ ∈ some m', m.rivals m₁ = false := fun m₁ hm₁ => by
        cases hm₁
        exact hrivals
      refine iff_of_true ⟨?_, fun habstract => ?_⟩ fun m₁ hm₁ h => ?_
      · rcases hcases with hfind | ⟨m₁, hm₁, h⟩
        · exact hfind
        · rw [hnone m₁ hm₁] at h
          cases h
      · rw [m.rivals_of_isAbstract habstract] at hrivals
        cases hrivals
      · rw [hnone m₁ hm₁] at h
        cases h

end

namespace ClassTable

/-! ## Walks -/

/-- The interfaces above a class, each before those above it, as often as ways lead to them. -/
def walk (t : ClassTable) (id : ClassId) : List ClassId :=
  ((t.interfacesOf id).attach.flatMap fun ⟨i, _⟩ => i :: t.walk i) ++
    match _h : t.superOf? id with
    | some s => t.walk s
    | none => []
termination_by id
decreasing_by
  · exact interfacesOf_lt (by assumption)
  · exact superOf?_lt (by assumption)

variable {t : ClassTable} {id : ClassId}

/-- Interfaces, each before those above it. -/
def walks (t : ClassTable) (is : List ClassId) : List ClassId := is.flatMap fun i => i :: t.walk i

theorem walk_eq (t : ClassTable) (id : ClassId) :
    t.walk id = t.walks (t.interfacesOf id) ++ ((t.superOf? id).map t.walk).getD [] := by
  rw [walk, walks, List.flatMap_subtype (g := fun i => i :: t.walk i) fun _ _ => rfl, List.unattach_attach]
  congr 1
  split <;> simp_all

theorem walks_cons (i : ClassId) (is : List ClassId) : t.walks (i :: is) = (i :: t.walk i) ++ t.walks is :=
  List.flatMap_cons

theorem lt_of_mem_walk {i : ClassId} (h : i ∈ t.walk id) : i < id := by
  induction id using Nat.strongRecOn with
  | ind id ih =>
    rw [walk_eq, List.mem_append] at h
    rcases h with h | h
    · obtain ⟨j, hj, hi⟩ := List.mem_flatMap.1 h
      have hlt := interfacesOf_lt hj
      rcases List.mem_cons.1 hi with rfl | hi
      · exact hlt
      · exact (ih j hlt hi).trans hlt
    · cases hs : t.superOf? id with
      | none => simp [hs] at h
      | some s =>
        rw [hs] at h
        exact (ih s (superOf?_lt hs) h).trans (superOf?_lt hs)

theorem chain_eq (t : ClassTable) (id : ClassId) :
    t.chain id = id :: ((t.superOf? id).map t.chain).getD [] := by
  rw [chain]
  split <;> simp_all

theorem addInterfaces_eq (t : ClassTable) (found : List ClassId) (id : ClassId) :
    t.addInterfaces found id =
      (fun found => ((t.superOf? id).map (t.addInterfaces found)).getD found)
        ((t.interfacesOf id).foldl
          (fun found i => if found.contains i then found else t.addInterfaces (found ++ [i]) i) found) := by
  rw [addInterfaces]
  dsimp only
  rw [List.foldl_subtype
    (g := fun found i => if found.contains i then found else t.addInterfaces (found ++ [i]) i)
    fun _ _ _ => rfl, List.unattach_attach]
  split <;> simp_all

/-! ### Searches leave out what they have come by -/

/-- Whether some classes include what is above those of them that come before another class. -/
def Closed (t : ClassTable) (bound : ClassId) (found : List ClassId) : Prop :=
  ∀ k ∈ found, k < bound → ∀ x ∈ t.walk k, x ∈ found

/-- Whether a search adds the classes on a walk that it has not come by. -/
structure Gathers (t : ClassTable) (bound : ClassId) (found walk found' : List ClassId) : Prop where
  mem : ∀ x, x ∈ found' ↔ x ∈ found ∨ x ∈ walk
  find? : ∀ p, found'.find? p = (found ++ walk).find? p
  closed : t.Closed bound found'

theorem Gathers.refl {bound : ClassId} {found walk : List ClassId} (hclosed : t.Closed bound found)
    (h : ∀ x ∈ walk, x ∈ found) : t.Gathers bound found walk found where
  mem x := ⟨.inl, fun hx => hx.elim id (h x)⟩
  find? p := by
    rw [List.find?_append]
    cases hfind : found.find? p with
    | some x => rfl
    | none =>
      rw [Option.none_or, eq_comm]
      exact List.find?_eq_none.2 fun x hx => List.find?_eq_none.1 hfind x (h x hx)
  closed := hclosed

theorem Gathers.trans {bound : ClassId} {found walk walk' found' found'' : List ClassId}
    (h : t.Gathers bound found walk found') (h' : t.Gathers bound found' walk' found'') :
    t.Gathers bound found (walk ++ walk') found'' where
  mem x := by rw [h'.mem, h.mem, List.mem_append, or_assoc]
  find? p := by
    rw [h'.find?, List.find?_append, h.find?, ← List.append_assoc, @List.find?_append _ p (found ++ walk)]
  closed := h'.closed

/-- How a search goes on with an interface: it leaves out one that it has come by. -/
theorem gathers_cons {bound i : ClassId} {found : List ClassId} (hi : i < bound) (hfound : t.Closed bound found)
    (hadd : ∀ {found}, t.Closed i found → t.Gathers i found (t.walk i) (t.addInterfaces found i)) :
    t.Gathers bound found (i :: t.walk i)
      (if found.contains i then found else t.addInterfaces (found ++ [i]) i) := by
  split
  · next hmem =>
    have hmem : i ∈ found := List.contains_iff_mem.1 hmem
    exact .refl hfound (List.forall_mem_cons.2 ⟨hmem, hfound i hmem hi⟩)
  · have hclosed : t.Closed i (found ++ [i]) := fun k hk hki x hx => by
      rcases List.mem_append.1 hk with hk | hk
      · exact List.mem_append_left _ (hfound k hk (hki.trans hi) x hx)
      · exact absurd (List.mem_singleton.1 hk) hki.ne
    have hgathers := hadd hclosed
    refine ⟨fun x => ?_, fun p => ?_, fun k hk hkid x hx => ?_⟩
    · rw [hgathers.mem, List.mem_append, List.mem_singleton, List.mem_cons, or_assoc]
    · rw [hgathers.find?, List.append_assoc]
      rfl
    · rcases (hgathers.mem k).1 hk with hk' | hk'
      · rcases List.mem_append.1 hk' with hk' | hk'
        · exact (hgathers.mem x).2 (.inl (List.mem_append_left _ (hfound k hk' hkid x hx)))
        · obtain rfl := List.mem_singleton.1 hk'
          exact (hgathers.mem x).2 (.inr hx)
      · exact hgathers.closed k hk (lt_of_mem_walk hk') x hx

theorem gathers_foldl {bound : ClassId} {is found : List ClassId} (hlt : ∀ i ∈ is, i < bound)
    (hfound : t.Closed bound found) (hadd : ∀ i < bound, ∀ {found}, t.Closed i found →
      t.Gathers i found (t.walk i) (t.addInterfaces found i)) :
    t.Gathers bound found (t.walks is) (is.foldl
      (fun found i => if found.contains i then found else t.addInterfaces (found ++ [i]) i) found) := by
  induction is generalizing found with
  | nil => exact .refl hfound fun x hx => by cases hx
  | cons i is ih =>
    obtain ⟨hi, hlt⟩ := List.forall_mem_cons.1 hlt
    have hstep := gathers_cons hi hfound (hadd i hi)
    rw [walks_cons]
    exact hstep.trans (ih hlt hstep.closed)

/-- A search adds the walk of a class if it has what is above smaller classes. -/
theorem gathers_addInterfaces {found : List ClassId} (h : t.Closed id found) :
    t.Gathers id found (t.walk id) (t.addInterfaces found id) := by
  induction id using Nat.strongRecOn generalizing found with
  | ind id ih =>
    have hbelow : ∀ i ∈ t.interfacesOf id, i < id := fun i hi => interfacesOf_lt hi
    have hown := gathers_foldl hbelow h fun i hi => ih i hi
    rw [walk_eq, addInterfaces_eq]
    cases hs : t.superOf? id with
    | none => simpa using hown
    | some s =>
      have hlt := superOf?_lt hs
      have habove := ih s hlt fun k hk hks => hown.closed k hk (hks.trans hlt)
      refine hown.trans ⟨habove.mem, habove.find?, fun k hk hkid x hx => ?_⟩
      rcases (habove.mem k).1 hk with hk' | hk'
      · exact (habove.mem x).2 (.inl (hown.closed k hk' hkid x hx))
      · exact habove.closed k hk (lt_of_mem_walk hk') x hx

/-- The superinterfaces that a lookup goes through are those on the walk, in the order in which they come
first. -/
theorem find?_allInterfaces (p : ClassId → Bool) : (t.allInterfaces id).find? p = (t.walk id).find? p := by
  have h : t.Gathers id [] (t.walk id) (t.addInterfaces [] id) :=
    gathers_addInterfaces fun k hk => by cases hk
  exact h.find? p

theorem mem_allInterfaces {i : ClassId} : i ∈ t.allInterfaces id ↔ i ∈ t.walk id := by
  have h : t.Gathers id [] (t.walk id) (t.addInterfaces [] id) :=
    gathers_addInterfaces fun k hk => by cases hk
  exact (h.mem i).trans (by simp)

/-- Of two classes the search comes first by the one that the walk does. -/
theorem sublist_allInterfaces {before after : List ClassId} {i j : ClassId}
    (hwalk : t.walk id = before ++ i :: after) (hj : j ∈ before) (hi : i ∉ before) :
    [j, i].Sublist (t.allInterfaces id) := by
  have hfirst : (t.walk id).find? (fun k => k == j || k == i) = some j := by
    obtain ⟨k, hk⟩ := Option.isSome_iff_exists.1 (List.find?_isSome.2 ⟨j, hj, by simp⟩ :
      (before.find? fun k => k == j || k == i).isSome = true)
    rcases Bool.or_eq_true_iff.1 (List.find?_some (p := fun k => k == j || k == i) hk) with hkj | hki
    · rw [hwalk, List.find?_append, hk, eq_of_beq hkj]
      rfl
    · exact absurd (eq_of_beq hki ▸ List.mem_of_find?_eq_some hk) hi
  rw [← find?_allInterfaces, List.find?_eq_some_iff_append] at hfirst
  obtain ⟨-, l₁, l₂, hall, hl₁⟩ := hfirst
  have hmem : i ∈ l₁ ++ j :: l₂ := by
    rw [← hall, mem_allInterfaces, hwalk]
    simp
  have hmem₂ : i ∈ l₂ := by
    rcases List.mem_append.1 hmem with hmem | hmem
    · have := hl₁ _ hmem
      simp at this
    · exact (List.mem_cons.1 hmem).resolve_left fun h => hi (h ▸ hj)
  rw [hall]
  exact (List.Sublist.cons_cons j (List.singleton_sublist.2 hmem₂)).trans (List.sublist_append_right _ _)

/-! ## What lookups find -/

/-- The methods of a name and a descriptor that some interfaces declare and calls select by the
receiver. -/
def declarations (t : ClassTable) (n d : String) (is : List ClassId) : List Method :=
  is.filterMap (t.declared? n d)

variable {n d : String} {m : Method}

theorem find?_declarations (q : Method → Bool) (is : List ClassId) : (t.declarations n d is).find? q =
    (is.find? fun i => (t.declared? n d i).any q).bind (t.declared? n d) := List.find?_filterMap

/-- Whether no class declares two methods of one name and one descriptor. -/
def Unambiguous (t : ClassTable) : Prop :=
  ∀ id c, t.class? id = some c → c.methods.Pairwise fun m m' => ¬ m.Overrides m'

theorem Built.unambiguous (ht : t.Built) : t.Unambiguous := by
  refine ht.forall (P := fun _ _ (c : LinkedClass) => c.methods.Pairwise fun m m' : Method => ¬ m.Overrides m')
    (fun _ _ _ _ _ hc => hc) fun t c known ht _ hc => ?_
  cases hc with
  | file hparse _ hsuper hinterfaces hlinked =>
    exact (linkedOver_of_linkedClass hparse
      (fun s hs => (ht.tabled s.1 s.2 (hsuper s hs).1).indexed)
      (fun i hi => (ht.tabled i.1 i.2 (hinterfaces i hi).1).indexed) hlinked).pairwise
  | array => exact .nil

theorem method?_eq_some {c : LinkedClass} (hpair : c.methods.Pairwise fun m m' => ¬ m.Overrides m') :
    c.method? n d = some m ↔ m ∈ c.methods ∧ m.hasSignature n d = true := by
  rw [LinkedClass.method?]
  refine ⟨fun h => ⟨List.mem_of_find?_eq_some h, List.find?_some (p := fun m : Method => m.hasSignature n d) h⟩, ?_⟩
  rintro ⟨hmem, hname⟩
  cases hfind : c.methods.find? (·.hasSignature n d) with
  | none => exact absurd hname (List.find?_eq_none.1 hfind m hmem)
  | some m' =>
    have hname' := Method.hasSignature_iff.1 (List.find?_some (p := fun m : Method => m.hasSignature n d) hfind)
    obtain ⟨rfl, rfl⟩ := Method.hasSignature_iff.1 hname
    have : Std.Symm fun m m' : Method => ¬ m.Overrides m' := ⟨fun _ _ h hmm => h ⟨hmm.1.symm, hmm.2.symm⟩⟩
    exact congrArg some (by_contra fun hne =>
      hpair.forall (List.mem_of_find?_eq_some hfind) hmem hne hname')

/-- The declared method that calls select by the receiver is the one that a lookup sees. -/
theorem Unambiguous.declared?_iff (ht : t.Unambiguous) : t.declared? n d id = some m ↔
    t.declaredMethod? id n d = some m ∧ m.isVirtual = true := by
  cases hc : t.class? id with
  | none => simp [declared?, declaredMethod?, hc]
  | some c =>
    rw [declared?_of_class? hc, selectable?_eq_some (ht id c hc), declaredMethod?, hc, Option.bind_some,
      method?_eq_some (ht id c hc)]
    constructor
    · rintro ⟨hmem, hvirtual, hname⟩
      exact ⟨⟨hmem, hname⟩, hvirtual⟩
    · rintro ⟨⟨hmem, hname⟩, hvirtual⟩
      exact ⟨hmem, hvirtual, hname⟩

theorem name_of_declaredMethod? (h : t.declaredMethod? id n d = some m) :
    m.name = n ∧ m.descriptor = d := by
  obtain ⟨c, -, hm⟩ := Option.bind_eq_some_iff.1 h
  exact Method.hasSignature_iff.1 (List.find?_some (p := fun m : Method => m.hasSignature n d) hm)

/-- What a lookup finds in superinterfaces is the foremost of what they declare. -/
theorem Unambiguous.interfaceMethod?_eq (ht : t.Unambiguous) (hn : Method.isInitializerName n = false) :
    t.interfaceMethod? id n d = foremost (t.declarations n d (t.allInterfaces id)) := by
  have hcandidates : ∀ i, ((t.declaredMethod? i n d).filter fun m => !m.isStatic && !m.isPrivate) =
      t.declared? n d i := by
    refine fun i => Option.ext fun m => ?_
    rw [ht.declared?_iff, Option.filter_eq_some_iff]
    refine and_congr_right fun hm => ?_
    rw [Method.isVirtual, (name_of_declaredMethod? hm).1, hn, Bool.not_false, Bool.and_true]
  rw [interfaceMethod?, foremost, declarations]
  simp only [hcandidates]

/-! ## Coming upon a method -/

/-- Whether an interface leaves a method where it is: what it declares does not stand beside the method,
and is not declared below it. -/
def Yields (t : ClassTable) (n d : String) (m : Method) (j : ClassId) : Prop :=
  ∀ m', t.declared? n d j = some m' → m.rivals m' = false ∧ t.reachesInterface j m.owner = false

/-- Whether the interface that declares a method is come upon before those that would not leave it where
it is. -/
def ComesUpon (t : ClassTable) (n d : String) (m : Method) (is : List ClassId) : Prop :=
  ∃ before after, is = before ++ m.owner :: after ∧ ∀ j ∈ before, t.Yields n d m j

/-- Whether no interface implements a method if another one is abstract. -/
def NoneAbove (t : ClassTable) (n d : String) (m : Method) (is : List ClassId) : Prop :=
  m.isAbstract = true → ∀ j ∈ is, ∀ m', t.declared? n d j = some m' → m'.isAbstract = true

theorem comesUpon_append {is js : List ClassId} (h : t.ComesUpon n d m (is ++ js)) :
    t.ComesUpon n d m is ∨ (∀ j ∈ is, t.Yields n d m j) ∧ t.ComesUpon n d m js := by
  obtain ⟨before, after, hsplit, hbefore⟩ := h
  rcases List.append_eq_append_iff.1 hsplit with ⟨as, rfl, heq⟩ | ⟨bs, rfl, heq⟩
  · exact .inr ⟨fun j hj => hbefore j (List.mem_append_left _ hj), as, after, heq,
      fun j hj => hbefore j (List.mem_append_right _ hj)⟩
  · cases bs with
    | nil =>
      rw [List.append_nil]
      exact .inr ⟨hbefore, [], after, heq.symm, fun j hj => by cases hj⟩
    | cons b bs =>
      obtain ⟨rfl, rfl⟩ := List.cons_eq_cons.1 heq
      exact .inl ⟨before, bs, rfl, hbefore⟩

section

variable (ht : ∀ id c, t.class? id = some c → t.Tabled id c) (hcapped : t.Capped) {i : ClassId}
  {e : LinkedClass} (he : t.class? i = some e) (hi : e.isInterface = true)

include ht hcapped he hi

omit ht in
/-- Above an interface are its superinterfaces and what is above these. -/
theorem walk_of_interface : t.walk i = t.walks e.interfaces := by
  rw [walk_eq, interfacesOf_of_class? he, superOf?_of_class? he]
  cases hs : e.superclass with
  | none => exact List.append_nil _
  | some s =>
    have hkind : e.kind ≠ .ordinary := by
      intro hkind
      rw [LinkedClass.isInterface, hkind] at hi
      cases hi
    obtain ⟨hsuper, hinterfaces⟩ := hcapped i e he hkind s hs
    have hwalk : t.walk s = [] := by rw [walk_eq, hsuper, hinterfaces]; rfl
    rw [Option.map_some, Option.getD_some, hwalk, List.append_nil]

theorem mem_walk_iff {x : ClassId} : x ∈ i :: t.walk i ↔ t.reachesInterface i x = true := by
  induction i using Nat.strongRecOn generalizing e with
  | ind i ih =>
    rw [List.mem_cons, walk_of_interface hcapped he hi, walks, List.mem_flatMap, reachesInterface_iff,
      interfacesOf_of_class? he, eq_comm]
    refine or_congr_right (exists_congr fun j => and_congr_right fun hj => ?_)
    obtain ⟨f, hf, hinterface⟩ := (ht i e he).implementing (isArray_of_isInterface hi) j hj
    exact ih j (interfacesOf_lt (by rwa [interfacesOf_of_class? he])) hf hinterface

omit hcapped in
/-- What an interface without a declaration of its own selects is the foremost of what its
superinterfaces select. -/
theorem selected?_of_interface (hnone : t.declared? n d i = none) :
    t.selected? n d i = foremost (e.interfaces.filterMap (t.selected? n d)) := by
  have hsources : e.sources = e.interfaces := by
    have hkind : e.kind = .interface := by simpa [LinkedClass.isInterface] using hi
    rw [LinkedClass.sources, hkind]
  have hanswers : (e.interfaces.map (t.selected? n d)).reduceOption =
      e.interfaces.filterMap (t.selected? n d) := List.filterMap_map
  rw [selected?_of_class? he, (ht i e he).selects, ← declared?_of_class? he, hnone, hsources, foremost,
    ← hanswers]
  refine foldl_settle_first fun m hm => ?_
  obtain ⟨p, hp, hm⟩ := List.mem_map.1 hm
  obtain ⟨f, hf, hinterface⟩ := (ht i e he).implementing (isArray_of_isInterface hi) p hp
  have hobtains := obtains_of_selected? ht hm
  have hlt : p < i := interfacesOf_lt (by rwa [interfacesOf_of_class? he])
  exact ⟨((hobtains.owner_le ht).trans_lt hlt).ne, (hobtains.of_interface ht hf hinterface).2.2⟩

/-- What an interface selects is declared on the walk from it. -/
theorem mem_walk_of_selected? (h : t.selected? n d i = some m) :
    m.owner ∈ i :: t.walk i ∧ t.declared? n d m.owner = some m := by
  obtain ⟨hreach, hdeclared, -⟩ := (obtains_of_selected? ht h).of_interface ht he hi
  exact ⟨(mem_walk_iff ht hcapped he hi).2 hreach, hdeclared⟩

end

/-! ### From interfaces -/

section

variable (ht : ∀ id c, t.class? id = some c → t.Tabled id c) (hcapped : t.Capped)
  (hm : t.declared? n d m.owner = some m)

/-- Whether some classes are interfaces. -/
def AreInterfaces (t : ClassTable) (is : List ClassId) : Prop :=
  ∀ i ∈ is, ∃ e, t.class? i = some e ∧ e.isInterface = true

include ht hcapped in
/-- Interfaces that leave a method where it is select none that stands beside it. -/
theorem not_rivals_of_yields {is : List ClassId} (hi : t.AreInterfaces is)
    (h : ∀ j ∈ t.walks is, t.Yields n d m j) {m' : Method} (hm' : m' ∈ is.filterMap (t.selected? n d)) :
    m.rivals m' = false := by
  obtain ⟨i, his, hselected⟩ := List.mem_filterMap.1 hm'
  obtain ⟨e, he, hinterface⟩ := hi i his
  obtain ⟨hmem, hdeclared⟩ := mem_walk_of_selected? ht hcapped he hinterface hselected
  exact (h _ (List.mem_flatMap.2 ⟨i, his, hmem⟩) m' hdeclared).1

include ht hcapped in
theorem isAbstract_of_noneAbove {is : List ClassId} (hi : t.AreInterfaces is)
    (h : t.NoneAbove n d m (t.walks is)) (habstract : m.isAbstract = true) {m' : Method}
    (hm' : m' ∈ is.filterMap (t.selected? n d)) : m'.isAbstract = true := by
  obtain ⟨i, his, hselected⟩ := List.mem_filterMap.1 hm'
  obtain ⟨e, he, hinterface⟩ := hi i his
  obtain ⟨hmem, hdeclared⟩ := mem_walk_of_selected? ht hcapped he hinterface hselected
  exact h habstract _ (List.mem_flatMap.2 ⟨i, his, hmem⟩) m' hdeclared

include ht hcapped in
/-- Of interfaces the first that selects a method beside the one that is come upon selects this, if the
interfaces that come upon it do. -/
theorem find?_selected {is : List ClassId} (hi : t.AreInterfaces is) (h : t.ComesUpon n d m (t.walks is))
    (heach : ∀ i ∈ is, t.ComesUpon n d m (i :: t.walk i) → t.selected? n d i = some m) :
    (is.filterMap (t.selected? n d)).find? m.rivals = some m := by
  induction is with
  | nil =>
    obtain ⟨before, after, heq, -⟩ := h
    simp [walks] at heq
  | cons i is ih =>
    obtain ⟨hown, hrest⟩ := List.forall_mem_cons.1 heach
    rw [walks_cons] at h
    rcases comesUpon_append h with h | ⟨hyields, h⟩
    · rw [List.filterMap_cons_some (hown h), List.find?_cons_of_pos m.rivals_self]
    · have ih := ih (fun j hj => hi j (List.mem_cons_of_mem _ hj)) h hrest
      cases hselected : t.selected? n d i with
      | none => rwa [List.filterMap_cons_none hselected]
      | some m' =>
        have hsingle : t.AreInterfaces [i] := fun j hj => hi j (by simp_all)
        have hnot : m.rivals m' = false := by
          refine not_rivals_of_yields ht hcapped hsingle
            (fun j hj => hyields j (by simpa [walks] using hj)) ?_
          simp [hselected]
        rw [List.filterMap_cons_some hselected, List.find?_cons_of_neg (by simp [hnot]), ih]

include ht hcapped hm in
/-- An interface that comes upon a method selects it. -/
theorem selected?_of_comesUpon {i : ClassId} {e : LinkedClass} (he : t.class? i = some e)
    (hi : e.isInterface = true) (h : t.ComesUpon n d m (i :: t.walk i))
    (hall : t.NoneAbove n d m (i :: t.walk i)) : t.selected? n d i = some m := by
  induction i using Nat.strongRecOn generalizing e with
  | ind i ih =>
    cases hown : t.declared? n d i with
    | some m' =>
      obtain ⟨before, after, heq, hbefore⟩ := h
      cases before with
      | nil =>
        obtain ⟨rfl, -⟩ := List.cons_eq_cons.1 heq
        exact selected?_of_declared? ht hm
      | cons b before =>
        -- an interface that hides the method does not leave it where it is
        obtain ⟨rfl, hwalk⟩ := List.cons_eq_cons.1 heq
        have hreach : t.reachesInterface i m.owner = true :=
          (mem_walk_iff ht hcapped he hi).1 (by simp [hwalk])
        rw [(hbefore i List.mem_cons_self m' hown).2] at hreach
        cases hreach
    | none =>
      have hinterfaces : t.AreInterfaces e.interfaces := (ht i e he).implementing (isArray_of_isInterface hi)
      have hwalk := walk_of_interface hcapped he hi
      have habove : t.ComesUpon n d m (t.walks e.interfaces) := by
        have hcons : i :: t.walk i = [i] ++ t.walks e.interfaces := by rw [hwalk]; rfl
        rw [hcons] at h
        rcases comesUpon_append h with ⟨before, after, heq, -⟩ | ⟨-, h⟩
        · have hmem : m.owner ∈ [i] := by simp [heq]
          rw [← List.mem_singleton.1 hmem, hm] at hown
          cases hown
        · exact h
      have hnone : t.NoneAbove n d m (t.walks e.interfaces) := fun habstract j hj =>
        hall habstract j (List.mem_cons_of_mem _ (hwalk ▸ hj))
      rw [selected?_of_interface ht he hi hown, foremost_eq_some]
      refine ⟨find?_selected ht hcapped hinterfaces habove fun j hj hcomes => ?_,
        fun habstract m' hm' => isAbstract_of_noneAbove ht hcapped hinterfaces hnone habstract hm'⟩
      obtain ⟨f, hf, hinterface⟩ := hinterfaces j hj
      exact ih j (interfacesOf_lt (by rwa [interfacesOf_of_class? he])) hf hinterface hcomes
        fun habstract k hk => hnone habstract k (List.mem_flatMap.2 ⟨j, hj, hk⟩)

/-! ### From classes -/

theorem walk_of_class? {c : LinkedClass} (hc : t.class? id = some c) :
    t.walk id = t.walks c.interfaces ++ (c.superclass.map t.walk).getD [] := by
  rw [walk_eq, interfacesOf_of_class? hc, superOf?_of_class? hc]

include ht in
/-- What a class selects whose superclasses declare nothing is the foremost of what its superclass and its
superinterfaces select. -/
theorem selected?_of_undeclared {c : LinkedClass} (hc : t.class? id = some c) (hkind : c.kind = .ordinary)
    (hnone : t.Undeclared n d id) : t.selected? n d id =
      foremost ((c.superclass.bind (t.selected? n d)).toList ++
        c.interfaces.filterMap (t.selected? n d)) := by
  have hsources : c.sources.filterMap (t.selected? n d) =
      (c.superclass.bind (t.selected? n d)).toList ++ c.interfaces.filterMap (t.selected? n d) := by
    rw [LinkedClass.sources, hkind, List.filterMap_append]
    congr 1
    cases c.superclass with
    | none => rfl
    | some s => cases hs : t.selected? n d s <;> simp [hs]
  rw [(selectsUnhidden ht hc hnone).first, foremost, hsources]

theorem Undeclared.superclass {c : LinkedClass} (h : t.Undeclared n d id) (hc : t.class? id = some c)
    {s : ClassId} (hs : c.superclass = some s) : t.Undeclared n d s := fun b hb =>
  h b (mem_chain.2 (.inr ⟨s, (superOf?_of_class? hc).trans hs, hb⟩))

include ht hcapped hm in
theorem find?_selected_of_class? {c : LinkedClass} (hc : t.class? id = some c) (hkind : c.kind = .ordinary)
    (h : t.ComesUpon n d m (t.walks c.interfaces)) (hall : t.NoneAbove n d m (t.walks c.interfaces)) :
    (c.interfaces.filterMap (t.selected? n d)).find? m.rivals = some m := by
  have hinterfaces : t.AreInterfaces c.interfaces := (ht id c hc).implementing (isArray_of_ordinary hkind)
  refine find?_selected ht hcapped hinterfaces h fun i hi hcomes => ?_
  obtain ⟨e, he, hinterface⟩ := hinterfaces i hi
  exact selected?_of_comesUpon ht hcapped hm he hinterface hcomes
    fun habstract j hj => hall habstract j (List.mem_flatMap.2 ⟨i, hi, hj⟩)

include ht hcapped hm in
/-- A class that comes upon a method selects one that stands beside it. -/
theorem exists_selected {c : LinkedClass} (hc : t.class? id = some c) (hkind : c.kind = .ordinary)
    (hnone : t.Undeclared n d id) (h : t.ComesUpon n d m (t.walk id))
    (hall : t.NoneAbove n d m (t.walk id)) :
    ∃ m', t.selected? n d id = some m' ∧ m.rivals m' = true := by
  induction id using Nat.strongRecOn generalizing c with
  | ind id ih =>
    rw [walk_of_class? hc] at h hall
    rw [selected?_of_undeclared ht hc hkind hnone]
    rcases comesUpon_append h with h | ⟨-, h⟩
    · have hfind := find?_selected_of_class? ht hcapped hm hc hkind h
        fun habstract j hj => hall habstract j (List.mem_append_left _ hj)
      exact exists_foremost (List.mem_append_right _ (List.mem_of_find?_eq_some hfind)) m.rivals_self
    · cases hs : c.superclass with
      | none =>
        obtain ⟨before, after, heq, -⟩ := h
        simp [hs] at heq
      | some s =>
        rw [hs] at h hall
        have hsuper := (superOf?_of_class? hc).trans hs
        obtain ⟨e, he, hordinary⟩ := kind_of_mem_chain ht hc hkind
          (mem_chain.2 (.inr ⟨s, hsuper, mem_chain_self s⟩))
        obtain ⟨m', hm', hrivals⟩ := ih s (superOf?_lt hsuper) he hordinary (hnone.superclass hc hs) h
          fun habstract j hj => hall habstract j (List.mem_append_right _ hj)
        rw [Option.bind_some, hm']
        exact exists_foremost List.mem_cons_self hrivals

include ht hcapped hm in
/-- What a class comes upon is found by its superinterfaces, or its superclass selects a method that stands
beside it. -/
theorem found_or_exists {c : LinkedClass} (hc : t.class? id = some c) (hkind : c.kind = .ordinary)
    (hnone : t.Undeclared n d id) (h : t.ComesUpon n d m (t.walk id))
    (hall : t.NoneAbove n d m (t.walk id)) :
    (c.interfaces.filterMap (t.selected? n d)).find? m.rivals = some m ∨
      ∃ m' ∈ c.superclass.bind (t.selected? n d), m.rivals m' = true := by
  rw [walk_of_class? hc] at h hall
  rcases comesUpon_append h with h | ⟨-, h⟩
  · exact .inl (find?_selected_of_class? ht hcapped hm hc hkind h
      fun habstract j hj => hall habstract j (List.mem_append_left _ hj))
  · cases hs : c.superclass with
    | none =>
      obtain ⟨before, after, heq, -⟩ := h
      simp [hs] at heq
    | some s =>
      rw [hs] at h hall
      obtain ⟨e, he, hordinary⟩ := kind_of_mem_chain ht hc hkind
        (mem_chain.2 (.inr ⟨s, (superOf?_of_class? hc).trans hs, mem_chain_self s⟩))
      exact .inr (exists_selected ht hcapped hm he hordinary (hnone.superclass hc hs) h
        fun habstract j hj => hall habstract j (List.mem_append_right _ hj))

include ht hcapped hm in
/-- A class that comes upon a method selects it unless its superclass selects another one that stands
beside it. -/
theorem selected?_iff {c : LinkedClass} (hc : t.class? id = some c) (hkind : c.kind = .ordinary)
    (hnone : t.Undeclared n d id) (h : t.ComesUpon n d m (t.walk id))
    (hall : t.NoneAbove n d m (t.walk id)) : t.selected? n d id = some m ↔
      ∀ m' ∈ c.superclass.bind (t.selected? n d), m.rivals m' = true → m' = m := by
  rw [selected?_of_undeclared ht hc hkind hnone]
  refine foremost_append_iff (fun habstract m' hm' => ?_) (found_or_exists ht hcapped hm hc hkind hnone h hall)
  refine isAbstract_of_noneAbove ht hcapped ((ht id c hc).implementing (isArray_of_ordinary hkind))
    (fun habstract j hj => hall habstract j ?_) habstract hm'
  rw [walk_of_class? hc]
  exact List.mem_append_left _ hj

end

/-! ## Agreement -/

/-- Whether a lookup in a class comes upon a redeclaration of a method before the method: an interface below
the method's declares it anew. -/
def Redeclared (t : ClassTable) (n d : String) (id : ClassId) (m : Method) : Prop :=
  ∃ j, (t.declared? n d j).isSome = true ∧ t.reachesInterface j m.owner = true ∧
    [j, m.owner].Sublist (t.allInterfaces id)

/-- How a call selects a method that a lookup in a class has found. -/
structure SelectsFound (t : ClassTable) (n d : String) (id : ClassId) (c : LinkedClass) (m : Method) :
    Prop where
  declared : m.owner ∈ t.chain id → t.selected? n d id = some m
  -- A superinterface declares the method and the lookup has not come upon a redeclaration: it is selected
  -- unless the superclass selects another one, abstract methods beside an implementation apart.
  inherited : m.owner ∉ t.chain id → c.kind = .ordinary → ¬ t.Redeclared n d id m →
    (t.selected? n d id = some m ↔ ∀ s ∈ c.superclass, ∀ m', t.selected? n d s = some m' →
      m' = m ∨ m'.isAbstract = true ∧ m.isAbstract = false)
  array : m.owner ∉ t.chain id → c.isArray = true → t.selected? n d id = none

/-- Whether calls select what lookups find for all classes that are no interfaces. -/
def SelectsAllFound (t : ClassTable) : Prop := ∀ id c, t.class? id = some c → c.isInterface = false →
  ∀ n d m, t.method? id n d = some m → m.isVirtual = true → t.SelectsFound n d id c m

/-- A lookup that has not come upon a redeclaration comes upon the method that it finds. -/
theorem comesUpon_of_foremost (hfound : foremost (t.declarations n d (t.allInterfaces id)) = some m)
    (hm : ∀ i, t.declared? n d i = some m → m.owner = i) (hnot : ¬ t.Redeclared n d id m) :
    t.declared? n d m.owner = some m ∧ t.ComesUpon n d m (t.walk id) ∧ t.NoneAbove n d m (t.walk id) := by
  obtain ⟨hfind, hall⟩ := foremost_eq_some.1 hfound
  rw [find?_declarations, Option.bind_eq_some_iff] at hfind
  obtain ⟨x, hx, hdeclared⟩ := hfind
  obtain rfl := hm x hdeclared
  rw [find?_allInterfaces, List.find?_eq_some_iff_append] at hx
  obtain ⟨-, before, after, hwalk, hbefore⟩ := hx
  have hnone : ∀ j ∈ before, ∀ m', t.declared? n d j = some m' → m.rivals m' = false := by
    intro j hj m' hm'
    simpa [hm'] using hbefore j hj
  refine ⟨hdeclared, ⟨before, after, hwalk, fun j hj m' hm' => ⟨hnone j hj m' hm', ?_⟩⟩, ?_⟩
  · refine Bool.eq_false_iff.2 fun hreach => hnot ⟨j, by rw [hm']; rfl, hreach, ?_⟩
    refine sublist_allInterfaces hwalk hj fun hmem => ?_
    have := hnone _ hmem m hdeclared
    rw [m.rivals_self] at this
    cases this
  · intro habstract j hj m' hm'
    exact hall habstract m' (List.mem_filterMap.2 ⟨j, mem_allInterfaces.2 hj, hm'⟩)

section

variable (ht : ∀ id c, t.class? id = some c → t.Tabled id c) (hcapped : t.Capped)
  (hunambiguous : t.Unambiguous) {c : LinkedClass} (hc : t.class? id = some c)

include ht hunambiguous

theorem owner_of_declaredMethod? (h : t.declaredMethod? id n d = some m) : m.owner = id := by
  obtain ⟨c, hc, hfind⟩ := Option.bind_eq_some_iff.1 h
  exact ((ht id c hc).declared m (method?_eq_some (hunambiguous id c hc) |>.1 hfind).1).1

/-- The first declaration in the chain that a lookup sees is the first that calls select by the receiver, if
it is one of these. -/
theorem findSome?_declared? {ids : List ClassId} (hvirtual : m.isVirtual = true)
    (h : ids.findSome? (fun b => t.declaredMethod? b n d) = some m) :
    ids.findSome? (t.declared? n d) = some m ∧ m.owner ∈ ids := by
  induction ids with
  | nil => cases h
  | cons b ids ih =>
    rw [List.findSome?_cons] at h
    rw [List.findSome?_cons]
    cases hb : t.declaredMethod? b n d with
    | some m' =>
      rw [hb] at h
      cases h
      have howner := owner_of_declaredMethod? ht hunambiguous hb
      rw [hunambiguous.declared?_iff.2 ⟨hb, hvirtual⟩, howner]
      exact ⟨rfl, List.mem_cons_self⟩
    | none =>
      rw [hb] at h
      have hnone : t.declared? n d b = none := Option.eq_none_iff_forall_ne_some.2 fun m' hm' => by
        rw [(hunambiguous.declared?_iff.1 hm').1] at hb
        cases hb
      rw [hnone]
      exact (ih h).imp id (List.mem_cons_of_mem b)

omit ht in
/-- A lookup in superinterfaces finds the foremost of what they declare. -/
theorem foremost_of_interfaceMethod? (hvirtual : m.isVirtual = true)
    (h : t.interfaceMethod? id n d = some m) :
    foremost (t.declarations n d (t.allInterfaces id)) = some m := by
  have hname : m.name = n := by
    rw [interfaceMethod?, Option.or_eq_some_iff] at h
    have hmem : m ∈ (t.allInterfaces id).filterMap fun i =>
        (t.declaredMethod? i n d).filter fun m => !m.isStatic && !m.isPrivate :=
      h.elim List.mem_of_find?_eq_some fun h => List.mem_of_head? h.2
    obtain ⟨i, -, hm⟩ := List.mem_filterMap.1 hmem
    exact (name_of_declaredMethod? (Option.filter_eq_some_iff.1 hm).1).1
  have hn : Method.isInitializerName n = false := by
    rw [Method.isVirtual, hname] at hvirtual
    simpa using (Bool.and_eq_true_iff.1 hvirtual).2
  rwa [hunambiguous.interfaceMethod?_eq hn] at h

omit hunambiguous

include hcapped hc

/-- What an array class selects is its own, or its superclass declares it. -/
theorem selected?_of_array (harray : c.isArray = true) :
    t.selected? n d id = (t.declared? n d id).or (c.superclass.bind (t.declared? n d)) := by
  cases hown : t.declared? n d id with
  | some m => exact selected?_of_declared? ht hown
  | none =>
    obtain ⟨component, hkind⟩ : ∃ component, c.kind = .array component := by
      cases hk : c.kind with
      | array component => exact ⟨component, rfl⟩
      | _ => rw [LinkedClass.isArray, LinkedClass.component?, hk] at harray; cases harray
    have hsources : c.sources = c.superclass.toList := by rw [LinkedClass.sources, hkind]
    rw [selected?_of_class? hc, (ht id c hc).selects, ← declared?_of_class? hc, hown, hsources]
    cases hs : c.superclass with
    | none => rfl
    | some s =>
      -- nothing is above the superclass
      obtain ⟨hsuper, hinterfaces⟩ := hcapped id c hc (by simp [hkind]) s hs
      obtain ⟨e, he⟩ := (ht id c hc).sources s (by simp [hsources, hs])
      rw [superOf?_of_class? he] at hsuper
      rw [interfacesOf_of_class? he] at hinterfaces
      have habove : e.sources = [] := by
        rw [LinkedClass.sources, hsuper, hinterfaces]
        cases e.kind <;> rfl
      have hselected : t.selected? n d s = t.declared? n d s := by
        rw [selected?_of_class? he, (ht s e he).selects, habove, declared?_of_class? he]
        rfl
      simp [hselected, settle_none]

/-- What the first class of the chain declares is selected. -/
theorem selected?_of_declared_above (hi : c.isInterface = false)
    (h : (t.chain id).findSome? (t.declared? n d) = some m) : t.selected? n d id = some m := by
  cases hkind : c.kind with
  | ordinary => exact selected?_of_chain ht hc hkind h
  | interface => rw [LinkedClass.isInterface, hkind] at hi; cases hi
  | array component =>
    rw [selected?_of_array ht hcapped hc (by rw [LinkedClass.isArray, LinkedClass.component?, hkind]; rfl)]
    rw [chain, List.findSome?_cons] at h
    cases hown : t.declared? n d id with
    | some m' => rw [hown] at h; exact h
    | none =>
      rw [hown] at h
      dsimp only at h
      split at h
      · next s hs =>
        rw [superOf?_of_class? hc] at hs
        have hchain : t.chain s = [s] := by
          rw [chain_eq, (hcapped id c hc (by simp [hkind]) s hs).1]
          rfl
        rw [hchain] at h
        rw [hs, Option.none_or, Option.bind_some]
        simpa using h
      · cases h

end

end ClassTable

/-- **Lookup and selection**: whatever is asked of a registry, calls select for instances of a class what a
lookup in the class finds, except as `ClassTable.SelectsFound` says. -/
theorem selectsAllFound_after (paths : ClassPaths) (requests : List Request) :
    (Registry.after paths requests).table.SelectsAllFound := by
  have hbuilt := built_after paths requests
  have ht := hbuilt.tabled
  have hcapped := capped_after paths requests
  have hunambiguous := hbuilt.unambiguous
  generalize (Registry.after paths requests).table = t at *
  intro id c hc hi n d m hfound hvirtual
  rw [ClassTable.method?, Option.or_eq_some_iff] at hfound
  rcases hfound with hchain | ⟨hnone, hfound⟩
  · obtain ⟨hdeclared, howner⟩ := ClassTable.findSome?_declared? ht hunambiguous hvirtual hchain
    exact ⟨fun _ => ClassTable.selected?_of_declared_above ht hcapped hc hi hdeclared,
      fun h => absurd howner h, fun h => absurd howner h⟩
  · have hundeclared : t.Undeclared n d id := fun b hb => Option.eq_none_iff_forall_ne_some.2 fun m' hm' => by
      have := List.findSome?_eq_none_iff.1 hnone b hb
      rw [(hunambiguous.declared?_iff.1 hm').1] at this
      cases this
    have hforemost := ClassTable.foremost_of_interfaceMethod? hunambiguous hvirtual hfound
    have howner : ∀ i, t.declared? n d i = some m → m.owner = i := fun i hm =>
      ClassTable.owner_of_declaredMethod? ht hunambiguous (hunambiguous.declared?_iff.1 hm).1
    refine ⟨fun h => ?_, fun _ hkind hnot => ?_, fun _ harray => ?_⟩
    · obtain ⟨hfind, -⟩ := foremost_eq_some.1 hforemost
      obtain ⟨i, -, hm⟩ := List.mem_filterMap.1 (List.mem_of_find?_eq_some hfind)
      rw [← howner i hm, hundeclared _ h] at hm
      cases hm
    · obtain ⟨hm, hcomes, hall⟩ := ClassTable.comesUpon_of_foremost hforemost howner hnot
      rw [ClassTable.selected?_iff ht hcapped hm hc hkind hundeclared hcomes hall]
      simp only [Option.mem_def, Option.bind_eq_some_iff, forall_exists_index, and_imp,
        ← Method.rivals_eq_false]
      refine ⟨fun h s hs m' hm' => ?_, fun h m' s hs hm' hrivals => ?_⟩
      · cases hrivals : m.rivals m' with
        | true => exact .inl (h m' s hs hm' hrivals)
        | false => exact .inr rfl
      · exact (h s hs m' hm').resolve_right (by simp [hrivals])
    · rw [ClassTable.selected?_of_array ht hcapped hc harray, hundeclared id (ClassTable.mem_chain_self id),
        Option.none_or, Option.bind_eq_none_iff]
      exact fun s hs => hundeclared s (ClassTable.mem_chain.2 (.inr
        ⟨s, (ClassTable.superOf?_of_class? hc).trans hs, ClassTable.mem_chain_self s⟩))

/-! ### A superinterface listed again

`D` extends the class `C` of `Diamond`, whose method `m` is that of `I`, and implements `J`, which extends `I`
and has a method `m` of its own. -/

namespace Relisted

open ClassFile

/-- The class file of `D`. -/
def dBytes : List UInt8 :=
  [0xCA, 0xFE, 0xBA, 0xBE, 0, 0, 0, 52, 0, 7,
   1, 0, 1, 68, 7, 0, 1, 1, 0, 1, 67, 7, 0, 3, 1, 0, 1, 74, 7, 0, 5,
   0, 0x21, 0, 2, 0, 4, 0, 1, 0, 6, 0, 0, 0, 0, 0, 0]

/-- The class paths. -/
def paths : ClassPaths where
  boot := .ofFiles [("java/lang/Object", Diamond.objectBytes), ("I", Diamond.iBytes),
    ("J", Diamond.jBytes), ("C", Diamond.cBytes), ("D", dBytes)]
  app := .empty

/-- The classes are loaded one after the other. -/
def requests : List Request := Diamond.requests ++ [.load .boot "D"]

def dFile : ClassFile :=
  Diamond.file #[.unusable, .utf8 "D", .classRef 1, .utf8 "C", .classRef 3, .utf8 "J", .classRef 5]
    0x21 4 [6] []

theorem parse_dBytes : parse dBytes = .ok dFile := by rfl

def d : LinkedClass :=
  Diamond.linked "D" .ordinary (some 3) [2] [] (Diamond.single (Diamond.m 1 "I")) dFile

theorem linkedClass_d :
    linkedClass 4 .boot "D" dFile (some (3, Diamond.c)) [(2, Diamond.j)] = .ok (d, #[]) := by
  decide +kernel

theorem holds_after :
    (Registry.after paths requests).Holds [Diamond.object, Diamond.i, Diamond.j, Diamond.c, d] := by
  have h₁ : (Request.apply paths .empty (.load .boot "java/lang/Object")).Holds [Diamond.object] :=
    holds_apply_load holds_empty (by decide) (by decide) rfl Diamond.parse_objectBytes rfl rfl
      (fun _ => rfl) (fun s hs => by cases hs) rfl (fun p hp => by cases hp) Diamond.linkedClass_object
      rfl (by decide)
  have h₂ := Diamond.holds_apply paths h₁ (by decide) (by decide) rfl Diamond.parse_iBytes rfl rfl rfl
    (fun p hp => by cases hp) Diamond.linkedClass_i rfl (by decide)
  have h₃ := Diamond.holds_apply paths h₂ (by decide) (by decide) rfl Diamond.parse_jBytes rfl rfl rfl
    (by simp [Diamond.i, Diamond.linked, LinkedClass.isInterface]) Diamond.linkedClass_j rfl (by decide)
  have h₄ := Diamond.holds_apply paths h₃ (by decide) (by decide) rfl Diamond.parse_cBytes rfl rfl rfl
    (by simp [Diamond.i, Diamond.j, Diamond.linked, LinkedClass.isInterface]) Diamond.linkedClass_c rfl
    (by decide)
  have hsuper : dFile.superName = .ok ((some ((3 : ClassId), Diamond.c)).map (·.2.name)) := rfl
  refine holds_apply_load h₄ (by decide) (by decide) rfl parse_dBytes rfl hsuper (fun h => by cases h)
    (fun s hs => ?_) rfl (by simp [Diamond.j, Diamond.linked, LinkedClass.isInterface]) linkedClass_d rfl
    (by decide)
  cases hs
  exact ⟨rfl, rfl⟩

/-- A lookup in `D` goes through `J` before `I`. -/
theorem method?_d : (Registry.after paths requests).table.method? 4 "m" "()V" = some (Diamond.m 2 "J") := by
  have hclass := holds_after.class?
  generalize (Registry.after paths requests).table = t at hclass ⊢
  have hsupers : t.superOf? 4 = some 3 ∧ t.superOf? 3 = some 0 ∧ t.superOf? 2 = some 0 ∧
      t.superOf? 1 = some 0 ∧ t.superOf? 0 = none := by
    simp only [ClassTable.superOf?, hclass]
    exact ⟨rfl, rfl, rfl, rfl, rfl⟩
  have hinterfaces : t.interfacesOf 4 = [2] ∧ t.interfacesOf 3 = [1, 2] ∧ t.interfacesOf 2 = [1] ∧
      t.interfacesOf 1 = [] ∧ t.interfacesOf 0 = [] := by
    simp only [ClassTable.interfacesOf, hclass]
    exact ⟨rfl, rfl, rfl, rfl, rfl⟩
  obtain ⟨h₄, h₃, h₂, h₁, h₀⟩ := hsupers
  obtain ⟨i₄, i₃, i₂, i₁, i₀⟩ := hinterfaces
  have hchain : t.chain 4 = [4, 3, 0] := by
    simp only [ClassTable.chain_eq, h₄, h₃, h₀, Option.map_some, Option.map_none, Option.getD_some,
      Option.getD_none]
  have hinterfaces : t.allInterfaces 4 = [2, 1] := by
    have a₀ : ∀ found, t.addInterfaces found 0 = found := fun found => by
      rw [ClassTable.addInterfaces_eq, i₀, h₀]; rfl
    have a₁ : ∀ found, t.addInterfaces found 1 = found := fun found => by
      rw [ClassTable.addInterfaces_eq, i₁, h₁]; exact a₀ found
    have a₂ : t.addInterfaces [2] 2 = [2, 1] := by
      rw [ClassTable.addInterfaces_eq, i₂, h₂]; simp [a₀, a₁]
    have a₃ : t.addInterfaces [2, 1] 3 = [2, 1] := by
      rw [ClassTable.addInterfaces_eq, i₃, h₃]; simp [a₀]
    rw [ClassTable.allInterfaces, ClassTable.addInterfaces_eq, i₄, h₄]
    simp [a₂, a₃]
  rw [ClassTable.method?, hchain, ClassTable.interfaceMethod?, hinterfaces]
  simp only [List.findSome?_cons, List.filterMap_cons, ClassTable.declaredMethod?, hclass]
  rfl

end Relisted

/-- Whether calls select whatever lookups find. -/
def ClassTable.FindsSelected (t : ClassTable) : Prop :=
  ∀ id c, t.class? id = some c → c.isInterface = false → ∀ n d m, t.method? id n d = some m →
    m.isVirtual = true → t.selected? n d id = some m

/-- **A superinterface listed again**: a lookup of `m` in `D` finds the method of `J`, and a call selects
that of `I`, which `C` has already selected. -/
theorem not_findsSelected_after : ¬ (Registry.after Relisted.paths Relisted.requests).table.FindsSelected := by
  intro h
  have hclass := Relisted.holds_after.class?
  have hselected := h 4 Relisted.d (hclass 4) rfl _ _ _ Relisted.method?_d rfl
  rw [ClassTable.selected?_of_class? (hclass 4)] at hselected
  exact absurd hselected (by decide)

end Jvm.Linking
