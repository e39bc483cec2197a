import Mathlib
import Jvm.Linking.Resolution
import Jvm.Proofs.Linking.Computations
import Jvm.Proofs.Linking.FieldLayout
import Jvm.Proofs.Linking.Hierarchy

/-! # How class tables come about

`ClassTable.Links` says which classes are entered into a table: those linked from a class file with classes
of the table above them, and array classes. A table is `Built` if it comes about this way. `built_after`:
whatever is asked of a registry, its class table is built, so that what every entered class keeps holds of
all classes there ever are. -/

namespace Jvm.Linking

open ClassFile Assembly

/-! ## Built tables -/

/-- An array class with elements of a component type. -/
def arrayClass (loader : Loader) (name : String) (component : Component)
    (object cloneable serializable : ClassId) (methods : MethodTable) : LinkedClass where
  name := name
  loader := loader
  access := arrayAccess
  kind := .array component
  superclass := some object
  interfaces := [cloneable, serializable]
  fields := []
  template := #[]
  methods := []
  methodTable := methods
  pool := ⟨#[]⟩
  source := none

namespace ClassTable

/-- Which classes are entered into a table. -/
inductive Links (t : ClassTable) : LinkedClass → Prop
  | file {loader : Loader} {name : String} {bytes : List UInt8} {file : ClassFile}
      {superclass : Option (ClassId × LinkedClass)} {interfaces : List (ClassId × LinkedClass)}
      {c : LinkedClass} {statics : Array Value} (hparse : ClassFile.parse bytes = .ok file)
      (hname : file.name = .ok name)
      (hsuper : ∀ s ∈ superclass, t.class? s.1 = some s.2 ∧
        ∃ superName, checkSuperclass name superName file.access.isInterface s.2 = .ok ())
      (hinterfaces : ∀ i ∈ interfaces, t.class? i.1 = some i.2 ∧ i.2.isInterface = true)
      (hlinked : linkedClass t.size loader name file superclass interfaces = .ok (c, statics)) :
      Links t c
  | array {loader : Loader} {name : String} {component : Component}
      {object cloneable serializable : ClassId} {o : LinkedClass} (hobject : t.class? object = some o) :
      Links t (arrayClass loader name component object cloneable serializable o.methodTable)

/-- The tables that linking makes. -/
inductive Built : ClassTable → Prop
  | empty : Built .empty
  | push {t : ClassTable} {c : LinkedClass} (ht : Built t) (hc : t.Links c)
      (known : ∀ p ∈ c.parents, p < t.size) : Built (t.push c known)

/-- What holds for every class when it is entered, and lasts, holds for all classes of a built table. -/
theorem Built.forall {P : ClassTable → ClassId → LinkedClass → Prop}
    (hmono : ∀ t t' id c, t.Within t' → P t id c → P t' id c)
    (henter : ∀ t c known, t.Built → (∀ id d, t.class? id = some d → P t id d) → t.Links c →
      P (t.push c known) t.size c)
    {t : ClassTable} (ht : t.Built) : ∀ id c, t.class? id = some c → P t id c := by
  induction ht with
  | empty =>
    intro id c hc
    simp [class?, ClassTable.empty] at hc
  | @push t c ht hc known ih =>
    intro id d hd
    rw [class?_push] at hd
    split_ifs at hd with hid
    · cases hd
      subst hid
      exact henter t c known ht ih hc
    · exact hmono t _ id d (within_push known) (ih id d hd)

end ClassTable

/-! ## Requests build tables -/

/-- One change of a registry while classes are loaded. -/
inductive Registry.Links (r : Registry) : Registry → Prop
  -- A class is entered; array classes need no initialization, and the static fields have the values
  -- that they start with.
  | entered {c : LinkedClass} (hc : r.table.Links c) (known : ∀ p ∈ c.parents, p < r.table.size)
    {init : InitState} (hinit : init = if c.isArray then .initialized else .linked)
    {statics : Array Value}
    (hstatics : c.staticFields.map (Field.initialValue c.pool) = statics.toList.map .ok) : r.Links { r with
      table := r.table.push c known
      states := r.states.push (.start init statics c.pool.size) }
  | recorded (loaded : Std.HashMap Key (Except Fault ClassId)) : r.Links { r with loaded }

/-- How a registry changes while classes are loaded. -/
def Registry.LinksTo : Registry → Registry → Prop := Relation.ReflTransGen Registry.Links

/-- How a registry changes whatever is asked of it: its table gets more classes, and stays built. -/
structure Registry.BuildsOn (r r' : Registry) : Prop where
  table : r.table.Within r'.table
  built : r.table.Built → r'.table.Built

namespace Registry

variable {r r₁ r₂ : Registry}

theorem LinksTo.refl (r : Registry) : r.LinksTo r := Relation.ReflTransGen.refl

theorem LinksTo.trans (h₁ : r.LinksTo r₁) (h₂ : r₁.LinksTo r₂) : r.LinksTo r₂ :=
  Relation.ReflTransGen.trans h₁ h₂

theorem Links.linksTo (h : r.Links r₁) : r.LinksTo r₁ := Relation.ReflTransGen.single h

instance : IsTrans Registry LinksTo := ⟨fun _ _ _ => LinksTo.trans⟩

theorem buildsOn_of_table_eq (h : r₁.table = r₂.table) : r₁.BuildsOn r₂ :=
  ⟨h ▸ .refl _, fun hb => h ▸ hb⟩

theorem BuildsOn.refl (r : Registry) : r.BuildsOn r := buildsOn_of_table_eq rfl

theorem BuildsOn.trans (h₁ : r.BuildsOn r₁) (h₂ : r₁.BuildsOn r₂) : r.BuildsOn r₂ :=
  ⟨h₁.table.trans h₂.table, fun hb => h₂.built (h₁.built hb)⟩

instance : IsTrans Registry BuildsOn := ⟨fun _ _ _ => BuildsOn.trans⟩

theorem Links.buildsOn (h : r.Links r₁) : r.BuildsOn r₁ := by
  cases h with
  | entered hc known => exact ⟨ClassTable.within_push known, fun hb => .push hb hc known⟩
  | recorded loaded => exact buildsOn_of_table_eq rfl

theorem LinksTo.buildsOn (h : r.LinksTo r₁) : r.BuildsOn r₁ := by
  induction h with
  | refl => exact .refl r
  | tail _ hlast ih => exact ih.trans hlast.buildsOn

end Registry

section

variable {α : Type} {r : Registry} {load : String → Linker ClassId} {loader : Loader}

open Registry (LinksTo)

/-- A computation that links classes, whatever it comes to. -/
abbrev Linker.Builds (x : Linker α) (r : Registry) : Prop := Linker.Meets LinksTo x (fun _ _ => True) r

theorem builds_publish {c : LinkedClass} (hc : r.table.Links c) {init : InitState}
    (hinit : init = if c.isArray then .initialized else .linked) {statics : Array Value}
    (hstatics : c.staticFields.map (Field.initialValue c.pool) = statics.toList.map .ok) :
    Linker.Builds (Linker.publish c init statics) r := by
  rcases Linker.publish_cases c init statics r with ⟨known, h⟩ | ⟨e, h⟩
  · exact Linker.meets_of_ok h (Registry.Links.entered hc known hinit hstatics).linksTo trivial
  · exact Linker.meets_of_error h (.refl r)

theorem meets_linkSuperclass_builds (hload : ∀ n r, Linker.Builds (load n) r) (name : String)
    (c : ClassFile) :
    Linker.Meets LinksTo (linkSuperclass load name c) (fun s r' => ∀ id ∈ s, ∃ d superName,
      r'.table.class? id = some d ∧ checkSuperclass name superName c.access.isInterface d = .ok ())
      r := by
  refine (Linker.meets_ofExcept (.refl r) _).bind ?_
  rintro superName _ - ⟨rfl, -⟩
  cases superName with
  | some superName =>
    refine (hload superName _).bind fun id r₁ h₁ _ => ?_
    refine (Linker.meets_getClass (.refl r₁) id).bind ?_
    rintro d _ - ⟨rfl, hd⟩
    refine (Linker.meets_ofExcept (.refl _) _).bind ?_
    rintro ⟨⟩ _ - ⟨rfl, hcheck⟩
    refine Linker.meets_pure (.refl _) ?_
    rintro _ ⟨⟩
    exact ⟨d, superName, hd, hcheck⟩
  | none =>
    exact Linker.meets_ite (fun _ => Linker.meets_pure (.refl _) fun id hid => by cases hid)
      fun _ => Linker.meets_throw (.refl _) _

theorem meets_linkInterface_builds (hload : ∀ n r, Linker.Builds (load n) r) (name n : String) :
    Linker.Meets LinksTo (linkInterface load name n)
      (fun id r' => ∃ d, r'.table.class? id = some d ∧ d.isInterface = true) r := by
  refine (hload n r).bind fun id r₁ h₁ _ => ?_
  refine (Linker.meets_getClass (.refl r₁) id).bind ?_
  rintro d _ - ⟨rfl, hd⟩
  refine Linker.meets_ite (fun _ => Linker.meets_throw (.refl _) _) fun hi => ?_
  exact Linker.meets_pure (.refl _) ⟨d, hd, by simpa using hi⟩

theorem isArray_of_linkedClass {self : ClassId} {name : String} {c : ClassFile}
    {superclass : Option (ClassId × LinkedClass)} {interfaces : List (ClassId × LinkedClass)}
    {linked : LinkedClass} {statics : Array Value}
    (h : linkedClass self loader name c superclass interfaces = .ok (linked, statics)) :
    linked.isArray = false := by
  unfold linkedClass at h
  cases hfields : layOutFields c.pool ((superclass.map (·.2.template)).getD #[]) c.fields with
  | error e => simp [hfields, bind, Except.bind] at h
  | ok fields =>
    cases hverified : c.methods.mapM (verifyMethod c.pool name c.access.isInterface) with
    | error e => simp [hfields, hverified, bind, Except.bind] at h
    | ok verified =>
      simp only [hfields, hverified, bind, Except.bind, pure, Except.pure] at h
      split at h
      · cases h
      · cases h
        unfold LinkedClass.isArray LinkedClass.component?
        split
        · next hkind => split at hkind <;> cases hkind
        · rfl

/-- The classes that a class file is linked over are there, and fit. -/
theorem meets_linkAbove_builds (hload : ∀ n r, Linker.Builds (load n) r) (name : String)
    (c : ClassFile) :
    Linker.Meets LinksTo (linkAbove load name c) (fun above r' =>
      (∀ s ∈ above.1, r'.table.class? s.1 = some s.2 ∧
        ∃ superName, checkSuperclass name superName c.access.isInterface s.2 = .ok ()) ∧
      ∀ i ∈ above.2, r'.table.class? i.1 = some i.2 ∧ i.2.isInterface = true) r := by
  refine (meets_linkSuperclass_builds hload name c).bind fun s r₁ h₁ hs => ?_
  refine (Linker.meets_ofExcept (.refl r₁) _).bind ?_
  rintro interfaceNames _ - ⟨rfl, -⟩
  refine (Linker.meets_mapM (fun id r r' h hid => ?_) (fun _ _ _ => .refl _) interfaceNames (.refl _)
    fun n _ r _ => meets_linkInterface_builds hload name n).bind fun is r₂ h₂ his => ?_
  · obtain ⟨d, hd, hi⟩ := hid
    exact ⟨d, h.buildsOn.table id d hd, hi⟩
  refine (Linker.meets_mapM_numbered (.refl r₂) s).bind ?_
  rintro superclass _ - ⟨rfl, rfl, hsuper⟩
  have hlasts : ∀ (p : ClassId × LinkedClass) (r r' : Registry), r.LinksTo r' →
      r.table.class? p.1 = some p.2 ∧ p.2.isInterface = true →
      r'.table.class? p.1 = some p.2 ∧ p.2.isInterface = true :=
    fun p r r' h hp => ⟨h.buildsOn.table _ _ hp.1, hp.2⟩
  refine (Linker.meets_mapM hlasts (fun _ _ _ => .refl _) is (.refl _) fun id hid r' h' => ?_).bind
    fun interfaces r₃ h₃ hinterfaces => ?_
  · refine (Linker.meets_numbered (.refl r') id).mono ?_
    rintro p _ - ⟨rfl, rfl, hp⟩
    obtain ⟨d, hd, hi⟩ := his p.1 hid
    obtain rfl := Option.some.inj (hp.symm.trans (h'.buildsOn.table _ _ hd))
    exact ⟨hp, hi⟩
  refine Linker.meets_pure (.refl r₃) ⟨fun p hp => ?_, hinterfaces⟩
  obtain ⟨d, superName, hd, hcheck⟩ := hs p.1 (by simpa using ⟨p.2, hp⟩)
  obtain rfl := Option.some.inj ((hsuper p hp).symm.trans (h₂.buildsOn.table _ _ hd))
  exact ⟨h₃.buildsOn.table _ _ (hsuper p hp), superName, hcheck⟩

/-- Linking a class file enters a class linked from it. -/
theorem builds_link (hload : ∀ n r, Linker.Builds (load n) r) {bytes : List UInt8} {c : ClassFile}
    (hparse : ClassFile.parse bytes = .ok c) (expected : String) :
    Linker.Builds (link load loader expected c) r := by
  cases hname : c.name with
  | error e =>
    rw [link, hname]
    exact Linker.meets_throw (.refl r) e
  | ok name =>
    by_cases hexpected : name = expected
    · subst hexpected
      rw [link_eq hname]
      refine (meets_linkAbove_builds hload name c).bind fun above r₁ _ habove => ?_
      refine (Linker.meets_get (.refl r₁)).bind ?_
      rintro _ _ - ⟨rfl, rfl⟩
      refine (Linker.meets_ofExcept (.refl _) _).bind ?_
      rintro ⟨linked, statics⟩ _ - ⟨rfl, hlinked⟩
      have hinit : InitState.linked = if linked.isArray then .initialized else .linked := by
        rw [isArray_of_linkedClass hlinked]; rfl
      obtain ⟨-, -, hstatics⟩ := laidOut_of_linkedClass hlinked
      exact builds_publish (.file hparse hname habove.1 habove.2 hlinked) hinit hstatics
    · have hwrong : link load loader expected c =
          throw (.classNotFound (expected ++ " (wrong name: " ++ name ++ ")")) := by
        rw [link, hname, show (Linker.ofExcept (.ok name) : Linker String) = pure name from rfl,
          pure_bind, if_pos (by simpa using hexpected)]
        rfl
      rw [hwrong]
      exact Linker.meets_throw (.refl r) _

theorem builds_linkArray (name : String) (component : Component)
    (object cloneable serializable : ClassId) :
    Linker.Builds (linkArray loader name component object cloneable serializable) r := by
  refine (Linker.meets_getClass (.refl r) object).bind ?_
  rintro o _ - ⟨rfl, ho⟩
  exact builds_publish (.array ho) rfl rfl

end

/-- A computation whose outcome is noted somewhere. -/
theorem Linker.Meets.noting {α : Type} {T : Registry → Registry → Prop} [IsTrans Registry T]
    {x : Linker α} {Q : α → Registry → Prop} {r : Registry}
    (note : Except Fault α → Registry → Registry) (hrefl : ∀ r, T r r) (hx : Linker.Meets T x Q r)
    (hnote : ∀ outcome r, (∀ a, outcome = .ok a → Q a r) → T r (note outcome r))
    (hlasts : ∀ outcome a r, Q a r → Q a (note outcome r)) :
    Linker.Meets T (do
      let outcome ← Linker.attempt x
      modify (note outcome)
      Linker.ofExcept outcome) Q r := by
  have hattempt : Linker.Meets T (Linker.attempt x)
      (fun outcome r' => ∀ a, outcome = .ok a → Q a r') r := by
    rcases h : x r with ⟨a, r'⟩ | ⟨e, r'⟩
    · refine Linker.meets_of_ok (by rw [Linker.attempt, h]) (hx.of_eq_ok h).1 ?_
      rintro _ ⟨⟩
      exact (hx.of_eq_ok h).2
    · exact Linker.meets_of_ok (by rw [Linker.attempt, h]) (hx.of_eq_error h) fun a ha => by cases ha
  refine hattempt.bind fun outcome r₁ _ hQ => ?_
  have hmodify : Linker.Meets T (modify (note outcome))
      (fun _ r' => ∀ a, outcome = .ok a → Q a r') r₁ :=
    Linker.meets_of_ok rfl (hnote outcome r₁ hQ) fun a ha => hlasts outcome a r₁ (hQ a ha)
  refine hmodify.bind fun _ r₂ _ hQ => (Linker.meets_ofExcept (hrefl r₂) outcome).mono ?_
  rintro a _ - ⟨rfl, ha⟩
  exact hQ a ha

mutual

/-- Every request for a class only enters classes that are linked. -/
theorem builds_load (paths : ClassPaths) (stack : List Key) (loader : Loader) (name : String)
    (r : Registry) : Linker.Builds (load paths stack loader name) r := by
  cases loader with
  | boot =>
    rw [load]
    exact builds_define paths stack .boot name r
  | app =>
    rw [load]
    refine (builds_define paths stack .boot name r).tryCatch fun e r₁ _ h => ?_
    split
    · exact builds_define paths stack .app name r₁
    · exact Linker.meets_throw (.refl r₁) _
termination_by (paths.idle stack, weight name, loadRank loader)
decreasing_by
  all_goals exact lex_of_le (Nat.le_refl _) (.right _ (by simp [loadRank, defineRank]))

theorem builds_define (paths : ClassPaths) (stack : List Key) (loader : Loader) (name : String)
    (r : Registry) : Linker.Builds (define paths stack loader name) r := by
  rw [define]
  refine (Linker.meets_get (.refl r)).bind ?_
  rintro _ _ - ⟨rfl, rfl⟩
  split
  · exact (Linker.meets_ofExcept (.refl _) _).mono fun _ _ _ _ => trivial
  by_cases hfresh : (loader, name) ∈ stack
  · rw [dif_pos hfresh]
    exact Linker.meets_throw (.refl _) _
  rw [dif_neg hfresh]
  refine Linker.Meets.noting _ .refl ?_ (fun _ _ _ => (Registry.Links.recorded _).linksTo)
    fun _ _ _ => id
  by_cases harray : isArrayName name = true
  · rw [dif_pos harray]
    have hcore := fun n (hn : isArrayName n = false) =>
      builds_load paths ((loader, name) :: stack) .boot n
    -- behind the component type the array class is linked or looked up
    have hlink : ∀ (component : Component ⊕ ClassId) (r : Registry), Linker.Builds (do
        match component with
        | .inr id => return id
        | .inl component =>
          let object ← load paths ((loader, name) :: stack) .boot objectName
          let cloneable ← load paths ((loader, name) :: stack) .boot CoreClasses.cloneableName
          let serializable ← load paths ((loader, name) :: stack) .boot CoreClasses.serializableName
          linkArray loader name component object cloneable serializable) r := by
      intro component r
      cases component with
      | inr id => exact Linker.meets_pure (.refl r) trivial
      | inl component =>
        refine (hcore objectName (by decide) r).bind fun o r₁ _ _ => ?_
        refine (hcore CoreClasses.cloneableName (by decide) r₁).bind fun i r₂ _ _ => ?_
        refine (hcore CoreClasses.serializableName (by decide) r₂).bind fun j r₃ _ _ => ?_
        exact builds_linkArray name component o i j
    have happ : loader = .app → ∀ r, Linker.Builds
        (Sum.inr <$> load paths ((loader, name) :: stack) .boot name : Linker (Component ⊕ ClassId)) r :=
      fun happ r => (builds_load paths ((loader, name) :: stack) .boot name r).map fun _ _ _ => trivial
    dsimp only
    split
    · exact Linker.meets_throw (.refl _) _
    · cases loader with
      | boot => exact hlink (.inl _) _
      | app => exact (happ rfl _).bind fun component r₁ _ _ => hlink component r₁
    · next element helement =>
      refine (builds_load paths ((loader, name) :: stack) loader element _).bind fun e r₁ _ _ => ?_
      refine (Linker.meets_getClass (.refl r₁) e).bind ?_
      rintro d _ - ⟨rfl, -⟩
      split
      · exact (happ rfl _).bind fun component r₂ _ _ => hlink component r₂
      · exact hlink (.inl _) _
  · rw [dif_neg harray]
    split
    · exact Linker.meets_throw (.refl _) _
    · exact Linker.meets_throw (.refl _) _
    · next bytes hbytes =>
      refine (Linker.meets_ofExcept (.refl _) _).bind ?_
      rintro c _ - ⟨rfl, hparse⟩
      exact builds_link (fun n r => builds_load paths ((loader, name) :: stack) loader n r) hparse name
termination_by (paths.idle stack, weight name, defineRank loader)
decreasing_by
  · exact lex_of_le (paths.idle_cons_le _ _)
      (.left _ _ (by rw [weight_eq_zero hn]; exact weight_pos harray))
  · subst happ
    exact lex_of_le (paths.idle_cons_le _ _) (.right _ (by simp [loadRank, defineRank]))
  · exact lex_of_le (paths.idle_cons_le _ _) (.left _ _ (weight_lt_of_elementName? (by assumption)))
  · exact .left _ _ (ClassPaths.idle_cons_lt hfresh (by assumption))

end

/-! ## Resolving references -/

/-- The state of a class with other references resolved. -/
def ClassState.Resolved (s s' : ClassState) : Prop :=
  s' = { s with classRefs := s'.classRefs, fieldRefs := s'.fieldRefs, methodRefs := s'.methodRefs }

/-- Whether a method is a declared method of a class of a table. -/
def ClassTable.Declares (t : ClassTable) (m : Method) : Prop :=
  ∃ id c, t.class? id = some c ∧ m ∈ c.methods

namespace ClassTable

variable {t t' : ClassTable} {id : ClassId} {n d : String} {m : Method}

theorem Declares.mono (h : t.Within t') (hm : t.Declares m) : t'.Declares m := by
  obtain ⟨id, c, hc, hmem⟩ := hm
  exact ⟨id, c, h id c hc, hmem⟩

theorem declares_of_declaredMethod? (h : t.declaredMethod? id n d = some m) : t.Declares m := by
  obtain ⟨c, hc, hm⟩ := Option.bind_eq_some_iff.1 h
  exact ⟨id, c, hc, List.mem_of_find?_eq_some hm⟩

theorem declares_of_interfaceMethod? (h : t.interfaceMethod? id n d = some m) : t.Declares m := by
  have hmem : m ∈ (t.allInterfaces id).filterMap fun i =>
      (t.declaredMethod? i n d).filter fun m => !m.isStatic && !m.isPrivate := by
    rcases Option.or_eq_some_iff.1 h with h | ⟨-, h⟩
    · exact List.mem_of_find?_eq_some h
    · exact List.mem_of_mem_head? h
  obtain ⟨i, -, hi⟩ := List.mem_filterMap.1 hmem
  exact declares_of_declaredMethod? (Option.filter_eq_some_iff.1 hi).1

theorem declares_of_method? (h : t.method? id n d = some m) : t.Declares m := by
  rcases Option.or_eq_some_iff.1 h with h | ⟨-, h⟩
  · obtain ⟨_, c, _, -, hm, -⟩ := List.findSome?_eq_some_iff.1 h
    exact declares_of_declaredMethod? hm
  · exact declares_of_interfaceMethod? h

end ClassTable

/-! ### Fields -/

namespace ClassTable

variable {t t' : ClassTable} {id : ClassId} {n d : String} {f : ResolvedField}

/-- Whether a field is a declared field of a class of a table. -/
def DeclaresField (t : ClassTable) (f : ResolvedField) : Prop :=
  ∃ c g, t.class? f.owner = some c ∧ g ∈ c.fields ∧ f = ⟨f.owner, g.slot, g.isStatic, g.type⟩

theorem DeclaresField.mono (h : t.Within t') (hf : t.DeclaresField f) : t'.DeclaresField f := by
  obtain ⟨c, g, hc, hmem⟩ := hf
  exact ⟨c, g, h _ c hc, hmem⟩

theorem field?_eq (t : ClassTable) (id : ClassId) (n d : String) : t.field? id n d =
    (t.declaredField? id n d).or (((t.interfacesOf id).findSome? (t.field? · n d)).or
      ((t.superOf? id).bind (t.field? · n d))) := by
  have hinterfaces : ((t.interfacesOf id).attach.findSome? fun i => t.field? i.1 n d) =
      (t.interfacesOf id).findSome? (t.field? · n d) := by
    rw [List.findSome?_subtype (g := (t.field? · n d)) fun _ _ => rfl, List.unattach_attach]
  rw [field?]
  refine congrArg₂ Option.or rfl (congrArg₂ Option.or hinterfaces ?_)
  split
  · next s hs => rw [hs, Option.bind_some]
  · next hs => rw [hs, Option.bind_none]

/-- A field that is found is a declared field of a class above. -/
theorem exists_of_field? (h : t.field? id n d = some f) :
    t.Above id f.owner ∧ t.declaredField? f.owner n d = some f := by
  induction id using Nat.strongRecOn with
  | ind id ih =>
    rw [field?_eq] at h
    rcases Option.or_eq_some_iff.1 h with h | ⟨-, h⟩
    · have howner : f.owner = id := by
        unfold declaredField? at h
        obtain ⟨c, -, h⟩ := Option.bind_eq_some_iff.1 h
        obtain ⟨g, -, h⟩ := Option.bind_eq_some_iff.1 h
        cases h
        rfl
      rw [howner]
      exact ⟨.refl, h⟩
    · rcases Option.or_eq_some_iff.1 h with h | ⟨-, h⟩
      · obtain ⟨_, i, _, heq, hi, -⟩ := List.findSome?_eq_some_iff.1 h
        have hmem : i ∈ t.interfacesOf id := by
          rw [heq]
          exact List.mem_append_right _ List.mem_cons_self
        obtain ⟨habove, hdeclared⟩ := ih i (interfacesOf_lt hmem) hi
        exact ⟨.head (.inr hmem) habove, hdeclared⟩
      · obtain ⟨s, hs, hfield⟩ := Option.bind_eq_some_iff.1 h
        obtain ⟨habove, hdeclared⟩ := ih s (superOf?_lt hs) hfield
        exact ⟨.head (.inl hs) habove, hdeclared⟩

theorem exists_of_declaredField? (h : t.declaredField? id n d = some f) :
    ∃ c g, t.class? id = some c ∧ g ∈ c.fields ∧ g.name = n ∧ g.descriptor = d ∧
      f = ⟨id, g.slot, g.isStatic, g.type⟩ := by
  unfold declaredField? at h
  obtain ⟨c, hc, h⟩ := Option.bind_eq_some_iff.1 h
  obtain ⟨g, hg, h⟩ := Option.bind_eq_some_iff.1 h
  have hsignature := List.find?_some hg
  rw [Bool.and_eq_true, beq_iff_eq, beq_iff_eq] at hsignature
  cases h
  exact ⟨c, g, hc, List.mem_of_find?_eq_some hg, hsignature.1, hsignature.2, rfl⟩

theorem declaresField_of_field? (h : t.field? id n d = some f) : t.DeclaresField f := by
  obtain ⟨c, g, hc, hg, -, -, hf⟩ := exists_of_declaredField? (exists_of_field? h).2
  exact ⟨c, g, hc, hg, hf⟩

end ClassTable

/-! ### What is known about references -/

/-- A relation of registries that loading keeps to, and so does what is known about references. -/
structure Linker.Admits (paths : ClassPaths) (T : Registry → Registry → Prop) : Prop where
  refl : ∀ r, T r r
  load : ∀ loader name r, Linker.Meets T (loadClass paths loader name) (fun _ _ => True) r
  resolved : ∀ (r : Registry) (id : ClassId) (change : ClassState → ClassState),
    (∀ s : ClassState, s.Resolved (change s)) →
    (∀ (s : ClassState) (index : UInt16) m, (change s).methodRefs.find? index = some (.ok m) →
      s.methodRefs.find? index = some (.ok m) ∨ r.table.Declares m) →
    (∀ (s : ClassState) (index : UInt16) f, (change s).fieldRefs.find? index = some (.ok f) →
      s.fieldRefs.find? index = some (.ok f) ∨ r.table.DeclaresField f) → T r (r.modifyState id change)

theorem find?_empty {α : Type} (n : Nat) (index : UInt16) :
    (Cache.empty n : Cache α).find? index = none := by
  unfold Cache.find? Cache.empty
  rw [Array.getElem?_replicate]
  split <;> rfl

theorem find?_record {α : Type} {known : Cache α} {index i : UInt16} {a b : α}
    (h : (known.record index a).find? i = some b) : known.find? i = some b ∨ i = index ∧ b = a := by
  unfold Cache.find? Cache.record at h
  rw [Array.getElem?_modify] at h
  split at h
  · next heq =>
    rcases hold : known[i.toNat]? with _ | _ | old
    · rw [hold] at h; cases h
    · rw [hold] at h; cases h; exact .inr ⟨(UInt16.toNat_inj.1 heq).symm, rfl⟩
    · rw [hold] at h; cases h; exact .inl (by rw [Cache.find?, hold]; rfl)
  · exact .inl h

namespace Linker.Admits

variable {paths : ClassPaths} {T : Registry → Registry → Prop} [IsTrans Registry T]
  (hT : Linker.Admits paths T) {r : Registry}

include hT

theorem findClass (c : LinkedClass) (index : UInt16) :
    Linker.Meets T (Resolution.findClass paths c index) (fun _ _ => True) r := by
  refine (Linker.meets_ofExcept (hT.refl r) _).bind ?_
  rintro name _ - ⟨rfl, -⟩
  exact hT.load c.loader name _

theorem findField (c : LinkedClass) (index : UInt16) :
    Linker.Meets T (Resolution.findField paths c index) (fun f r' => r'.table.DeclaresField f) r := by
  refine (Linker.meets_ofExcept (hT.refl r) _).bind ?_
  rintro m _ - ⟨rfl, -⟩
  refine (hT.load c.loader m.owner _).bind fun id r₁ _ _ => ?_
  refine (Linker.meets_get (hT.refl r₁)).bind ?_
  rintro _ _ - ⟨rfl, rfl⟩
  split
  · next f hf => exact Linker.meets_pure (hT.refl _) (ClassTable.declaresField_of_field? hf)
  · exact Linker.meets_throw (hT.refl _) _

theorem findInterfaceMethod (id : ClassId) (n d : String) :
    Linker.Meets T (Resolution.findInterfaceMethod paths id n d)
      (fun o r' => ∀ m ∈ o, r'.table.Declares m) r := by
  refine (Linker.meets_get (hT.refl r)).bind ?_
  rintro _ _ - ⟨rfl, rfl⟩
  split
  · next m hm =>
    refine Linker.meets_pure (hT.refl _) ?_
    rintro _ ⟨⟩
    exact ClassTable.declares_of_declaredMethod? hm
  · refine (hT.load .boot objectName _).bind fun object r₁ _ _ => ?_
    refine (Linker.meets_get (hT.refl r₁)).bind ?_
    rintro _ _ - ⟨rfl, rfl⟩
    refine Linker.meets_pure (hT.refl _) fun m hm => ?_
    rcases Option.or_eq_some_iff.1 hm with hm | ⟨-, hm⟩
    · exact ClassTable.declares_of_declaredMethod? (Option.filter_eq_some_iff.1 hm).1
    · exact ClassTable.declares_of_interfaceMethod? hm

theorem findMethodIn (id : ClassId) (inInterface : Bool) (m : Member) :
    Linker.Meets T (Resolution.findMethodIn paths id inInterface m)
      (fun o r' => ∀ m ∈ o, r'.table.Declares m) r := by
  refine (Linker.meets_getClass (hT.refl r) id).bind ?_
  rintro c _ - ⟨rfl, -⟩
  split
  · exact Linker.meets_throw (hT.refl _) _
  · exact Linker.meets_throw (hT.refl _) _
  · exact hT.findInterfaceMethod id m.name m.descriptor
  · refine (Linker.meets_get (hT.refl _)).bind ?_
    rintro _ _ - ⟨rfl, rfl⟩
    exact Linker.meets_pure (hT.refl _) fun m hm => ClassTable.declares_of_method? hm

theorem findMethod (c : LinkedClass) (index : UInt16) :
    Linker.Meets T (Resolution.findMethod paths c index) (fun m r' => r'.table.Declares m) r := by
  refine (Linker.meets_ofExcept (hT.refl r) _).bind ?_
  rintro constant _ - ⟨rfl, -⟩
  refine (Linker.meets_ofExcept (hT.refl _) _).bind ?_
  rintro m _ - ⟨rfl, -⟩
  refine (hT.load c.loader m.owner _).bind fun id r₁ _ _ => ?_
  refine (hT.findMethodIn id _ m).bind fun method r₂ _ hmethod => ?_
  split
  · exact Linker.meets_pure (hT.refl r₂) (hmethod _ rfl)
  · exact Linker.meets_throw (hT.refl r₂) _

/-- What is known about a reference, or what looking it up comes to. -/
theorem remembered {α : Type} {p : Resolution.Place α} {source : ClassId} {index : UInt16}
    {find : LinkedClass → Linker α} {Q : α → ClassTable → Prop}
    (hplace : ∀ f (s : ClassState), s.Resolved (p.modify f s))
    (hmethods : ∀ outcome (r : Registry), (∀ a, outcome = .ok a → Q a r.table) →
      ∀ (s : ClassState) (i : UInt16) m, (p.modify (·.record index outcome) s).methodRefs.find? i = some (.ok m) →
        s.methodRefs.find? i = some (.ok m) ∨ r.table.Declares m)
    (hfields : ∀ outcome (r : Registry), (∀ a, outcome = .ok a → Q a r.table) →
      ∀ (s : ClassState) (i : UInt16) f, (p.modify (·.record index outcome) s).fieldRefs.find? i = some (.ok f) →
        s.fieldRefs.find? i = some (.ok f) ∨ r.table.DeclaresField f)
    (hfind : ∀ c (r : Registry), Linker.Meets T (find c) (fun a r' => Q a r'.table) r) :
    Linker.Meets T (Resolution.remembered p source index do find (← Linker.getClass source))
      (fun a r' => Q a r'.table ∨
        ∃ s, r.state? source = some s ∧ (p.get s).find? index = some (.ok a)) r := by
  refine (Linker.meets_get (hT.refl r)).bind ?_
  rintro _ r - ⟨rfl, rfl⟩
  split
  · next result hknown =>
    obtain ⟨s, hs, hresult⟩ := Option.bind_eq_some_iff.1 hknown
    refine (Linker.meets_ofExcept (hT.refl _) _).mono ?_
    rintro a _ - ⟨rfl, rfl⟩
    exact .inr ⟨s, hs, hresult⟩
  · have hlookUp : Linker.Meets T (do find (← Linker.getClass source))
        (fun a r' => Q a r'.table) r := by
      refine (Linker.meets_getClass (hT.refl r) source).bind ?_
      rintro c _ - ⟨rfl, -⟩
      exact hfind c _
    refine (hlookUp.noting (fun outcome r =>
      r.modifyState source (p.modify (·.record index outcome))) hT.refl (fun outcome r hQ => ?_)
      fun _ _ _ => id).mono fun _ _ _ h => .inl h
    exact hT.resolved r source _ (hplace _) (hmethods outcome r hQ) (hfields outcome r hQ)

theorem resolveClass (source : ClassId) (index : UInt16) :
    Linker.Meets T (Linking.resolveClass paths source index) (fun _ _ => True) r :=
  (hT.remembered (p := Resolution.classes) (Q := fun _ _ => True) (fun _ _ => rfl)
    (fun _ _ _ _ _ _ h => .inl h) (fun _ _ _ _ _ _ h => .inl h)
    fun c _ => hT.findClass c index).mono fun _ _ _ _ => trivial

/-- A field reference leads to a declared field, or to what is known about it. -/
theorem resolveField (source : ClassId) (index : UInt16) :
    Linker.Meets T (Linking.resolveField paths source index) (fun f r' => r'.table.DeclaresField f ∨
      ∃ s, r.state? source = some s ∧ s.fieldRefs.find? index = some (.ok f)) r := by
  refine hT.remembered (p := Resolution.fields) (Q := fun f t => t.DeclaresField f) (fun _ _ => rfl)
    (fun _ _ _ _ _ _ h => .inl h) (fun outcome r hQ s i f hf => ?_) fun c _ => hT.findField c index
  exact (find?_record hf).imp_right fun heq => hQ f heq.2.symm

/-- A method reference leads to a declared method, or to what is known about it. -/
theorem resolveMethod (source : ClassId) (index : UInt16) :
    Linker.Meets T (Linking.resolveMethod paths source index) (fun m r' => r'.table.Declares m ∨
      ∃ s, r.state? source = some s ∧ s.methodRefs.find? index = some (.ok m)) r := by
  refine hT.remembered (p := Resolution.methods) (Q := fun m t => t.Declares m) (fun _ _ => rfl)
    (fun outcome r hQ s i m hm => ?_) (fun _ _ _ _ _ _ h => .inl h) fun c _ => hT.findMethod c index
  exact (find?_record hm).imp_right fun heq => hQ m heq.2.symm

theorem arrayClassOf (component : ClassId) :
    Linker.Meets T (Linking.arrayClassOf paths component) (fun _ _ => True) r := by
  refine (Linker.meets_getClass (hT.refl r) component).bind ?_
  rintro c _ - ⟨rfl, -⟩
  exact hT.load c.loader (arrayNameOf c) _

end Linker.Admits

/-! ## What is asked of a registry -/

/-- What a program asks of a registry, and what it changes about the classes there. -/
inductive Request where
  | load (loader : Loader) (name : String)
  | resolveClass (source : ClassId) (index : UInt16)
  | resolveField (source : ClassId) (index : UInt16)
  | resolveMethod (source : ClassId) (index : UInt16)
  | arrayClassOf (component : ClassId)
  | primitiveArrayClass (element : Primitive)
  | update (id : ClassId) (change : ClassState → ClassState)
  | intern (text : String) (object : Ref)
  | teardown (held : List ClassId)

/-- The registry that a computation leads to, whatever it comes to. -/
def Linker.leads {α : Type} (x : Linker α) (r : Registry) : Registry :=
  match x r with
  | .ok _ r' => r'
  | .error _ r' => r'

/-- The registry after a request. -/
def Request.apply (paths : ClassPaths) (r : Registry) : Request → Registry
  | load loader name => (loadClass paths loader name).leads r
  | resolveClass source index => (Linking.resolveClass paths source index).leads r
  | resolveField source index => (Linking.resolveField paths source index).leads r
  | resolveMethod source index => (Linking.resolveMethod paths source index).leads r
  | arrayClassOf component => (Linking.arrayClassOf paths component).leads r
  | primitiveArrayClass element => (Linking.primitiveArrayClass paths element).leads r
  | update id change => r.modifyState id change
  | intern text object => r.intern text object
  | teardown held => r.teardown held

/-- The registry after some requests, from one without classes. -/
def Registry.after (paths : ClassPaths) (requests : List Request) : Registry :=
  requests.foldl (Request.apply paths) .empty

/-- Whatever is asked of a registry builds on its table. -/
theorem admits_buildsOn (paths : ClassPaths) : Linker.Admits paths Registry.BuildsOn where
  refl := .refl
  load loader name r := by
    have hload := builds_load paths [] loader name r
    rcases h : loadClass paths loader name r with ⟨id, r'⟩ | ⟨e, r'⟩
    · exact Linker.meets_of_ok h (hload.of_eq_ok h).1.buildsOn trivial
    · exact Linker.meets_of_error h (hload.of_eq_error h).buildsOn
  resolved _ _ _ _ _ _ := Registry.buildsOn_of_table_eq rfl

theorem Linker.Meets.leads {α : Type} {T : Registry → Registry → Prop} {x : Linker α}
    {Q : α → Registry → Prop} {r : Registry} (h : Linker.Meets T x Q r) : T r (x.leads r) := by
  rw [Linker.leads]
  rcases hx : x r with ⟨a, r'⟩ | ⟨e, r'⟩
  · exact (h.of_eq_ok hx).1
  · exact h.of_eq_error hx

theorem Linker.meets_of_leads {α : Type} {T : Registry → Registry → Prop} {x : Linker α} {r : Registry}
    (h : T r (x.leads r)) : Linker.Meets T x (fun _ _ => True) r := by
  rw [Linker.leads] at h
  rcases hx : x r with ⟨a, r'⟩ | ⟨e, r'⟩ <;> rw [hx] at h
  · exact Linker.meets_of_ok hx h trivial
  · exact Linker.meets_of_error hx h

/-- A request keeps to a relation that loading keeps to, if other changes do. -/
theorem Linker.Admits.apply {paths : ClassPaths} {T : Registry → Registry → Prop} [IsTrans Registry T]
    (hT : Linker.Admits paths T) {r : Registry} {q : Request}
    (hupdate : ∀ id change, q = .update id change → T r (r.modifyState id change))
    (hintern : ∀ text object, T r (r.intern text object))
    (hteardown : ∀ held, q = .teardown held → T r (r.teardown held)) : T r (q.apply paths r) := by
  cases q with
  | load loader name => exact (hT.load loader name r).leads
  | resolveClass source index => exact (hT.resolveClass source index).leads
  | resolveField source index => exact (hT.resolveField source index).leads
  | resolveMethod source index => exact (hT.resolveMethod source index).leads
  | arrayClassOf component => exact (hT.arrayClassOf component).leads
  | primitiveArrayClass element => exact (hT.load .boot _ r).leads
  | update id change => exact hupdate id change rfl
  | intern text object => exact hintern text object
  | teardown held => exact hteardown held rfl

/-- What each of some requests keeps to holds from before them to after them. -/
theorem Registry.keeps_after {paths : ClassPaths} {T : Registry → Registry → Prop} [IsTrans Registry T]
    (hrefl : ∀ r, T r r) {requests : List Request} (h : ∀ q ∈ requests, ∀ r, T r (q.apply paths r)) :
    T .empty (Registry.after paths requests) := by
  have hfold : ∀ r, T r (requests.foldl (Request.apply paths) r) := by
    induction requests with
    | nil => exact hrefl
    | cons q rest ih =>
      intro r
      exact IsTrans.trans _ _ _ (h q List.mem_cons_self r) (ih (fun q hq => h q (List.mem_cons_of_mem _ hq)) _)
  exact hfold .empty

theorem buildsOn_apply (paths : ClassPaths) (r : Registry) (q : Request) : r.BuildsOn (q.apply paths r) :=
  (admits_buildsOn paths).apply (fun _ _ _ => Registry.buildsOn_of_table_eq rfl)
    (fun _ _ => Registry.buildsOn_of_table_eq rfl) fun _ _ => Registry.buildsOn_of_table_eq rfl

/-- **All classes of a registry have been linked**, whatever has been asked of it. -/
theorem built_after (paths : ClassPaths) (requests : List Request) :
    (Registry.after paths requests).table.Built := by
  have hbuilds : Registry.BuildsOn .empty (Registry.after paths requests) :=
    Registry.keeps_after .refl fun q _ r => buildsOn_apply paths r q
  exact hbuilds.built .empty

end Jvm.Linking
