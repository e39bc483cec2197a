import Mathlib
import Jvm.Proofs.Linking.Following

/-! # Loading in any order

Every request for a class follows what the class paths give for its name. So it comes to the same whatever was
asked for before, and a failure that was recorded while other classes were being loaded fails no class that
would have loaded otherwise. -/

namespace Jvm.Linking

open ClassFile Assembly Verification

variable {paths : ClassPaths} {stack : List Key} {r r' : Registry} {loader : Loader} {name : String}

/-- Whether a well-formed registry has a class that is numbered by names. -/
def Found (v : LinkedClass) (id : ClassId) (r : Registry) : Prop := r.WellFormed ∧ r.Shows v id

/-! ## Linking a class file -/

section

variable {load : String → Linker ClassId} {asked : String → Nat → Glimpse LinkedClass}
  (hload : ∀ n r, r.WellFormed → r.Faithful paths → Pending paths stack (asked n) →
    Linker.Follows paths stack (asked n) Found (load n) r)

include hload

theorem follows_linkSuperclass (hr : r.WellFormed) (hf : r.Faithful paths) (c : ClassFile)
    (hpending : Pending paths stack fun n => superclassOf (asked · n) name c) :
    Linker.Follows paths stack (fun n => superclassOf (asked · n) name c)
      (fun v s r' => r'.WellFormed ∧ Option.Rel (r'.Shows · ·) v s) (linkSuperclass load name c) r := by
  unfold superclassOf at hpending ⊢
  refine Linker.Follows.bind hpending (fun _ => Linker.follows_ofExcept hf _) ?_
  rintro superName _ _ - ⟨rfl, rfl, -⟩ hpending
  cases superName with
  | some superName =>
    refine Linker.Follows.bind hpending (hload superName _ hr hf) ?_
    rintro v id r₁ h₁ ⟨hr₁, hv⟩ hpending
    obtain ⟨s, hs, rfl⟩ := hv
    refine Linker.follows_reading (getClass_of_class? hs) ?_
    rw [LinkedClass.checkSuperclass_renumber] at hpending ⊢
    refine Linker.Follows.bind hpending (fun _ => Linker.follows_ofExcept h₁.faithful _) ?_
    rintro _ _ _ - ⟨rfl, rfl, -⟩ -
    exact Linker.follows_pure h₁.faithful ⟨hr₁, .some ⟨s, hs, rfl⟩⟩
  | none =>
    refine Linker.follows_ite hpending (fun _ _ => ?_) fun _ _ => ?_
    · exact Linker.follows_pure hf ⟨hr, .none⟩
    · exact Linker.follows_throw hf _

theorem follows_linkInterface (hr : r.WellFormed) (hf : r.Faithful paths) (name n : String)
    (hpending : Pending paths stack fun k => interfaceOf (asked · k) name n) :
    Linker.Follows paths stack (fun k => interfaceOf (asked · k) name n)
      (fun v id r' => r'.WellFormed ∧ r'.Shows v id) (linkInterface load name n) r := by
  unfold interfaceOf at hpending ⊢
  refine Linker.Follows.bind hpending (hload n r hr hf) ?_
  rintro v id r₁ h₁ ⟨hr₁, hv⟩ hpending
  obtain ⟨s, hs, rfl⟩ := hv
  refine Linker.follows_reading (getClass_of_class? hs) ?_
  simp only [LinkedClass.isInterface_renumber] at hpending ⊢
  refine Linker.follows_ite hpending (fun _ _ => ?_) fun _ _ => ?_
  · exact Linker.follows_throw h₁.faithful _
  · exact Linker.follows_pure h₁.faithful ⟨hr₁, ⟨s, hs, rfl⟩⟩

end

/-! ## Entering a class -/

/-- A class that is entered is shown with the numbers by names. -/
theorem follows_publish (stack : List Key) {c : LinkedClass} (init : InitState) (statics : Array Value)
    (hr : r.WellFormed) (hf : r.Faithful paths) (known : ∀ p ∈ c.parents, p < r.table.size) :
    Linker.Follows paths stack (fun _ => pure (c.renumber (r.canonicalNext c.key)))
      (fun v id r' => r'.Shows v id) (Linker.publish c init statics) r := by
  have hwithin : r.table.Within (r.table.push c known) := ClassTable.within_push known
  refine Linker.follows_of_ok (Linker.publish_of_known init statics known)
    ⟨hwithin, ⟨fun key id h => ?_, hf.failed⟩, fun _ _ => rfl⟩ (yields_const rfl) ⟨c, ?_, ?_⟩
  · obtain ⟨w, hw, hshows⟩ := hf.found key id h
    exact ⟨w, hw, hshows.mono hr hwithin⟩
  · rw [ClassTable.class?_push, if_pos rfl]
  · rw [Registry.canonicalOf_push known rfl]

/-- A class of a registry, and the class that is shown of it. -/
theorem numberedByName_of_class? {key : Key} {id : ClassId} {c : LinkedClass} (hr : r.WellFormed)
    (hc : r.table.class? id = some c) : numberedByName (c.renumber r.canonicalOf) =
      (r.canonicalNext key id, c.renumber (r.canonicalNext key)) := by
  rw [← hr.renumber_canonicalNext key hc, Registry.canonicalNext_of_class? hc, Registry.canonicalOf_of_class? hc]
  rfl

/-- Classes that are shown, with their numbers. -/
theorem map_numberedByName (key : Key) (hr : r.WellFormed) {vs : List LinkedClass} {ids : List ClassId}
    (h : List.Forall₂ r.Shows vs ids) : ∃ ps : List (ClassId × LinkedClass), ps.map (·.1) = ids ∧
      (∀ p ∈ ps, r.table.class? p.1 = some p.2) ∧ vs.map numberedByName =
        ps.map fun p => (r.canonicalNext key p.1, p.2.renumber (r.canonicalNext key)) := by
  induction h with
  | nil => exact ⟨[], rfl, by simp, rfl⟩
  | @cons v id vs ids hv _ ih =>
    obtain ⟨c, hc, rfl⟩ := hv
    obtain ⟨ps, hids, hps, hmap⟩ := ih
    refine ⟨(id, c) :: ps, by rw [List.map_cons, hids], ?_, ?_⟩
    · intro p hp
      rcases List.mem_cons.1 hp with rfl | hp
      exacts [hc, hps p hp]
    · rw [List.map_cons, List.map_cons, hmap, numberedByName_of_class? hr hc]

theorem map_numberedByName_option (key : Key) (hr : r.WellFormed) {v : Option LinkedClass} {s : Option ClassId}
    (h : Option.Rel r.Shows v s) : ∃ o : Option (ClassId × LinkedClass), o.map (·.1) = s ∧
      (∀ p ∈ o, r.table.class? p.1 = some p.2) ∧ v.map numberedByName =
        o.map fun p => (r.canonicalNext key p.1, p.2.renumber (r.canonicalNext key)) := by
  cases h with
  | none => exact ⟨none, rfl, by simp, rfl⟩
  | @some v id hv =>
    obtain ⟨c, hc, rfl⟩ := hv
    refine ⟨some (id, c), rfl, fun p hp => ?_, ?_⟩
    · cases hp
      exact hc
    · rw [Option.map_some, Option.map_some, numberedByName_of_class? hr hc]

/-- A class linked from a class file is of the given name, and its parents are the given classes. -/
theorem parents_of_linkedClass {self : ClassId} {c : ClassFile} {superclass : Option (ClassId × LinkedClass)}
    {interfaces : List (ClassId × LinkedClass)} {linked : LinkedClass} {statics : Array Value}
    (h : linkedClass self loader name c superclass interfaces = .ok (linked, statics)) :
    linked.key = (loader, name) ∧
      ∀ p ∈ linked.parents, (∃ s ∈ superclass, s.1 = p) ∨ ∃ i ∈ interfaces, i.1 = p := by
  unfold linkedClass at h
  obtain ⟨fields, -, h⟩ := exists_of_bind h
  obtain ⟨verified, -, h⟩ := exists_of_bind h
  obtain ⟨methods, -, h⟩ := exists_of_bind h
  cases h
  refine ⟨rfl, fun p hp => ?_⟩
  cases hi : c.access.isInterface <;>
    simpa [LinkedClass.parents, hi] using hp

/-- A class file is linked to the class that it gives with the numbers by names. -/
theorem follows_linkedClass {superclass : Option (ClassId × LinkedClass)}
    {interfaces : List (ClassId × LinkedClass)} {f : ClassId → ClassId} (hr : r.WellFormed)
    (hf : r.Faithful paths) (hnew : r.loaded[(loader, name)]? = none)
    (hsuper : ∀ s ∈ superclass, r.table.class? s.1 = some s.2)
    (hinterfaces : ∀ i ∈ interfaces, r.table.class? i.1 = some i.2) (c : ClassFile)
    (hnumbers : f = r.canonicalNext (loader, name)) :
    Linker.Follows paths stack
      (fun _ => do
        let (linked, _) ← Glimpse.ofExcept (linkedClass (canonicalId (loader, name)) loader name c
          (superclass.map fun p => (f p.1, p.2.renumber f)) (interfaces.map fun p => (f p.1, p.2.renumber f)))
        return linked)
      (fun v id r' => r'.Shows v id)
      (do
        let (linked, statics) ← Linker.ofExcept (linkedClass r.table.size loader name c superclass interfaces)
        Linker.publish linked .linked statics) r := by
  have hinjective := Registry.canonicalNext_injective hr.linked hnew
  rw [← Registry.canonicalNext_size (r := r), ← hnumbers, linkedClass_renumber (hnumbers ▸ hinjective)]
  cases h : linkedClass r.table.size loader name c superclass interfaces with
  | error e => exact Linker.follows_of_error rfl (.refl hf) (.inl (yields_const rfl))
  | ok p =>
    obtain ⟨hkey, hparents⟩ := parents_of_linkedClass h
    have known : ∀ i ∈ p.1.parents, i < r.table.size := fun i hi => by
      rcases hparents i hi with ⟨s, hs, rfl⟩ | ⟨s, hs, rfl⟩
      exacts [ClassTable.lt_of_class? (hsuper s hs), ClassTable.lt_of_class? (hinterfaces s hs)]
    have hpublish := follows_publish stack .linked p.2 hr hf known
    rw [hkey, ← hnumbers] at hpublish
    exact hpublish

/-- Linking a class file follows what the class paths give for its name. -/
theorem follows_link {load : String → Linker ClassId} {asked : String → Nat → Glimpse LinkedClass}
    (hload : ∀ n r, r.WellFormed → r.Faithful paths → Pending paths stack (asked n) →
      Linker.Follows paths stack (asked n) Found (load n) r)
    (hr : r.WellFormed) (hf : r.Faithful paths) (hkey : (loader, name) ∈ stack)
    (hnew : r.loaded[(loader, name)]? = none) (c : ClassFile)
    (hpending : Pending paths stack fun n => classOfFile (asked · n) loader name c) :
    Linker.Follows paths stack (fun n => classOfFile (asked · n) loader name c)
      (fun v id r' => r'.Shows v id) (link load loader name c) r := by
  unfold classOfFile at hpending ⊢
  unfold link
  refine Linker.Follows.bind hpending (fun _ => Linker.follows_ofExcept hf _) ?_
  rintro given _ _ - ⟨rfl, rfl, -⟩ hpending
  by_cases hgiven : given = name
  case neg =>
    have hdiffers : (given != name) = true := by simpa using hgiven
    simp only [hdiffers, if_true]
    exact Linker.follows_throw hf _
  subst hgiven
  simp only [bne_self_eq_false, Bool.false_eq_true, if_false] at hpending ⊢
  refine Linker.Follows.bind hpending (follows_linkSuperclass hload hr hf c) ?_
  rintro superclass s r₁ h₁ ⟨hr₁, hsuper⟩ hpending
  refine Linker.Follows.bind hpending (fun _ => Linker.follows_ofExcept h₁.faithful _) ?_
  rintro interfaceNames _ _ - ⟨rfl, rfl, -⟩ hpending
  have hinterface := fun n r hr hf hpending =>
    follows_linkInterface hload (r := r) hr hf given n hpending
  refine Linker.Follows.bind hpending (fun hpending => Linker.follows_mapM
    (fun v id r r' hr h hv => hv.mono hr h.table) interfaceNames hr₁ h₁.faithful hpending
    fun n _ r => hinterface n r) ?_
  rintro interfaces ids r₂ h₂ ⟨hr₂, hinterfaces⟩ -
  have hsuper₂ : Option.Rel r₂.Shows superclass s := by
    cases hsuper with
    | none => exact .none
    | some hv => exact .some (hv.mono hr₁ h₂.table)
  obtain ⟨superclass, rfl, hsuper, hmap⟩ := map_numberedByName_option (loader, given) hr₂ hsuper₂
  obtain ⟨interfaces, rfl, hinterfaces, hmap'⟩ := map_numberedByName (loader, given) hr₂ hinterfaces
  rw [hmap, hmap']
  refine Linker.follows_reading (mapM_numbered_option hsuper) ?_
  refine Linker.follows_reading (mapM_numbered hinterfaces) ?_
  refine Linker.follows_reading (get_eq r₂) ?_
  refine follows_linkedClass hr₂ h₂.faithful ?_ hsuper hinterfaces c rfl
  rw [h₂.untouched _ hkey, h₁.untouched _ hkey, hnew]

/-! ## Array classes -/

/-- A component type has the number of a class that there is. -/
theorem renumber_component {key : Key} {component : Component} (h : r.table.Within r'.table)
    (hcomponent : ∀ e, component = .reference e → ∃ d, r.table.class? e = some d) :
    component.renumber r.canonicalOf = component.renumber (r'.canonicalNext key) := by
  cases component with
  | primitive type => rfl
  | reference e =>
    obtain ⟨d, hd⟩ := hcomponent e rfl
    rw [Component.renumber, Component.renumber, Registry.canonicalNext_of_class? (h e d hd),
      Registry.canonicalOf_of_within h hd]

/-- Linking an array class follows what the class paths give for its name. -/
theorem follows_linkArray {load : String → Linker ClassId} {asked : String → Nat → Glimpse LinkedClass}
    (hload : ∀ n, isArrayName n = false → ∀ r, r.WellFormed → r.Faithful paths →
      Pending paths stack (asked n) → Linker.Follows paths stack (asked n) Found (load n) r)
    (hr : r.WellFormed) (hf : r.Faithful paths) (component : Component)
    (hcomponent : ∀ e, component = .reference e → ∃ d, r.table.class? e = some d)
    (hpending : Pending paths stack fun n =>
      arrayClassBy (asked · n) loader name (component.renumber r.canonicalOf)) :
    Linker.Follows paths stack
      (fun n => arrayClassBy (asked · n) loader name (component.renumber r.canonicalOf))
      (fun v id r' => r'.Shows v id)
      (do
        let object ← load objectName
        let cloneable ← load CoreClasses.cloneableName
        let serializable ← load CoreClasses.serializableName
        linkArray loader name component object cloneable serializable) r := by
  unfold arrayClassBy at hpending ⊢
  refine Linker.Follows.bind hpending (hload objectName (by decide) r hr hf) ?_
  rintro v o r₁ h₁ ⟨hr₁, hv⟩ hpending
  refine Linker.Follows.bind hpending (hload CoreClasses.cloneableName (by decide) r₁ hr₁ h₁.faithful) ?_
  rintro w i r₂ h₂ ⟨hr₂, hw⟩ hpending
  refine Linker.Follows.bind hpending (hload CoreClasses.serializableName (by decide) r₂ hr₂ h₂.faithful) ?_
  rintro _ j r₃ h₃ ⟨hr₃, d, hd, rfl⟩ -
  obtain ⟨object, hobject, rfl⟩ := hv.mono hr₁ (h₂.table.trans h₃.table)
  obtain ⟨cloneable, hcloneable, rfl⟩ := hw.mono hr₂ h₃.table
  have hwithin := (h₁.table.trans h₂.table).trans h₃.table
  have known : ∀ p ∈ (arrayClass loader name component o i j object.methodTable).parents, p < r₃.table.size := by
    intro p hp
    simp only [arrayClass, LinkedClass.parents, List.mem_append, List.mem_cons, List.not_mem_nil,
      or_false, Option.toList_some] at hp
    rcases hp with (rfl | rfl | rfl) | hp
    · exact ClassTable.lt_of_class? hobject
    · exact ClassTable.lt_of_class? hcloneable
    · exact ClassTable.lt_of_class? hd
    · cases component with
      | primitive type => cases hp
      | reference e =>
        obtain ⟨c, hc⟩ := hcomponent e rfl
        obtain rfl : p = e := by simpa using hp
        exact ClassTable.lt_of_class? (hwithin p c hc)
  refine Linker.follows_reading (getClass_of_class? hobject) ?_
  have hpublish := follows_publish stack .initialized #[] hr₃ h₃.faithful known
  have hnumbers : ∀ {id c}, r₃.table.class? id = some c →
      r₃.canonicalNext (loader, name) id = canonicalId c.key := fun hc => by
    rw [Registry.canonicalNext_of_class? hc, Registry.canonicalOf_of_class? hc]
  have hmethods := congrArg (·.methodTable) (hr₃.renumber_canonicalNext (loader, name) hobject)
  have hclass : (arrayClass loader name component o i j object.methodTable).renumber
        (r₃.canonicalNext (loader, name)) =
      arrayClass loader name (component.renumber r.canonicalOf) (canonicalId object.key)
        (canonicalId cloneable.key) (canonicalId d.key)
        (object.renumber r₃.canonicalOf).methodTable := by
    rw [hmethods, renumber_component hwithin hcomponent, ← hnumbers hobject, ← hnumbers hcloneable, ← hnumbers hd]
    rfl
  rw [show (arrayClass loader name component o i j object.methodTable).key = (loader, name) from rfl,
    hclass] at hpublish
  exact hpublish

/-! ## Recording -/

theorem answer_succ (n : Nat) (key : Key) : answer paths (n + 1) key = defined paths (answer paths n) key := rfl

/-- What the class paths give for a name is what they come to one step further down. -/
theorem Yields.answer {key : Key} {v : Except Fault LinkedClass}
    (h : Yields (fun n => defined paths (answer paths n) key) v) : Yields (answer paths · key) v := by
  obtain ⟨n, hn⟩ := h.seen
  refine ⟨⟨n + 1, fun m hm => ?_⟩, fun m => ?_⟩
  · obtain ⟨m, rfl⟩ := Nat.exists_eq_add_of_lt (Nat.lt_of_succ_le hm)
    exact hn _ (by omega)
  · cases m with
    | zero => exact .inl rfl
    | succ m => exact h.only m

/-- The classes of the stack and the class itself wait for what is one step further down. -/
theorem Pending.define {key : Key} (h : Pending paths stack (answer paths · key)) :
    Pending paths (key :: stack) fun n => defined paths (answer paths n) key := by
  intro y hy n hn
  rcases List.mem_cons.1 hy with rfl | hy
  · exact ⟨n, le_rfl, hn⟩
  · obtain ⟨m, hm, hseen⟩ := h y hy n hn
    cases m with
    | zero => cases hseen
    | succ m => exact ⟨m, Nat.le_of_succ_le hm, hseen⟩

/-- A class that is seen only where a class is seen that waits for it is not seen. -/
theorem Hopeless.stuck {key : Key} (hpending : Pending paths stack (answer paths · key))
    (h : Hopeless paths (key :: stack) fun n => defined paths (answer paths n) key) : Stuck paths key := by
  intro n
  induction n using Nat.strong_induction_on with
  | _ n ih =>
    by_contra hne
    have hsome := Option.isSome_iff_ne_none.2 hne
    cases n with
    | zero => cases hsome
    | succ n =>
      obtain ⟨y, hy, m, hm, hseen⟩ := h n hsome
      rcases List.mem_cons.1 hy with rfl | hy
      · rw [ih m (by omega)] at hseen
        cases hseen
      · cases m with
        | zero => cases hseen
        | succ m =>
          obtain ⟨k, hk, hseen⟩ := hpending y hy m hseen
          rw [ih k (by omega)] at hseen
          cases hseen

theorem Stuck.fails {key : Key} {e : Fault} (hcircular : ∃ name, e = .classCircularity name)
    (h : Stuck paths key) : Fails paths stack (answer paths · key) e :=
  .inr ⟨hcircular, fun n hn => by rw [h n] at hn; cases hn⟩

theorem Registry.Faithful.remember {key : Key} {outcome : Except Fault ClassId} (hr : r.Faithful paths)
    (hfound : ∀ id, outcome = .ok id → ∃ v, Yields (answer paths · key) (.ok v) ∧ r.Shows v id)
    (hfailed : ∀ e, outcome = .error e → Yields (answer paths · key) (.error e) ∨
      (∃ name, e = .classCircularity name) ∧ Stuck paths key) : (r.remember key outcome).Faithful paths where
  found k id h := by
    rw [Registry.loaded_remember] at h
    split at h
    · next heq => exact heq ▸ hfound id (Option.some.inj h)
    · exact hr.found k id h
  failed k e h := by
    rw [Registry.loaded_remember] at h
    split at h
    · next heq => exact heq ▸ hfailed e (Option.some.inj h)
    · exact hr.failed k e h

/-- The outcome of a definition is recorded. -/
theorem Linker.Follows.recorded {key : Key} {x : Linker ClassId} (hkey : key ∉ stack)
    (hpending : Pending paths stack (answer paths · key))
    (hx : Linker.Follows paths (key :: stack) (fun n => defined paths (answer paths n) key)
      (fun v id r' => r'.Shows v id) x r) :
    Linker.Follows paths stack (answer paths · key) (fun v id r' => r'.Shows v id) (Linker.recorded key x) r := by
  have hproceeds {r₁ : Registry} {outcome : Except Fault ClassId} (h : r.Proceeds paths (key :: stack) r₁)
      (hf : (r₁.remember key outcome).Faithful paths) : r.Proceeds paths stack (r₁.remember key outcome) := by
    refine ⟨h.table, hf, fun k hk => ?_⟩
    rw [Registry.loaded_remember, if_neg (by rintro rfl; exact hkey hk)]
    exact h.untouched k (List.mem_cons_of_mem _ hk)
  rcases h : x r with ⟨id, r₁⟩ | ⟨e, r₁⟩
  · obtain ⟨h₁, v, hv, hshows⟩ := hx.of_eq_ok h
    refine follows_of_ok (Linker.recorded_of_ok h) (hproceeds h₁ (h₁.faithful.remember ?_ ?_)) hv.answer hshows
    · rintro _ ⟨⟩
      exact ⟨v, hv.answer, hshows⟩
    · rintro _ ⟨⟩
  · obtain ⟨h₁, hfails⟩ := hx.of_eq_error h
    have hfails : Yields (answer paths · key) (.error e) ∨
        (∃ name, e = .classCircularity name) ∧ Stuck paths key :=
      hfails.imp Yields.answer fun h => ⟨h.1, h.2.stuck hpending⟩
    refine follows_of_error (Linker.recorded_of_error h) (hproceeds h₁ (h₁.faithful.remember ?_ ?_)) ?_
    · rintro _ ⟨⟩
    · rintro _ ⟨⟩
      exact hfails
    · exact hfails.elim .inl fun h => h.2.fails h.1

/-! ## Requests -/

/-- A definition leaves a registry well-formed. -/
theorem wellFormed_define (hr : r.WellFormed)
    (hmissing : loader = .app → ∃ e, r.loaded[(Loader.boot, name)]? = some (.error e)) :
    Linker.Meets (fun _ r' => r'.WellFormed) (define paths stack loader name) (fun _ _ => True) r := by
  have hmeets := meets_define paths stack loader name hr.linked hmissing
  have hbuilds := builds_define paths stack loader name r
  rcases h : define paths stack loader name r with ⟨id, r'⟩ | ⟨e, r'⟩
  · exact Linker.meets_of_ok h ⟨(hmeets.of_eq_ok h).1.linked, (hbuilds.of_eq_ok h).1.buildsOn.built hr.built⟩
      trivial
  · exact Linker.meets_of_error h ⟨(hmeets.of_eq_error h).linked, (hbuilds.of_eq_error h).buildsOn.built hr.built⟩

theorem Linker.Follows.found {p : Nat → Glimpse LinkedClass} {x : Linker ClassId}
    (hx : Linker.Follows paths stack p (fun v id r' => r'.Shows v id) x r)
    (hwell : Linker.Meets (fun _ r' => r'.WellFormed) x (fun _ _ => True) r) :
    Linker.Follows paths stack p Found x r := by
  rcases h : x r with ⟨id, r'⟩ | ⟨e, r'⟩
  · obtain ⟨hproceeds, v, hv, hshows⟩ := hx.of_eq_ok h
    exact follows_of_ok h hproceeds hv ⟨(hwell.of_eq_ok h).1, hshows⟩
  · obtain ⟨hproceeds, hfails⟩ := hx.of_eq_error h
    exact follows_of_error h hproceeds hfails

/-- What is recorded is what the class paths give. -/
theorem follows_of_loaded (hf : r.Faithful paths) {key : Key} {outcome : Except Fault ClassId}
    (h : r.loaded[key]? = some outcome) : Linker.Follows paths stack (answer paths · key)
      (fun v id r' => r'.Shows v id) (Linker.ofExcept outcome) r := by
  cases outcome with
  | ok id =>
    obtain ⟨v, hv, hshows⟩ := hf.found key id h
    exact Linker.follows_of_ok rfl (.refl hf) hv hshows
  | error e =>
    exact Linker.follows_of_error rfl (.refl hf) ((hf.failed key e h).elim .inl fun h => h.2.fails h.1)

section

variable {load : Loader → String → Linker ClassId}

/-- The definition of an array class follows what the class paths give for its name. -/
theorem follows_defineBy_of_array (harray : isArrayName name = true)
    (hcore : ∀ n, isArrayName n = false → ∀ r, r.WellFormed → r.Faithful paths →
      Pending paths stack (paths.given (.boot, n)) →
        Linker.Follows paths stack (paths.given (.boot, n)) Found (load .boot n) r)
    (hboot : loader = .app → ∀ r, r.WellFormed → r.Faithful paths → Pending paths stack (paths.given (.boot, name)) →
      Linker.Follows paths stack (paths.given (.boot, name)) Found (load .boot name) r)
    (helement : ∀ element, elementName? name = some (.reference element) →
      ∀ r, r.WellFormed → r.Faithful paths → Pending paths stack (paths.given (loader, element)) →
        Linker.Follows paths stack (paths.given (loader, element)) Found (load loader element) r)
    (hr : r.WellFormed) (hf : r.Faithful paths)
    (hpending : Pending paths stack fun n => arrayOfName (answer paths n) loader name) :
    Linker.Follows paths stack (fun n => arrayOfName (answer paths n) loader name) (fun v id r' => r'.Shows v id)
      (defineBy paths load loader name) r := by
  rw [defineBy, if_pos harray]
  unfold arrayOfName at hpending ⊢
  cases hp : elementName? name with
  | none => exact Linker.follows_throw hf _
  | some element =>
    simp only [hp] at hpending ⊢
    cases element with
    | primitive type =>
      cases loader with
      | boot => exact follows_linkArray hcore hr hf (.primitive type) (by rintro _ ⟨⟩) hpending
      | app =>
        simp only [bind_map_left, bind_pure] at hpending ⊢
        exact (hboot rfl r hr hf hpending).mono fun _ _ _ _ h => h.2
    | reference element =>
      refine Linker.Follows.bind hpending (helement element hp r hr hf) ?_
      rintro _ e r₁ h₁ ⟨hr₁, d, hd, rfl⟩ hpending
      refine Linker.follows_reading (getClass_of_class? hd) ?_
      have hown (hpending : Pending paths stack fun n => arrayClassBy (requested (answer paths n) .boot) loader
          name (.renumber r₁.canonicalOf (.reference e))) :=
        follows_linkArray hcore hr₁ h₁.faithful (.reference e) (by rintro _ ⟨⟩; exact ⟨d, hd⟩) hpending
      rw [Component.renumber, Registry.canonicalOf_of_class? hd] at hown
      have hloader : (d.renumber r₁.canonicalOf).loader = d.loader := rfl
      have hkey : (d.renumber r₁.canonicalOf).key = d.key := rfl
      rw [hloader, hkey] at hpending ⊢
      cases hl : d.loader <;> cases loader <;> simp only [hl, bind_map_left, bind_pure, pure_bind] at hpending ⊢
      case boot.app => exact (hboot rfl r₁ hr₁ h₁.faithful hpending).mono fun _ _ _ _ h => h.2
      all_goals exact hown hpending

/-- The definition of a class file follows what the class paths give for its name. -/
theorem follows_defineBy_of_file (harray : isArrayName name = false)
    (hload : ∀ bytes, (paths.ofLoader loader).find name = .ok (some bytes) → ∀ n r, r.WellFormed →
      r.Faithful paths → Pending paths stack (paths.given (loader, n)) →
        Linker.Follows paths stack (paths.given (loader, n)) Found (load loader n) r)
    (hr : r.WellFormed) (hf : r.Faithful paths) (hkey : (loader, name) ∈ stack)
    (hnew : r.loaded[(loader, name)]? = none)
    (hpending : Pending paths stack fun n => fileOfName paths (answer paths n) loader name) :
    Linker.Follows paths stack (fun n => fileOfName paths (answer paths n) loader name)
      (fun v id r' => r'.Shows v id) (defineBy paths load loader name) r := by
  rw [defineBy, if_neg (by simp [harray])]
  unfold fileOfName at hpending ⊢
  cases hfind : (paths.ofLoader loader).find name with
  | error text => exact Linker.follows_throw hf _
  | ok found =>
    simp only [hfind] at hpending ⊢
    cases found with
    | none => exact Linker.follows_throw hf _
    | some bytes =>
      refine Linker.Follows.bind hpending (fun _ => Linker.follows_ofExcept hf _) ?_
      rintro c _ _ - ⟨rfl, rfl, -⟩ hpending
      exact follows_link (hload bytes hfind) hr hf hkey hnew c hpending

end

mutual

/-- Every request follows what the class paths give for its name. -/
theorem follows_load (paths : ClassPaths) (stack : List Key) (loader : Loader) (name : String) {r : Registry}
    (hr : r.WellFormed) (hf : r.Faithful paths) (hpending : Pending paths stack (paths.given (loader, name))) :
    Linker.Follows paths stack (paths.given (loader, name)) Found (load paths stack loader name) r := by
  cases loader with
  | boot =>
    rw [load]
    exact follows_define paths stack .boot name hr hf (fun h => by cases h) hpending
  | app =>
    rw [load]
    refine Linker.Follows.tryCatch hpending
      (follows_define paths stack .boot name hr hf fun h => by cases h) (fun _ _ => rfl)
      fun e r₁ h hproceeds hpending => ?_
    have hr₁ : r₁.WellFormed := (wellFormed_define hr fun h => by cases h).of_eq_error h
    cases e
    case classNotFound text =>
      exact follows_define paths stack .app name hr₁ hproceeds.faithful
        (fun _ => loaded_of_classNotFound h) hpending
    all_goals exact Linker.follows_throw hproceeds.faithful _
termination_by (paths.idle stack, weight name, loadRank loader)
decreasing_by
  all_goals
    subst_vars
    exact lex_of_le (Nat.le_refl _) (.right _ (by simp [loadRank, defineRank]))

theorem follows_define (paths : ClassPaths) (stack : List Key) (loader : Loader) (name : String) {r : Registry}
    (hr : r.WellFormed) (hf : r.Faithful paths)
    (hmissing : loader = .app → ∃ e, r.loaded[(Loader.boot, name)]? = some (.error e))
    (hpending : Pending paths stack (answer paths · (loader, name))) :
    Linker.Follows paths stack (answer paths · (loader, name)) Found (define paths stack loader name) r := by
  refine Linker.Follows.found ?_ (wellFormed_define hr hmissing)
  cases hnew : r.loaded[(loader, name)]? with
  | some outcome => exact (follows_of_loaded hf hnew).of_eq (define_of_recorded hnew)
  | none =>
    by_cases hfresh : (loader, name) ∈ stack
    · exact Linker.follows_of_error (define_of_mem hnew hfresh) (.refl hf)
        (.inr ⟨⟨name, rfl⟩, fun n hn => ⟨_, hfresh, n, le_rfl, hn⟩⟩)
    refine Linker.Follows.of_eq ?_ (define_of_fresh hnew hfresh)
    refine Linker.Follows.recorded hfresh hpending ?_
    have hinner := hpending.define
    by_cases harray : isArrayName name = true
    · have hdefined : ∀ ask, defined paths ask (loader, name) = arrayOfName ask loader name := fun ask =>
        if_pos harray
      simp only [hdefined] at hinner ⊢
      exact follows_defineBy_of_array harray
        (fun n hn r hr hf hpending => follows_load paths ((loader, name) :: stack) .boot n hr hf hpending)
        (fun happ r hr hf hpending => follows_load paths ((loader, name) :: stack) .boot name hr hf hpending)
        (fun element helement r hr hf hpending =>
          follows_load paths ((loader, name) :: stack) loader element hr hf hpending) hr hf hinner
    · have hdefined : ∀ ask, defined paths ask (loader, name) = fileOfName paths ask loader name := fun ask =>
        if_neg harray
      simp only [hdefined] at hinner ⊢
      exact follows_defineBy_of_file (by simpa using harray)
        (fun bytes hfind n r hr hf hpending =>
          follows_load paths ((loader, name) :: stack) loader n hr hf hpending)
        hr hf List.mem_cons_self hnew hinner
termination_by (paths.idle stack, weight name, defineRank loader)
decreasing_by
  · exact lex_of_le (paths.idle_cons_le _ _)
      (.left _ _ (by rw [weight_eq_zero hn]; exact weight_pos harray))
  · subst happ
    exact lex_of_le (paths.idle_cons_le _ _) (.right _ (by simp [loadRank, defineRank]))
  · exact lex_of_le (paths.idle_cons_le _ _) (.left _ _ (weight_lt_of_elementName? helement))
  · exact .left _ _ (ClassPaths.idle_cons_lt hfresh hfind)

end

/-! ## Requests from outside -/

/-- Whether an outcome is the one that the class paths give for a request. -/
def ClassPaths.Settles (paths : ClassPaths) (key : Key) : Except Fault ClassId → Prop
  | .ok _ => ∃ v, Yields (paths.given key) (.ok v)
  | .error e => Yields (paths.given key) (.error e) ∨
      (∃ name, e = .classCircularity name) ∧ ∀ n, (paths.given key n).run = none

/-- What a computation comes to. -/
def Linker.outcome {α : Type} (x : Linker α) (r : Registry) : Except Fault α :=
  match x r with
  | .ok a _ => .ok a
  | .error e _ => .error e

section

variable (key : Key)

/-- Where no class is being loaded, a request comes to what the class paths give. -/
theorem settles_loadClass (hr : r.WellFormed) (hf : r.Faithful paths) :
    paths.Settles key ((loadClass paths key.1 key.2).outcome r) := by
  have hfollows := follows_load paths [] key.1 key.2 hr hf (pending_nil _)
  unfold Linker.outcome loadClass
  rcases h : load paths [] key.1 key.2 r with ⟨id, r'⟩ | ⟨e, r'⟩
  · obtain ⟨-, v, hv, -⟩ := hfollows.of_eq_ok h
    exact ⟨v, hv⟩
  · exact (hfollows.of_eq_error h).2.imp_right fun ⟨hcircular, hhopeless⟩ => ⟨hcircular, hhopeless.run_eq_none⟩

theorem faithful_leads (hr : r.WellFormed) (hf : r.Faithful paths) :
    ((loadClass paths key.1 key.2).leads r).Faithful paths := by
  have hfollows := follows_load paths [] key.1 key.2 hr hf (pending_nil _)
  unfold Linker.leads loadClass
  rcases h : load paths [] key.1 key.2 r with ⟨id, r'⟩ | ⟨e, r'⟩
  · exact (hfollows.of_eq_ok h).1.faithful
  · exact (hfollows.of_eq_error h).1.faithful

theorem wellFormed_leads (hr : r.WellFormed) : ((loadClass paths key.1 key.2).leads r).WellFormed :=
  ⟨(meets_load paths [] key.1 key.2 hr.linked).leads.linked,
    (builds_load paths [] key.1 key.2 r).leads.buildsOn.built hr.built⟩

end

/-- The registry after some requests. -/
def ClassPaths.after (paths : ClassPaths) (keys : List Key) : Registry :=
  keys.foldl (fun r key => (loadClass paths key.1 key.2).leads r) .empty

theorem wellFormed_after (paths : ClassPaths) (keys : List Key) : (paths.after keys).WellFormed :=
  List.foldlRecOn keys _ Registry.wellFormed_empty fun _ hr key _ => wellFormed_leads key hr

/-- The requests of a list with their outcomes, one after the other. -/
def ClassPaths.outcomes (paths : ClassPaths) (r : Registry) : List Key → List (Key × Except Fault ClassId)
  | [] => []
  | key :: keys => (key, (loadClass paths key.1 key.2).outcome r) ::
      paths.outcomes ((loadClass paths key.1 key.2).leads r) keys

/-- Every outcome is the one that the class paths give, whatever was requested before. -/
theorem settles_of_mem_outcomes {key : Key} {outcome : Except Fault ClassId} {keys : List Key}
    (hr : r.WellFormed) (hf : r.Faithful paths) (h : (key, outcome) ∈ paths.outcomes r keys) :
    paths.Settles key outcome := by
  induction keys generalizing r with
  | nil => cases h
  | cons k keys ih =>
    rcases List.mem_cons.1 h with h | h
    · cases h
      exact settles_loadClass key hr hf
    · exact ih (wellFormed_leads k hr) (faithful_leads k hr hf) h

/-- Whether two outcomes are both classes, or both failures of one kind. -/
def Agree : Except Fault ClassId → Except Fault ClassId → Prop
  | .ok _, .ok _ => True
  | .error e, .error e' => e.kind = e'.kind
  | _, _ => False

theorem Yields.exists_seen {α : Type} {p : Nat → Glimpse α} {v : Except Fault α} (h : Yields p v) :
    ¬ ∀ n, (p n).run = none := by
  obtain ⟨n, hn⟩ := h.seen
  intro hnone
  cases (hnone n).symm.trans (hn n le_rfl)

/-- The class paths give one outcome for a request. -/
theorem ClassPaths.Settles.agree {key : Key} {a b : Except Fault ClassId} (ha : paths.Settles key a)
    (hb : paths.Settles key b) : Agree a b := by
  cases a with
  | ok i =>
    obtain ⟨v, hv⟩ := ha
    cases b with
    | ok j => trivial
    | error e =>
      rcases hb with he | ⟨-, hnone⟩
      · cases hv.unique he
      · exact (hv.exists_seen hnone).elim
  | error e =>
    cases b with
    | ok j =>
      obtain ⟨v, hv⟩ := hb
      rcases ha with he | ⟨-, hnone⟩
      · cases hv.unique he
      · exact (hv.exists_seen hnone).elim
    | error e' =>
      rcases ha with he | ⟨⟨name, rfl⟩, hnone⟩ <;> rcases hb with he' | ⟨⟨name', rfl⟩, hnone'⟩
      · cases he.unique he'
        rfl
      · exact (he.exists_seen hnone').elim
      · exact (he'.exists_seen hnone).elim
      · rfl

/-- What a program can rely on about the order in which it requests classes. -/
structure ClassPaths.Orderless (paths : ClassPaths) : Prop where
  agree : ∀ keys keys' key a b, (key, a) ∈ paths.outcomes .empty keys →
    (key, b) ∈ paths.outcomes .empty keys' → Agree a b
  unspoiled : ∀ key id r, loadClass paths key.1 key.2 .empty = .ok id r →
    ∀ keys a, (key, a) ∈ paths.outcomes .empty keys → ∃ id', a = .ok id'

/-- **Loading does not depend on the order of requests.** -/
theorem orderless (paths : ClassPaths) : paths.Orderless where
  agree keys keys' key a b ha hb :=
    have hempty := Registry.faithful_empty paths
    (settles_of_mem_outcomes Registry.wellFormed_empty hempty ha).agree
      (settles_of_mem_outcomes Registry.wellFormed_empty hempty hb)
  unspoiled key id r hfirst keys a ha := by
    have hempty := Registry.faithful_empty paths
    have hloads : paths.Settles key (.ok id) := by
      have := settles_loadClass key Registry.wellFormed_empty hempty
      rwa [Linker.outcome, hfirst] at this
    have hagree := hloads.agree (settles_of_mem_outcomes Registry.wellFormed_empty hempty ha)
    cases a with
    | ok id' => exact ⟨id', rfl⟩
    | error e => cases hagree

end Jvm.Linking
