import Mathlib
import Jvm.Proofs.Linking.Computations
import Jvm.Proofs.Linking.Loaded
import Jvm.Proofs.Linking.Verified

/-! # Requests for classes

`Registry.Loads` says that a linked registry has grown, and that nothing has been recorded for the classes
being loaded. `meets_load`: every request for a class does this, and comes to a class of the name. -/

namespace Jvm.Linking

open ClassFile Assembly Verification

variable {α β : Type}

/-! ## Loading and what is recorded -/

/-- How a linked registry changes while the classes of a stack are being loaded. -/
structure Registry.Loads (stack : List Key) (r r' : Registry) : Prop where
  grows : r.Grows r'
  linked : r'.Linked
  untouched : ∀ key ∈ stack, r'.loaded[key]? = r.loaded[key]?

namespace Registry

variable {r r₁ r₂ r' : Registry} {stack : List Key}

theorem Loads.refl (hr : r.Linked) (stack : List Key) : r.Loads stack r :=
  ⟨.refl r, hr, fun _ _ => rfl⟩

theorem Loads.trans (h₁ : r.Loads stack r₁) (h₂ : r₁.Loads stack r₂) : r.Loads stack r₂ :=
  ⟨h₁.grows.trans h₂.grows, h₂.linked, fun key hkey =>
    (h₂.untouched key hkey).trans (h₁.untouched key hkey)⟩

instance : IsTrans Registry (Loads stack) := ⟨fun _ _ _ => Loads.trans⟩

theorem Loads.remember {key : Key} (h : r.Loads (key :: stack) r') (hnew : r.loaded[key]? = none)
    (hkey : key ∉ stack) {result : Except Fault ClassId}
    (hid : ∀ id, result = .ok id → r'.Names key.1 key.2 id) :
    r.Loads stack (r'.remember key result) := by
  have hnew' : r'.loaded[key]? = none := (h.untouched key List.mem_cons_self).trans hnew
  refine ⟨h.grows.trans (grows_remember hnew' result), h.linked.remember hnew' hid, fun k hk => ?_⟩
  rw [loaded_remember, if_neg (by rintro rfl; exact hkey hk)]
  exact h.untouched k (List.mem_cons_of_mem _ hk)

end Registry

/-! ## Linking a class file -/

/-- A list of values that refer to no object. -/
def NoObjects (values : Array Value) : Prop := ∀ v ∈ values, v.object? = none

theorem NoObjects.push {values : Array Value} (h : NoObjects values) {v : Value}
    (hv : v.object? = none) : NoObjects (values.push v) := by
  intro w hw
  rcases Array.mem_push.1 hw with hw | rfl
  exacts [h w hw, hv]

theorem object?_defaultValue (type : FieldType) : type.defaultValue.object? = none := by
  cases type <;> rfl

theorem object?_of_constantFieldValue {c : Constant} {type : FieldType} {name : String} {v : Value}
    (h : constantFieldValue c type name = .ok v) : v.object? = none := by
  unfold constantFieldValue at h
  split at h <;> first | (cases h; rfl) | skip
  · split at h <;> cases h
    rfl
  · cases h

/-- What is laid out for new instances and for the class refers to no object. -/
structure FieldLayout.Plain (l : FieldLayout) : Prop where
  template : NoObjects l.template
  statics : NoObjects l.statics

theorem FieldLayout.Plain.add {pool : ConstantPool} {l l' : FieldLayout} {m : MemberInfo}
    (hl : l.Plain) (h : FieldLayout.add pool l m = .ok l') : l'.Plain := by
  unfold FieldLayout.add at h
  obtain ⟨name, -, h⟩ := exists_of_bind h
  obtain ⟨descriptor, -, h⟩ := exists_of_bind h
  obtain ⟨type, -, h⟩ := exists_of_bind h
  split at h
  · dsimp only at h
    split at h
    · obtain ⟨c, -, h⟩ := exists_of_bind h
      obtain ⟨value, hvalue, h⟩ := exists_of_bind h
      cases h
      exact ⟨hl.template, hl.statics.push (object?_of_constantFieldValue hvalue)⟩
    · cases h
      exact ⟨hl.template, hl.statics.push (object?_defaultValue type)⟩
  · cases h
    exact ⟨hl.template.push (object?_defaultValue type), hl.statics⟩

theorem FieldLayout.Plain.foldlM {pool : ConstantPool} :
    ∀ {members : List MemberInfo} {l l' : FieldLayout}, l.Plain →
      members.foldlM (FieldLayout.add pool) l = .ok l' → l'.Plain
  | [], l, l', hl, h => by cases h; exact hl
  | m :: members, l, l', hl, h => by
    rw [List.foldlM_cons] at h
    obtain ⟨l₁, h₁, h⟩ := exists_of_bind h
    exact FieldLayout.Plain.foldlM (hl.add h₁) h

/-- What a class file is linked to. -/
structure LinkedAs (loader : Loader) (name : String) (c : ClassFile)
    (superclass : Option (ClassId × LinkedClass)) (linked : LinkedClass) (statics : Array Value) :
    Prop where
  name : linked.name = name
  loader : linked.loader = loader
  component : linked.component? = none
  isInterface : linked.isInterface = c.access.isInterface
  superclass : linked.superclass = superclass.map (·.1)
  template : NoObjects linked.template
  statics : NoObjects statics

theorem linkedAs_linkedClass {self : ClassId} {loader : Loader} {name : String} {c : ClassFile}
    {superclass : Option (ClassId × LinkedClass)} {interfaces : List (ClassId × LinkedClass)}
    {linked : LinkedClass} {statics : Array Value}
    (hsuper : ∀ s ∈ superclass, NoObjects s.2.template)
    (h : linkedClass self loader name c superclass interfaces = .ok (linked, statics)) :
    LinkedAs loader name c superclass linked statics := by
  unfold linkedClass at h
  obtain ⟨fields, hfields, h⟩ := exists_of_bind h
  obtain ⟨verified, -, h⟩ := exists_of_bind h
  obtain ⟨methods, -, h⟩ := exists_of_bind h
  have hinherited : NoObjects ((superclass.map (·.2.template)).getD #[]) := by
    cases superclass with
    | none => exact fun v hv => by simp at hv
    | some s => exact hsuper s rfl
  have hplain := FieldLayout.Plain.foldlM ⟨hinherited, fun v hv => by simp at hv⟩ hfields
  cases h
  cases hi : c.access.isInterface <;>
    exact ⟨rfl, rfl, rfl, hi.symm, rfl, hplain.template, hplain.statics⟩

/-- What holds for the superclass that a class file leads to. -/
def SuperclassOf (name : String) (isInterface : Bool) (s : Option ClassId) (r : Registry) : Prop :=
  match s with
  | none => name = objectName
  | some id => ∃ d, r.table.class? id = some d ∧ (isInterface = true → d.name = objectName)

theorem SuperclassOf.mono {r r' : Registry} (h : r.Grows r') {name : String} {isInterface : Bool}
    {s : Option ClassId} (hs : SuperclassOf name isInterface s r) :
    SuperclassOf name isInterface s r' := by
  cases s with
  | none => exact hs
  | some id =>
    obtain ⟨d, hd, hname⟩ := hs
    exact ⟨d, h.table id d hd, hname⟩

section

variable {stack : List Key} {r : Registry} {loader : Loader} {load : String → Linker ClassId}

theorem superName_of_checkSuperclass {name superName : String} {isInterface : Bool} {s : LinkedClass}
    (h : checkSuperclass name superName isInterface s = .ok ()) (hi : isInterface = true) :
    superName = objectName := by
  unfold checkSuperclass at h
  obtain ⟨-, h⟩ := of_unless h
  obtain ⟨-, h⟩ := of_unless h
  obtain ⟨-, h⟩ := of_unless h
  by_contra hne
  subst hi
  rw [if_pos (by simpa using hne)] at h
  cases h

theorem meets_linkSuperclass
    (hload : ∀ n r, r.Linked → Linker.Meets (Registry.Loads stack) (load n) (fun id r => r.Names loader n id) r)
    (hr : r.Linked) (name : String) (c : ClassFile) :
    Linker.Meets (Registry.Loads stack) (linkSuperclass load name c) (SuperclassOf name c.access.isInterface) r := by
  refine (Linker.meets_ofExcept (.refl hr _) _).bind fun superName r₁ h₁ _ => ?_
  cases superName with
  | some superName =>
    refine (hload superName r₁ h₁.linked).bind fun id r₂ h₂ hid => ?_
    refine (Linker.meets_getClass (.refl h₂.linked _) id).bind ?_
    rintro d _ - ⟨rfl, hd⟩
    refine (Linker.meets_ofExcept (.refl h₂.linked _) _).bind ?_
    rintro ⟨⟩ _ - ⟨rfl, hcheck⟩
    refine Linker.meets_pure (.refl h₂.linked _) ⟨d, hd, fun hi => ?_⟩
    obtain ⟨d', hd', hname, -⟩ := hid
    rw [hd] at hd'
    cases hd'
    exact hname.trans (superName_of_checkSuperclass hcheck hi)
  | none =>
    exact Linker.meets_ite (fun hname => Linker.meets_pure (.refl h₁.linked _) hname)
      fun _ => Linker.meets_throw (.refl h₁.linked _) _

theorem meets_linkInterface
    (hload : ∀ n r, r.Linked → Linker.Meets (Registry.Loads stack) (load n) (fun id r => r.Names loader n id) r)
    (hr : r.Linked) (name n : String) :
    Linker.Meets (Registry.Loads stack) (linkInterface load name n) (fun _ _ => True) r := by
  refine (hload n r hr).bind fun id r₁ h₁ _ => ?_
  refine (Linker.meets_getClass (.refl h₁.linked _) id).bind ?_
  rintro d _ - ⟨rfl, -⟩
  exact Linker.meets_ite (fun _ => Linker.meets_throw (.refl h₁.linked _) _)
    fun _ => Linker.meets_pure (.refl h₁.linked _) trivial

/-! ## Publishing -/

/-- What a loader does for a key: it hands on a class that another loader has found under the name, or
publishes a new class. -/
def Linker.Defines (key : Key) (stack : List Key) (x : Linker ClassId) (r : Registry) : Prop :=
  match x r with
  | .ok id r' => (r.Loads (key :: stack) r' ∧ r'.Names key.1 key.2 id) ∨
      ∃ r₁, r.Loads (key :: stack) r₁ ∧ r₁.Published key id r'
  | .error _ r' => r.Loads (key :: stack) r'

variable {key : Key} {x : Linker ClassId} {g : α → Linker ClassId} {y : Linker α}
  {Q : α → Registry → Prop}

theorem Linker.defines_of_error {e : Fault} {r' : Registry} (h : x r = .error e r')
    (hloads : r.Loads (key :: stack) r') : Linker.Defines key stack x r := by
  unfold Linker.Defines; rw [h]; exact hloads

theorem Linker.Meets.defines (hx : Linker.Meets (Registry.Loads (key :: stack)) y Q r)
    (hg : ∀ a r', r.Loads (key :: stack) r' → Q a r' → Linker.Defines key stack (g a) r') :
    Linker.Defines key stack (y >>= g) r := by
  rcases h : y r with ⟨a, r'⟩ | ⟨e, r'⟩
  · obtain ⟨hloads, ha⟩ := hx.of_eq_ok h
    have hga := hg a r' hloads ha
    unfold Linker.Defines at hga ⊢
    rw [bind_of_ok h]
    rcases h' : g a r' with ⟨id, r''⟩ | ⟨e, r''⟩
    · rw [h'] at hga
      rcases hga with ⟨hloads', hid⟩ | ⟨r₁, hloads', hpub⟩
      · exact .inl ⟨hloads.trans hloads', hid⟩
      · exact .inr ⟨r₁, hloads.trans hloads', hpub⟩
    · rw [h'] at hga
      exact hloads.trans hga
  · exact Linker.defines_of_error (bind_of_error h) (hx.of_eq_error h)

theorem Linker.defines_throw (hr : r.Linked) (e : Fault) :
    Linker.Defines key stack (throw e) r :=
  Linker.defines_of_error rfl (.refl hr _)

theorem Linker.defines_pure (hr : r.Linked) {id : ClassId} (hid : r.Names key.1 key.2 id) :
    Linker.Defines key stack (pure id) r :=
  .inl ⟨.refl hr _, hid⟩

theorem roots_start (init : InitState) {statics : Array Value} (h : NoObjects statics)
    (poolSize : Nat) : (ClassState.start init statics poolSize).roots = [] := by
  have hstatics : statics.toList.filterMap Value.object? = [] :=
    List.filterMap_eq_nil_iff.2 fun v hv => h v (Array.mem_toList_iff.1 hv)
  have hstrings : ((Cache.empty poolSize : Cache Ref).toList.filterMap id) = [] := by
    simp [Cache.empty]
  rw [ClassState.roots, ClassState.start, hstatics, hstrings]
  rfl

theorem Linker.defines_publish (hr : r.Linked) {c : LinkedClass} (hkey : (c.loader, c.name) = key)
    (hshape : r.Shape c) (init : InitState) {statics : Array Value} (hstatics : NoObjects statics) :
    Linker.Defines key stack (Linker.publish c init statics) r := by
  rcases publish_cases c init statics r with ⟨known, hpub⟩ | ⟨e, hpub⟩
  · unfold Linker.Defines
    rw [hpub]
    exact .inr ⟨r, .refl hr _, rfl, ⟨c, known, rfl, hkey, hshape⟩,
      ⟨_, rfl, roots_start init hstatics _⟩, rfl, rfl⟩
  · exact Linker.defines_of_error hpub (.refl hr _)

/-- Every class extends the object class. -/
theorem Registry.Linked.exists_object (hr : r.Linked) {id : ClassId} {c : LinkedClass}
    (hc : r.table.class? id = some c) : ∃ o d, r.table.class? o = some d ∧ d.name = objectName := by
  obtain ⟨o, d, -, hd, hnone⟩ := ClassTable.exists_root hc
  have hplain := hr.component?_eq_none_of_superclass hd hnone
  exact ⟨o, d, hd, ((hr.shape o d hd).plain hplain).superclass.1 hnone⟩

/-- While a loader defines the object class there is no class. -/
theorem Registry.Linked.no_class (hr : r.Linked) (hkey : r.loaded[(loader, objectName)]? = none)
    (hmissing : loader = .app → ∃ e, r.loaded[(Loader.boot, objectName)]? = some (.error e))
    {id : ClassId} {c : LinkedClass} (hc : r.table.class? id = some c) : False := by
  obtain ⟨o, d, hd, hname⟩ := hr.exists_object hc
  have hfound := hr.found o d hd
  rw [hname] at hfound
  cases hl : loader <;> cases hdl : d.loader <;> rw [hl] at hkey <;> rw [hdl] at hfound
  · rw [hkey] at hfound; cases hfound
  · obtain ⟨e, he⟩ := hr.missing o d hd hdl
    rw [hname, hkey] at he
    cases he
  · obtain ⟨e, he⟩ := hmissing hl
    rw [hfound] at he
    cases he
  · rw [hkey] at hfound; cases hfound

theorem meets_mapM_linked {γ δ : Type} {f : γ → Linker δ} {as : List γ} (hr : r.Linked)
    (hf : ∀ a r, r.Linked → Linker.Meets (Registry.Loads stack) (f a) (fun _ _ => True) r) :
    Linker.Meets (Registry.Loads stack) (as.mapM f) (fun _ _ => True) r :=
  (Linker.meets_mapM (fun _ _ _ _ _ => trivial) (fun _ _ h => .refl h.linked _) as (.refl hr _)
    fun a _ r' h => hf a r' h.linked).mono fun _ _ _ _ => trivial

/-- A class linked from a class file has its shape. -/
theorem shape_of_linkedAs {name : String} {c : ClassFile}
    {superclass : Option (ClassId × LinkedClass)} {linked : LinkedClass} {statics : Array Value}
    (hr : r.Linked) (hl : LinkedAs loader name c superclass linked statics)
    (hnew : r.loaded[(loader, name)]? = none) (hplain : isArrayName name = false)
    (hmissing : loader = .app → ∃ e, r.loaded[(Loader.boot, name)]? = some (.error e))
    (hsuper : SuperclassOf name c.access.isInterface (superclass.map (·.1)) r) :
    r.Shape linked where
  template := hl.template
  array component hkind := by
    have := hl.component
    rw [LinkedClass.component?, hkind] at this
    cases this
  plain _ :=
    { name := by rw [hl.name]; exact hplain
      superclass := by
        rw [hl.superclass, hl.name]
        refine ⟨fun hnone => ?_, fun hname => ?_⟩
        · rw [hnone] at hsuper
          exact hsuper
        · subst hname
          cases hs : superclass.map (·.1) with
          | none => rfl
          | some s =>
            rw [hs] at hsuper
            obtain ⟨d, hd, -⟩ := hsuper
            exact (hr.no_class hnew hmissing hd).elim
      interfaces := fun hint s hs => by
        rw [hl.isInterface] at hint
        rw [hl.superclass] at hs
        rw [hs] at hsuper
        obtain ⟨d, hd, hname⟩ := hsuper
        exact ⟨d, hd, hname hint⟩ }

/-- Linking a class file publishes a class of its name. -/
theorem defines_link {name : String}
    (hload : ∀ n r, r.Linked →
      Linker.Meets (Registry.Loads ((loader, name) :: stack)) (load n) (fun id r => r.Names loader n id) r)
    (hr : r.Linked) (hnew : r.loaded[(loader, name)]? = none) (hplain : isArrayName name = false)
    (hmissing : loader = .app → ∃ e, r.loaded[(Loader.boot, name)]? = some (.error e))
    (c : ClassFile) : Linker.Defines (loader, name) stack (link load loader name c) r := by
  refine (Linker.meets_ofExcept (.refl hr _) _).defines ?_
  rintro given _ - ⟨rfl, -⟩
  split
  · exact Linker.defines_throw hr _
  next hgiven =>
  obtain rfl : given = name := by simpa using hgiven
  refine (meets_linkSuperclass hload hr given c).defines fun s r₁ h₁ hs => ?_
  refine (Linker.meets_ofExcept (.refl h₁.linked _) _).defines ?_
  rintro interfaceNames _ - ⟨rfl, -⟩
  refine (meets_mapM_linked h₁.linked fun n r hr =>
    meets_linkInterface hload hr given n).defines fun interfaces r₂ h₂ _ => ?_
  refine (Linker.meets_mapM_numbered (.refl h₂.linked _) s).defines ?_
  rintro superclass _ - ⟨rfl, rfl, hsuper⟩
  refine (meets_mapM_linked h₂.linked fun id r hr =>
    (Linker.meets_numbered (.refl hr _) id).mono fun _ _ _ _ => trivial).defines
      fun numbered r₃ h₃ _ => ?_
  refine (Linker.meets_get (.refl h₃.linked _)).defines ?_
  rintro _ _ - ⟨rfl, rfl⟩
  refine (Linker.meets_ofExcept (.refl h₃.linked _) _).defines ?_
  rintro ⟨linked, statics⟩ _ - ⟨rfl, hlinked⟩
  have h := (h₁.trans h₂).trans h₃
  refine Linker.defines_publish h₃.linked ?_ ?_ _ ?_
  all_goals have hl := linkedAs_linkedClass (fun p hp =>
    (h₂.linked.shape p.1 p.2 (hsuper p hp)).template) hlinked
  · rw [hl.loader, hl.name]
  · refine shape_of_linkedAs h.linked hl ((h.untouched _ List.mem_cons_self).trans hnew) hplain
      (fun happ => ?_) ?_
    · obtain ⟨e, he⟩ := hmissing happ
      exact ⟨e, h.grows.loaded _ _ he⟩
    · exact hs.mono (h₂.trans h₃).grows
  · exact hl.statics

/-- What the core loader finds is recorded under its name. -/
theorem Registry.Linked.loaded_of_names (hr : r.Linked) {name : String} {id : ClassId}
    (hid : r.Names .boot name id) : r.loaded[(Loader.boot, name)]? = some (.ok id) := by
  obtain ⟨c, hc, rfl, hloader⟩ := hid
  have := hr.found id c hc
  rwa [show c.loader = .boot by simpa using hloader] at this

/-- What the name of an array class, or a loader, says about its component type. -/
def ComponentOf (loader : Loader) (name : String) (component : Component) (r : Registry) : Prop :=
  (∀ p, component = .primitive p → elementName? name = some (.primitive p)) ∧
    ∀ e, component = .reference e → ∃ d, r.table.class? e = some d ∧ d.loader = loader ∧
      elementName? name = some (.reference d.name)

/-- Linking an array class publishes it. -/
theorem defines_linkArray {name : String}
    (hload : ∀ n, isArrayName n = false → ∀ r, r.Linked →
      Linker.Meets (Registry.Loads ((loader, name) :: stack)) (load n) (fun id r => r.Names .boot n id) r)
    (hr : r.Linked) (hname : isArrayName name = true) {component : Component}
    (hcomp : ComponentOf loader name component r) :
    Linker.Defines (loader, name) stack (do
      let object ← load objectName
      let cloneable ← load CoreClasses.cloneableName
      let serializable ← load CoreClasses.serializableName
      linkArray loader name component object cloneable serializable) r := by
  refine (hload objectName (by decide) r hr).defines fun o r₁ h₁ ho => ?_
  refine (hload CoreClasses.cloneableName (by decide) r₁ h₁.linked).defines fun i r₂ h₂ hi => ?_
  refine (hload CoreClasses.serializableName (by decide) r₂ h₂.linked).defines fun j r₃ h₃ hj => ?_
  refine (Linker.meets_getClass (.refl h₃.linked _) o).defines ?_
  rintro object _ - ⟨rfl, -⟩
  have h := (h₁.trans h₂).trans h₃
  refine Linker.defines_publish h₃.linked rfl ?_ _ fun v hv => by simp at hv
  refine ⟨fun v hv => by simp at hv, fun c hc => ?_, fun hc => by cases hc⟩
  cases hc
  exact {
    name := hname
    superclass := ⟨o, h₃.linked.loaded_of_names (ho.mono (h₂.trans h₃).grows.toExtends), rfl⟩
    interfaces := ⟨i, j, h₃.linked.loaded_of_names (hi.mono h₃.grows.toExtends), h₃.linked.loaded_of_names hj,
      rfl⟩
    primitive := hcomp.1
    reference := fun e he => by
      obtain ⟨d, hd, hrest⟩ := hcomp.2 e he
      exact ⟨d, h.grows.table e d hd, hrest⟩ }

theorem Linker.recorded_of_ok {x : Linker ClassId} {id : ClassId} {r' : Registry}
    (h : x r = .ok id r') : Linker.recorded key x r = .ok id (r'.remember key (.ok id)) := by
  simp only [Linker.recorded, bind, EStateM.bind, Linker.attempt, h]
  rfl

theorem Linker.recorded_of_error {x : Linker ClassId} {e : Fault} {r' : Registry}
    (h : x r = .error e r') : Linker.recorded key x r = .error e (r'.remember key (.error e)) := by
  simp only [Linker.recorded, bind, EStateM.bind, Linker.attempt, h]
  rfl

theorem Linker.loaded_of_recorded {x : Linker ClassId} {e : Fault} {r' : Registry}
    (h : Linker.recorded key x r = .error e r') : r'.loaded[key]? = some (.error e) := by
  rcases hx : x r with ⟨id, r₁⟩ | ⟨e, r₁⟩
  · rw [Linker.recorded_of_ok hx] at h
    cases h
  · rw [Linker.recorded_of_error hx] at h
    cases h
    rw [Registry.loaded_remember, if_pos rfl]

/-- The outcome of the first attempt of a loader is recorded. -/
theorem Linker.Defines.recorded {name : String} {x : Linker ClassId}
    (hx : Linker.Defines (loader, name) stack x r) (hnew : r.loaded[(loader, name)]? = none)
    (hkey : (loader, name) ∉ stack)
    (hmissing : loader = .app → ∃ e, r.loaded[(Loader.boot, name)]? = some (.error e)) :
    Linker.Meets (Registry.Loads stack) (Linker.recorded (loader, name) x) (fun id r => r.Names loader name id) r := by
  unfold Linker.Defines at hx
  rcases h : x r with ⟨id, r'⟩ | ⟨e, r'⟩
  · rw [h] at hx
    rcases hx with ⟨hloads, hid⟩ | ⟨r₁, hloads, hpub⟩
    · refine Linker.meets_of_ok (Linker.recorded_of_ok h) (hloads.remember hnew hkey ?_) ?_
      · rintro _ ⟨⟩
        exact hid
      · exact hid.mono (Registry.grows_remember ((hloads.untouched _ List.mem_cons_self).trans hnew) _).toExtends
    · have hnew₁ : r₁.loaded[(loader, name)]? = none :=
        (hloads.untouched _ List.mem_cons_self).trans hnew
      have hlinked := hpub.linked hloads.linked hnew₁ fun happ => by
        obtain ⟨e, he⟩ := hmissing happ
        exact ⟨e, hloads.grows.loaded _ _ he⟩
      have hnew' : r'.loaded[(loader, name)]? = none := by rw [hpub.loaded]; exact hnew₁
      have hgrows := hpub.grows.trans (Registry.grows_remember hnew' (.ok id))
      refine Linker.meets_of_ok (Linker.recorded_of_ok h)
        ⟨hloads.grows.trans hgrows, hlinked, fun key hk => ?_⟩
        (hlinked.names _ _ _ (by rw [Registry.loaded_remember, if_pos rfl]))
      rw [Registry.loaded_remember, if_neg (by rintro rfl; exact hkey hk), hpub.loaded]
      exact hloads.untouched key (List.mem_cons_of_mem _ hk)
  · rw [h] at hx
    exact Linker.meets_of_error (Linker.recorded_of_error h)
      (hx.remember hnew hkey fun id hid => by cases hid)

/-! ## Requests -/

/-- A loader that does not find a class has recorded a failure, unless the class is being loaded. -/
theorem loaded_of_classNotFound {paths : ClassPaths} {name text : String} {r' : Registry}
    (h : define paths stack loader name r = .error (.classNotFound text) r') :
    ∃ e, r'.loaded[(loader, name)]? = some (.error e) := by
  rw [define, bind_of_ok (show (get : Linker Registry) r = .ok r r from rfl)] at h
  rcases hres : r.loaded[(loader, name)]? with _ | ⟨e⟩ | ⟨id⟩
  · rw [hres] at h
    by_cases hfresh : (loader, name) ∈ stack
    · rw [dif_pos hfresh] at h
      cases h
    · rw [dif_neg hfresh] at h
      exact ⟨_, Linker.loaded_of_recorded h⟩
  · rw [hres] at h
    cases h
    exact ⟨_, hres⟩
  · rw [hres] at h
    cases h

end

mutual

/-- Every request makes a linked registry grow, and comes to a class of the name. -/
theorem meets_load (paths : ClassPaths) (stack : List Key) (loader : Loader) (name : String)
    {r : Registry} (hr : r.Linked) :
    Linker.Meets (Registry.Loads stack) (load paths stack loader name) (fun id r => r.Names loader name id) r := by
  cases loader with
  | boot =>
    rw [load]
    exact meets_define paths stack .boot name hr fun h => by cases h
  | app =>
    rw [load]
    refine Linker.Meets.tryCatch ((meets_define paths stack .boot name hr fun h => by cases h).mono
      fun id r₁ _ hid => ?_) fun e r₁ h hloads => ?_
    · obtain ⟨c, hc, hname, -⟩ := hid
      exact ⟨c, hc, hname, .inr rfl⟩
    · split
      · exact meets_define paths stack .app name hloads.linked fun _ => loaded_of_classNotFound h
      · exact Linker.meets_throw (.refl hloads.linked _) _
termination_by (paths.idle stack, weight name, loadRank loader)
decreasing_by
  all_goals exact lex_of_le (Nat.le_refl _) (.right _ (by simp [loadRank, defineRank]))

theorem meets_define (paths : ClassPaths) (stack : List Key) (loader : Loader) (name : String)
    {r : Registry} (hr : r.Linked)
    (hmissing : loader = .app → ∃ e, r.loaded[(Loader.boot, name)]? = some (.error e)) :
    Linker.Meets (Registry.Loads stack) (define paths stack loader name) (fun id r => r.Names loader name id) r := by
  rw [define]
  refine (Linker.meets_get (.refl hr _)).bind ?_
  rintro _ _ - ⟨rfl, rfl⟩
  split
  · next result hres =>
    cases result with
    | ok id => exact Linker.meets_pure (.refl hr _) (hr.names _ _ _ hres)
    | error e => exact Linker.meets_throw (.refl hr _) e
  next hnew =>
  by_cases hfresh : (loader, name) ∈ stack
  · rw [dif_pos hfresh]
    exact Linker.meets_throw (.refl hr _) _
  rw [dif_neg hfresh]
  refine Linker.Defines.recorded ?_ hnew hfresh hmissing
  by_cases harray : isArrayName name = true
  · rw [dif_pos harray]
    have hcore := fun n (hn : isArrayName n = false) r hr =>
      meets_load paths ((loader, name) :: stack) .boot n (r := r) hr
    have hcore' : loader = .app → ∀ r, r.Linked → Linker.Meets (Registry.Loads ((loader, name) :: stack))
        (Sum.inr <$> load paths ((loader, name) :: stack) .boot name : Linker (Component ⊕ ClassId))
        (fun c r => ∃ id, c = .inr id ∧ r.Names .app name id) r := fun happ r hr =>
      (meets_load paths ((loader, name) :: stack) .boot name hr).map fun id r' hid => by
        obtain ⟨c, hc, hname, -⟩ := hid
        exact ⟨id, rfl, c, hc, hname, .inr rfl⟩
    dsimp only
    split
    · exact Linker.defines_throw hr _
    · next p hp =>
      cases loader with
      | boot => exact defines_linkArray hcore hr harray ⟨by rintro _ ⟨⟩; exact hp, by rintro _ ⟨⟩⟩
      | app =>
        refine (hcore' rfl _ hr).defines fun c r₁ h₁ hc => ?_
        obtain ⟨id, rfl, hid⟩ := hc
        exact Linker.defines_pure h₁.linked hid
    · next element hp =>
      refine (meets_load paths ((loader, name) :: stack) loader element hr).defines fun e r₁ h₁ he => ?_
      refine (Linker.meets_getClass (.refl h₁.linked _) e).defines ?_
      rintro d _ - ⟨rfl, hd⟩
      split
      · refine (hcore' rfl _ h₁.linked).defines fun c r₂ h₂ hc => ?_
        obtain ⟨id, rfl, hid⟩ := hc
        exact Linker.defines_pure h₂.linked hid
      · next hne =>
        refine defines_linkArray hcore h₁.linked harray ⟨by rintro _ ⟨⟩, ?_⟩
        rintro _ ⟨⟩
        obtain ⟨d', hd', hname, hloader⟩ := he
        rw [hd] at hd'
        cases hd'
        refine ⟨d, hd, hloader.elim id fun happ => ?_, hname ▸ hp⟩
        cases hdl : d.loader with
        | boot => exact (hne happ hdl).elim
        | app => exact happ.symm
  · rw [dif_neg harray]
    split
    · exact Linker.defines_throw hr _
    · exact Linker.defines_throw hr _
    · next bytes hbytes =>
      refine (Linker.meets_ofExcept (.refl hr _) _).defines ?_
      rintro c _ - ⟨rfl, -⟩
      exact defines_link (fun n r hr => meets_load paths ((loader, name) :: stack) loader n hr) hr hnew
        (by simpa using harray) hmissing c
termination_by (paths.idle stack, weight name, defineRank loader)
decreasing_by
  · exact lex_of_le (paths.idle_cons_le _ _)
      (.left _ _ (by rw [weight_eq_zero hn]; exact weight_pos harray))
  · subst happ
    exact lex_of_le (paths.idle_cons_le _ _) (.right _ (by simp [loadRank, defineRank]))
  · exact lex_of_le (paths.idle_cons_le _ _) (.left _ _ (weight_lt_of_elementName? (by assumption)))
  · exact .left _ _ (ClassPaths.idle_cons_lt hfresh (by assumption))

end

end Jvm.Linking
