import Mathlib
import Jvm.Linking.Loading

/-! # Computations on the registry

`Linker.Meets T x Q r` says of a computation `x` that begins with the registry `r` that it leads to a
registry that stands in the relation `T` to `r`, and that its result, if it has one, is as `Q` says. The
lemmas follow the ways in which computations are put together; `T` has to be transitive. -/

namespace Jvm.Linking

open ClassFile Assembly

variable {α β : Type}

theorem bind_of_ok {ε σ : Type} {x : EStateM ε σ α} {g : α → EStateM ε σ β} {s s' : σ} {a : α}
    (h : x s = .ok a s') : (x >>= g) s = g a s' := by
  simp only [bind, EStateM.bind, h]

theorem bind_of_error {ε σ : Type} {x : EStateM ε σ α} {g : α → EStateM ε σ β} {s s' : σ} {e : ε}
    (h : x s = .error e s') : (x >>= g) s = .error e s' := by
  simp only [bind, EStateM.bind, h]

theorem tryCatch_of_ok {ε σ : Type} {x : EStateM ε σ α} {handler : ε → EStateM ε σ α} {s s' : σ} {a : α}
    (h : x s = .ok a s') : (tryCatch x handler : EStateM ε σ α) s = .ok a s' := by
  simp only [tryCatch, tryCatchThe, MonadExceptOf.tryCatch, EStateM.tryCatch, h]

theorem tryCatch_of_error {ε σ : Type} {x : EStateM ε σ α} {handler : ε → EStateM ε σ α} {s s' : σ} {e : ε}
    (h : x s = .error e s') : (tryCatch x handler : EStateM ε σ α) s = handler e s' := by
  simp only [tryCatch, tryCatchThe, MonadExceptOf.tryCatch, EStateM.tryCatch, h]
  rfl

namespace Linker

/-- Where a computation leads from a registry, and what it comes to. -/
def Meets (T : Registry → Registry → Prop) (x : Linker α) (Q : α → Registry → Prop) (r : Registry) :
    Prop :=
  match x r with
  | .ok a r' => T r r' ∧ Q a r'
  | .error _ r' => T r r'

variable {T : Registry → Registry → Prop} {x : Linker α} {g : α → Linker β}
  {Q R : α → Registry → Prop} {S : β → Registry → Prop} {r : Registry}

theorem meets_of_ok {a : α} {r' : Registry} (h : x r = .ok a r') (hT : T r r') (ha : Q a r') :
    Meets T x Q r := by
  unfold Meets; rw [h]; exact ⟨hT, ha⟩

theorem meets_of_error {e : Fault} {r' : Registry} (h : x r = .error e r') (hT : T r r') :
    Meets T x Q r := by
  unfold Meets; rw [h]; exact hT

theorem Meets.of_eq_ok (hx : Meets T x Q r) {a : α} {r' : Registry} (h : x r = .ok a r') :
    T r r' ∧ Q a r' := by
  unfold Meets at hx; rwa [h] at hx

theorem Meets.of_eq_error (hx : Meets T x Q r) {e : Fault} {r' : Registry}
    (h : x r = .error e r') : T r r' := by
  unfold Meets at hx; rwa [h] at hx

theorem meets_pure (hr : T r r) {a : α} (ha : Q a r) : Meets T (pure a) Q r :=
  meets_of_ok rfl hr ha

theorem meets_throw (hr : T r r) (e : Fault) : Meets T (throw e : Linker α) Q r :=
  meets_of_error rfl hr

theorem meets_get (hr : T r r) : Meets T get (fun a r' => a = r ∧ r' = r) r :=
  meets_of_ok rfl hr ⟨rfl, rfl⟩

theorem meets_ofExcept (hr : T r r) (o : Except Fault α) :
    Meets T (ofExcept o) (fun a r' => r' = r ∧ o = .ok a) r := by
  cases o with
  | ok a => exact meets_pure hr ⟨rfl, rfl⟩
  | error e => exact meets_throw hr e

theorem meets_ite {p : Prop} [Decidable p] {y : Linker α} (hx : p → Meets T x Q r)
    (hy : ¬ p → Meets T y Q r) : Meets T (if p then x else y) Q r := by
  split
  · exact hx ‹_›
  · exact hy ‹_›

theorem Meets.mono (hx : Meets T x Q r) (himp : ∀ a r', T r r' → Q a r' → R a r') :
    Meets T x R r := by
  rcases h : x r with ⟨a, r'⟩ | ⟨e, r'⟩
  · obtain ⟨hT, ha⟩ := hx.of_eq_ok h
    exact meets_of_ok h hT (himp a r' hT ha)
  · exact meets_of_error h (hx.of_eq_error h)

theorem Meets.map {f : α → β} (hx : Meets T x Q r) (hf : ∀ a r', Q a r' → S (f a) r') :
    Meets T (f <$> x) S r := by
  rcases h : x r with ⟨a, r'⟩ | ⟨e, r'⟩
  · have hrun : EStateM.map f x r = .ok (f a) r' := by simp only [EStateM.map, h]
    obtain ⟨hT, ha⟩ := hx.of_eq_ok h
    exact meets_of_ok hrun hT (hf a r' ha)
  · have hrun : EStateM.map f x r = .error e r' := by simp only [EStateM.map, h]
    exact meets_of_error hrun (hx.of_eq_error h)

variable [IsTrans Registry T]

theorem Meets.bind (hx : Meets T x Q r) (hg : ∀ a r', T r r' → Q a r' → Meets T (g a) S r') :
    Meets T (x >>= g) S r := by
  rcases h : x r with ⟨a, r'⟩ | ⟨e, r'⟩
  · obtain ⟨hT, ha⟩ := hx.of_eq_ok h
    have hga := hg a r' hT ha
    rcases h' : g a r' with ⟨b, r''⟩ | ⟨e, r''⟩
    · obtain ⟨hT', hb⟩ := hga.of_eq_ok h'
      exact meets_of_ok ((bind_of_ok h).trans h') (IsTrans.trans _ _ _ hT hT') hb
    · exact meets_of_error ((bind_of_ok h).trans h') (IsTrans.trans _ _ _ hT (hga.of_eq_error h'))
  · exact meets_of_error (bind_of_error h) (hx.of_eq_error h)

theorem Meets.tryCatch {h : Fault → Linker α} (hx : Meets T x Q r)
    (hh : ∀ e r', x r = .error e r' → T r r' → Meets T (h e) Q r') :
    Meets T (tryCatch x h) Q r := by
  rcases hres : x r with ⟨a, r'⟩ | ⟨e, r'⟩
  · obtain ⟨hT, ha⟩ := hx.of_eq_ok hres
    exact meets_of_ok (tryCatch_of_ok hres) hT ha
  · have hT := hx.of_eq_error hres
    have hhe := hh e r' hres hT
    rcases hres' : h e r' with ⟨a, r''⟩ | ⟨e', r''⟩
    · obtain ⟨hT', ha⟩ := hhe.of_eq_ok hres'
      exact meets_of_ok ((tryCatch_of_error hres).trans hres') (IsTrans.trans _ _ _ hT hT') ha
    · exact meets_of_error ((tryCatch_of_error hres).trans hres')
        (IsTrans.trans _ _ _ hT (hhe.of_eq_error hres'))

theorem meets_getClass (hr : T r r) (id : ClassId) :
    Meets T (getClass id) (fun c r' => r' = r ∧ r.table.class? id = some c) r := by
  refine (meets_get hr).bind ?_
  rintro _ r' - ⟨rfl, rfl⟩
  split
  · next c hc => exact meets_pure hr ⟨rfl, hc⟩
  · exact meets_throw hr _

/-- A computation for each entry of a list; what holds for a result has to last. -/
theorem meets_mapM {f : α → Linker β} {P : β → Registry → Prop}
    (hP : ∀ b r r', T r r' → P b r → P b r') (hrefl : ∀ r r', T r r' → T r' r') :
    ∀ (as : List α) {r : Registry}, T r r → (∀ a ∈ as, ∀ r', T r r' → Meets T (f a) (P ·) r') →
      Meets T (as.mapM f) (fun bs r' => ∀ b ∈ bs, P b r') r
  | [], r, hr, _ => by
    rw [List.mapM_nil]
    exact meets_pure hr fun b hb => by cases hb
  | a :: as, r, hr, hf => by
    rw [List.mapM_cons]
    refine (hf a List.mem_cons_self r hr).bind fun b r₁ h₁ hb => ?_
    have hrest := meets_mapM hP hrefl as (hrefl r r₁ h₁) fun a' ha' r' h' =>
      hf a' (List.mem_cons_of_mem _ ha') r' (IsTrans.trans _ _ _ h₁ h')
    refine hrest.bind fun bs r₂ h₂ hbs => ?_
    refine meets_pure (hrefl r₁ r₂ h₂) fun b' hb' => ?_
    rcases List.mem_cons.1 hb' with rfl | hb'
    · exact hP _ _ _ h₂ hb
    · exact hbs b' hb'

theorem publish_of_known {c : LinkedClass} (init : InitState) (statics : Array Value) {r : Registry}
    (known : ∀ p ∈ c.parents, p < r.table.size) :
    publish c init statics r = .ok r.table.size { r with
      table := r.table.push c known
      states := r.states.push (.start init statics c.pool.size) } := by
  have hadd : r.add c (.start init statics c.pool.size) = .ok (r.table.size, { r with
      table := r.table.push c known
      states := r.states.push (.start init statics c.pool.size) }) := by
    rw [Registry.add, dif_pos known]
  simp only [publish, bind, EStateM.bind, get, getThe, MonadStateOf.get, EStateM.get, hadd, ofExcept,
    pure, EStateM.pure, set, EStateM.set]

/-- A class is entered as the last one, unless one that it is built from is not there. -/
theorem publish_cases (c : LinkedClass) (init : InitState) (statics : Array Value) (r : Registry) :
    (∃ known, publish c init statics r = .ok r.table.size { r with
        table := r.table.push c known
        states := r.states.push (.start init statics c.pool.size) }) ∨
      ∃ e, publish c init statics r = .error e r := by
  by_cases known : ∀ p ∈ c.parents, p < r.table.size
  · exact .inl ⟨known, publish_of_known init statics known⟩
  · refine .inr ⟨.internal ("class " ++ c.name ++ " is linked before its parents"), ?_⟩
    have hadd : r.add c (.start init statics c.pool.size) =
        .error (.internal ("class " ++ c.name ++ " is linked before its parents")) := by
      rw [Registry.add, dif_neg known]
    simp only [publish, bind, EStateM.bind, get, getThe, MonadStateOf.get, EStateM.get, hadd, ofExcept,
      throw, throwThe, MonadExceptOf.throw, EStateM.throw]

/-- A class with its number. -/
def numbered (id : ClassId) : Linker (ClassId × LinkedClass) := do
  return (id, ← getClass id)

theorem meets_numbered (hr : T r r) (id : ClassId) :
    Meets T (numbered id) (fun p r' => r' = r ∧ p.1 = id ∧ r.table.class? id = some p.2) r := by
  refine (meets_getClass hr id).bind ?_
  rintro c _ - ⟨rfl, hc⟩
  exact meets_pure hr ⟨rfl, rfl, hc⟩

theorem meets_mapM_numbered (hr : T r r) (o : Option ClassId) :
    Meets T (o.mapM numbered)
      (fun p r' => r' = r ∧ p.map (·.1) = o ∧ ∀ s ∈ p, r.table.class? s.1 = some s.2) r := by
  cases o with
  | none => exact meets_pure hr ⟨rfl, rfl, by simp⟩
  | some id =>
    refine (meets_numbered hr id).bind ?_
    rintro p _ - ⟨rfl, rfl, hp⟩
    exact meets_pure hr ⟨rfl, rfl, by simpa using hp⟩

end Linker

theorem weight_eq_zero {name : String} (h : isArrayName name = false) : weight name = 0 := by
  unfold weight
  rw [if_neg (by simpa [isArrayName] using h)]

/-- A computation whose outcome is recorded under a key. -/
def Linker.recorded (key : Key) (x : Linker ClassId) : Linker ClassId := do
  let result ← Linker.attempt x
  modify fun r => { r with loaded := r.loaded.insert key result }
  Linker.ofExcept result

/-! ## Linking -/

/-- Loads the classes that a class file is linked over. -/
def linkAbove (load : String → Linker ClassId) (name : String) (c : ClassFile) :
    Linker (Option (ClassId × LinkedClass) × List (ClassId × LinkedClass)) := do
  let superclass ← linkSuperclass load name c
  let interfaceNames ← Linker.ofExcept c.interfaceNames
  let interfaces ← interfaceNames.mapM (linkInterface load name)
  let superclass ← superclass.mapM Linker.numbered
  let interfaces ← interfaces.mapM Linker.numbered
  return (superclass, interfaces)

theorem link_eq {load : String → Linker ClassId} {loader : Loader} {name : String} {c : ClassFile}
    (hname : c.name = .ok name) : link load loader name c = (do
      let above ← linkAbove load name c
      let self := (← get).table.size
      let (linked, statics) ← Linker.ofExcept (linkedClass self loader name c above.1 above.2)
      Linker.publish linked .linked statics) := by
  have hof : (Linker.ofExcept (.ok name) : Linker String) = pure name := rfl
  unfold link linkAbove
  rw [hname, hof]
  simp only [pure_bind, bind_assoc, bne_self_eq_false, Bool.false_eq_true, if_false]
  rfl

/-! ## Definitions -/

theorem get_eq (r : Registry) : (get : Linker Registry) r = .ok r r := rfl

/-- How a loader defines a class, with a way to ask for other classes. -/
def defineBy (paths : ClassPaths) (load : Loader → String → Linker ClassId) (loader : Loader) (name : String) :
    Linker ClassId :=
  if isArrayName name then do
    let component : Component ⊕ ClassId ← match elementName? name with
      | none => throw (.classNotFound name)
      | some (.primitive type) =>
        match loader with
        | .boot => pure (.inl (.primitive type))
        | .app => .inr <$> load .boot name
      | some (.reference element) => do
        let component ← load loader element
        match loader, (← Linker.getClass component).loader with
        | .app, .boot => .inr <$> load .boot name
        | _, _ => pure (.inl (.reference component))
    match component with
    | .inr id => return id
    | .inl component =>
      let object ← load .boot objectName
      let cloneable ← load .boot CoreClasses.cloneableName
      let serializable ← load .boot CoreClasses.serializableName
      linkArray loader name component object cloneable serializable
  else
    match (paths.ofLoader loader).find name with
    | .error text => throw (.classNotFound (name ++ " (" ++ text ++ ")"))
    | .ok none => throw (.classNotFound name)
    | .ok (some bytes) => do
      let c ← Linker.ofExcept (ClassFile.parse bytes)
      link (load loader) loader name c

/-- An array class of a component type, behind the classes above every array. -/
def arrayOver (load : String → Linker ClassId) (loader : Loader) (name : String) (component : Component) :
    Linker ClassId := do
  let object ← load objectName
  let cloneable ← load CoreClasses.cloneableName
  let serializable ← load CoreClasses.serializableName
  linkArray loader name component object cloneable serializable

section

variable {paths : ClassPaths} {load : Loader → String → Linker ClassId} {loader : Loader} {name : String}

theorem isArrayName_of_elementName? {element : ElementName} (h : elementName? name = some element) :
    isArrayName name = true := by
  unfold elementName? at h
  split at h
  · next rest hn => rw [isArrayName, hn]; rfl
  · cases h

theorem defineBy_of_no_element (harray : isArrayName name = true) (h : elementName? name = none) :
    defineBy paths load loader name = throw (.classNotFound name) := by
  rw [defineBy, if_pos harray, h]
  rfl

theorem defineBy_of_primitive_boot {type : Primitive} (harray : isArrayName name = true)
    (h : elementName? name = some (.primitive type)) :
    defineBy paths load .boot name = arrayOver (load .boot) .boot name (.primitive type) := by
  rw [defineBy, if_pos harray, h]
  rfl

/-- The arrays of primitive values are classes of the core loader. -/
theorem defineBy_of_primitive_app {type : Primitive} (harray : isArrayName name = true)
    (h : elementName? name = some (.primitive type)) : defineBy paths load .app name = load .boot name := by
  rw [defineBy, if_pos harray, h]
  simp only [bind_map_left, bind_pure]

/-- An array class is a class of the loader that defines the class of its elements. -/
theorem defineBy_of_reference {element : String} (harray : isArrayName name = true)
    (h : elementName? name = some (.reference element)) :
    defineBy paths load loader name = (do
      let e ← load loader element
      let d ← Linker.getClass e
      if loader = .app ∧ d.loader = .boot then load .boot name
      else arrayOver (load .boot) loader name (.reference e)) := by
  rw [defineBy, if_pos harray, h]
  refine bind_congr fun e => bind_congr fun d => ?_
  cases loader <;> cases d.loader <;> simp [bind_map_left, arrayOver]

theorem defineBy_of_file (harray : isArrayName name = false) : defineBy paths load loader name =
    match (paths.ofLoader loader).find name with
    | .error text => throw (.classNotFound (name ++ " (" ++ text ++ ")"))
    | .ok none => throw (.classNotFound name)
    | .ok (some bytes) => Linker.ofExcept (ClassFile.parse bytes) >>= link (load loader) loader name := by
  rw [defineBy, if_neg (by simp [harray])]

end

section

variable {paths : ClassPaths} {stack : List Key} {loader : Loader} {name : String} {r : Registry}

/-- What is recorded is not worked out again. -/
theorem define_of_recorded {outcome : Except Fault ClassId}
    (h : r.loaded[(loader, name)]? = some outcome) :
    define paths stack loader name r = Linker.ofExcept outcome r := by
  rw [define, bind_of_ok (get_eq r), h]

/-- A class that is requested while it is being defined is circular, and nothing changes. -/
theorem define_of_mem (hnew : r.loaded[(loader, name)]? = none) (h : (loader, name) ∈ stack) :
    define paths stack loader name r = .error (.classCircularity name) r := by
  rw [define, bind_of_ok (get_eq r), hnew]
  dsimp only
  rw [dif_pos h]
  rfl

/-- A class that is not being defined is defined with itself on the stack. -/
theorem define_of_fresh (hnew : r.loaded[(loader, name)]? = none) (h : (loader, name) ∉ stack) :
    define paths stack loader name r =
      Linker.recorded (loader, name) (defineBy paths (load paths ((loader, name) :: stack)) loader name) r := by
  rw [define, bind_of_ok (get_eq r), hnew]
  dsimp only
  rw [dif_neg h]
  by_cases harray : isArrayName name = true
  · rw [dif_pos harray, defineBy, if_pos harray]
    refine congrArg (fun x => Linker.recorded (loader, name) x r) ?_
    dsimp only
    generalize elementName? name = element
    rcases element with _ | _ | _ <;> rfl
  · rw [dif_neg harray, defineBy, if_neg harray]
    refine congrArg (fun x => Linker.recorded (loader, name) x r) ?_
    split <;> rename_i hfind <;> rw [hfind]

end

end Jvm.Linking
