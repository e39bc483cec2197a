import Mathlib
import Jvm.Proofs.Linking.Cycles
import Jvm.Proofs.Linking.Identity

/-! # Loading ends

`defineWithin` is loading with a limit: it gives up where definitions are nested deeper than the limit, and
where a class is to be defined again while its definition runs. With a limit that is high enough it never
gives up (`nests_load`), so loading ends and defines no class within itself. -/

namespace Jvm.Linking

open ClassFile Assembly Relation

/-! ## Loading with a limit -/

/-- How a class is found for a loader, with what the loaders define. -/
def loadBy (define : Loader → String → Linker ClassId) (loader : Loader) (name : String) : Linker ClassId :=
  match loader with
  | .boot => define .boot name
  | .app =>
    tryCatch (define .boot name) fun e =>
      match e with
      | .classNotFound _ => define .app name
      | e => throw e

/-- What is recorded under a key, or what a computation comes to. -/
def Linker.recall (key : Key) (x : Linker ClassId) : Linker ClassId := do
  match (← get).loaded[key]? with
  | some outcome => Linker.ofExcept outcome
  | none => x

/-- The class that a loader defines under a name while the definitions of the `running` classes are under way,
with a way to come to the definitions inside; `lost` is what happens where one of these classes is to be defined
again. -/
def defineStep (paths : ClassPaths) (lost : Linker ClassId)
    (inside : List Key → List Key → Loader → String → Linker ClassId) (running stack : List Key)
    (loader : Loader) (name : String) : Linker ClassId :=
  Linker.recall (loader, name) <|
    if stack.contains (loader, name) then throw (.classCircularity name)
    else if running.contains (loader, name) then lost
    else
      Linker.recorded (loader, name) <|
        defineBy paths (loadBy (inside ((loader, name) :: running) ((loader, name) :: stack))) loader name

/-- The class that a loader defines under a name; `lost` also happens where definitions are nested too deeply. -/
def defineWithin (paths : ClassPaths) (lost : Linker ClassId) (depth : Nat) :
    List Key → List Key → Loader → String → Linker ClassId :=
  (defineStep paths lost)^[depth] fun _ _ _ _ => lost

variable {paths : ClassPaths} {lost : Linker ClassId} {depth : Nat} {running stack : List Key} {loader : Loader}
  {name : String} {r : Registry}

theorem defineWithin_succ : defineWithin paths lost (depth + 1) running stack loader name =
    defineStep paths lost (defineWithin paths lost depth) running stack loader name := by
  rw [defineWithin, Function.iterate_succ_apply', defineWithin]

theorem defineWithin_of_recorded {outcome : Except Fault ClassId} (h : r.loaded[(loader, name)]? = some outcome) :
    defineWithin paths lost (depth + 1) running stack loader name r = Linker.ofExcept outcome r := by
  rw [defineWithin_succ, defineStep, Linker.recall, bind_of_ok (get_eq r), h]

theorem defineWithin_of_mem (hnew : r.loaded[(loader, name)]? = none) (h : (loader, name) ∈ stack) :
    defineWithin paths lost (depth + 1) running stack loader name r = .error (.classCircularity name) r := by
  rw [defineWithin_succ, defineStep, Linker.recall, bind_of_ok (get_eq r), hnew,
    if_pos (List.contains_iff_mem.2 h)]
  rfl

theorem defineWithin_of_fresh (hnew : r.loaded[(loader, name)]? = none) (h : (loader, name) ∉ stack)
    (hrunning : (loader, name) ∉ running) :
    defineWithin paths lost (depth + 1) running stack loader name r =
      Linker.recorded (loader, name) (defineBy paths
        (loadBy (defineWithin paths lost depth ((loader, name) :: running) ((loader, name) :: stack)))
        loader name) r := by
  rw [defineWithin_succ, defineStep, Linker.recall, bind_of_ok (get_eq r), hnew,
    if_neg (mt List.contains_iff_mem.1 h), if_neg (mt List.contains_iff_mem.1 hrunning)]

/-! ## Limits that are high enough -/

namespace Linker

variable {α β γ : Type} {x : Linker α} {x' : Nat → Linker ClassId → Linker α} {g : α → Linker β}
  {g' : α → Nat → Linker ClassId → Linker β}

/-- Whether a computation with a limit comes to what it comes to without, if the limit is high enough. -/
def Nests (x : Linker α) (x' : Nat → Linker ClassId → Linker α) (r : Registry) : Prop :=
  ∃ depth, ∀ n ≥ depth, ∀ lost, x' n lost r = x r

theorem nests_refl (x : Linker α) (r : Registry) : Nests x (fun _ _ => x) r := ⟨0, fun _ _ _ => rfl⟩

theorem Nests.bind (hx : Nests x x' r) (hg : ∀ a r', x r = .ok a r' → Nests (g a) (g' a) r') :
    Nests (x >>= g) (fun n lost => x' n lost >>= (g' · n lost)) r := by
  obtain ⟨d, hd⟩ := hx
  rcases h : x r with ⟨a, r'⟩ | ⟨e, r'⟩
  · obtain ⟨d', hd'⟩ := hg a r' h
    refine ⟨max d d', fun n hn lost => ?_⟩
    have hrun : x' n lost r = .ok a r' := (hd n ((le_max_left ..).trans hn) lost).trans h
    exact (bind_of_ok hrun).trans ((hd' n ((le_max_right ..).trans hn) lost).trans (bind_of_ok h).symm)
  · exact ⟨d, fun n hn lost => (bind_of_error ((hd n hn lost).trans h)).trans (bind_of_error h).symm⟩

theorem Nests.tryCatch {h : Fault → Linker α} {h' : Fault → Nat → Linker ClassId → Linker α}
    (hx : Nests x x' r) (hh : ∀ e r', x r = .error e r' → Nests (h e) (h' e) r') :
    Nests (tryCatch x h) (fun n lost => tryCatch (x' n lost) (h' · n lost)) r := by
  obtain ⟨d, hd⟩ := hx
  rcases hrun : x r with ⟨a, r'⟩ | ⟨e, r'⟩
  · exact ⟨d, fun n hn lost => (tryCatch_of_ok ((hd n hn lost).trans hrun)).trans (tryCatch_of_ok hrun).symm⟩
  · obtain ⟨d', hd'⟩ := hh e r' hrun
    refine ⟨max d d', fun n hn lost => ?_⟩
    have hrun' : x' n lost r = .error e r' := (hd n ((le_max_left ..).trans hn) lost).trans hrun
    exact (tryCatch_of_error hrun').trans
      ((hd' n ((le_max_right ..).trans hn) lost).trans (tryCatch_of_error hrun).symm)

theorem Nests.map (f : α → β) (hx : Nests x x' r) : Nests (f <$> x) (fun n lost => f <$> x' n lost) r := by
  obtain ⟨d, hd⟩ := hx
  refine ⟨d, fun n hn lost => ?_⟩
  change EStateM.map f _ r = EStateM.map f _ r
  rw [EStateM.map, EStateM.map, hd n hn lost]

theorem Nests.recorded (key : Key) {x : Linker ClassId} {x' : Nat → Linker ClassId → Linker ClassId}
    (hx : Nests x x' r) : Nests (Linker.recorded key x) (fun n lost => Linker.recorded key (x' n lost)) r := by
  obtain ⟨d, hd⟩ := hx
  refine ⟨d, fun n hn lost => ?_⟩
  rcases h : x r with ⟨id, r'⟩ | ⟨e, r'⟩
  · exact (recorded_of_ok ((hd n hn lost).trans h)).trans (recorded_of_ok h).symm
  · exact (recorded_of_error ((hd n hn lost).trans h)).trans (recorded_of_error h).symm

theorem nests_mapM {f : γ → Linker α} {f' : γ → Nat → Linker ClassId → Linker α}
    (hf : ∀ c r, Nests (f c) (f' c) r) : ∀ (cs : List γ) (r : Registry),
      Nests (cs.mapM f) (fun n lost => cs.mapM (f' · n lost)) r
  | [], r => nests_refl _ r
  | c :: cs, r => by
    simp only [List.mapM_cons]
    refine (hf c r).bind fun a r' _ => ?_
    exact (nests_mapM hf cs r').bind fun as r'' _ => nests_refl _ r''

end Linker

section

variable {load : String → Linker ClassId} {load' : String → Nat → Linker ClassId → Linker ClassId}
  (hload : ∀ n r, Linker.Nests (load n) (load' n) r)

include hload

theorem nests_linkSuperclass (c : ClassFile) (r : Registry) : Linker.Nests (linkSuperclass load name c)
    (fun n lost => linkSuperclass (load' · n lost) name c) r := by
  refine (Linker.nests_refl _ r).bind fun superName r' _ => ?_
  cases superName with
  | none => exact Linker.nests_refl _ r'
  | some s => exact (hload s r').bind fun _ r'' _ => Linker.nests_refl _ r''

theorem nests_linkInterface (n : String) (r : Registry) : Linker.Nests (linkInterface load name n)
    (fun k lost => linkInterface (load' · k lost) name n) r :=
  (hload n r).bind fun _ r' _ => Linker.nests_refl _ r'

theorem nests_link (c : ClassFile) (r : Registry) : Linker.Nests (link load loader name c)
    (fun n lost => link (load' · n lost) loader name c) r := by
  refine (Linker.nests_refl _ r).bind fun given r' _ => ?_
  by_cases hgiven : (given != name) = true
  · simp only [hgiven, if_true]
    exact Linker.nests_refl _ r'
  · simp only [hgiven]
    refine (nests_linkSuperclass hload c r').bind fun superclass r₁ _ => ?_
    refine (Linker.nests_refl _ r₁).bind fun interfaceNames r₂ _ => ?_
    refine (Linker.nests_mapM (fun n r => nests_linkInterface hload n r) interfaceNames r₂).bind
      fun interfaces r₃ _ => ?_
    exact Linker.nests_refl _ r₃

end

section

variable {load : Loader → String → Linker ClassId}
  {load' : Loader → String → Nat → Linker ClassId → Linker ClassId}

/-- The definition of a class file asks for its superclass and its superinterfaces. -/
theorem nests_defineBy_of_file (harray : isArrayName name = false)
    (hload : ∀ bytes, (paths.ofLoader loader).find name = .ok (some bytes) →
      ∀ n r, Linker.Nests (load loader n) (load' loader n) r) (r : Registry) :
    Linker.Nests (defineBy paths load loader name) (fun n lost => defineBy paths (load' · · n lost) loader name) r := by
  have hplain : ¬ isArrayName name = true := by simp [harray]
  simp only [defineBy, if_neg hplain]
  split
  · exact Linker.nests_refl _ r
  · exact Linker.nests_refl _ r
  · next bytes hfind =>
    refine (Linker.nests_refl _ r).bind fun c r' _ => ?_
    exact nests_link (hload bytes hfind) c r'

/-- The definition of an array class asks for the class of its elements and the classes above all arrays. -/
theorem nests_defineBy_of_array (harray : isArrayName name = true)
    (hcore : ∀ n, isArrayName n = false → ∀ r, Linker.Nests (load .boot n) (load' .boot n) r)
    (hboot : loader = .app → ∀ r, Linker.Nests (load .boot name) (load' .boot name) r)
    (helement : ∀ element, elementName? name = some (.reference element) →
      ∀ r, Linker.Nests (load loader element) (load' loader element) r) (r : Registry) :
    Linker.Nests (defineBy paths load loader name) (fun n lost => defineBy paths (load' · · n lost) loader name) r := by
  simp only [defineBy, if_pos harray]
  have hlink : ∀ (component : Component) (r : Registry), Linker.Nests
      (load .boot objectName >>= fun object => load .boot CoreClasses.cloneableName >>= fun cloneable =>
        load .boot CoreClasses.serializableName >>= fun serializable =>
          linkArray loader name component object cloneable serializable)
      (fun n lost => load' .boot objectName n lost >>= fun object =>
        load' .boot CoreClasses.cloneableName n lost >>= fun cloneable =>
          load' .boot CoreClasses.serializableName n lost >>= fun serializable =>
            linkArray loader name component object cloneable serializable) r := by
    intro component r
    refine (hcore objectName (by decide) r).bind fun o r₁ _ => ?_
    refine (hcore CoreClasses.cloneableName (by decide) r₁).bind fun i r₂ _ => ?_
    exact (hcore CoreClasses.serializableName (by decide) r₂).bind fun j r₃ _ => Linker.nests_refl _ r₃
  cases hp : elementName? name with
  | none => exact Linker.nests_refl _ r
  | some element =>
    cases element with
    | primitive type =>
      cases loader with
      | boot => exact hlink (.primitive type) r
      | app =>
        refine ((hboot rfl r).map Sum.inr).bind fun component r' _ => ?_
        cases component with
        | inr id => exact Linker.nests_refl _ r'
        | inl component => exact hlink component r'
    | reference element =>
      refine (helement element hp r).bind fun e r₁ _ => ?_
      refine (Linker.nests_refl _ r₁).bind fun d r₂ _ => ?_
      cases hl : d.loader <;> cases loader
      case boot.app =>
        refine ((hboot rfl r₂).map Sum.inr).bind fun component r' _ => ?_
        cases component with
        | inr id => exact Linker.nests_refl _ r'
        | inl component => exact hlink component r'
      all_goals exact hlink (.reference e) r₂

end

mutual

/-- A request is nested to some depth only, and defines no class while its definition runs. -/
theorem nests_load (paths : ClassPaths) (running stack : List Key) (hrunning : running ⊆ stack)
    (loader : Loader) (name : String) (r : Registry) : Linker.Nests (load paths stack loader name)
      (fun n lost => loadBy (defineWithin paths lost n running stack) loader name) r := by
  cases loader with
  | boot =>
    rw [load]
    exact nests_define paths running stack hrunning .boot name r
  | app =>
    rw [load]
    refine (nests_define paths running stack hrunning .boot name r).tryCatch fun e r' _ => ?_
    cases e
    case classNotFound text => exact nests_define paths running stack hrunning .app name r'
    all_goals exact Linker.nests_refl _ r'
termination_by (paths.idle stack, weight name, loadRank loader)
decreasing_by
  all_goals
    subst_vars
    exact lex_of_le (Nat.le_refl _) (.right _ (by simp [loadRank, defineRank]))

theorem nests_define (paths : ClassPaths) (running stack : List Key) (hrunning : running ⊆ stack)
    (loader : Loader) (name : String) (r : Registry) : Linker.Nests (define paths stack loader name)
      (fun n lost => defineWithin paths lost n running stack loader name) r := by
  cases hnew : r.loaded[(loader, name)]? with
  | some outcome =>
    refine ⟨1, fun n hn lost => ?_⟩
    obtain ⟨n, rfl⟩ := Nat.exists_eq_add_of_le' hn
    exact (defineWithin_of_recorded hnew).trans (define_of_recorded hnew).symm
  | none =>
    by_cases hfresh : (loader, name) ∈ stack
    · refine ⟨1, fun n hn lost => ?_⟩
      obtain ⟨n, rfl⟩ := Nat.exists_eq_add_of_le' hn
      exact (defineWithin_of_mem hnew hfresh).trans (define_of_mem hnew hfresh).symm
    have hinner : (loader, name) :: running ⊆ (loader, name) :: stack := List.cons_subset_cons _ hrunning
    have hbody : Linker.Nests (defineBy paths (load paths ((loader, name) :: stack)) loader name)
        (fun n lost => defineBy paths (loadBy
          (defineWithin paths lost n ((loader, name) :: running) ((loader, name) :: stack))) loader name) r := by
      by_cases harray : isArrayName name = true
      · exact nests_defineBy_of_array harray (fun n hn r => nests_load paths _ _ hinner .boot n r)
          (fun happ r => nests_load paths _ _ hinner .boot name r)
          (fun element helement r => nests_load paths _ _ hinner loader element r) r
      · exact nests_defineBy_of_file (by simpa using harray)
          (fun bytes hfind n r => nests_load paths _ _ hinner loader n r) r
    obtain ⟨d, hd⟩ := hbody.recorded (loader, name)
    refine ⟨d + 1, fun n hn lost => ?_⟩
    obtain ⟨n, rfl⟩ := Nat.exists_eq_add_of_le' (Nat.le_of_add_left_le hn)
    exact (defineWithin_of_fresh hnew hfresh fun h => hfresh (hrunning h)).trans
      ((hd n (by omega) lost).trans (define_of_fresh hnew hfresh).symm)
termination_by (paths.idle stack, weight name, defineRank loader)
decreasing_by
  · exact lex_of_le (paths.idle_cons_le _ _)
      (.left _ _ (by rw [weight_eq_zero hn]; exact weight_pos harray))
  · subst happ
    exact lex_of_le (paths.idle_cons_le _ _) (.right _ (by simp [loadRank, defineRank]))
  · exact lex_of_le (paths.idle_cons_le _ _) (.left _ _ (weight_lt_of_elementName? helement))
  · exact .left _ _ (ClassPaths.idle_cons_lt hfresh hfind)

end

/-! ## Classes that load -/

/-- Whether the classes above a class are there up to the object class. -/
structure Registry.Rooted (r : Registry) (id : ClassId) : Prop where
  chain : ∃ o d, (r.table.chain id).getLast? = some o ∧ r.table.class? o = some d ∧ d.name = objectName ∧
    d.superclass = none
  loaded : ∀ b ∈ r.table.chain id, ∀ i, r.table.reachesInterface b i = true →
    ∃ c, r.table.class? i = some c ∧ r.loaded[(c.loader, c.name)]? = some (.ok i)

theorem Registry.Linked.rooted (hr : r.Linked) {id : ClassId} {c : LinkedClass}
    (hc : r.table.class? id = some c) : r.Rooted id where
  chain := by
    obtain ⟨o, d, hlast, hd, hnone⟩ := ClassTable.exists_last hc
    have hplain := hr.component?_eq_none_of_superclass hd hnone
    exact ⟨o, d, hlast, hd, ((hr.shape o d hd).plain hplain).superclass.1 hnone, hnone⟩
  loaded b hb i hi := by
    have hle := (ClassTable.le_of_reachesInterface hi).trans (ClassTable.le_of_mem_chain hb)
    obtain ⟨d, hd⟩ := ClassTable.class?_of_lt (hle.trans_lt (ClassTable.lt_of_class? hc))
    exact ⟨d, hd, hr.found i d hd⟩

/-- What a program can rely on where classes may depend on themselves. -/
structure ClassPaths.Grounded (paths : ClassPaths) : Prop where
  -- A request ends: definitions are nested to some depth only, and no class is defined again while its
  -- definition runs.
  ends : ∀ loader name r, ∃ depth, ∀ n ≥ depth, ∀ lost,
    loadBy (defineWithin paths lost n [] []) loader name r = loadClass paths loader name r
  fails : ∀ keys key outcome, Cyclic paths.Needs (paths.request key.1 key.2) →
    (key, outcome) ∈ paths.outcomes .empty keys → ∃ e, outcome = .error e
  circular : ∀ keys key outcome, Cyclic paths.Awaits (paths.request key.1 key.2) →
    (key, outcome) ∈ paths.outcomes .empty keys → ∃ name, outcome = .error (.classCircularity name)
  -- A class that loads has the object class at the end of its superclass chain, and all that is above it
  -- has loaded.
  rooted : ∀ keys loader name id r, loadClass paths loader name (paths.after keys) = .ok id r → r.Rooted id

/-- **Loading ends, and classes that depend on themselves fail.** -/
theorem grounded (paths : ClassPaths) : paths.Grounded where
  ends loader name r := nests_load paths [] [] (List.Subset.refl _) loader name r
  fails keys key outcome hcyclic h := error_of_cyclic
    (settles_of_mem_outcomes Registry.wellFormed_empty (Registry.faithful_empty paths) h) hcyclic
  circular keys key outcome hcyclic h := circular_of_cyclic
    (settles_of_mem_outcomes Registry.wellFormed_empty (Registry.faithful_empty paths) h) hcyclic
  rooted keys loader name id r h := by
    have hloads := (meets_load paths [] loader name (wellFormed_after paths keys).linked).of_eq_ok h
    obtain ⟨hgrows, c, hc, -⟩ := hloads
    exact hgrows.linked.rooted hc

end Jvm.Linking
