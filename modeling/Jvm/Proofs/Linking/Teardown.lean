import Mathlib
import Jvm.Proofs.Linking.Order
import Jvm.Proofs.Linking.Sessions

/-! # Registries that were torn down

After a teardown the classes there were keep their numbers, but the registry no longer finds them.
`Registry.Behind` says that a registry has the classes of another one behind `b` such classes. What is asked
of both comes to the same but for the numbers (`moves_load`), so that a registry always has the classes of
one that was never torn down behind those that it has forgotten (`regrown_after`). -/

namespace Jvm.Linking

open ClassFile Assembly

variable {b : Nat} {r₀ r : Registry}

/-- Whether two failures are the same, or tell of some class number each. -/
inductive Fault.Like : Fault → Fault → Prop
  | same (e : Fault) : Fault.Like e e
  | internal (text text' : String) : Fault.Like (.internal text) (.internal text')

/-- Whether an outcome is another one with its class behind `b` others. -/
inductive Moved (b : Nat) : Except Fault ClassId → Except Fault ClassId → Prop
  | ok (id : ClassId) : Moved b (.ok id) (.ok (id + b))
  | error {e₀ e : Fault} (h : Fault.Like e₀ e) : Moved b (.error e₀) (.error e)

/-- Whether a table has the classes of another one behind `b` others. -/
def ClassTable.Behind (b : Nat) (t₀ t : ClassTable) : Prop :=
  ∀ id, t.class? (id + b) = (t₀.class? id).map (·.renumber (· + b))

/-- Whether a registry has the classes of another one behind `b` classes that it does not find. -/
structure Registry.Behind (b : Nat) (r₀ r : Registry) : Prop where
  size : r.table.size = r₀.table.size + b
  classes : ClassTable.Behind b r₀.table r.table
  loaded : ∀ key : Key, Option.Rel (Moved b) r₀.loaded[key]? r.loaded[key]?

namespace Registry

theorem Behind.congr {r₀' r' : Registry} (h : r₀.Behind b r) (h₀ : r₀'.table = r₀.table)
    (hloaded₀ : r₀'.loaded = r₀.loaded) (htable : r'.table = r.table) (hloaded : r'.loaded = r.loaded) :
    r₀'.Behind b r' := by
  refine ⟨?_, fun id => ?_, fun key => ?_⟩
  · rw [h₀, htable]
    exact h.size
  · rw [h₀, htable]
    exact h.classes id
  · rw [hloaded₀, hloaded]
    exact h.loaded key

/-- Loading has come to a class where it has in the other registry. -/
theorem Behind.loaded_ok_iff (h : r₀.Behind b r) {key : Key} {id : ClassId} :
    r.loaded[key]? = some (.ok id) ↔ ∃ id₀, r₀.loaded[key]? = some (.ok id₀) ∧ id = id₀ + b := by
  have hloaded := h.loaded key
  constructor
  · intro hkey
    rw [hkey] at hloaded
    generalize r₀.loaded[key]? = outcome₀ at hloaded
    obtain ⟨⟨id₀⟩⟩ := hloaded
    exact ⟨id₀, rfl, rfl⟩
  · rintro ⟨id₀, hkey₀, rfl⟩
    rw [hkey₀] at hloaded
    generalize r.loaded[key]? = outcome at hloaded
    obtain ⟨⟨⟩⟩ := hloaded
    rfl

/-- A registry that has forgotten its classes is an empty one behind them. -/
theorem behind_teardown (r : Registry) (held : List ClassId) :
    Registry.empty.Behind r.table.size (r.teardown held) where
  size := (Nat.zero_add _).symm
  classes id := by
    have hnone : (r.teardown held).table.class? (id + r.table.size) = none :=
      Array.getElem?_eq_none_iff.2 (Nat.le_add_left ..)
    rw [hnone]
    rfl
  loaded key := by
    simp only [empty, teardown, Std.HashMap.getElem?_empty]
    exact .none

theorem behind_empty : Registry.empty.Behind 0 .empty where
  size := rfl
  classes id := by simp [empty, ClassTable.class?, ClassTable.empty]
  loaded key := by
    simp only [empty, Std.HashMap.getElem?_empty]
    exact .none

theorem parents_renumber (f : ClassId → ClassId) (c : LinkedClass) :
    (c.renumber f).parents = c.parents.map f := by
  cases hkind : c.kind with
  | array component =>
    cases component <;> cases hs : c.superclass <;>
      simp [LinkedClass.parents, LinkedClass.renumber, ClassKind.renumber, Component.renumber, hkind, hs]
  | _ =>
    cases hs : c.superclass <;>
      simp [LinkedClass.parents, LinkedClass.renumber, ClassKind.renumber, hkind, hs]

theorem Behind.known_iff (h : r₀.Behind b r) (c : LinkedClass) :
    (∀ p ∈ (c.renumber (· + b)).parents, p < r.table.size) ↔ ∀ p ∈ c.parents, p < r₀.table.size := by
  rw [parents_renumber, List.forall_mem_map, h.size]
  simp only [Nat.add_lt_add_iff_right]

theorem Behind.push (h : r₀.Behind b r) {c : LinkedClass} (known₀ : ∀ p ∈ c.parents, p < r₀.table.size)
    (known : ∀ p ∈ (c.renumber (· + b)).parents, p < r.table.size) (states₀ states : Array ClassState) :
    Behind b { r₀ with table := r₀.table.push c known₀, states := states₀ }
      { r with table := r.table.push (c.renumber (· + b)) known, states } where
  size := by
    simp only [ClassTable.size, ClassTable.push, Array.size_push]
    have := h.size
    unfold ClassTable.size at this
    omega
  classes id := by
    rw [ClassTable.class?_push, ClassTable.class?_push, h.size]
    by_cases hid : id = r₀.table.size
    · have hlast : id + b = r₀.table.size + b := congrArg (· + b) hid
      rw [if_pos hlast, if_pos hid]
      rfl
    · have hother : id + b ≠ r₀.table.size + b := fun h => hid (Nat.add_right_cancel h)
      rw [if_neg hother, if_neg hid]
      exact h.classes id
  loaded := h.loaded

theorem Behind.remember (h : r₀.Behind b r) (key : Key) {o₀ o : Except Fault ClassId} (ho : Moved b o₀ o) :
    (r₀.remember key o₀).Behind b (r.remember key o) where
  size := h.size
  classes := h.classes
  loaded key' := by
    rw [loaded_remember, loaded_remember]
    split
    · exact .some ho
    · exact h.loaded key'

end Registry

/-! ## Computations on both registries -/

namespace Linker

variable {α α' β β' γ : Type} {x₀ y₀ : Linker α} {x y : Linker α'} {F : α → α'} {G : β → β'}

/-- Whether two computations lead from one registry and from another one behind other classes to registries
of this kind, with results that correspond. -/
def Moves (b : Nat) (F : α → α') (x₀ : Linker α) (x : Linker α') (r₀ r : Registry) : Prop :=
  match x₀ r₀ with
  | .ok a r₀' => ∃ r', x r = .ok (F a) r' ∧ r₀'.Behind b r'
  | .error e₀ r₀' => ∃ e r', x r = .error e r' ∧ Fault.Like e₀ e ∧ r₀'.Behind b r'

theorem moves_of_ok {a : α} {r₀' r' : Registry} (h₀ : x₀ r₀ = .ok a r₀') (h : x r = .ok (F a) r')
    (hr : r₀'.Behind b r') : Moves b F x₀ x r₀ r := by
  unfold Moves
  rw [h₀]
  exact ⟨r', h, hr⟩

theorem moves_of_error {e₀ e : Fault} {r₀' r' : Registry} (h₀ : x₀ r₀ = .error e₀ r₀')
    (h : x r = .error e r') (he : Fault.Like e₀ e) (hr : r₀'.Behind b r') : Moves b F x₀ x r₀ r := by
  unfold Moves
  rw [h₀]
  exact ⟨e, r', h, he, hr⟩

theorem Moves.of_eq_ok (hx : Moves b F x₀ x r₀ r) {a : α} {r₀' : Registry} (h : x₀ r₀ = .ok a r₀') :
    ∃ r', x r = .ok (F a) r' ∧ r₀'.Behind b r' := by
  unfold Moves at hx
  rwa [h] at hx

theorem Moves.of_eq_error (hx : Moves b F x₀ x r₀ r) {e₀ : Fault} {r₀' : Registry}
    (h : x₀ r₀ = .error e₀ r₀') :
    ∃ e r', x r = .error e r' ∧ Fault.Like e₀ e ∧ r₀'.Behind b r' := by
  unfold Moves at hx
  rwa [h] at hx

/-- Where the two computations lead to. -/
theorem Moves.leads (hx : Moves b F x₀ x r₀ r) : (x₀.leads r₀).Behind b (x.leads r) := by
  rw [Linker.leads, Linker.leads]
  rcases h₀ : x₀ r₀ with ⟨a, r₀'⟩ | ⟨e₀, r₀'⟩
  · obtain ⟨r', h, hr⟩ := hx.of_eq_ok h₀
    rw [h]
    exact hr
  · obtain ⟨e, r', h, -, hr⟩ := hx.of_eq_error h₀
    rw [h]
    exact hr

theorem Moves.of_eq {s₀ s : Registry} (hx : Moves b F x₀ x r₀ r) (h₀ : y₀ s₀ = x₀ r₀) (h : y s = x r) :
    Moves b F y₀ y s₀ s := by
  unfold Moves
  rw [h₀, h]
  exact hx

theorem Moves.bind {g₀ : α → Linker β} {g : α' → Linker β'} (hx : Moves b F x₀ x r₀ r)
    (hg : ∀ a r₀' r', r₀'.Behind b r' → Moves b G (g₀ a) (g (F a)) r₀' r') :
    Moves b G (x₀ >>= g₀) (x >>= g) r₀ r := by
  rcases h₀ : x₀ r₀ with ⟨a, r₀'⟩ | ⟨e₀, r₀'⟩
  · obtain ⟨r', h, hr⟩ := hx.of_eq_ok h₀
    exact (hg a r₀' r' hr).of_eq (bind_of_ok h₀) (bind_of_ok h)
  · obtain ⟨e, r', h, he, hr⟩ := hx.of_eq_error h₀
    exact moves_of_error (bind_of_error h₀) (bind_of_error h) he hr

theorem Moves.tryCatch {h₀ : Fault → Linker α} {h : Fault → Linker α'} (hx : Moves b F x₀ x r₀ r)
    (hh : ∀ e₀ e r₀' r', Fault.Like e₀ e → r₀'.Behind b r' → Moves b F (h₀ e₀) (h e) r₀' r') :
    Moves b F (tryCatch x₀ h₀) (tryCatch x h) r₀ r := by
  rcases hrun₀ : x₀ r₀ with ⟨a, r₀'⟩ | ⟨e₀, r₀'⟩
  · obtain ⟨r', hrun, hr⟩ := hx.of_eq_ok hrun₀
    exact moves_of_ok (tryCatch_of_ok hrun₀) (tryCatch_of_ok hrun) hr
  · obtain ⟨e, r', hrun, he, hr⟩ := hx.of_eq_error hrun₀
    exact (hh e₀ e r₀' r' he hr).of_eq (tryCatch_of_error hrun₀) (tryCatch_of_error hrun)

theorem moves_pure (hr : r₀.Behind b r) (F : α → α') (a : α) :
    Moves b F (pure a) (pure (F a)) r₀ r :=
  moves_of_ok rfl rfl hr

theorem moves_throw (hr : r₀.Behind b r) (F : α → α') {e₀ e : Fault} (he : Fault.Like e₀ e) :
    Moves b F (throw e₀) (throw e) r₀ r :=
  moves_of_error rfl rfl he hr

theorem moves_ofExcept (hr : r₀.Behind b r) (F : α → α') (o : Except Fault α) :
    Moves b F (ofExcept o) (ofExcept (o.map F)) r₀ r := by
  cases o with
  | ok a => exact moves_pure hr F a
  | error e => exact moves_throw hr F (.same e)

theorem moves_ofExcept_same (hr : r₀.Behind b r) (o : Except Fault α) :
    Moves b (fun a => a) (ofExcept o) (ofExcept o) r₀ r := by
  have h := moves_ofExcept hr (fun a => a) o
  rwa [show o.map (fun a => a) = o by cases o <;> rfl] at h

theorem moves_getClass (hr : r₀.Behind b r) (id : ClassId) :
    Moves b (·.renumber (· + b)) (getClass id) (getClass (id + b)) r₀ r := by
  have hclass : r.class? (id + b) = (r₀.class? id).map (·.renumber (· + b)) := hr.classes id
  cases hc : r₀.class? id with
  | some c =>
    rw [hc] at hclass
    refine moves_of_ok (a := c) ?_ ?_ hr
    · rw [getClass, bind_of_ok (get_eq r₀), hc]
      rfl
    · rw [getClass, bind_of_ok (get_eq r), hclass]
      rfl
  | none =>
    rw [hc] at hclass
    refine moves_of_error ?_ ?_ (.internal ("no class numbered " ++ toString id)
      ("no class numbered " ++ toString (id + b))) hr
    · rw [getClass, bind_of_ok (get_eq r₀), hc]
      rfl
    · rw [getClass, bind_of_ok (get_eq r), hclass]
      rfl

theorem moves_publish (hr : r₀.Behind b r) (c : LinkedClass) (init : InitState) (statics : Array Value) :
    Moves b (· + b) (publish c init statics) (publish (c.renumber (· + b)) init statics) r₀ r := by
  by_cases known₀ : ∀ p ∈ c.parents, p < r₀.table.size
  · have known := (hr.known_iff c).2 known₀
    have hrun := publish_of_known init statics known
    rw [hr.size] at hrun
    exact moves_of_ok (publish_of_known init statics known₀) hrun (hr.push known₀ known _ _)
  · have known := mt (hr.known_iff c).1 known₀
    refine moves_of_error ?_ ?_ (.same (.internal ("class " ++ c.name ++ " is linked before its parents"))) hr
    · rw [publish, bind_of_ok (get_eq r₀), Registry.add, dif_neg known₀]
      rfl
    · rw [publish, bind_of_ok (get_eq r), Registry.add, dif_neg known]
      rfl

theorem moves_mapM {P : γ → γ → Prop} {f₀ : γ → Linker α} {f : γ → Linker α'}
    (hf : ∀ c₀ c, P c₀ c → ∀ r₀ r, r₀.Behind b r → Moves b F (f₀ c₀) (f c) r₀ r) :
    ∀ {cs₀ cs : List γ} {r₀ r : Registry}, List.Forall₂ P cs₀ cs → r₀.Behind b r →
      Moves b (List.map F) (cs₀.mapM f₀) (cs.mapM f) r₀ r
  | _, _, _, _, .nil, hr => moves_pure hr (List.map F) []
  | _, _, _, _, .cons hc hcs, hr => by
    rw [List.mapM_cons, List.mapM_cons]
    refine (hf _ _ hc _ _ hr).bind fun a r₁₀ r₁ hr₁ => ?_
    refine (moves_mapM hf hcs hr₁).bind fun as r₂₀ r₂ hr₂ => ?_
    exact moves_pure hr₂ (List.map F) (a :: as)

/-- A computation whose outcome is recorded. -/
theorem Moves.recorded {x₀ x : Linker ClassId} (hx : Moves b (· + b) x₀ x r₀ r) (key : Key) :
    Moves b (· + b) (Linker.recorded key x₀) (Linker.recorded key x) r₀ r := by
  rcases h₀ : x₀ r₀ with ⟨id, r₀'⟩ | ⟨e₀, r₀'⟩
  · obtain ⟨r', h, hr⟩ := hx.of_eq_ok h₀
    exact moves_of_ok (recorded_of_ok h₀) (recorded_of_ok h) (hr.remember key (.ok id))
  · obtain ⟨e, r', h, he, hr⟩ := hx.of_eq_error h₀
    exact moves_of_error (recorded_of_error h₀) (recorded_of_error h) he (hr.remember key (.error he))

end Linker

/-! ## Linking -/

theorem injective_add (b : Nat) : Function.Injective (· + b : ClassId → ClassId) := fun _ _ h =>
  Nat.add_right_cancel h

/-- A class with its number, behind other classes. -/
def movedPair (b : Nat) (p : ClassId × LinkedClass) : ClassId × LinkedClass :=
  (p.1 + b, p.2.renumber (· + b))

theorem moves_numbered (hr : r₀.Behind b r) (id : ClassId) :
    Linker.Moves b (movedPair b) (Linker.numbered id) (Linker.numbered (id + b)) r₀ r := by
  refine (Linker.moves_getClass hr id).bind fun c r₁₀ r₁ hr₁ => ?_
  exact Linker.moves_pure hr₁ (movedPair b) (id, c)

theorem moves_numbered_option (hr : r₀.Behind b r) (s : Option ClassId) :
    Linker.Moves b (Option.map (movedPair b)) (s.mapM Linker.numbered)
      ((s.map (· + b)).mapM Linker.numbered) r₀ r := by
  cases s with
  | none => exact Linker.moves_pure hr (Option.map (movedPair b)) none
  | some id =>
    refine (moves_numbered hr id).bind fun p r₁₀ r₁ hr₁ => ?_
    exact Linker.moves_pure hr₁ (Option.map (movedPair b)) (some p)

theorem moves_numbered_list (hr : r₀.Behind b r) (ids : List ClassId) :
    Linker.Moves b (List.map (movedPair b)) (ids.mapM Linker.numbered)
      ((ids.map (· + b)).mapM Linker.numbered) r₀ r := by
  have hids : List.Forall₂ (fun id₀ id => id = id₀ + b) ids (ids.map (· + b)) := by
    rw [List.forall₂_map_right_iff]
    exact List.forall₂_same.2 fun _ _ => rfl
  refine Linker.moves_mapM (fun id₀ id hid r₀ r hr => ?_) hids hr
  rw [hid]
  exact moves_numbered hr id₀

section

variable {load : String → Linker ClassId} {loader : Loader} {name : String}
  (hload : ∀ n r₀ r, r₀.Behind b r → Linker.Moves b (· + b) (load n) (load n) r₀ r)

include hload

theorem moves_linkSuperclass (hr : r₀.Behind b r) (c : ClassFile) :
    Linker.Moves b (Option.map (· + b)) (linkSuperclass load name c) (linkSuperclass load name c) r₀ r := by
  refine (Linker.moves_ofExcept_same hr _).bind fun superName r₁₀ r₁ hr₁ => ?_
  cases superName with
  | some superName =>
    refine (hload superName _ _ hr₁).bind fun id r₂₀ r₂ hr₂ => ?_
    refine (Linker.moves_getClass hr₂ id).bind fun d r₃₀ r₃ hr₃ => ?_
    rw [LinkedClass.checkSuperclass_renumber]
    refine (Linker.moves_ofExcept_same hr₃ _).bind fun _ r₄₀ r₄ hr₄ => ?_
    exact Linker.moves_pure hr₄ (Option.map (· + b)) (some id)
  | none =>
    by_cases hobject : name = objectName
    · simp only [if_pos hobject]
      exact Linker.moves_pure hr₁ (Option.map (· + b)) none
    · simp only [if_neg hobject]
      exact Linker.moves_throw hr₁ _ (.same _)

theorem moves_linkInterface (hr : r₀.Behind b r) (n : String) :
    Linker.Moves b (· + b) (linkInterface load name n) (linkInterface load name n) r₀ r := by
  refine (hload n _ _ hr).bind fun id r₁₀ r₁ hr₁ => ?_
  refine (Linker.moves_getClass hr₁ id).bind fun d r₂₀ r₂ hr₂ => ?_
  rw [LinkedClass.isInterface_renumber]
  cases d.isInterface with
  | true => exact Linker.moves_pure hr₂ (· + b) id
  | false => exact Linker.moves_throw hr₂ _ (.same _)

theorem moves_link (hr : r₀.Behind b r) (c : ClassFile) :
    Linker.Moves b (· + b) (link load loader name c) (link load loader name c) r₀ r := by
  refine (Linker.moves_ofExcept_same hr _).bind fun given r₁₀ r₁ hr₁ => ?_
  by_cases hgiven : (given != name) = true
  · simp only [hgiven, if_true]
    exact Linker.moves_throw hr₁ _ (.same _)
  simp only [hgiven]
  refine (moves_linkSuperclass hload hr₁ c).bind fun superclass r₂₀ r₂ hr₂ => ?_
  refine (Linker.moves_ofExcept_same hr₂ _).bind fun interfaceNames r₃₀ r₃ hr₃ => ?_
  have hinterfaces : Linker.Moves b (List.map (· + b)) (interfaceNames.mapM (linkInterface load given))
      (interfaceNames.mapM (linkInterface load given)) r₃₀ r₃ :=
    Linker.moves_mapM (fun n₀ n hn r₀ r hr => by rw [← hn]; exact moves_linkInterface hload hr n₀)
      (List.forall₂_eq_eq_eq ▸ (rfl : interfaceNames = interfaceNames)) hr₃
  refine hinterfaces.bind fun interfaces r₄₀ r₄ hr₄ => ?_
  refine (moves_numbered_option hr₄ superclass).bind fun superclass r₅₀ r₅ hr₅ => ?_
  refine (moves_numbered_list hr₅ interfaces).bind fun interfaces r₆₀ r₆ hr₆ => ?_
  have hlinked := Linker.moves_ofExcept hr₆ (fun p => (p.1.renumber (· + b), p.2))
    (linkedClass r₆₀.table.size loader given c superclass interfaces)
  rw [← linkedClass_renumber (injective_add b), ← hr₆.size] at hlinked
  refine (hlinked.bind fun p r₇₀ r₇ hr₇ => ?_).of_eq (bind_of_ok (get_eq _)) (bind_of_ok (get_eq _))
  exact Linker.moves_publish hr₇ p.1 .linked p.2

end

theorem moves_linkArray (hr : r₀.Behind b r) (loader : Loader) (name : String) (component : Component)
    (object cloneable serializable : ClassId) : Linker.Moves b (· + b)
      (linkArray loader name component object cloneable serializable)
      (linkArray loader name (component.renumber (· + b)) (object + b) (cloneable + b) (serializable + b))
      r₀ r := by
  refine (Linker.moves_getClass hr object).bind fun o r₁₀ r₁ hr₁ => ?_
  exact Linker.moves_publish hr₁
    (arrayClass loader name component object cloneable serializable o.methodTable) .initialized #[]

/-! ## Requests -/

section

variable {paths : ClassPaths} {load : Loader → String → Linker ClassId} {loader : Loader} {name : String}

theorem moves_defineBy_of_file (harray : isArrayName name = false)
    (hload : ∀ bytes, (paths.ofLoader loader).find name = .ok (some bytes) → ∀ n r₀ r, r₀.Behind b r →
      Linker.Moves b (· + b) (load loader n) (load loader n) r₀ r) (hr : r₀.Behind b r) :
    Linker.Moves b (· + b) (defineBy paths load loader name) (defineBy paths load loader name) r₀ r := by
  rw [defineBy_of_file harray]
  split
  · exact Linker.moves_throw hr _ (.same _)
  · exact Linker.moves_throw hr _ (.same _)
  · next bytes hfind =>
    refine (Linker.moves_ofExcept_same hr _).bind fun c r₁₀ r₁ hr₁ => ?_
    exact moves_link (hload bytes hfind) hr₁ c

theorem moves_arrayOver (hcore : ∀ n, isArrayName n = false → ∀ r₀ r, r₀.Behind b r →
      Linker.Moves b (· + b) (load .boot n) (load .boot n) r₀ r) (hr : r₀.Behind b r) (loader : Loader)
    (name : String) (component : Component) : Linker.Moves b (· + b)
      (arrayOver (load .boot) loader name component)
      (arrayOver (load .boot) loader name (component.renumber (· + b))) r₀ r := by
  refine (hcore objectName (by decide) _ _ hr).bind fun o r₁₀ r₁ hr₁ => ?_
  refine (hcore CoreClasses.cloneableName (by decide) _ _ hr₁).bind fun i r₂₀ r₂ hr₂ => ?_
  refine (hcore CoreClasses.serializableName (by decide) _ _ hr₂).bind fun j r₃₀ r₃ hr₃ => ?_
  exact moves_linkArray hr₃ loader name component o i j

theorem moves_defineBy_of_array (harray : isArrayName name = true)
    (hcore : ∀ n, isArrayName n = false → ∀ r₀ r, r₀.Behind b r →
      Linker.Moves b (· + b) (load .boot n) (load .boot n) r₀ r)
    (hboot : loader = .app → ∀ r₀ r, r₀.Behind b r →
      Linker.Moves b (· + b) (load .boot name) (load .boot name) r₀ r)
    (helement : ∀ element, elementName? name = some (.reference element) → ∀ r₀ r, r₀.Behind b r →
      Linker.Moves b (· + b) (load loader element) (load loader element) r₀ r) (hr : r₀.Behind b r) :
    Linker.Moves b (· + b) (defineBy paths load loader name) (defineBy paths load loader name) r₀ r := by
  cases hp : elementName? name with
  | none =>
    rw [defineBy_of_no_element harray hp]
    exact Linker.moves_throw hr _ (.same _)
  | some element =>
    cases element with
    | primitive type =>
      cases loader with
      | boot =>
        rw [defineBy_of_primitive_boot harray hp]
        exact moves_arrayOver hcore hr .boot name (.primitive type)
      | app =>
        rw [defineBy_of_primitive_app harray hp]
        exact hboot rfl _ _ hr
    | reference element =>
      rw [defineBy_of_reference harray hp]
      refine (helement element hp _ _ hr).bind fun e r₁₀ r₁ hr₁ => ?_
      refine (Linker.moves_getClass hr₁ e).bind fun d r₂₀ r₂ hr₂ => ?_
      have hloader : (d.renumber (· + b)).loader = d.loader := rfl
      rw [hloader]
      by_cases hcross : loader = .app ∧ d.loader = .boot
      · simp only [if_pos hcross]
        exact hboot hcross.1 _ _ hr₂
      · simp only [if_neg hcross]
        exact moves_arrayOver hcore hr₂ loader name (.reference e)

end

mutual

/-- A request comes to the same behind other classes. -/
theorem moves_load (paths : ClassPaths) (stack : List Key) (loader : Loader) (name : String)
    {r₀ r : Registry} (hr : r₀.Behind b r) :
    Linker.Moves b (· + b) (load paths stack loader name) (load paths stack loader name) r₀ r := by
  cases loader with
  | boot =>
    rw [load]
    exact moves_define paths stack .boot name hr
  | app =>
    rw [load]
    refine (moves_define paths stack .boot name hr).tryCatch fun e₀ e r₁₀ r₁ he hr₁ => ?_
    cases he with
    | internal text text' => exact Linker.moves_throw hr₁ _ (.internal text text')
    | same =>
      cases e₀
      case classNotFound text => exact moves_define paths stack .app name hr₁
      all_goals exact Linker.moves_throw hr₁ _ (.same _)
termination_by (paths.idle stack, weight name, loadRank loader)
decreasing_by
  all_goals
    subst_vars
    exact lex_of_le (Nat.le_refl _) (.right _ (by simp [loadRank, defineRank]))

theorem moves_define (paths : ClassPaths) (stack : List Key) (loader : Loader) (name : String)
    {r₀ r : Registry} (hr : r₀.Behind b r) :
    Linker.Moves b (· + b) (define paths stack loader name) (define paths stack loader name) r₀ r := by
  have hloaded := hr.loaded (loader, name)
  cases hnew₀ : r₀.loaded[(loader, name)]? with
  | some outcome =>
    cases hnew : r.loaded[(loader, name)]? with
    | none => rw [hnew₀, hnew] at hloaded; cases hloaded
    | some outcome' =>
      rw [hnew₀, hnew] at hloaded
      cases hloaded with
      | some hmoved =>
        refine Linker.Moves.of_eq ?_ (define_of_recorded hnew₀) (define_of_recorded hnew)
        cases hmoved with
        | ok id => exact Linker.moves_pure hr (· + b) id
        | error he => exact Linker.moves_throw hr _ he
  | none =>
    cases hnew : r.loaded[(loader, name)]? with
    | some outcome' => rw [hnew₀, hnew] at hloaded; cases hloaded
    | none =>
      by_cases hfresh : (loader, name) ∈ stack
      · exact Linker.moves_of_error (define_of_mem hnew₀ hfresh) (define_of_mem hnew hfresh) (.same _) hr
      refine Linker.Moves.of_eq (Linker.Moves.recorded ?_ (loader, name)) (define_of_fresh hnew₀ hfresh)
        (define_of_fresh hnew hfresh)
      by_cases harray : isArrayName name = true
      · exact moves_defineBy_of_array harray
          (fun n hn _ _ hr => moves_load paths ((loader, name) :: stack) .boot n hr)
          (fun happ _ _ hr => moves_load paths ((loader, name) :: stack) .boot name hr)
          (fun element helement _ _ hr => moves_load paths ((loader, name) :: stack) loader element hr) hr
      · exact moves_defineBy_of_file (by simpa using harray)
          (fun bytes hfind n _ _ hr => moves_load paths ((loader, name) :: stack) loader n hr) hr
termination_by (paths.idle stack, weight name, defineRank loader)
decreasing_by
  · exact lex_of_le (paths.idle_cons_le _ _)
      (.left _ _ (by rw [weight_eq_zero hn]; exact weight_pos harray))
  · subst happ
    exact lex_of_le (paths.idle_cons_le _ _) (.right _ (by simp [loadRank, defineRank]))
  · exact lex_of_le (paths.idle_cons_le _ _) (.left _ _ (weight_lt_of_elementName? helement))
  · exact .left _ _ (ClassPaths.idle_cons_lt hfresh hfind)

end

/-! ## The hierarchy behind other classes -/

namespace ClassTable

variable {t₀ t : ClassTable} {i j : ClassId}

theorem Behind.superOf? (h : Behind b t₀ t) (i : ClassId) :
    t.superOf? (i + b) = (t₀.superOf? i).map (· + b) := by
  rw [ClassTable.superOf?, ClassTable.superOf?, h i]
  cases t₀.class? i <;> rfl

theorem Behind.interfacesOf (h : Behind b t₀ t) (i : ClassId) :
    t.interfacesOf (i + b) = (t₀.interfacesOf i).map (· + b) := by
  rw [ClassTable.interfacesOf, ClassTable.interfacesOf, h i]
  cases t₀.class? i <;> rfl

theorem component?_renumber (f : ClassId → ClassId) (c : LinkedClass) :
    (c.renumber f).component? = c.component?.map (·.renumber f) := by
  unfold LinkedClass.component? LinkedClass.renumber
  cases c.kind <;> rfl

theorem Behind.componentOf? (h : Behind b t₀ t) (i : ClassId) :
    t.componentOf? (i + b) = (t₀.componentOf? i).map (·.renumber (· + b)) := by
  rw [ClassTable.componentOf?, ClassTable.componentOf?, h i]
  cases t₀.class? i with
  | none => rfl
  | some c => exact component?_renumber (· + b) c

theorem Behind.mem_chain (h : Behind b t₀ t) {x : ClassId} :
    x ∈ t.chain (i + b) ↔ ∃ x₀ ∈ t₀.chain i, x = x₀ + b := by
  induction i using Nat.strongRecOn with
  | ind i ih =>
    rw [ClassTable.mem_chain, h.superOf? i]
    constructor
    · rintro (rfl | ⟨s, hs, hx⟩)
      · exact ⟨i, mem_chain_self i, rfl⟩
      · obtain ⟨s₀, hs₀, rfl⟩ := Option.map_eq_some_iff.1 hs
        obtain ⟨x₀, hx₀, rfl⟩ := (ih s₀ (superOf?_lt hs₀)).1 hx
        exact ⟨x₀, ClassTable.mem_chain.2 (.inr ⟨s₀, hs₀, hx₀⟩), rfl⟩
    · rintro ⟨x₀, hx₀, rfl⟩
      rcases ClassTable.mem_chain.1 hx₀ with rfl | ⟨s₀, hs₀, hx₀⟩
      · exact .inl rfl
      · exact .inr ⟨s₀ + b, by rw [hs₀]; rfl, (ih s₀ (superOf?_lt hs₀)).2 ⟨x₀, hx₀, rfl⟩⟩

theorem Behind.reachesInterface (h : Behind b t₀ t) {x : ClassId} :
    t.reachesInterface (i + b) x = true ↔ ∃ x₀, t₀.reachesInterface i x₀ = true ∧ x = x₀ + b := by
  induction i using Nat.strongRecOn with
  | ind i ih =>
    rw [reachesInterface_iff, h.interfacesOf i]
    constructor
    · rintro (rfl | ⟨k, hk, hx⟩)
      · exact ⟨i, reachesInterface_iff.2 (.inl rfl), rfl⟩
      · obtain ⟨k₀, hk₀, rfl⟩ := List.mem_map.1 hk
        obtain ⟨x₀, hx₀, rfl⟩ := (ih k₀ (interfacesOf_lt hk₀)).1 hx
        exact ⟨x₀, reachesInterface_iff.2 (.inr ⟨k₀, hk₀, hx₀⟩), rfl⟩
    · rintro ⟨x₀, hx₀, rfl⟩
      rcases reachesInterface_iff.1 hx₀ with rfl | ⟨k₀, hk₀, hx₀⟩
      · exact .inl rfl
      · exact .inr ⟨k₀ + b, List.mem_map_of_mem hk₀, (ih k₀ (interfacesOf_lt hk₀)).2 ⟨x₀, hx₀, rfl⟩⟩

/-- A class of this table is that of the other one with its numbers moved. -/
theorem Behind.exists_class? (h : Behind b t₀ t) {c : LinkedClass} (hc : t.class? (i + b) = some c) :
    ∃ c₀, t₀.class? i = some c₀ ∧ c = c₀.renumber (· + b) := by
  rw [h i] at hc
  obtain ⟨c₀, hc₀, rfl⟩ := Option.map_eq_some_iff.1 hc
  exact ⟨c₀, hc₀, rfl⟩

theorem Behind.class? (h : Behind b t₀ t) {c₀ : LinkedClass} (hc : t₀.class? i = some c₀) :
    t.class? (i + b) = some (c₀.renumber (· + b)) := by
  rw [h i, hc]
  rfl

theorem Behind.componentOf?_primitive (h : Behind b t₀ t) {p : Primitive} :
    t.componentOf? (i + b) = some (.primitive p) ↔ t₀.componentOf? i = some (.primitive p) := by
  rw [h.componentOf?]
  rcases t₀.componentOf? i with _ | component
  · simp
  · cases component <;> simp [Component.renumber]

theorem Behind.componentOf?_reference (h : Behind b t₀ t) {x : ClassId} :
    t.componentOf? (i + b) = some (.reference x) ↔
      ∃ x₀, t₀.componentOf? i = some (.reference x₀) ∧ x = x₀ + b := by
  rw [h.componentOf?]
  rcases t₀.componentOf? i with _ | component
  · simp
  · cases component <;> simp [Component.renumber, eq_comm]

/-- A class that is no array class is one of the other table, of the same kind. -/
theorem Behind.exists_plain (h : Behind b t₀ t) {c : LinkedClass} (hc : t.class? (i + b) = some c)
    (hplain : c.component? = none) :
    ∃ c₀, t₀.class? i = some c₀ ∧ c₀.component? = none ∧ c₀.isInterface = c.isInterface := by
  obtain ⟨c₀, hc₀, rfl⟩ := h.exists_class? hc
  rw [component?_renumber, Option.map_eq_none_iff] at hplain
  exact ⟨c₀, hc₀, hplain, (LinkedClass.isInterface_renumber _).symm⟩

theorem Behind.mem_chain_iff (h : Behind b t₀ t) : j + b ∈ t.chain (i + b) ↔ j ∈ t₀.chain i := by
  rw [h.mem_chain]
  refine ⟨?_, fun hj => ⟨j, hj, rfl⟩⟩
  rintro ⟨x, hx, hj⟩
  rwa [Nat.add_right_cancel hj]

theorem Behind.reachesInterface_iff (h : Behind b t₀ t) :
    t.reachesInterface (i + b) (j + b) = true ↔ t₀.reachesInterface i j = true := by
  rw [h.reachesInterface]
  refine ⟨?_, fun hj => ⟨j, hj, rfl⟩⟩
  rintro ⟨x, hx, hj⟩
  rwa [Nat.add_right_cancel hj]

theorem Behind.fits (h : Behind b t₀ t) (hfits : t₀.Fits i j) : t.Fits (i + b) (j + b) := by
  have hplain : ∀ {c₀ : LinkedClass}, c₀.component? = none →
      (c₀.renumber (· + b)).component? = none := by
    intro c₀ hc₀
    rw [component?_renumber, hc₀]
    rfl
  induction hfits with
  | refl => exact .refl _
  | primitives ha hd =>
    exact .primitives (h.componentOf?_primitive.2 ha) (h.componentOf?_primitive.2 hd)
  | arrays ha hd _ ih =>
    exact .arrays (h.componentOf?_reference.2 ⟨_, ha, rfl⟩) (h.componentOf?_reference.2 ⟨_, hd, rfl⟩) ih
  | extending hc hcomp hi hmem =>
    exact .extending (h.class? hc) (hplain hcomp) (by rw [LinkedClass.isInterface_renumber, hi])
      (h.mem_chain_iff.2 hmem)
  | implementing hc hcomp hi hmem hreach =>
    exact .implementing (h.class? hc) (hplain hcomp) (by rw [LinkedClass.isInterface_renumber, hi])
      (h.mem_chain_iff.2 hmem) (h.reachesInterface_iff.2 hreach)

theorem Behind.fits_iff (h : Behind b t₀ t) : t.Fits (i + b) (j + b) ↔ t₀.Fits i j := by
  refine ⟨fun hfits => ?_, h.fits⟩
  -- the numbers are read back one case after the other
  induction i using Nat.strongRecOn generalizing j with
  | ind i ih =>
    generalize hib : i + b = ib at hfits
    generalize hjb : j + b = jb at hfits
    cases hfits with
    | refl =>
      obtain rfl : i = j := Nat.add_right_cancel (hib.trans hjb.symm)
      exact .refl i
    | primitives hci hcj =>
      rw [← hib] at hci
      rw [← hjb] at hcj
      exact .primitives (h.componentOf?_primitive.1 hci) (h.componentOf?_primitive.1 hcj)
    | arrays hci hcj hxy =>
      rw [← hib] at hci
      rw [← hjb] at hcj
      obtain ⟨x₀, hx₀, rfl⟩ := h.componentOf?_reference.1 hci
      obtain ⟨y₀, hy₀, rfl⟩ := h.componentOf?_reference.1 hcj
      exact .arrays hx₀ hy₀ (ih x₀ (componentOf?_lt hx₀) hxy)
    | extending hc hcomp hi hmem =>
      rw [← hjb] at hc hmem
      rw [← hib] at hmem
      obtain ⟨c₀, hc₀, hcomp₀, hi₀⟩ := h.exists_plain hc hcomp
      exact .extending hc₀ hcomp₀ (hi₀.trans hi) (h.mem_chain_iff.1 hmem)
    | implementing hc hcomp hi hmem hreach =>
      rw [← hjb] at hc hreach
      rw [← hib] at hmem
      obtain ⟨c₀, hc₀, hcomp₀, hi₀⟩ := h.exists_plain hc hcomp
      obtain ⟨d₀, hd₀, rfl⟩ := h.mem_chain.1 hmem
      exact .implementing hc₀ hcomp₀ (hi₀.trans hi) hd₀ (h.reachesInterface_iff.1 hreach)

end ClassTable

/-! ## What registries there are -/

/-- Whether a registry has the classes of one that was never torn down behind those that it has forgotten. -/
structure Registry.RegrownFrom (paths : ClassPaths) (b : Nat) (r₀ r : Registry) : Prop where
  wellFormed : r₀.WellFormed
  faithful : r₀.Faithful paths
  behind : r₀.Behind b r

namespace Registry

/-- Whether a registry stays of this kind. -/
def Regrows (paths : ClassPaths) (r r' : Registry) : Prop :=
  (∃ b r₀, RegrownFrom paths b r₀ r) → ∃ b r₀, RegrownFrom paths b r₀ r'

instance (paths : ClassPaths) : IsTrans Registry (Regrows paths) := ⟨fun _ _ _ h₁ h₂ h => h₂ (h₁ h)⟩

variable {paths : ClassPaths}

theorem regrows_of_eq {r r' : Registry} (htable : r'.table = r.table) (hloaded : r'.loaded = r.loaded) :
    r.Regrows paths r' := by
  rintro ⟨b, r₀, h⟩
  exact ⟨b, r₀, h.wellFormed, h.faithful, h.behind.congr rfl rfl htable hloaded⟩

theorem regrownFrom_empty : RegrownFrom paths 0 .empty .empty :=
  ⟨wellFormed_empty, faithful_empty paths, behind_empty⟩

theorem regrownFrom_teardown (r : Registry) (held : List ClassId) :
    RegrownFrom paths r.table.size .empty (r.teardown held) :=
  ⟨wellFormed_empty, faithful_empty paths, behind_teardown r held⟩

theorem regrows_load (paths : ClassPaths) (loader : Loader) (name : String) (r : Registry) :
    r.Regrows paths ((loadClass paths loader name).leads r) := by
  rintro ⟨b, r₀, h⟩
  exact ⟨b, _, wellFormed_leads (loader, name) h.wellFormed,
    faithful_leads (loader, name) h.wellFormed h.faithful, (moves_load paths [] loader name h.behind).leads⟩

end Registry

theorem admits_regrows (paths : ClassPaths) : Linker.Admits paths (Registry.Regrows paths) where
  refl _ := id
  load loader name r := Linker.meets_of_leads (Registry.regrows_load paths loader name r)
  resolved _ _ _ _ _ _ := Registry.regrows_of_eq rfl rfl

theorem regrows_apply (paths : ClassPaths) (r : Registry) (q : Request) :
    r.Regrows paths (q.apply paths r) := by
  refine (admits_regrows paths).apply ?_ ?_ ?_
  · exact fun _ _ _ => Registry.regrows_of_eq rfl rfl
  · exact fun _ _ => Registry.regrows_of_eq rfl rfl
  · exact fun held _ _ => ⟨_, _, Registry.regrownFrom_teardown r held⟩

/-- Whatever is asked of a registry, it has the classes of one that was never torn down behind those that it
has forgotten. -/
theorem regrown_after (paths : ClassPaths) (requests : List Request) :
    ∃ b r₀, Registry.RegrownFrom paths b r₀ (Registry.after paths requests) := by
  have hregrows : Registry.Regrows paths .empty (Registry.after paths requests) :=
    Registry.keeps_after (fun _ => id) fun q _ r => regrows_apply paths r q
  exact hregrows ⟨0, .empty, Registry.regrownFrom_empty⟩

end Jvm.Linking
