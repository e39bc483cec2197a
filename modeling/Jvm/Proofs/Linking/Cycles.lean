import Mathlib
import Jvm.Proofs.Linking.Order

/-! # Classes that depend on themselves

A class needs its superclass and its superinterfaces, an array class the class of its elements and the classes
above all arrays. A class that loads needs only classes that load with less depth, so none on a cycle does
(`not_ok_of_cyclic`). Where nothing else goes wrong before, the failure is circularity
(`passes_of_cyclic`). -/

namespace Jvm.Linking

open ClassFile Assembly Relation

variable {paths : ClassPaths} {key key' : Key} {loader : Loader} {name : String} {n : Nat}

/-! ## First requests -/

/-- What a program comes to that starts with a request. -/
def ClassPaths.outcome (paths : ClassPaths) (key : Key) : Except Fault ClassId :=
  (loadClass paths key.1 key.2).outcome .empty

theorem settles_outcome (paths : ClassPaths) (key : Key) : paths.Settles key (paths.outcome key) :=
  settles_loadClass key Registry.wellFormed_empty (Registry.faithful_empty paths)

/-- What is seen of a class is what a request comes to. -/
theorem ok_of_given (key : Key) {v : LinkedClass} (h : (paths.given key n).run = some (.ok v)) :
    ∃ id, paths.outcome key = .ok id := by
  have hsettles := settles_outcome paths key
  cases ho : paths.outcome key with
  | ok id => exact ⟨id, rfl⟩
  | error e =>
    rw [ho] at hsettles
    rcases hsettles with he | ⟨-, hnone⟩
    · cases he.eq_of_seen h
    · cases (hnone n).symm.trans h

theorem error_of_given (key : Key) {e : Fault} (h : (paths.given key n).run = some (.error e)) :
    paths.outcome key = .error e := by
  have hsettles := settles_outcome paths key
  cases ho : paths.outcome key with
  | ok id =>
    rw [ho] at hsettles
    obtain ⟨v, hv⟩ := hsettles
    cases hv.eq_of_seen h
  | error e' =>
    rw [ho] at hsettles
    rcases hsettles with he | ⟨-, hnone⟩
    · cases he.eq_of_seen h
      rfl
    · cases (hnone n).symm.trans h

/-- The loader that defines the class of a request, with its name: the program's loader defines what is not
found among the core classes. -/
def ClassPaths.request (paths : ClassPaths) (loader : Loader) (name : String) : Key :=
  match loader, paths.outcome (.boot, name) with
  | .app, .error (.classNotFound _) => (.app, name)
  | _, _ => (.boot, name)

/-- A class that is found is one that a loader defines. -/
theorem answer_of_requested {v : LinkedClass}
    (h : (requested (answer paths n) loader name).run = some (.ok v)) :
    (answer paths n (paths.request loader name)).run = some (.ok v) := by
  cases loader with
  | boot => exact h
  | app =>
    unfold requested at h
    cases hboot : (answer paths n (.boot, name)).run with
    | none =>
      rw [Linker.run_tryCatch_of_none hboot] at h
      cases h
    | some o =>
      cases o with
      | ok w =>
        rw [Linker.run_tryCatch_of_ok hboot] at h
        obtain ⟨id, hid⟩ := ok_of_given (.boot, name) hboot
        simp only [ClassPaths.request, hid, hboot, h]
      | error e =>
        have hfails := error_of_given (.boot, name) hboot
        rw [Linker.run_tryCatch_of_error hboot] at h
        cases e
        case classNotFound text => simpa only [ClassPaths.request, hfails] using h
        all_goals cases h

/-! ## Needs -/

/-- Whether a loader finds a class file under a name. -/
structure ClassPaths.HasFile (paths : ClassPaths) (key : Key) (c : ClassFile) : Prop where
  plain : isArrayName key.2 = false
  found : ∃ bytes, (paths.ofLoader key.1).find key.2 = .ok (some bytes) ∧ ClassFile.parse bytes = .ok c

/-- The classes above all array classes, in the order in which they are loaded. -/
def coreNames : List String := [objectName, CoreClasses.cloneableName, CoreClasses.serializableName]

/-- Whether a class needs another one before it is linked. -/
inductive ClassPaths.Needs (paths : ClassPaths) : Key → Key → Prop
  | superclass {key : Key} {c : ClassFile} {name : String} (hc : paths.HasFile key c)
      (h : c.superName = .ok (some name)) : paths.Needs key (paths.request key.1 name)
  | interface {key : Key} {c : ClassFile} {names : List String} {name : String} (hc : paths.HasFile key c)
      (h : c.interfaceNames = .ok names) (hname : name ∈ names) : paths.Needs key (paths.request key.1 name)
  | element {key : Key} {name : String} (h : elementName? key.2 = some (.reference name)) :
      paths.Needs key (paths.request key.1 name)
  | core {key : Key} {name : String} (h : isArrayName key.2 = true) (hname : name ∈ coreNames) :
      paths.Needs key (.boot, name)

section

variable {α β γ : Type}

theorem exists_of_run_bind {x : Glimpse α} {g : α → Glimpse β} {b : β}
    (h : (x >>= g).run = some (.ok b)) : ∃ a, x.run = some (.ok a) ∧ (g a).run = some (.ok b) := by
  cases hx : x.run with
  | none => rw [run_bind_of_none hx] at h; cases h
  | some o =>
    cases o with
    | error e => rw [run_bind_of_error hx] at h; cases h
    | ok a => exact ⟨a, rfl, (run_bind_of_ok hx).symm.trans h⟩

theorem eq_ok_of_run {x : Except Fault α} {a : α} (h : (Glimpse.ofExcept x).run = some (.ok a)) : x = .ok a :=
  Option.some.inj h

theorem exists_of_run_mapM {f : γ → Glimpse α} : ∀ {cs : List γ} {as : List α},
    (cs.mapM f).run = some (.ok as) → ∀ c ∈ cs, ∃ a, (f c).run = some (.ok a)
  | [], _, _ => by simp
  | c :: cs, _, h => by
    rw [List.mapM_cons] at h
    obtain ⟨a, ha, h⟩ := exists_of_run_bind h
    obtain ⟨as, has, -⟩ := exists_of_run_bind h
    intro d hd
    rcases List.mem_cons.1 hd with rfl | hd
    · exact ⟨a, ha⟩
    · exact exists_of_run_mapM has d hd

end

section

variable {ask : Key → Glimpse LinkedClass} {load : String → Glimpse LinkedClass} {c : ClassFile} {v : LinkedClass}

/-- A class file whose class is found has its supertypes found. -/
theorem exists_of_classOfFile (h : (classOfFile load loader name c).run = some (.ok v)) :
    v.loader = loader ∧ (∀ n, c.superName = .ok (some n) → ∃ w, (load n).run = some (.ok w)) ∧
      ∀ ns, c.interfaceNames = .ok ns → ∀ n ∈ ns, ∃ w, (load n).run = some (.ok w) := by
  obtain ⟨given, -, h⟩ := exists_of_run_bind h
  split at h
  · cases h
  obtain ⟨superclass, hsuper, h⟩ := exists_of_run_bind h
  obtain ⟨interfaceNames, hnames, h⟩ := exists_of_run_bind h
  obtain ⟨interfaces, hinterfaces, h⟩ := exists_of_run_bind h
  obtain ⟨linked, hlinked, h⟩ := exists_of_run_bind h
  refine ⟨?_, fun n hn => ?_, fun ns hns n hmem => ?_⟩
  · cases h
    exact congrArg Prod.fst (parents_of_linkedClass (eq_ok_of_run hlinked)).1
  · obtain ⟨superName, hsuperName, hsuper⟩ := exists_of_run_bind hsuper
    obtain rfl : superName = some n := by
      have := (eq_ok_of_run hsuperName).symm.trans hn
      cases this
      rfl
    obtain ⟨w, hw, -⟩ := exists_of_run_bind hsuper
    exact ⟨w, hw⟩
  · obtain rfl : interfaceNames = ns := by
      have := (eq_ok_of_run hnames).symm.trans hns
      cases this
      rfl
    obtain ⟨w, hw⟩ := exists_of_run_mapM hinterfaces n hmem
    obtain ⟨w, hw, -⟩ := exists_of_run_bind hw
    exact ⟨w, hw⟩

/-- An array class that is linked has the classes above it found. -/
theorem exists_of_arrayClassBy {component : Component} (h : (arrayClassBy load loader name component).run =
    some (.ok v)) : v.loader = loader ∧ ∀ n ∈ coreNames, ∃ w, (load n).run = some (.ok w) := by
  obtain ⟨o, ho, h⟩ := exists_of_run_bind h
  obtain ⟨i, hi, h⟩ := exists_of_run_bind h
  obtain ⟨j, hj, h⟩ := exists_of_run_bind h
  cases h
  refine ⟨rfl, ?_⟩
  simp only [coreNames, List.mem_cons, List.not_mem_nil, or_false]
  rintro n (rfl | rfl | rfl)
  exacts [⟨o, ho⟩, ⟨i, hi⟩, ⟨j, hj⟩]

/-- An array class that is found has the class of its elements found, and is one of the core classes or has
the classes above it found. -/
theorem exists_of_arrayOfName (h : (arrayOfName ask loader name).run = some (.ok v)) :
    (∀ n, elementName? name = some (.reference n) → ∃ w, (requested ask loader n).run = some (.ok w)) ∧
      ((ask (.boot, name)).run = some (.ok v) ∧ loader = .app ∨
        v.loader = loader ∧ ∀ n ∈ coreNames, ∃ w, (ask (.boot, n)).run = some (.ok w)) := by
  unfold arrayOfName at h
  cases helement : elementName? name with
  | none =>
    rw [helement] at h
    cases h
  | some element =>
    cases element with
    | primitive type =>
      refine ⟨by rintro n ⟨⟩, ?_⟩
      simp only [helement] at h
      cases loader with
      | boot => exact .inr (exists_of_arrayClassBy h)
      | app =>
        rw [bind_map_left, bind_pure] at h
        exact .inl ⟨h, rfl⟩
    | reference n =>
      simp only [helement] at h
      obtain ⟨component, hcomponent, h⟩ := exists_of_run_bind h
      refine ⟨by rintro _ ⟨⟩; exact ⟨component, hcomponent⟩, ?_⟩
      cases loader <;> cases hl : component.loader <;>
        simp only [hl, bind_map_left, bind_pure, pure_bind] at h
      case app.boot => exact .inl ⟨h, rfl⟩
      all_goals exact .inr (exists_of_arrayClassBy h)

end

theorem ClassPaths.HasFile.defined {c : ClassFile} (hc : paths.HasFile key c) (ask : Key → Glimpse LinkedClass) :
    defined paths ask key = classOfFile (requested ask key.1) key.1 key.2 c := by
  obtain ⟨bytes, hfind, hparse⟩ := hc.found
  rw [Linking.defined, if_neg (by simp [hc.plain]), fileOfName, hfind]
  dsimp only
  rw [hparse]
  rfl

theorem defined_of_isArrayName (h : isArrayName key.2 = true) (ask : Key → Glimpse LinkedClass) :
    defined paths ask key = arrayOfName ask key.1 key.2 :=
  if_pos h

/-- What a class needs is found with less depth than the class. -/
theorem exists_of_needs (hneeds : paths.Needs key key') {v : LinkedClass}
    (h : (answer paths n key).run = some (.ok v)) : ∃ m < n, ∃ w, (answer paths m key').run = some (.ok w) := by
  cases n with
  | zero => cases h
  | succ n =>
    rw [answer_succ] at h
    cases hneeds with
    | superclass hc hname =>
      rw [hc.defined] at h
      obtain ⟨w, hw⟩ := (exists_of_classOfFile h).2.1 _ hname
      exact ⟨n, n.lt_succ_self, w, answer_of_requested hw⟩
    | interface hc hnames hname =>
      rw [hc.defined] at h
      obtain ⟨w, hw⟩ := (exists_of_classOfFile h).2.2 _ hnames _ hname
      exact ⟨n, n.lt_succ_self, w, answer_of_requested hw⟩
    | element hname =>
      rw [defined_of_isArrayName (isArrayName_of_elementName? hname)] at h
      obtain ⟨w, hw⟩ := (exists_of_arrayOfName h).1 _ hname
      exact ⟨n, n.lt_succ_self, w, answer_of_requested hw⟩
    | core harray hname =>
      rw [defined_of_isArrayName harray] at h
      rcases (exists_of_arrayOfName h).2 with ⟨hboot, -⟩ | ⟨-, hcore⟩
      · -- the array class is one of the core classes, which needs the same classes
        cases n with
        | zero => cases hboot
        | succ n =>
          rw [answer_succ, defined_of_isArrayName (show isArrayName (Loader.boot, key.2).2 = true from harray)]
            at hboot
          rcases (exists_of_arrayOfName hboot).2 with ⟨-, happ⟩ | ⟨-, hcore⟩
          · cases happ
          · obtain ⟨w, hw⟩ := hcore _ hname
            exact ⟨n, by omega, w, hw⟩
      · obtain ⟨w, hw⟩ := hcore _ hname
        exact ⟨n, n.lt_succ_self, w, hw⟩

/-- Whether a way leads to a cycle. -/
def Cyclic {α : Type} (R : α → α → Prop) (a : α) : Prop := ∃ c, ReflTransGen R a c ∧ TransGen R c c

theorem Cyclic.next {α : Type} {R : α → α → Prop} {a : α} (h : Cyclic R a) : ∃ b, R a b ∧ Cyclic R b := by
  obtain ⟨c, hac, hc⟩ := h
  rcases hac.cases_head with rfl | ⟨b, hab, hbc⟩
  · obtain ⟨b, hab, hba⟩ := TransGen.head'_iff.1 hc
    exact ⟨b, hab, a, hba, hc⟩
  · exact ⟨b, hab, c, hbc, hc⟩

/-- A class that leads to a cycle does not load. -/
theorem not_ok_of_cyclic (h : Cyclic paths.Needs key) (v : LinkedClass) :
    (answer paths n key).run ≠ some (.ok v) := by
  induction n using Nat.strong_induction_on generalizing key v with
  | _ n ih =>
    intro hok
    obtain ⟨key', hneeds, hcyclic⟩ := h.next
    obtain ⟨m, hm, w, hw⟩ := exists_of_needs hneeds hok
    exact ih m hm hcyclic w hw

/-! ## Needs that nothing precludes -/

/-- Whether a computation does not fail, as far as it is seen, unless by circularity. -/
def Glimpse.Passes {α : Type} (x : Glimpse α) (Q : α → Prop) : Prop :=
  match x.run with
  | none => True
  | some (.ok a) => Q a
  | some (.error e) => ∃ name, e = .classCircularity name

section

variable {α β γ : Type} {x : Glimpse α} {Q Q' : α → Prop} {S : β → Prop} {g : α → Glimpse β}

theorem passes_of_none (h : x.run = none) : x.Passes Q := by
  unfold Glimpse.Passes; rw [h]; trivial

theorem passes_of_ok {a : α} (h : x.run = some (.ok a)) (ha : Q a) : x.Passes Q := by
  unfold Glimpse.Passes; rw [h]; exact ha

theorem passes_of_error {name : String} (h : x.run = some (.error (.classCircularity name))) : x.Passes Q := by
  unfold Glimpse.Passes; rw [h]; exact ⟨name, rfl⟩

namespace Glimpse.Passes

theorem of_ok (hx : x.Passes Q) {a : α} (h : x.run = some (.ok a)) : Q a := by
  unfold Passes at hx; rwa [h] at hx

theorem of_error (hx : x.Passes Q) {e : Fault} (h : x.run = some (.error e)) :
    ∃ name, e = .classCircularity name := by
  unfold Passes at hx; rwa [h] at hx

theorem bind (hx : x.Passes Q) (hg : ∀ a, Q a → (g a).Passes S) : (x >>= g).Passes S := by
  cases h : x.run with
  | none => exact passes_of_none (run_bind_of_none h)
  | some o =>
    cases o with
    | ok a =>
      have hga := hg a (hx.of_ok h)
      unfold Passes at hga ⊢
      rwa [run_bind_of_ok h]
    | error e =>
      obtain ⟨name, rfl⟩ := hx.of_error h
      exact passes_of_error (run_bind_of_error h)

theorem strengthen (hx : x.Passes Q) (h : ∀ a, x.run = some (.ok a) → Q' a) : x.Passes Q' := by
  cases hrun : x.run with
  | none => exact passes_of_none hrun
  | some o =>
    cases o with
    | ok a => exact passes_of_ok hrun (h a hrun)
    | error e =>
      obtain ⟨name, rfl⟩ := hx.of_error hrun
      exact passes_of_error hrun

/-- What comes behind a computation that comes to nothing is not looked at. -/
theorem bind_false (hx : x.Passes fun _ => False) : (x >>= g).Passes S := hx.bind fun _ h => h.elim

end Glimpse.Passes

theorem passes_ofExcept {o : Except Fault α} {a : α} (h : o = .ok a) (ha : Q a) :
    (Glimpse.ofExcept o).Passes Q :=
  passes_of_ok (congrArg some h) ha

theorem passes_mapM {f : γ → Glimpse α} : ∀ {cs : List γ}, (∀ c ∈ cs, (f c).Passes fun _ => True) →
    (cs.mapM f).Passes fun _ => True
  | [], _ => passes_of_ok rfl trivial
  | c :: cs, h => by
    rw [List.mapM_cons]
    refine (h c List.mem_cons_self).bind fun a _ => ?_
    exact (passes_mapM fun d hd => h d (List.mem_cons_of_mem _ hd)).bind fun as _ => passes_of_ok rfl trivial

/-- A computation for each entry of a list comes to nothing if one does and those before it pass. -/
theorem passes_mapM_append {f : γ → Glimpse α} {before after : List γ} {c : γ}
    (hbefore : ∀ d ∈ before, (f d).Passes fun _ => True) (hc : (f c).Passes fun _ => False) :
    ((before ++ c :: after).mapM f).Passes fun _ => False := by
  rw [List.mapM_append]
  refine (passes_mapM hbefore).bind fun _ _ => ?_
  rw [List.mapM_cons]
  exact hc.bind_false.bind_false

end

/-- Whether a request comes to a class for which a condition holds, or fails by circularity. -/
def ClassPaths.Allows (paths : ClassPaths) (loader : Loader) (name : String) (Q : LinkedClass → Prop) : Prop :=
  match loadClass paths loader name .empty with
  | .ok id r => ∃ c, r.table.class? id = some c ∧ Q c
  | .error e _ => ∃ name, e = .classCircularity name

/-- What a program comes to that starts with a request is all that is seen of it. -/
theorem passes_of_allows {Q : LinkedClass → Prop} (h : paths.Allows loader name Q)
    (hQ : ∀ c f, Q c → Q (c.renumber f)) (n : Nat) : (requested (answer paths n) loader name).Passes Q := by
  have hfollows := follows_load paths [] loader name Registry.wellFormed_empty (Registry.faithful_empty paths)
    (pending_nil _)
  unfold ClassPaths.Allows loadClass at h
  rcases hrun : load paths [] loader name .empty with ⟨id, r⟩ | ⟨e, r⟩
  · rw [hrun] at h
    obtain ⟨c, hc, hQc⟩ := h
    obtain ⟨-, v, hv, -, d, hd, rfl⟩ := hfollows.of_eq_ok hrun
    obtain rfl := Option.some.inj (hc.symm.trans hd)
    rcases hv.only n with hnone | hok
    · exact passes_of_none hnone
    · exact passes_of_ok hok (hQ _ _ hQc)
  · rw [hrun] at h
    obtain ⟨name, rfl⟩ := h
    rcases (hfollows.of_eq_error hrun).2 with he | ⟨-, hhopeless⟩
    · rcases he.only n with hnone | herror
      · exact passes_of_none hnone
      · exact passes_of_error herror
    · exact passes_of_none (hhopeless.run_eq_none n)

/-- Whether a class needs another one, and nothing that comes before fails but by circularity. -/
inductive ClassPaths.Awaits (paths : ClassPaths) : Key → Key → Prop
  | superclass {key : Key} {c : ClassFile} {name : String} (hc : paths.HasFile key c) (hname : c.name = .ok key.2)
      (h : c.superName = .ok (some name)) : paths.Awaits key (paths.request key.1 name)
  | interface {key : Key} {c : ClassFile} {superName : Option String} {name : String} {before after : List String}
      (hc : paths.HasFile key c) (hname : c.name = .ok key.2) (hsuperName : c.superName = .ok superName)
      (hobject : superName = none → key.2 = objectName)
      (hsuper : ∀ s ∈ superName, paths.Allows key.1 s fun d =>
        checkSuperclass key.2 s c.access.isInterface d = .ok ())
      (h : c.interfaceNames = .ok (before ++ name :: after))
      (hbefore : ∀ i ∈ before, paths.Allows key.1 i fun d => d.isInterface = true) :
      paths.Awaits key (paths.request key.1 name)
  | element {key : Key} {name : String} (h : elementName? key.2 = some (.reference name)) :
      paths.Awaits key (paths.request key.1 name)
  | primitive {name type : String} {before after : List String} {p : Primitive}
      (helement : elementName? name = some (.primitive p)) (h : coreNames = before ++ type :: after)
      (hbefore : ∀ n ∈ before, paths.Allows .boot n fun _ => True) :
      paths.Awaits (.boot, name) (.boot, type)
  | reference {key : Key} {element type : String} {before after : List String}
      (helement : elementName? key.2 = some (.reference element))
      (hown : paths.request key.1 element = (key.1, element))
      (hallows : paths.Allows key.1 element fun _ => True) (h : coreNames = before ++ type :: after)
      (hbefore : ∀ n ∈ before, paths.Allows .boot n fun _ => True) :
      paths.Awaits key (.boot, type)

section

variable {ask : Key → Glimpse LinkedClass} {load : String → Glimpse LinkedClass} {c : ClassFile}

theorem passes_superclassOf {superName : Option String} (hsuperName : c.superName = .ok superName)
    (hobject : superName = none → name = objectName)
    (hsuper : ∀ s ∈ superName, (load s).Passes fun d => checkSuperclass name s c.access.isInterface d = .ok ()) :
    (superclassOf load name c).Passes fun _ => True := by
  refine (passes_ofExcept hsuperName rfl).bind ?_
  rintro _ rfl
  cases superName with
  | none => exact passes_of_ok (by rw [if_pos (hobject rfl)]; rfl) trivial
  | some s =>
    refine (hsuper s rfl).bind fun d hd => ?_
    exact (passes_ofExcept hd rfl).bind fun _ _ => passes_of_ok rfl trivial

theorem passes_interfaceOf {n : String} (h : (load n).Passes fun d => d.isInterface = true) :
    (interfaceOf load name n).Passes fun _ => True := by
  refine h.bind fun d hd => ?_
  rw [hd]
  exact passes_of_ok rfl trivial

/-- A class file comes to nothing where its superclass comes to nothing. -/
theorem passes_classOfFile_of_superclass {n : String} (hname : c.name = .ok name)
    (hsuperName : c.superName = .ok (some n)) (h : (load n).Passes fun _ => False) :
    (classOfFile load loader name c).Passes fun _ => False := by
  refine (passes_ofExcept hname rfl).bind ?_
  rintro _ rfl
  rw [if_neg (by simp)]
  refine Glimpse.Passes.bind_false ?_
  refine (passes_ofExcept hsuperName rfl).bind ?_
  rintro _ rfl
  exact h.bind_false

/-- A class file comes to nothing where a superinterface comes to nothing and what is before it passes. -/
theorem passes_classOfFile_of_interface {n : String} {before after : List String} (hname : c.name = .ok name)
    (hsuper : (superclassOf load name c).Passes fun _ => True)
    (hnames : c.interfaceNames = .ok (before ++ n :: after))
    (hbefore : ∀ i ∈ before, (load i).Passes fun d => d.isInterface = true)
    (h : (load n).Passes fun _ => False) :
    (classOfFile load loader name c).Passes fun _ => False := by
  refine (passes_ofExcept hname rfl).bind ?_
  rintro _ rfl
  rw [if_neg (by simp)]
  refine hsuper.bind fun superclass _ => ?_
  refine (passes_ofExcept hnames rfl).bind ?_
  rintro _ rfl
  exact (passes_mapM_append (fun i hi => passes_interfaceOf (hbefore i hi)) h.bind_false).bind_false

/-- An array class comes to nothing where a class above it comes to nothing and those before it pass. -/
theorem passes_arrayClassBy {component : Component} {n : String} {before after : List String}
    (hcore : coreNames = before ++ n :: after) (hbefore : ∀ i ∈ before, (load i).Passes fun _ => True)
    (h : (load n).Passes fun _ => False) : (arrayClassBy load loader name component).Passes fun _ => False := by
  rcases before with _ | ⟨a, _ | ⟨b, _ | ⟨d, before⟩⟩⟩
  · cases hcore
    exact h.bind_false
  · cases hcore
    refine (hbefore objectName (by simp)).bind fun _ _ => ?_
    exact h.bind_false
  · cases hcore
    refine (hbefore objectName (by simp)).bind fun _ _ => ?_
    refine (hbefore CoreClasses.cloneableName (by simp)).bind fun _ _ => ?_
    exact h.bind_false
  · simp [coreNames] at hcore

end

/-- A request comes to nothing where the loader that defines the class comes to nothing. -/
theorem passes_requested {Q : LinkedClass → Prop} (h : (answer paths n (paths.request loader name)).Passes Q) :
    (requested (answer paths n) loader name).Passes Q := by
  cases loader with
  | boot => exact h
  | app =>
    unfold requested
    cases hboot : (answer paths n (.boot, name)).run with
    | none => exact passes_of_none (Linker.run_tryCatch_of_none hboot)
    | some o =>
      cases o with
      | ok w =>
        obtain ⟨id, hid⟩ := ok_of_given (.boot, name) hboot
        simp only [ClassPaths.request, hid] at h
        exact passes_of_ok (Linker.run_tryCatch_of_ok hboot) (h.of_ok hboot)
      | error e =>
        have hfails := error_of_given (.boot, name) hboot
        simp only [ClassPaths.request, hfails] at h
        unfold Glimpse.Passes
        rw [Linker.run_tryCatch_of_error hboot]
        cases e
        case classNotFound text => exact h
        all_goals
          obtain ⟨text, htext⟩ := h.of_error hboot
          cases htext
        exact ⟨_, rfl⟩

/-- A class that the program's loader defines itself is of that loader. -/
theorem loader_of_own (hown : paths.request .app name = (.app, name)) {v : LinkedClass}
    (h : (requested (answer paths n) .app name).run = some (.ok v)) : v.loader = .app := by
  have h := answer_of_requested h
  rw [hown] at h
  cases n with
  | zero => cases h
  | succ n =>
    rw [answer_succ] at h
    by_cases harray : isArrayName name = true
    · rw [defined_of_isArrayName (show isArrayName (Loader.app, name).2 = true from harray)] at h
      rcases (exists_of_arrayOfName h).2 with ⟨hboot, -⟩ | ⟨hloader, -⟩
      · obtain ⟨id, hid⟩ := ok_of_given (.boot, name) hboot
        simp [ClassPaths.request, hid] at hown
      · exact hloader
    · rw [defined, if_neg harray, fileOfName] at h
      split at h
      · cases h
      · cases h
      · obtain ⟨c, -, h⟩ := exists_of_run_bind h
        exact (exists_of_classOfFile h).1

/-- A class comes to nothing where one that it awaits comes to nothing. -/
theorem passes_of_awaits (hawaits : paths.Awaits key key')
    (h : (answer paths n key').Passes fun _ => False) : (answer paths (n + 1) key).Passes fun _ => False := by
  rw [answer_succ]
  cases hawaits with
  | superclass hc hname hsuperName =>
    rw [hc.defined]
    exact passes_classOfFile_of_superclass hname hsuperName (passes_requested h)
  | @interface _ c _ _ _ _ hc hname hsuperName hobject hsuper hnames hbefore =>
    rw [hc.defined]
    refine passes_classOfFile_of_interface hname (passes_superclassOf hsuperName hobject fun s hs => ?_) hnames
      (fun i hi => ?_) (passes_requested h)
    · refine passes_of_allows (hsuper s hs) (fun d f hd => ?_) n
      rwa [LinkedClass.checkSuperclass_renumber]
    · refine passes_of_allows (hbefore i hi) (fun d f hd => ?_) n
      rwa [LinkedClass.isInterface_renumber]
  | element helement =>
    rw [defined_of_isArrayName (isArrayName_of_elementName? helement), arrayOfName]
    simp only [helement]
    exact (passes_requested h).bind_false
  | primitive helement hcore hbefore =>
    rw [defined_of_isArrayName (isArrayName_of_elementName? helement), arrayOfName]
    simp only [helement]
    exact passes_arrayClassBy hcore (fun i hi => passes_of_allows (hbefore i hi) (fun _ _ => id) n) h
  | reference helement hown hallows hcore hbefore =>
    have hlink : ∀ component, (arrayClassBy (requested (answer paths n) .boot) key.1 key.2 component).Passes
        fun _ => False := fun component =>
      passes_arrayClassBy hcore (fun i hi => passes_of_allows (hbefore i hi) (fun _ _ => id) n) h
    rw [defined_of_isArrayName (isArrayName_of_elementName? helement), arrayOfName]
    simp only [helement]
    have helements := (passes_of_allows hallows (fun _ _ => id) n).strengthen fun v hv (happ : key.1 = .app) =>
      loader_of_own (happ ▸ hown) (happ ▸ hv)
    refine helements.bind fun v hv => ?_
    split
    · next hloader hboot =>
      rw [hv hloader] at hboot
      cases hboot
    · exact hlink _

/-- A class that leads to a cycle, and that nothing else precludes, is circular. -/
theorem passes_of_cyclic (h : Cyclic paths.Awaits key) : (answer paths n key).Passes fun _ => False := by
  induction n generalizing key with
  | zero => exact passes_of_none rfl
  | succ n ih =>
    obtain ⟨key', hawaits, hcyclic⟩ := h.next
    exact passes_of_awaits hawaits (ih hcyclic)

/-! ## Outcomes -/

/-- Every request for a class that leads to a cycle fails. -/
theorem error_of_cyclic {outcome : Except Fault ClassId} (hsettles : paths.Settles key outcome)
    (h : Cyclic paths.Needs (paths.request key.1 key.2)) : ∃ e, outcome = .error e := by
  cases outcome with
  | error e => exact ⟨e, rfl⟩
  | ok id =>
    obtain ⟨v, hv⟩ := hsettles
    obtain ⟨n, hn⟩ := hv.seen
    exact (not_ok_of_cyclic h v (answer_of_requested (hn n le_rfl))).elim

/-- Every request for a class that leads to a cycle fails by circularity if nothing else precludes it. -/
theorem circular_of_cyclic {outcome : Except Fault ClassId} (hsettles : paths.Settles key outcome)
    (h : Cyclic paths.Awaits (paths.request key.1 key.2)) : ∃ name, outcome = .error (.classCircularity name) := by
  have hpasses (n : Nat) : (paths.given key n).Passes fun _ => False := passes_requested (passes_of_cyclic h)
  cases outcome with
  | ok id =>
    obtain ⟨v, hv⟩ := hsettles
    obtain ⟨n, hn⟩ := hv.seen
    exact ((hpasses n).of_ok (hn n le_rfl)).elim
  | error e =>
    rcases hsettles with he | ⟨⟨name, rfl⟩, -⟩
    · obtain ⟨n, hn⟩ := he.seen
      obtain ⟨name, rfl⟩ := (hpasses n).of_error (hn n le_rfl)
      exact ⟨name, rfl⟩
    · exact ⟨name, rfl⟩

end Jvm.Linking
