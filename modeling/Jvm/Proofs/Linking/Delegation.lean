import Mathlib
import Jvm.Proofs.ClassFile.Complaints
import Jvm.Proofs.Linking.Cycles
import Jvm.Proofs.Linking.Fields
import Jvm.Proofs.Linking.Identity
import Jvm.Proofs.Linking.Teardown

/-! # How the loader of the program delegates

The program's loader asks the core loader first and defines a class itself where that one does not find it. A
class is also not found where a superclass, a superinterface or the class of the elements is not, or where the
class file is of another name, so that classes of the program can stand in for core classes that have class
files (`not_unshadowed`). `delegates_after`: where nothing is lacking, both loaders come to the same. -/

namespace Jvm.Linking

open ClassFile Assembly

section

variable {paths : ClassPaths} {name : String} {e : Fault} {n : Nat}

/-! ## Classes that are not found -/

/-- Whether a fault tells that a class is not found. -/
def Missing : Fault → Prop
  | .classNotFound _ => True
  | _ => False

theorem exists_of_missing (h : Missing e) : ∃ text, e = .classNotFound text := by
  cases e
  case classNotFound text => exact ⟨text, rfl⟩
  all_goals exact h.elim

theorem not_missing_of_isFormat (h : e.IsFormat) : ¬ Missing e := by
  obtain ⟨detail, rfl⟩ := h
  exact id

/-- Whether the core loader lacks a class, or one that this class needs. -/
inductive ClassPaths.Lacks (paths : ClassPaths) : String → Prop
  | absent {name : String} (hplain : isArrayName name = false)
    (h : ∀ bytes, paths.boot.find name ≠ .ok (some bytes)) : paths.Lacks name
  | misnamed {name given : String} {c : ClassFile} (hc : paths.HasFile (.boot, name) c)
    (hname : c.name = .ok given) (hne : given ≠ name) : paths.Lacks name
  | noArray {name : String} (harray : isArrayName name = true) (h : elementName? name = none) : paths.Lacks name
  | needed {name other : String} (hneeds : paths.Needs (.boot, name) (.boot, other)) (h : paths.Lacks other) :
      paths.Lacks name

/-! ## Faults of linking -/

/-- Faults of linking that are no complaints about the format. -/
theorem failsAs_checkSuperclass (superName : String) (isInterface : Bool) (s : LinkedClass) :
    FailsAs (¬ Missing ·) (checkSuperclass name superName isInterface s) := by
  refine failsAs_ite (fun _ => failsAs_error id) fun _ => ?_
  refine failsAs_ite (fun _ => failsAs_error id) fun _ => ?_
  refine failsAs_ite (fun _ => failsAs_error id) fun _ => ?_
  exact failsAs_ite (fun _ => failsAs_error id) fun _ => failsAs_ok _

theorem failsAs_constantFieldValue (c : Constant) (type : FieldType) (field : String) :
    FailsAs Fault.IsFormat (constantFieldValue c type field) := by
  unfold constantFieldValue
  split <;> first
    | exact failsAs_ok _
    | exact failsAs_format _
    | exact failsAs_ite (fun _ => failsAs_ok _) fun _ => failsAs_format _

theorem failsAs_layOutFields (pool : ConstantPool) (inherited : Array Value) (members : List MemberInfo) :
    FailsAs Fault.IsFormat (layOutFields pool inherited members) := by
  refine failsAs_foldlM (fun l m _ => ?_) _
  refine (pool.failsAs_utf8 _).bind fun field _ => (pool.failsAs_utf8 _).bind fun descriptor _ => ?_
  refine (failsAs_fieldType _).bind fun type _ => failsAs_ite (fun _ => ?_) fun _ => failsAs_ok _
  dsimp only
  split
  · refine (pool.failsAs_get _).bind fun c _ => ?_
    exact (failsAs_constantFieldValue c type field).bind fun _ _ => failsAs_ok _
  · exact failsAs_ok _

theorem failsAs_verifyMethod (pool : ConstantPool) (inInterface : Bool) (m : MemberInfo) :
    FailsAs (¬ Missing ·) (verifyMethod pool name inInterface m) := by
  refine FailsAs.bind ((pool.failsAs_utf8 _).mono fun _ => not_missing_of_isFormat) fun method _ => ?_
  refine FailsAs.bind ((pool.failsAs_utf8 _).mono fun _ => not_missing_of_isFormat) fun descriptor _ => ?_
  refine FailsAs.bind ((failsAs_methodType _).mono fun _ => not_missing_of_isFormat) fun type _ => ?_
  split
  · exact failsAs_ok _
  · exact failsAs_error id

theorem failsAs_layOutMethods (self : ClassId) (inherited : MethodTable) (declared : List Method)
    (interfaces : List LinkedClass) :
    FailsAs (¬ Missing ·) (layOutMethods self inherited declared interfaces) := by
  refine FailsAs.bind (failsAs_foldlM (fun l m _ => ?_) _) fun _ _ => failsAs_ok _
  unfold MethodLayout.add
  refine failsAs_ite (fun _ => ?_) fun _ => failsAs_ok _
  split
  · dsimp only
    split
    · exact failsAs_error id
    · exact failsAs_ok _
  · exact failsAs_ok _

theorem failsAs_linkedClass (self : ClassId) (loader : Loader) (c : ClassFile)
    (superclass : Option (ClassId × LinkedClass)) (interfaces : List (ClassId × LinkedClass)) :
    FailsAs (¬ Missing ·) (linkedClass self loader name c superclass interfaces) := by
  refine FailsAs.bind ((failsAs_layOutFields _ _ _).mono fun _ => not_missing_of_isFormat) fun _ _ => ?_
  refine FailsAs.bind (failsAs_mapM fun m _ => failsAs_verifyMethod _ _ m) fun _ _ => ?_
  exact (failsAs_layOutMethods _ _ _ _).bind fun _ _ => failsAs_ok _

/-! ## Answers that a class is not found -/

section

variable {α β γ : Type}

/-- A fault is one of the first part or of the second part. -/
theorem error_of_run_bind {x : Glimpse α} {g : α → Glimpse β} (h : (x >>= g).run = some (.error e)) :
    x.run = some (.error e) ∨ ∃ a, x.run = some (.ok a) ∧ (g a).run = some (.error e) := by
  cases hx : x.run with
  | none =>
    rw [run_bind_of_none hx] at h
    cases h
  | some o =>
    cases o with
    | ok a => exact .inr ⟨a, rfl, (run_bind_of_ok hx).symm.trans h⟩
    | error e' =>
      rw [run_bind_of_error hx] at h
      cases h
      exact .inl rfl

theorem error_of_run_mapM {f : γ → Glimpse α} {cs : List γ} (h : (cs.mapM f).run = some (.error e)) :
    ∃ c ∈ cs, (f c).run = some (.error e) := by
  induction cs with
  | nil => cases h
  | cons c cs ih =>
    rw [List.mapM_cons] at h
    rcases error_of_run_bind h with h | ⟨a, -, h⟩
    · exact ⟨c, List.mem_cons_self, h⟩
    rcases error_of_run_bind h with h | ⟨as, -, h⟩
    · obtain ⟨d, hd, h⟩ := ih h
      exact ⟨d, List.mem_cons_of_mem _ hd, h⟩
    · cases h

/-- A step that cannot fail in this way is not where the fault is. -/
theorem not_error_of_failsAs {x : Except Fault α} {P : Fault → Prop} (hx : FailsAs (¬ P ·) x)
    (he : P e) : (Glimpse.ofExcept x).run ≠ some (.error e) :=
  fun h => hx e (Option.some.inj h) he

end

section

variable {ask : Key → Glimpse LinkedClass} {load : String → Glimpse LinkedClass} {c : ClassFile}

theorem missing_of_superclassOf (he : Missing e) (h : (superclassOf load name c).run = some (.error e)) :
    ∃ other, c.superName = .ok (some other) ∧ (load other).run = some (.error e) := by
  rcases error_of_run_bind h with h | ⟨superName, hsuper, h⟩
  · have hformat := (failsAs_superName c).mono fun _ => not_missing_of_isFormat
    exact absurd h (not_error_of_failsAs hformat he)
  cases superName with
  | none =>
    dsimp only at h
    split at h
    · cases h
    · cases h
      exact he.elim
  | some other =>
    rcases error_of_run_bind h with h | ⟨s, -, h⟩
    · exact ⟨other, eq_ok_of_run hsuper, h⟩
    rcases error_of_run_bind h with h | ⟨_, -, h⟩
    · exact absurd h (not_error_of_failsAs (failsAs_checkSuperclass _ _ _) he)
    · cases h

theorem missing_of_interfaceOf {other : String} (he : Missing e)
    (h : (interfaceOf load name other).run = some (.error e)) : (load other).run = some (.error e) := by
  rcases error_of_run_bind h with h | ⟨i, -, h⟩
  · exact h
  split at h
  · cases h
    exact he.elim
  · cases h

/-- Where a class file is found, its class is missing only if it is that of another class or if one of its
supertypes is missing. -/
theorem missing_of_classOfFile {loader : Loader} (he : Missing e)
    (h : (classOfFile load loader name c).run = some (.error e)) :
    (∃ given, c.name = .ok given ∧ given ≠ name) ∨
      (∃ other, c.superName = .ok (some other) ∧ (load other).run = some (.error e)) ∨
      ∃ names other, c.interfaceNames = .ok names ∧ other ∈ names ∧ (load other).run = some (.error e) := by
  have hformat {α : Type} {x : Except Fault α} (hx : FailsAs Fault.IsFormat x) :
      (Glimpse.ofExcept x).run ≠ some (.error e) :=
    not_error_of_failsAs (hx.mono fun _ => not_missing_of_isFormat) he
  rcases error_of_run_bind h with h | ⟨given, hgiven, h⟩
  · exact absurd h (hformat (failsAs_name c))
  split at h
  · next hne => exact .inl ⟨given, eq_ok_of_run hgiven, by simpa using hne⟩
  rcases error_of_run_bind h with h | ⟨superclass, -, h⟩
  · exact .inr (.inl (missing_of_superclassOf he h))
  rcases error_of_run_bind h with h | ⟨names, hnames, h⟩
  · exact absurd h (hformat (failsAs_interfaceNames c))
  rcases error_of_run_bind h with h | ⟨interfaces, -, h⟩
  · obtain ⟨other, hother, h⟩ := error_of_run_mapM h
    exact .inr (.inr ⟨names, other, eq_ok_of_run hnames, hother, missing_of_interfaceOf he h⟩)
  rcases error_of_run_bind h with h | ⟨linked, -, h⟩
  · exact absurd h (not_error_of_failsAs (failsAs_linkedClass _ _ _ _ _) he)
  · cases h

/-- A class of the core loader is missing only if there are no bytes, or for what its class file says. -/
theorem missing_of_fileOfName (he : Missing e) (hplain : isArrayName name = false)
    (h : (fileOfName paths ask .boot name).run = some (.error e)) :
    (∀ bytes, paths.boot.find name ≠ .ok (some bytes)) ∨ ∃ c, paths.HasFile (.boot, name) c ∧
      (classOfFile (requested ask .boot) .boot name c).run = some (.error e) := by
  have hfind : ∀ found, (paths.ofLoader .boot).find name = found → paths.boot.find name = found :=
    fun _ => id
  unfold fileOfName at h
  split at h
  · next text hfound =>
    refine .inl fun bytes hbytes => ?_
    rw [hfind _ hfound] at hbytes
    cases hbytes
  · next hfound =>
    refine .inl fun bytes hbytes => ?_
    rw [hfind _ hfound] at hbytes
    cases hbytes
  · next bytes hfound =>
    rcases error_of_run_bind h with h | ⟨c, hparse, h⟩
    · have hformat : e.IsFormat := isFormat_of_parse (Option.some.inj h)
      exact absurd he (not_missing_of_isFormat hformat)
    · exact .inr ⟨c, ⟨hplain, bytes, hfound, eq_ok_of_run hparse⟩, h⟩

/-- An array class over a component type is missing only if a class above all arrays is. -/
theorem missing_of_arrayClassBy {loader : Loader} {component : Component}
    (h : (arrayClassBy load loader name component).run = some (.error e)) :
    ∃ other ∈ coreNames, (load other).run = some (.error e) := by
  rcases error_of_run_bind h with h | ⟨o, -, h⟩
  · exact ⟨objectName, by simp [coreNames], h⟩
  rcases error_of_run_bind h with h | ⟨i, -, h⟩
  · exact ⟨CoreClasses.cloneableName, by simp [coreNames], h⟩
  rcases error_of_run_bind h with h | ⟨j, -, h⟩
  · exact ⟨CoreClasses.serializableName, by simp [coreNames], h⟩
  · cases h

/-- An array class of the core loader is missing only if no arrays have the name, or if the class of the
elements or a class above all arrays is missing. -/
theorem missing_of_arrayOfName (h : (arrayOfName ask .boot name).run = some (.error e)) :
    elementName? name = none ∨
      (∃ other, elementName? name = some (.reference other) ∧ (ask (.boot, other)).run = some (.error e)) ∨
      ∃ other ∈ coreNames, (ask (.boot, other)).run = some (.error e) := by
  unfold arrayOfName at h
  cases helement : elementName? name with
  | none => exact .inl rfl
  | some element =>
    refine .inr ?_
    simp only [helement] at h
    cases element with
    | primitive type => exact .inr (missing_of_arrayClassBy h)
    | reference other =>
      rcases error_of_run_bind h with h | ⟨d, -, h⟩
      · exact .inl ⟨other, rfl, h⟩
      · exact .inr (missing_of_arrayClassBy h)

end

/-- Where the core loader does not find a class, it lacks the class or one that this class needs. -/
theorem lacks_of_answer (he : Missing e) (h : (answer paths n (.boot, name)).run = some (.error e)) :
    paths.Lacks name := by
  -- the classes that are needed are looked for with less depth
  induction n generalizing name with
  | zero => cases h
  | succ n ih =>
    rw [answer_succ, defined] at h
    split at h
    · next harray =>
      rcases missing_of_arrayOfName h with helement | ⟨other, helement, h⟩ | ⟨other, hother, h⟩
      · exact .noArray harray helement
      · have hneeds : paths.Needs (.boot, name) (.boot, other) := .element helement
        exact .needed hneeds (ih h)
      · have hneeds : paths.Needs (.boot, name) (.boot, other) := .core harray hother
        exact .needed hneeds (ih h)
    · next harray =>
      have hplain : isArrayName name = false := by simpa using harray
      rcases missing_of_fileOfName he hplain h with habsent | ⟨c, hc, h⟩
      · exact .absent hplain habsent
      rcases missing_of_classOfFile he h with ⟨given, hname, hne⟩ | ⟨other, hsuper, h⟩ |
        ⟨names, other, hnames, hother, h⟩
      · exact .misnamed hc hname hne
      · exact .needed (.superclass hc hsuper) (ih h)
      · exact .needed (.interface hc hnames hother) (ih h)

/-! ## Delegation -/

section

variable {r r' : Registry} {id : ClassId}

/-- What the core loader comes to counts for the program's loader too, unless the class is missing. -/
theorem loadClass_app (h : ∀ e r', loadClass paths .boot name r = .error e r' → ¬ Missing e) :
    loadClass paths .app name r = loadClass paths .boot name r := by
  rw [loadClass, loadClass, load, load] at *
  rcases hboot : define paths [] .boot name r with ⟨id, r'⟩ | ⟨e, r'⟩
  · exact tryCatch_of_ok hboot
  · rw [tryCatch_of_error hboot]
    have hfound := h e r' hboot
    cases e
    case classNotFound text => exact absurd trivial hfound
    all_goals rfl

/-- Where a class is missing for the core loader, the program's loader defines it. -/
theorem loadClass_app_of_missing (h : loadClass paths .boot name r = .error e r') (he : Missing e) :
    loadClass paths .app name r = define paths [] .app name r' := by
  obtain ⟨text, rfl⟩ := exists_of_missing he
  rw [loadClass, load] at h
  rw [loadClass, load, tryCatch_of_error h]

/-- Whether the program's loader comes to what the core loader comes to under a name. -/
structure Registry.Delegates (paths : ClassPaths) (r : Registry) (name : String) : Prop where
  same : loadClass paths .app name r = loadClass paths .boot name r
  core : ∀ id r', loadClass paths .app name r = .ok id r' →
    ∃ c, r'.table.class? id = some c ∧ c.name = name ∧ c.loader = .boot

theorem Fault.Like.missing_iff {e₀ e : Fault} (h : Fault.Like e₀ e) : Missing e ↔ Missing e₀ := by
  cases h <;> rfl

/-- A request that does not come to a class because one is missing comes to what the class paths give. -/
theorem lacks_of_loadClass (hr : r.WellFormed) (hf : r.Faithful paths)
    (h : loadClass paths .boot name r = .error e r') (he : Missing e) : paths.Lacks name := by
  have hsettles : paths.Settles (.boot, name) ((loadClass paths .boot name).outcome r) :=
    settles_loadClass (.boot, name) hr hf
  rw [Linker.outcome, h] at hsettles
  rcases hsettles with hyields | ⟨⟨text, rfl⟩, -⟩
  · obtain ⟨n, hn⟩ := hyields.seen
    exact lacks_of_answer he (hn n le_rfl)
  · exact he.elim

theorem Registry.RegrownFrom.delegates {b : Nat} {r₀ : Registry} (h : Registry.RegrownFrom paths b r₀ r)
    (name : String) : r.Delegates paths name ∨ paths.Lacks name := by
  have hmoves : Linker.Moves b (· + b) (loadClass paths .boot name) (loadClass paths .boot name) r₀ r :=
    moves_load paths [] .boot name h.behind
  rcases hrun₀ : loadClass paths .boot name r₀ with ⟨id₀, r₀'⟩ | ⟨e₀, r₀'⟩
  · obtain ⟨r', hrun, hr'⟩ := hmoves.of_eq_ok hrun₀
    have hsame : loadClass paths .app name r = loadClass paths .boot name r :=
      loadClass_app fun e r'' herror => nomatch hrun.symm.trans herror
    refine .inl ⟨hsame, fun id r'' hid => ?_⟩
    cases (hsame.trans hrun).symm.trans hid
    obtain ⟨c, hc, hname, hloader⟩ :=
      ((meets_load paths [] .boot name h.wellFormed.linked).of_eq_ok hrun₀).2
    exact ⟨_, hr'.classes.class? hc, hname, hloader.resolve_right nofun⟩
  · obtain ⟨e, r', hrun, hlike, -⟩ := hmoves.of_eq_error hrun₀
    by_cases he : Missing e
    · exact .inr (lacks_of_loadClass h.wellFormed h.faithful hrun₀ (hlike.missing_iff.1 he))
    · have hsame : loadClass paths .app name r = loadClass paths .boot name r :=
        loadClass_app fun e' r'' herror => by
          cases hrun.symm.trans herror
          exact he
      exact .inl ⟨hsame, fun id r'' hid => nomatch (hsame.trans hrun).symm.trans hid⟩

/-- **Delegation to the core loader**: whatever is asked of a registry, the program's loader comes to what the
core loader comes to, unless the core loader lacks the class or one that this class needs. -/
theorem delegates_after (paths : ClassPaths) (requests : List Request) (name : String) :
    (Registry.after paths requests).Delegates paths name ∨ paths.Lacks name := by
  obtain ⟨b, r₀, h⟩ := regrown_after paths requests
  exact h.delegates name

/-! ## Classes of the program in place of core classes -/

/-- What the core loader fails with is recorded. -/
theorem loadClass_boot_of_error (hnew : r.loaded[(Loader.boot, name)]? = none)
    (h : defineBy paths (load paths [(.boot, name)]) .boot name r = .error e r') :
    loadClass paths .boot name r = .error e (r'.remember (.boot, name) (.error e)) := by
  rw [loadClass, load, define_of_fresh hnew List.not_mem_nil, Linker.recorded_of_error h]

/-- A class without a class file is missing. -/
theorem loadClass_boot_of_absent (hnew : r.loaded[(Loader.boot, name)]? = none)
    (hplain : isArrayName name = false) (hnone : paths.boot.find name = .ok none) :
    loadClass paths .boot name r = .error (.classNotFound name)
      (r.remember (.boot, name) (.error (.classNotFound name))) := by
  refine loadClass_boot_of_error hnew ?_
  have hfind : (paths.ofLoader .boot).find name = .ok none := hnone
  rw [defineBy_of_file hplain, hfind]
  rfl

/-- A class with a class file whose superclass fails to load fails in the same way. -/
theorem defineBy_of_superclass_error {load : Loader → String → Linker ClassId} {loader : Loader} {c : ClassFile}
    {superName : String} (hc : paths.HasFile (loader, name) c) (hname : c.name = .ok name)
    (hsuper : c.superName = .ok (some superName)) (hload : load loader superName r = .error e r') :
    defineBy paths load loader name r = .error e r' := by
  obtain ⟨bytes, hfind, hparse⟩ := hc.found
  have hlinkSuper : linkSuperclass (load loader) name c r = .error e r' := by
    rw [linkSuperclass, hsuper, bind_of_ok (ofExcept_ok _ r)]
    exact bind_of_error hload
  rw [defineBy_of_file hc.plain, hfind]
  dsimp only
  rw [hparse, bind_of_ok (ofExcept_ok _ r)]
  unfold link
  rw [hname, bind_of_ok (ofExcept_ok _ r), if_neg (by simp)]
  exact bind_of_error hlinkSuper

/-- A class with a class file whose superclass is known to be missing is missing in the same way. -/
theorem loadClass_boot_of_missing_superclass {c : ClassFile} {superName text : String}
    (hnew : r.loaded[(Loader.boot, name)]? = none) (hc : paths.HasFile (.boot, name) c)
    (hname : c.name = .ok name) (hsuper : c.superName = .ok (some superName))
    (hmissing : r.loaded[(Loader.boot, superName)]? = some (.error (.classNotFound text))) :
    loadClass paths .boot name r = .error (.classNotFound text)
      (r.remember (.boot, name) (.error (.classNotFound text))) := by
  exact loadClass_boot_of_error hnew (defineBy_of_superclass_error hc hname hsuper (load_of_knows (.core hmissing)))

/-- Where the core loader has a class file and a superclass is missing, the class is up to the program. -/
theorem loadClass_app_of_missing_superclass {c : ClassFile} {superName text : String}
    (hnew : r.loaded[(Loader.boot, name)]? = none) (hc : paths.HasFile (.boot, name) c)
    (hname : c.name = .ok name) (hsuper : c.superName = .ok (some superName))
    (hmissing : r.loaded[(Loader.boot, superName)]? = some (.error (.classNotFound text))) :
    loadClass paths .app name r =
      define paths [] .app name (r.remember (.boot, name) (.error (.classNotFound text))) :=
  loadClass_app_of_missing (loadClass_boot_of_missing_superclass hnew hc hname hsuper hmissing) trivial

/-- Whether no class of the program has the name of a core class that has a class file. -/
def ClassPaths.Unshadowed (paths : ClassPaths) : Prop :=
  ∀ requests name bytes id r' c, paths.boot.find name = .ok (some bytes) →
    loadClass paths .app name (Registry.after paths requests) = .ok id r' →
      r'.table.class? id = some c → c.loader = .boot

end

end

/-! ### A core class without its superclass

The core loader has a class file for `Cloneable`, and none for the object class above it. The program has both. -/

namespace Headless

/-- The class paths. -/
def paths : ClassPaths where
  boot := .ofFiles [("java/lang/Cloneable", OddCore.cloneableBytes)]
  app := .ofFiles [("java/lang/Cloneable", OddCore.cloneableBytes), ("java/lang/Object", OddCore.objectBytes)]

/-- The object class of the program. -/
def object : LinkedClass := { OddCore.object with loader := .app }

/-- The class `Cloneable` of the program. -/
def cloneable : LinkedClass := { OddCore.cloneable with loader := .app }

/-- The object class is requested. -/
def requests : List Request := [.load .app "java/lang/Object"]

theorem linkedClass_object :
    linkedClass 0 .app "java/lang/Object" OddCore.objectFile none [] = .ok (object, #[]) := by
  decide +kernel

theorem linkedClass_cloneable : linkedClass 1 .app "java/lang/Cloneable" OddCore.cloneableFile
    (some (0, object)) [] = .ok (cloneable, #[]) := by
  decide +kernel

/-- The core loader has been asked for the object class. -/
def asked : Registry :=
  Registry.empty.remember (.boot, "java/lang/Object") (.error (.classNotFound "java/lang/Object"))

theorem loadClass_boot :
    loadClass paths .boot "java/lang/Object" .empty = .error (.classNotFound "java/lang/Object") asked :=
  loadClass_boot_of_absent Std.HashMap.getElem?_empty (by decide) rfl

theorem known_object : ∀ p ∈ object.parents, p < asked.table.size := by
  simp [object, OddCore.object, OddCore.linked, LinkedClass.parents]

/-- The program's loader has defined the object class. -/
def defined : Registry :=
  Registry.remember { asked with
    table := asked.table.push object known_object
    states := asked.states.push (.start .linked #[] object.pool.size) } (.app, "java/lang/Object") (.ok 0)

theorem define_object : define paths [] .app "java/lang/Object" asked = .ok 0 defined := by
  have hnew : asked.loaded[(Loader.app, "java/lang/Object")]? = none := by
    rw [asked, Registry.loaded_remember, if_neg (by decide)]
    exact Std.HashMap.getElem?_empty
  have hsize : asked.table.size = 0 := rfl
  have hlinked := linkedClass_object
  rw [← hsize] at hlinked
  have hlink : link (fun n => load paths [(.app, "java/lang/Object")] .app n) .app "java/lang/Object"
      OddCore.objectFile asked = .ok asked.table.size { asked with
        table := asked.table.push object known_object
        states := asked.states.push (.start .linked #[] object.pool.size) } := by
    refine link_of_class? ?_ ?_ ?_ ?_ ?_ ?_ hlinked known_object
    · rfl
    · rfl
    · exact fun _ => rfl
    · exact fun _ h => nomatch h
    · rfl
    · exact fun _ h => nomatch h
  exact define_of_link hnew List.not_mem_nil (by decide) rfl OddCore.parse_objectBytes hlink

theorem after_requests : Registry.after paths requests = defined := by
  have happ : loadClass paths .app "java/lang/Object" .empty = .ok 0 defined :=
    (loadClass_app_of_missing loadClass_boot trivial).trans define_object
  change (loadClass paths .app "java/lang/Object").leads .empty = defined
  rw [Linker.leads, happ]

theorem loaded_defined (key : Key) : defined.loaded[key]? =
    if (Loader.app, "java/lang/Object") = key then some (.ok 0)
    else if (Loader.boot, "java/lang/Object") = key then some (.error (.classNotFound "java/lang/Object"))
    else none := by
  have hasked := Registry.loaded_remember .empty (.boot, "java/lang/Object") key
    (.error (.classNotFound "java/lang/Object"))
  rw [show Registry.empty.loaded[key]? = none from Std.HashMap.getElem?_empty] at hasked
  rw [defined, Registry.loaded_remember, ← hasked]
  rfl

/-- The core loader has been asked for `Cloneable`. -/
def askedAgain : Registry :=
  defined.remember (.boot, "java/lang/Cloneable") (.error (.classNotFound "java/lang/Object"))

theorem known_cloneable : ∀ p ∈ cloneable.parents, p < askedAgain.table.size := by
  have hsize : askedAgain.table.size = 1 := rfl
  simp [hsize, cloneable, OddCore.cloneable, OddCore.linked, LinkedClass.parents]

theorem link_cloneable : link (fun n => load paths [(.app, "java/lang/Cloneable")] .app n) .app
    "java/lang/Cloneable" OddCore.cloneableFile askedAgain = .ok askedAgain.table.size { askedAgain with
      table := askedAgain.table.push cloneable known_cloneable
      states := askedAgain.states.push (.start .linked #[] cloneable.pool.size) } := by
  have hloaded (key : Key) (hkey : key.2 = "java/lang/Object") :
      askedAgain.loaded[key]? = defined.loaded[key]? := by
    rw [askedAgain, Registry.loaded_remember, if_neg]
    rintro rfl
    revert hkey
    decide
  have hknows : askedAgain.Knows .app "java/lang/Object" (.ok 0) := by
    have hboot : askedAgain.loaded[(Loader.boot, "java/lang/Object")]? =
        some (.error (.classNotFound "java/lang/Object")) := by
      rw [hloaded _ rfl, loaded_defined, if_neg (by decide), if_pos rfl]
    refine .own hboot ?_
    rw [hloaded _ rfl, loaded_defined, if_pos rfl]
  have hsize : askedAgain.table.size = 1 := rfl
  have hlinked := linkedClass_cloneable
  rw [← hsize] at hlinked
  refine link_of_class? ?_ ?_ ?_ ?_ ?_ ?_ hlinked known_cloneable
  · rfl
  · rfl
  · exact fun h => nomatch h
  · rintro _ ⟨⟩
    exact ⟨load_of_knows hknows, rfl, rfl⟩
  · rfl
  · exact fun _ h => nomatch h

theorem loads_cloneable : ∃ r', loadClass paths .app "java/lang/Cloneable" (Registry.after paths requests) =
    .ok 1 r' ∧ r'.table.class? 1 = some cloneable := by
  have hfile : paths.HasFile (.boot, "java/lang/Cloneable") OddCore.cloneableFile :=
    ⟨by decide, _, rfl, OddCore.parse_cloneableBytes⟩
  have hnew (loader : Loader) : defined.loaded[(loader, "java/lang/Cloneable")]? = none := by
    rw [loaded_defined, if_neg (by simp), if_neg (by simp)]
  have hmissing : defined.loaded[(Loader.boot, "java/lang/Object")]? =
      some (.error (.classNotFound "java/lang/Object")) := by
    rw [loaded_defined, if_neg (by decide), if_pos rfl]
  have happ : loadClass paths .app "java/lang/Cloneable" defined =
      define paths [] .app "java/lang/Cloneable" askedAgain :=
    loadClass_app_of_missing_superclass (hnew .boot) hfile rfl rfl hmissing
  have hnewAgain : askedAgain.loaded[(Loader.app, "java/lang/Cloneable")]? = none := by
    rw [askedAgain, Registry.loaded_remember, if_neg (by decide), hnew]
  rw [after_requests, happ,
    define_of_link hnewAgain List.not_mem_nil (by decide) rfl OddCore.parse_cloneableBytes link_cloneable]
  exact ⟨_, rfl, rfl⟩

end Headless

/-- **A class of the program in place of a core class**: `Cloneable` has a class file among the core classes,
and is a class of the program. -/
theorem not_unshadowed : ¬ Headless.paths.Unshadowed := by
  intro h
  obtain ⟨r', hload, hclass⟩ := Headless.loads_cloneable
  have hloader := h Headless.requests "java/lang/Cloneable" OddCore.cloneableBytes 1 r' Headless.cloneable rfl
    hload hclass
  cases hloader

end Jvm.Linking
