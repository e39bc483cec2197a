import Mathlib
import Jvm.Proofs.Execution.Threads

/-! # The machines that a host reaches

A host begins with an empty machine, has classes loaded, programs run and methods called, and collects. A
thread that may take only so many steps stands still in the middle of what it does, so the machines that the
host reaches (`Machine.Reached`) are all those in which an instruction, a new object or a collection is due.
All of them are sound: no reference that the machine holds on to dangles (`no_dangling`), and every array
holds what its class says (`arrays_fit`). -/

namespace Jvm.Execution

open Linking

namespace Machine

variable {α : Type} {m : Machine}

/-- The machine that a computation on a new thread ends with, or stands still with, while the thread is
attached. -/
def during (m : Machine) (env : Environment) (budget steps : Nat) (name : Nat → String) (x : VM α) :
    Machine :=
  match x (.ofTasks env (perform env budget)) { m.attach name with steps } with
  | .ok _ m' => m'
  | .error _ m' => m'

/-- The machines that a host reaches, with no native methods but those of the core classes: it asks for what
a machine has to offer, with arguments that are there, one thing after the other. -/
inductive Reached : Machine → Prop where
  | start (config : Heap.Config) : Reached (.start config)
  | loaded {m : Machine} (env : Environment) (className : String) (hm : m.Reached) :
      Reached (m.loadClass env className).2
  | running {m : Machine} (env : Environment) (henv : env.natives = .core) (budget steps : Nat)
      (className : String) (args : List String) (hm : m.Reached) :
      Reached (m.during env budget steps mainThreadName (VM.reporting (VM.runMain className args)))
  | calling {m : Machine} (env : Environment) (henv : env.natives = .core) (budget steps : Nat)
      (className name descriptor : String) {args : List Value} (hargs : ∀ v ∈ args, v.All m.heap.IsLive)
      (hm : m.Reached) :
      Reached (m.during env budget steps mainThreadName
        (VM.invokeStaticMethod className name descriptor args))
  | started {m : Machine} (env : Environment) (henv : env.natives = .core) (budget steps : Nat)
      (className name descriptor : String) {args : List Value} (hargs : ∀ v ∈ args, v.All m.heap.IsLive)
      (hm : m.Reached) :
      Reached (m.during env budget steps startedThreadName
        (VM.reporting (VM.invokeStaticMethod className name descriptor args)))
  | detached {m : Machine} (hm : m.Reached) : Reached m.detach
  | collected {m : Machine} (hm : m.Reached) : Reached m.gc

/-- The machines that a host gets to from another one, with one more thing that it asks for. -/
inductive Goes (m : Machine) : Machine → Prop
  | loaded (env : Environment) (className : String) : m.Goes (m.loadClass env className).2
  | running (env : Environment) (henv : env.natives = .core) (budget steps : Nat) (className : String)
      (args : List String) :
      m.Goes (m.during env budget steps mainThreadName (VM.reporting (VM.runMain className args)))
  | calling (env : Environment) (henv : env.natives = .core) (budget steps : Nat)
      (className name descriptor : String) {args : List Value} (hargs : ∀ v ∈ args, v.All m.heap.IsLive) :
      m.Goes (m.during env budget steps mainThreadName
        (VM.invokeStaticMethod className name descriptor args))
  | started (env : Environment) (henv : env.natives = .core) (budget steps : Nat)
      (className name descriptor : String) {args : List Value} (hargs : ∀ v ∈ args, v.All m.heap.IsLive) :
      m.Goes (m.during env budget steps startedThreadName
        (VM.reporting (VM.invokeStaticMethod className name descriptor args)))
  | detached : m.Goes m.detach
  | collected : m.Goes m.gc

/-! ### What a host asks for -/

theorem Reached.goes {m' : Machine} (hm : m.Reached) (h : m.Goes m') : m'.Reached := by
  cases h with
  | loaded env className => exact .loaded env className hm
  | running env henv budget steps className args => exact .running env henv budget steps className args hm
  | calling env henv budget steps className name descriptor hargs =>
    exact .calling env henv budget steps className name descriptor hargs hm
  | started env henv budget steps className name descriptor hargs =>
    exact .started env henv budget steps className name descriptor hargs hm
  | detached => exact .detached hm
  | collected => exact .collected hm

theorem onThread_eq_detach (m : Machine) (env : Environment) (name : Nat → String) (x : VM α) :
    (m.onThread env name x).2 = (m.during env env.steps env.steps name x).detach := by
  unfold onThread during Environment.context
  rcases x (.ofTasks env (perform env env.steps)) { m.attach name with steps := env.steps } with
    ⟨a, m'⟩ | ⟨_ | _ | _ | _, m'⟩ <;> rfl

/-- A host that has a program run reaches the machine afterwards. -/
theorem Reached.runMain (hm : m.Reached) {env : Environment} (henv : env.natives = .core)
    (className : String) (args : List String) : (m.runMain env className args).2.Reached := by
  rw [Machine.runMain, onThread_eq_detach]
  exact (running env henv _ _ className args hm).detached

/-- A host that calls a method reaches the machine afterwards. -/
theorem Reached.invoke (hm : m.Reached) {env : Environment} (henv : env.natives = .core)
    (className name descriptor : String) {args : List Value} (hargs : ∀ v ∈ args, v.All m.heap.IsLive) :
    (m.invoke env className name descriptor args).2.Reached := by
  rw [Machine.invoke, onThread_eq_detach]
  exact (calling env henv _ _ className name descriptor hargs hm).detached

/-- A host that calls a method on a thread of its own reaches the machine afterwards. -/
theorem Reached.spawn (hm : m.Reached) {env : Environment} (henv : env.natives = .core)
    (className name descriptor : String) {args : List Value} (hargs : ∀ v ∈ args, v.All m.heap.IsLive) :
    (m.spawn env className name descriptor args).2.Reached := by
  rw [Machine.spawn, onThread_eq_detach]
  exact (started env henv _ _ className name descriptor hargs hm).detached

/-! ### Soundness -/

theorem sound_start (config : Heap.Config) : (start config).Sound where
  registry := Registry.consistent_empty
  typed := Registry.wellTyped_empty
  heap := Heap.sound_empty config _
  pinned r hr := by cases hr
  frames f hf := by cases hf
  classes r hr := by
    rcases Registry.consistent_empty.linked.mem_roots.1 hr with ⟨id, s, hs, -⟩ | ⟨text, htext⟩
    · cases hs
    · simp [Registry.interned?, Registry.empty] at htext
  followed r hr := by cases hr
  handedOut us r hr := by cases hr

theorem Sound.attach (hm : m.Sound) (name : Nat → String) (steps : Nat) :
    Sound { m.attach name with steps } where
  registry := hm.registry
  typed := hm.typed
  heap := hm.heap
  pinned r hr := by cases hr
  frames f hf := by cases hf
  classes := hm.classes
  followed r hr := by cases hr
  handedOut := hm.handedOut

theorem Sound.detach (hm : m.Sound) : m.detach.Sound where
  registry := hm.registry
  typed := hm.typed
  heap := hm.heap
  pinned r hr := by cases hr
  frames f hf := by cases hf
  classes := hm.classes
  followed := hm.followed
  handedOut := hm.handedOut

theorem Sound.leads_loadClass (hm : m.Sound) (env : Environment) (className : String) :
    m.Leads (fun _ => True) (m.loadClass env className).2 := by
  have hload : Linker.Meets Registry.Resolves (Linking.loadClass env.paths .app className)
      (fun id r => r.Names .app className id) m.registry :=
    resolves_loadClass hm.registry .app className
  unfold Machine.loadClass
  rcases h : Linking.loadClass env.paths .app className m.registry with ⟨id, r⟩ | ⟨e, r⟩
  · exact hm.leads_resolves (hload.of_eq_ok h).1
  · exact hm.leads_resolves (hload.of_eq_error h)

theorem Sound.gc (hm : m.Sound) : m.gc.Sound := by
  have hattached : (m.attach mainThreadName).Sound := hm.attach mainThreadName m.steps
  exact (hattached.leads_collect (P := fun _ => False) fun _ h => h.elim).sound.detach

/-- A thread on which a computation runs that keeps machines sound. -/
theorem Sound.during (hm : m.Sound) {env : Environment} {budget steps : Nat} {name : Nat → String}
    {x : VM α} {P : Ref → Prop} {Q : α → Machine → Prop}
    (hx : VM.Meets P x Q (.ofTasks env (perform env budget)) { m.attach name with steps }) :
    (m.during env budget steps name x).Sound ∧
      m.handedOut ⊆ (m.during env budget steps name x).handedOut := by
  unfold Machine.during
  split
  · next a m' h =>
    obtain ⟨hleads, -⟩ := hx.of_eq_ok (hm.attach name steps) h
    exact ⟨hleads.sound, hleads.handedOut⟩
  · next e m' h =>
    have hends := hx.of_eq_error (hm.attach name steps) h
    exact ⟨hends.sound, hends.handedOut⟩

/-- Machines stay sound, and do not forget what programs have been given, whatever a host asks for. -/
theorem Sound.goes {m' : Machine} (hm : m.Sound) (h : m.Goes m') :
    m'.Sound ∧ m.handedOut ⊆ m'.handedOut := by
  cases h with
  | loaded env className =>
    have hleads := hm.leads_loadClass env className
    exact ⟨hleads.sound, hleads.handedOut⟩
  | running env henv budget steps className args =>
    exact hm.during (VM.meets_runMain (Context.sound_ofTasks henv budget) className args).reporting
  | calling env henv budget steps className name descriptor hargs =>
    exact hm.during (VM.meets_invokeStaticMethod (Context.sound_ofTasks henv budget)
      (m := { (Machine.attach _ mainThreadName) with steps }) hargs className name descriptor)
  | started env henv budget steps className name descriptor hargs =>
    exact hm.during (VM.meets_invokeStaticMethod (Context.sound_ofTasks henv budget)
      (m := { (Machine.attach _ startedThreadName) with steps }) hargs className name descriptor).reporting
  | detached => exact ⟨hm.detach, .refl _⟩
  | collected => exact ⟨hm.gc, .refl _⟩

/-- They do so however much a host asks for. -/
theorem Sound.goesOn {m' : Machine} (hm : m.Sound) (h : Relation.ReflTransGen Goes m m') :
    m'.Sound ∧ m.handedOut ⊆ m'.handedOut := by
  induction h with
  | refl => exact ⟨hm, .refl _⟩
  | tail _ hgoes ih =>
    obtain ⟨hsound, hsub⟩ := ih.1.goes hgoes
    exact ⟨hsound, List.Subset.trans ih.2 hsub⟩

/-- **The machines that a host reaches are sound.** The induction is on what it has asked for. -/
theorem Reached.sound (hm : m.Reached) : m.Sound := by
  induction hm with
  | start config => exact sound_start config
  | loaded env className _ ih => exact (ih.goes (.loaded env className)).1
  | running env henv budget steps className args _ ih =>
    exact (ih.goes (.running env henv budget steps className args)).1
  | calling env henv budget steps className name descriptor hargs _ ih =>
    exact (ih.goes (.calling env henv budget steps className name descriptor hargs)).1
  | started env henv budget steps className name descriptor hargs _ ih =>
    exact (ih.goes (.started env henv budget steps className name descriptor hargs)).1
  | detached _ ih => exact (ih.goes .detached).1
  | collected _ ih => exact (ih.goes .collected).1

/-- Whether every reference that a machine holds on to, or holds in an object, names an object, and so did
every reference that it has followed. -/
structure Whole (m : Machine) : Prop where
  locals : ∀ f ∈ m.frames.list, ∀ v ∈ f.locals, v.All m.heap.IsLive
  stack : ∀ f ∈ m.frames.list, ∀ v ∈ f.stack.list, v.All m.heap.IsLive
  monitor : ∀ f ∈ m.frames.list, ∀ r ∈ f.monitor, m.heap.IsLive r
  pinned : ∀ r ∈ m.pinned, m.heap.IsLive r
  statics : ∀ id s, m.registry.state? id = some s → ∀ v ∈ s.statics, v.All m.heap.IsLive
  classObjects : ∀ id r, m.registry.classObject? id = some r → m.heap.IsLive r
  strings : ∀ id s, m.registry.state? id = some s → ∀ r, some r ∈ s.strings → m.heap.IsLive r
  interned : ∀ text r, m.registry.interned? text = some r → m.heap.IsLive r
  fields : ∀ r o values, m.heap.object? r = some o → o.contents = .fields values →
    ∀ v ∈ values, v.All m.heap.IsLive
  elements : ∀ r o e, m.heap.object? r = some o → o.contents = .array e →
    ∀ v ∈ e.values, v.All m.heap.IsLive
  followed : ∀ r, Note.missing r ∉ m.notes

theorem Sound.whole (hm : m.Sound) : m.Whole where
  locals f hf := (hm.frames f hf).locals
  stack f hf := (hm.frames f hf).stack
  monitor f hf := (hm.frames f hf).monitor
  pinned := hm.pinned
  statics id s hs v hv := by
    rintro r rfl
    exact hm.classes r (hm.registry.linked.mem_roots.2 (.inl ⟨id, s, hs, ClassState.mem_roots.2 (.inl hv)⟩))
  classObjects id r hr := Held.isLive hm (.inr (.inl ⟨id, hr⟩))
  strings id s hs r hr := hm.classes r
    (hm.registry.linked.mem_roots.2 (.inl ⟨id, s, hs, ClassState.mem_roots.2 (.inr (.inr hr))⟩))
  interned text r hr := Held.isLive hm (.inr (.inr ⟨text, hr⟩))
  fields _ _ _ ho hcontents _ hv := hm.value_of_fields ho hcontents hv
  elements _ _ _ ho hcontents _ hv := hm.value_of_array ho hcontents hv
  followed := hm.followed

/-- Whether every object of an array class is an array with elements that fit its component type, and no
other object is an array. -/
structure ArraysFit (m : Machine) : Prop where
  known : ∀ r o, m.heap.object? r = some o → ∃ c, m.registry.table.class? o.cls = some c
  kind : ∀ r o component, m.heap.object? r = some o →
    m.registry.table.componentOf? o.cls = some component →
      ∃ e, o.contents = .array e ∧ e.kind = component.elementKind
  plain : ∀ r o, m.heap.object? r = some o → m.registry.table.componentOf? o.cls = none →
    ∃ values, o.contents = .fields values
  typed : ∀ r o e, m.heap.object? r = some o → o.contents = .array e →
    ∀ v ∈ e.values, e.access.keep? v = some v
  references : ∀ r o e component, m.heap.object? r = some o → o.contents = .array e →
    m.registry.table.componentOf? o.cls = some (.reference component) → ∀ v ∈ e.values,
      v = .null ∨ ∃ s k, v = .ref s ∧ m.heap.Has s k ∧ m.registry.table.isAssignable k component = true
  booleans : ∀ r o e, m.heap.object? r = some o → o.contents = .array e →
    m.registry.table.componentOf? o.cls = some (.primitive .boolean) →
      ∀ v ∈ e.values, v = .int 0 ∨ v = .int 1

/-- What an object of an array class holds. -/
theorem Sound.array_of_component (hm : m.Sound) {r : Ref} {o : Object ClassId} {component : Component}
    (ho : m.heap.object? r = some o) (hcomponent : m.registry.table.componentOf? o.cls = some component) :
    ∃ e, o.contents = .array e ∧ e.kind = component.elementKind := by
  have hkind := (hm.heap.shaped r o ho).componentOf?_eq
  rw [hcomponent] at hkind
  cases hcontents : o.contents with
  | fields values => rw [hcontents] at hkind; cases hkind
  | array e => rw [hcontents] at hkind; exact ⟨e, rfl, (Option.some.inj hkind).symm⟩

theorem Sound.arraysFit (hm : m.Sound) : m.ArraysFit where
  known r o ho := hm.heap.class? ⟨o, ho, rfl⟩
  kind _ _ _ := hm.array_of_component
  plain r o ho hplain := by
    have hkind := (hm.heap.shaped r o ho).componentOf?_eq
    rw [hplain] at hkind
    cases hcontents : o.contents with
    | fields values => exact ⟨values, rfl⟩
    | array e => rw [hcontents] at hkind; cases hkind
  typed r o e ho he := (hm.heap.shaped r o ho).typed e he
  references r o e component ho he hcomponent v hv := by
    have hshaped := hm.heap.shaped r o ho
    have htyped := hshaped.typed e he
    obtain ⟨e', he', hkind⟩ := hm.array_of_component ho hcomponent
    cases he.symm.trans he'
    have hkeep := htyped v hv
    rw [show e.access = .reference by rw [Elements.access, hkind]; rfl] at hkeep
    cases v with
    | null => exact .inl rfl
    | ref s =>
      obtain ⟨k, hk, hfits⟩ := hshaped.references s (he ▸ (Contents.mem_references_array htyped).2 hv)
      exact .inr ⟨s, k, rfl, hk, hfits component hcomponent⟩
    | _ => cases hkeep
  booleans r o e ho he hcomponent := by
    obtain ⟨e', he', hkind⟩ := hm.array_of_component ho hcomponent
    cases he.symm.trans he'
    exact (hm.heap.shaped r o ho).booleans e he hkind

end Machine

/-- **No reference dangles while a program runs.** -/
theorem no_dangling {m : Machine} (hm : m.Reached) : m.Whole := hm.sound.whole

/-- The core classes alone. -/
def coreEnvironment : Environment where
  paths := ⟨.ofFiles (CoreClasses.files.toOption.getD []), .empty⟩
  natives := .core
  maxFrames := standardMaxFrames
  clock := ⟨0, 0⟩
  steps := standardSteps

/-! ### A thread that arranges a shelf

Books are items with pages of their own. A shelf has strings made and looked up, puts a book and an item on it, and
tries to move both to where only books go. -/

namespace Shelf

open CoreClasses Assembly

/-- The descriptor of strings. -/
def stringDescriptor : String := "Ljava/lang/String;"

/-- The class of items, with fields of one word and of two. -/
def item : ClassText :=
  { ClassText.ofName "Item" with
    fields := [field publicAccess "count" "I", field publicAccess "price" "D",
      field publicAccess "label" stringDescriptor]
    methods := [method "<init>" "()V" [aload 0, callSpecial objectName "<init>" "()V", op "return"]] }

/-- The class of books. -/
def book : ClassText :=
  { ClassText.ofName "Book" with
    superName := some "Item"
    fields := [field publicAccess "pages" "J"]
    methods := [method "<init>" "()V" [aload 0, callSpecial "Item" "<init>" "()V", op "return"]] }

/-- Pushes a new string of the texts of two locals. -/
def concatenated (i j : UInt16) : List Statement :=
  [aload i, aload j, .member .invokeVirtual stringName "concat" "(Ljava/lang/String;)Ljava/lang/String;"]

/-- Pushes a new instance of a class. -/
def created (name : String) : List Statement :=
  [.onClass .new name, op "dup", callSpecial name "<init>" "()V"]

/-- Copies elements of the array in a local to that in another one. -/
def copied (source : UInt16) (start : Int32) (target : UInt16) (first count : Int32) : List Statement :=
  [aload source, .pushInt start, aload target, .pushInt first, .pushInt count,
    .member .invokeStatic systemName "arraycopy" arraycopyDescriptor]

/-- Two literals, a canonical string that is made of them, its literal, and another string of the same text. -/
def strings : List Statement :=
  [.pushString "red", .store .reference 3, .pushString "blue", .store .reference 4]
    ++ concatenated 3 4
    ++ [.member .invokeVirtual stringName "intern" "()Ljava/lang/String;", .store .reference 5,
      .pushString "redblue", .store .reference 6]
    ++ concatenated 3 4 ++ [.store .reference 7]

/-- A book with values in its own field and in those of items. -/
def stock : List Statement :=
  created "Book" ++ [.store .reference 8,
    aload 8, .pushDouble 0x3FF0000000000000, .member .putField "Item" "price" "D",
    aload 8, .load .long 0, .member .putField "Book" "pages" "J",
    aload 8, aload 5, .member .putField "Item" "label" stringDescriptor]

/-- Items, the first of which is a book, places for books, truth values and numbers. -/
def arrays : List Statement :=
  [.pushInt 3, .onClass .newReferenceArray "Item", op "dup", .member .putStatic "Shelf" "stock" "[LItem;",
    .store .reference 9, aload 9, .pushInt 0, aload 8, op "aastore", aload 9, .pushInt 1]
    ++ created "Item"
    ++ [op "aastore", .pushInt 3, .onClass .newReferenceArray "Book", .store .reference 10,
      .pushInt 4, .newArray 4, .store .reference 11, aload 11, .pushInt 1, .pushInt 3, op "bastore",
      .pushInt 4, .newArray 10, .store .reference 12, aload 12, .pushInt 0, .pushInt 5, op "iastore"]

/-- Numbers are moved within their array, and items to the places of books, where the second one does not fit. The
handler creates an array of arrays, and there is a switch over its length. -/
def arrange : List Statement :=
  strings ++ stock ++ arrays ++ copied 12 0 12 1 3
    ++ .label 0 :: copied 9 0 10 0 3
    ++ [.label 1, op "iconst_0", op "ireturn", .label 2, op "pop",
      .load .int 2, .pushInt 2, .newMultiArray "[[Ljava/lang/String;" 2, op "arraylength",
      .tableSwitch 1 1 [1, 3], .label 3, .load .int 2, op "ireturn",
      .handler 0 1 2 (some "java/lang/ArrayStoreException")]

/-- The class of shelves: a method calls a synchronized one, both with a long among their arguments. -/
def shelf : ClassText :=
  { ClassText.ofName "Shelf" with
    fields := [field ⟨0x0009⟩ "stock" "[LItem;", field ⟨0x0009⟩ "total" "J"]
    methods := [⟨⟨0x0029⟩, "arrange", "(JI)I", some arrange⟩,
      ⟨⟨0x0009⟩, "open", "(JI)I", some [.load .long 0, .member .putStatic "Shelf" "total" "J",
        .load .long 0, .load .int 2, .member .invokeStatic "Shelf" "arrange" "(JI)I", op "ireturn"]⟩] }

/-- The class files. -/
def files : Except Fault (List (String × List UInt8)) :=
  [item, book, shelf].mapM fun c => do return (c.name, ← c.assemble)

/-- The core classes, and those of the shelf. -/
def environment : Environment :=
  { coreEnvironment with paths := ⟨coreEnvironment.paths.boot, .ofFiles (files.toOption.getD [])⟩ }

end Shelf

/-- A thread that arranges a shelf, after some steps. -/
def arranging (steps : Nat) : Machine :=
  (Machine.start .standard).during Shelf.environment 1000 steps Machine.mainThreadName
    (VM.invokeStaticMethod "Shelf" "open" "(JI)I" [.long 7, .int 2])

theorem reached_arranging (steps : Nat) : (arranging steps).Reached :=
  .calling Shelf.environment rfl 1000 steps "Shelf" "open" "(JI)I" (by simp [Value.All]) (.start .standard)

/-- An array is held while those in it are created, in the second of two calls, which holds a monitor. -/
theorem no_dangling_arranging : (arranging 145).Whole := no_dangling (reached_arranging 145)

/-- **Arrays hold what their classes say**, although they are covariant. -/
theorem arrays_fit {m : Machine} (hm : m.Reached) : m.ArraysFit := hm.sound.arraysFit

/-- A book is in an array of items and in one of books, beside an array of truth values. -/
theorem arrays_fit_arranging : (arranging 143).ArraysFit := arrays_fit (reached_arranging 143)

end Jvm.Execution
