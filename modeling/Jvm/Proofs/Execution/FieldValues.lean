import Mathlib
import Jvm.Proofs.Execution.Reached
import Jvm.Proofs.Linking.Identity

/-! # The values of fields

What the fields of classes and objects hold in the machines that a host reaches. A static field holds a value
of its type (`statics_typed`), but for an integer constant, which is put into a boolean, byte, char or short
as it is (`not_staticsKept`). An instance has the slots of its class, and each slot holds a value of the type
of a field in this slot; as an assignment does not look at the class of the object, this may be a field of
another class (`slots_typed`). -/

namespace Jvm.Execution

open Linking ClassFile

/-! ## Static fields -/

/-- **Static fields hold values of their types**, or a constant that has not been cut down to the width of the
type. -/
theorem statics_typed {m : Machine} (hm : m.Reached) {id : ClassId} {c : LinkedClass}
    (hc : m.registry.table.class? id = some c) {f : Field} (hf : f ∈ c.staticFields) :
    ∃ v, m.registry.getStatic? id f.slot = some v ∧ f.Takes c v := by
  have hsound := hm.sound
  obtain ⟨s, hs⟩ := hsound.registry.linked.exists_state hc
  obtain ⟨v, hv, htakes⟩ := hsound.typed.statics id c s hc hs f hf
  exact ⟨v, by rw [Registry.getStatic?, hs]; exact hv, htakes⟩

/-- Whether all static fields hold what an assignment to them keeps. -/
def Machine.StaticsKept (m : Machine) : Prop :=
  ∀ id c f, m.registry.table.class? id = some c → f ∈ c.staticFields →
    ∃ v, m.registry.getStatic? id f.slot = some v ∧ keptIn f.type v = some v

/-- The program's loader comes to what the core loader comes to. -/
theorem leads_app_of_holds {paths : ClassPaths} {name : String} {r : Registry} {cs : List LinkedClass}
    (h : (Request.apply paths r (.load .boot name)).Holds cs) (id : ClassId) {c : LinkedClass}
    (hc : cs[id]? = some c) (hname : c.name = name) :
    (Linking.loadClass paths .app name).leads r = Request.apply paths r (.load .boot name) := by
  have hfound := h.found id c hc
  rw [hname] at hfound
  rw [Request.apply] at hfound ⊢
  rw [Linker.leads, Linker.leads, loadClass, loadClass, load, load] at *
  rcases hboot : define paths [] .boot name r with ⟨i, r'⟩ | ⟨e, r'⟩
  · rw [tryCatch_of_ok hboot]
  · rw [hboot] at hfound
    cases hfound.symm.trans (loaded_of_define (by rw [Linker.attempt, hboot]))

theorem registry_loadClass (m : Machine) (env : Environment) (className : String) :
    (m.loadClass env className).2.registry = (Linking.loadClass env.paths .app className).leads m.registry := by
  unfold Machine.loadClass Linker.leads
  rcases Linking.loadClass env.paths .app className m.registry with ⟨id, r⟩ | ⟨e, r⟩ <;> rfl

namespace WideByte

/-- The class file of a class with a static byte `b` that starts with 300. -/
def bytes : List UInt8 :=
  [0xCA, 0xFE, 0xBA, 0xBE, 0, 0, 0, 52, 0, 9,
   1, 0, 1, 65, 7, 0, 1,
   1, 0, 16, 106, 97, 118, 97, 47, 108, 97, 110, 103, 47, 79, 98, 106, 101, 99, 116, 7, 0, 3,
   1, 0, 1, 98, 1, 0, 1, 66,
   1, 0, 13, 67, 111, 110, 115, 116, 97, 110, 116, 86, 97, 108, 117, 101, 3, 0, 0, 1, 44,
   0, 0x21, 0, 2, 0, 4, 0, 0, 0, 1, 0, 8, 0, 5, 0, 6, 0, 1, 0, 7, 0, 0, 0, 2, 0, 8, 0, 0, 0, 0]

def file : ClassFile :=
  OddCore.file #[.unusable, .utf8 "A", .classRef 1, .utf8 "java/lang/Object", .classRef 3, .utf8 "b",
    .utf8 "B", .utf8 "ConstantValue", .integer 300] 0x21 4 [⟨⟨8⟩, 5, 6, [⟨7, .constantValue 8⟩]⟩]

theorem parse_bytes : parse bytes = .ok file := by rfl

/-- The class paths. -/
def paths : ClassPaths where
  boot := .ofFiles [("java/lang/Object", OddCore.objectBytes), ("A", bytes)]
  app := .empty

def b : Field := ⟨"b", "B", .byte, ⟨8⟩, 0, some 8⟩

def cls : LinkedClass := OddCore.linked "A" .ordinary (some 0) [b] file

theorem linkedClass_file : linkedClass 1 .boot "A" file (some (0, OddCore.object)) [] =
    .ok (cls, #[.int 300]) := by
  decide +kernel

/-- The core classes here are the object class and the class with the static byte. -/
def environment : Environment := { coreEnvironment with paths }

/-- The registry with the object class. -/
def first : Registry := Request.apply paths .empty (.load .boot "java/lang/Object")

/-- The registry with both classes. -/
def second : Registry := Request.apply paths first (.load .boot "A")

theorem holds_first : first.Holds [OddCore.object] := OddCore.holds_object rfl

theorem holds_second : second.Holds [OddCore.object, cls] :=
  holds_apply_load holds_first (by decide) (by decide) rfl parse_bytes rfl rfl (fun h => by cases h)
    (fun s hs => by cases hs; exact ⟨rfl, rfl⟩) rfl (fun p hp => by cases hp) linkedClass_file rfl (by decide)

theorem startsWith_second : ∃ s, second.state? 1 = some s ∧ second.StartsWith 1 s.statics := by
  have hresolves : ∀ (r : Registry) name, r.Resolves (Request.apply paths r (.load .boot name)) := fun r name =>
    ((admits_resolves paths).load .boot name r).leads
  have hfirst : first.Consistent := ((hresolves .empty _).consistent Registry.consistent_empty).1
  have hsecond := ((hresolves first "A").consistent hfirst).1
  obtain ⟨s, hs⟩ := hsecond.linked.exists_state (holds_second.class? 1)
  refine ⟨s, hs, (hresolves first "A").fresh hfirst 1 s (Array.getElem?_eq_none ?_) hs⟩
  rw [hfirst.linked.states, holds_first.size]
  exact le_rfl

theorem getStatic?_second : second.getStatic? 1 0 = some (.int 300) := by
  obtain ⟨s, hs, c, hc, hstatics⟩ := startsWith_second
  cases (holds_second.class? 1).symm.trans hc
  have hinitial : cls.staticFields.map (Field.initialValue cls.pool) = [.ok (.int 300)] := by
    decide +kernel
  rw [hinitial] at hstatics
  have hvalue := congrArg (·[0]?) hstatics
  simp only [List.getElem?_cons_zero, List.getElem?_map] at hvalue
  obtain ⟨v, hv, heq⟩ := Option.map_eq_some_iff.1 hvalue.symm
  cases heq
  rw [Registry.getStatic?, hs, Option.bind_some, ← Array.getElem?_toList, hv]

/-- The host has loaded both classes. -/
def machine : Machine :=
  (((Machine.start .standard).loadClass environment "java/lang/Object").2.loadClass
    environment "A").2

theorem registry_machine : machine.registry = second := by
  have hfirst : ((Machine.start .standard).loadClass environment "java/lang/Object").2.registry = first :=
    (registry_loadClass _ _ _).trans (leads_app_of_holds holds_first 0 rfl rfl)
  rw [machine, registry_loadClass, hfirst]
  exact leads_app_of_holds holds_second 1 rfl rfl

theorem reached_machine : machine.Reached := .loaded _ _ (.loaded _ _ (.start _))

theorem class?_machine : machine.registry.table.class? 1 = some cls := by
  rw [registry_machine]
  exact holds_second.class? 1

end WideByte

/-- The constant is what the static byte may hold. -/
theorem statics_typed_wideByte : WideByte.machine.Reached ∧
    WideByte.machine.registry.table.class? 1 = some WideByte.cls ∧ WideByte.b ∈ WideByte.cls.staticFields ∧
    ∃ v, WideByte.machine.registry.getStatic? 1 WideByte.b.slot = some v ∧ WideByte.b.Takes WideByte.cls v :=
  ⟨WideByte.reached_machine, WideByte.class?_machine, List.mem_cons_self,
    statics_typed WideByte.reached_machine WideByte.class?_machine List.mem_cons_self⟩

/-- **A constant is not cut down**: a static byte starts with 300. -/
theorem not_staticsKept : ¬ ∀ m : Machine, m.Reached → m.StaticsKept := by
  intro h
  obtain ⟨v, hv, hkept⟩ := h _ WideByte.reached_machine 1 WideByte.cls WideByte.b
    WideByte.class?_machine List.mem_cons_self
  have hwide : WideByte.second.getStatic? 1 WideByte.b.slot = some (.int 300) := WideByte.getStatic?_second
  rw [WideByte.registry_machine, hwide] at hv
  cases hv
  cases hkept

/-! ## Instance fields -/

/-- Whether every instance has the slots of its class, with values of the types of fields in these slots. -/
structure Machine.SlotsTyped (m : Machine) : Prop where
  plain : ∀ r o values, m.heap.object? r = some o → o.contents = .fields values →
    ∃ c, m.registry.table.class? o.cls = some c ∧ c.isArray = false
  size : ∀ r o values c, m.heap.object? r = some o → o.contents = .fields values →
    m.registry.table.class? o.cls = some c → values.size = c.template.size
  takes : ∀ (r : Ref) o values slot v, m.heap.object? r = some o → o.contents = .fields values →
    values[slot]? = some v → m.registry.table.SlotTakes slot v
  -- So a field of the class or a superclass has a value of its type where the other fields that share its
  -- slot, whatever their classes, keep nothing else.
  own : ∀ r o values f, m.heap.object? r = some o → o.contents = .fields values →
    f ∈ m.registry.table.layout o.cls →
    (∀ id c g, m.registry.table.class? id = some c → g ∈ c.fields →
      g.isStatic = false ∨ (g.name, g.descriptor) ∈ assignedFields → g.slot = f.slot →
      ∀ v, keptIn g.type v = some v → keptIn f.type v = some v) →
    (f.slot = charsSlot → f.type.isReference = true) →
    ∃ v, values[f.slot]? = some v ∧ keptIn f.type v = some v

/-- **Instances hold values of the types of fields**, each slot one of a field that some class has there. -/
theorem slots_typed {m : Machine} (hm : m.Reached) : m.SlotsTyped := by
  have hsound := hm.sound
  have hplain : ∀ r o values, m.heap.object? r = some o → o.contents = .fields values →
      ∃ c, m.registry.table.class? o.cls = some c ∧ c.isArray = false := by
    intro r o values ho hcontents
    have hshaped := hsound.heap.shaped r o ho
    obtain ⟨c, hc, -⟩ := hshaped.kind
    refine ⟨c, hc, ?_⟩
    rw [LinkedClass.isArray, ← ClassTable.componentOf?_of_class? hc, hshaped.component_of_fields hcontents]
    rfl
  have hfields : ∀ r o values c, m.heap.object? r = some o → o.contents = .fields values →
      m.registry.table.class? o.cls = some c → values.size = c.template.size ∧
        ∀ slot v, values[slot]? = some v → m.registry.table.SlotTakes slot v :=
    fun r o values c ho hcontents hc => (hsound.heap.shaped r o ho).fields values hcontents c hc
  refine ⟨hplain, fun r o values c ho hcontents hc => (hfields r o values c ho hcontents hc).1,
    fun r o values slot v ho hcontents hv => ?_, fun r o values f ho hcontents hf hshare hchars => ?_⟩
  · obtain ⟨c, hc, -⟩ := hplain r o values ho hcontents
    exact (hfields r o values c ho hcontents hc).2 slot v hv
  · obtain ⟨c, hc, harray⟩ := hplain r o values ho hcontents
    obtain ⟨hsize, htakes⟩ := hfields r o values c ho hcontents hc
    have hslot : f.slot < values.size := by
      rw [hsize]
      have hvalue := hsound.registry.built.getElem?_template hc harray hf
      exact (Array.getElem?_eq_some_iff.1 hvalue).1
    refine ⟨values[f.slot], Array.getElem?_eq_getElem hslot, ?_⟩
    cases htakes f.slot _ (Array.getElem?_eq_getElem hslot) with
    | declared hd hg hassigned hshared hv => exact hshare _ _ _ hd hg hassigned hshared _ hv
    | chars hzero hv => exact keptIn_of_isReference (hchars hzero) hv

/-- A book has a long of its own behind the fields of items. -/
theorem slots_typed_arranging : (arranging 143).SlotsTyped := slots_typed (reached_arranging 143)

end Jvm.Execution
