import Mathlib
import Jvm.Execution.Calls
import Jvm.Proofs.Execution.Dispatch
import Jvm.Proofs.Linking.MethodLookup

/-! # Which method an instruction calls

A call of an instance method tries the slot that the resolved method has in the table of its own class. The
slot may hold another signature in the table of the receiver's class, and then the signature decides.
`dispatches_after` says that the signature always decides, and that a call of a superclass method goes to
the nearest declaration above the calling class. -/

namespace Jvm.Linking

open Execution

/-- What is tried by slot is what the signature leads to: a table has one slot for a signature. -/
theorem MethodTable.Indexed.selectVirtual?_eq {c : LinkedClass} (h : c.methodTable.Indexed) (m : Method) :
    VM.selectVirtual? c m = c.virtual? m.name m.descriptor := by
  rw [VM.selectVirtual?]
  cases hslot : (m.slot.bind (c.vtable[·]?)).filter (·.hasSignature m.name m.descriptor) with
  | none => exact Option.none_or
  | some selected =>
    obtain ⟨hselected, hname⟩ := Option.filter_eq_some_iff.1 hslot
    obtain ⟨s, -, hs⟩ := Option.bind_eq_some_iff.1 hselected
    have hvirtual : c.virtual? m.name m.descriptor = some selected :=
      h.method?_eq_some.2 ⟨Array.mem_of_getElem? hs, Method.hasSignature_iff.1 hname⟩
    rw [hvirtual]
    rfl

namespace ClassTable

variable {t : ClassTable} {id : ClassId} {c : LinkedClass} {n d : String} {m : Method}

/-- Whether a call in a class goes to a method that a class above it declares. -/
structure SuperCall (t : ClassTable) (id : ClassId) (c : LinkedClass) (m : Method) : Prop where
  caller : t.class? id = some c
  isSuper : c.access.isSuper = true
  declared : ∃ o, t.class? m.owner = some o ∧ o.isInterface = false ∧ m ∈ o.methods
  above : m.owner ∈ t.chain id
  proper : m.owner ≠ id
  isStatic : m.isStatic = false
  isPrivate : m.isPrivate = false
  name : m.name ≠ "<init>"

/-- How calls in running machines go by the signatures of methods. -/
structure Dispatches (t : ClassTable) : Prop where
  bySignature : ∀ id c, t.class? id = some c → ∀ m,
    VM.selectVirtual? c m = c.virtual? m.name m.descriptor
  -- A call of a superclass method selects the nearest declaration above the class that calls. Only a
  -- method with a name that marks initializers has none, and is called itself.
  super : ∀ (ctx : Context) (s : Machine) f c m, s.registry.table = t → s.frames.top? = some f →
    t.SuperCall f.cls c m → ∃ above selected, c.superclass = some above ∧
      VM.selectSpecial m ctx s = .ok selected s ∧
      (Method.isInitializerName m.name = false →
        (t.chain above).findSome? (t.declared? m.name m.descriptor) = some selected) ∧
      (Method.isInitializerName m.name = true → selected = m)

theorem declared?_eq_none_of_isInitializerName (h : Method.isInitializerName n = true) :
    t.declared? n d id = none := by
  refine Option.eq_none_iff_forall_ne_some.2 fun m hm => ?_
  obtain ⟨c, -, hfind⟩ := Option.bind_eq_some_iff.1 hm
  have hm := List.find?_some (p := fun m : Method => m.isVirtual && m.hasSignature n d) hfind
  obtain ⟨hvirtual, hname⟩ := Bool.and_eq_true_iff.1 hm
  rw [Method.isVirtual, (Method.hasSignature_iff.1 hname).1, h] at hvirtual
  simp at hvirtual

/-- Array classes do not call. -/
theorem Built.isArray_of_isSuper (ht : t.Built) : ∀ id c, t.class? id = some c →
    c.access.isSuper = true → c.isArray = false := by
  refine ht.forall (P := fun _ _ (c : LinkedClass) => c.access.isSuper = true → c.isArray = false)
    (fun _ _ _ _ _ hc => hc) fun t c known ht _ hc hsuper => ?_
  cases hc with
  | file hparse _ hs hinterfaces hlinked =>
    have hkind := (linkedOver_of_linkedClass hparse
      (fun s hs' => (ht.tabled s.1 s.2 (hs s hs').1).indexed)
      (fun i hi => (ht.tabled i.1 i.2 (hinterfaces i hi).1).indexed) hlinked).kind
    rw [LinkedClass.isArray, LinkedClass.component?, hkind]
    cases c.isInterface <;> rfl
  | array => exact absurd (show arrayAccess.isSuper = true from hsuper) (by decide)

/-- The superclass of a class that calls is a class, in whose chain the called method is. -/
theorem SuperCall.exists_superclass (ht : t.Built) (h : t.SuperCall id c m) : ∃ above e,
    c.superclass = some above ∧ t.class? above = some e ∧ e.kind = .ordinary ∧ m.owner ∈ t.chain above := by
  have harray := ht.isArray_of_isSuper id c h.caller h.isSuper
  rcases mem_chain.1 h.above with howner | ⟨above, hsuper, hmem⟩
  · exact absurd howner h.proper
  · rw [superOf?_of_class? h.caller] at hsuper
    obtain ⟨e, he, hordinary, -⟩ := (ht.tabled id c h.caller).extending above hsuper
    exact ⟨above, e, hsuper, he, hordinary harray, hmem⟩

/-- The superclass selects the nearest declaration. -/
theorem SuperCall.selected? (ht : t.Built) (h : t.SuperCall id c m) {above : ClassId} {e : LinkedClass}
    (he : t.class? above = some e) (hkind : e.kind = .ordinary) (hmem : m.owner ∈ t.chain above) :
    t.selected? m.name m.descriptor above =
      (t.chain above).findSome? (t.declared? m.name m.descriptor) ∧
    (Method.isInitializerName m.name = false →
      ((t.chain above).findSome? (t.declared? m.name m.descriptor)).isSome = true) := by
  cases hname : Method.isInitializerName m.name with
  | true =>
    have hnone : t.selected? m.name m.descriptor above = none :=
      Option.eq_none_iff_forall_ne_some.2 fun m' hm' => by
        have hdeclared := ((obtains_of_selected? ht.tabled hm').owner ht.tabled).1
        rw [declared?_eq_none_of_isInitializerName hname] at hdeclared
        cases hdeclared
    rw [hnone, eq_comm, List.findSome?_eq_none_iff]
    exact ⟨fun b _ => declared?_eq_none_of_isInitializerName hname, fun h => by cases h⟩
  | false =>
    obtain ⟨o, ho, -, hmethod⟩ := h.declared
    have hdeclared : t.declared? m.name m.descriptor m.owner = some m := by
      rw [declared?_of_class? ho, selectable?_eq_some (ht.unambiguous _ o ho), Method.isVirtual,
        h.isStatic, h.isPrivate, hname]
      exact ⟨hmethod, rfl, Method.hasSignature_iff.2 ⟨rfl, rfl⟩⟩
    have hsome : ((t.chain above).findSome? (t.declared? m.name m.descriptor)).isSome = true := by
      rw [List.findSome?_isSome_iff]
      exact ⟨m.owner, hmem, by rw [hdeclared]; rfl⟩
    obtain ⟨selected, hselected⟩ := Option.isSome_iff_exists.1 hsome
    rw [selected?_of_chain ht.tabled he hkind hselected, hselected]
    exact ⟨rfl, fun _ => rfl⟩

/-- A call of a superclass method asks the superclass. -/
theorem SuperCall.selectSpecial (h : t.SuperCall id c m) (ctx : Context) {s : Machine} {f : Frame}
    (htable : s.registry.table = t) (htop : s.frames.top? = some f) (hid : f.cls = id) :
    VM.selectSpecial m ctx s =
      .ok ((c.superclass.bind (t.selected? m.name m.descriptor)).getD m) s := by
  obtain ⟨o, ho, hinterface, -⟩ := h.declared
  subst htable hid
  have hname : (m.name == "<init>" || m.isPrivate) = false := by simp [h.name, h.isPrivate]
  have hsuper : VM.isSuperCall s.registry.table f.cls c o m.owner = true := by
    simp [VM.isSuperCall, h.isSuper, hinterface, h.proper, isSubclass, h.above]
  have hcurrent : VM.currentClass ctx s = .ok f.cls s := by
    have hframe : VM.currentFrame ctx s = .ok f s := by
      unfold VM.currentFrame
      rw [VM.bind_of_ok (VM.getMachine ctx s), htop]
      rfl
    unfold VM.currentClass
    rw [VM.bind_of_ok hframe]
    rfl
  have hclass : ∀ id c, s.registry.table.class? id = some c → VM.getClass id ctx s = .ok c s := by
    intro id c hc
    have hget : Linker.getClass id s.registry = .ok c s.registry := getClass_of_class? hc
    rw [VM.getClass, VM.link, hget]
  unfold VM.selectSpecial
  rw [hname, if_neg (by simp), VM.bind_of_ok hcurrent, VM.bind_of_ok (hclass f.cls c h.caller),
    VM.bind_of_ok (show VM.table ctx s = .ok s.registry.table s from rfl), VM.bind_of_ok (hclass m.owner o ho), hsuper]
  cases c.superclass <;> rfl

end ClassTable

/-- **Slots and signatures**: whatever is asked of a registry, the slot of a method selects what its
signature does, and a call of a superclass method the nearest declaration above. -/
theorem dispatches_after (paths : ClassPaths) (requests : List Request) :
    (Registry.after paths requests).table.Dispatches := by
  have ht := built_after paths requests
  refine ⟨fun id c hc m => (ht.tabled id c hc).indexed.selectVirtual?_eq m, ?_⟩
  intro ctx s f c m htable htop h
  obtain ⟨above, e, habove, he, hkind, hmem⟩ := h.exists_superclass ht
  obtain ⟨hselected, hsome⟩ := h.selected? ht he hkind hmem
  have hspecial := h.selectSpecial ctx htable htop rfl
  rw [habove, Option.bind_some, hselected] at hspecial
  refine ⟨above, _, habove, hspecial, fun hname => ?_, fun hname => ?_⟩
  · obtain ⟨selected, hs⟩ := Option.isSome_iff_exists.1 (hsome hname)
    rw [hs]
    rfl
  · have hnone : ((Registry.after paths requests).table.chain above).findSome?
        ((Registry.after paths requests).table.declared? m.name m.descriptor) = none :=
      List.findSome?_eq_none_iff.2 fun b _ => ClassTable.declared?_eq_none_of_isInitializerName hname
    rw [hnone]
    rfl

end Jvm.Linking
