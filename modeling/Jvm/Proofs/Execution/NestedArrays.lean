import Mathlib
import Jvm.Proofs.Execution.Arrays
import Jvm.Proofs.Execution.Instructions
import Jvm.Proofs.Execution.Reached
import Jvm.Proofs.Execution.Sparing
import Jvm.Proofs.Linking.Fields
import Jvm.Proofs.Linking.Transparency

/-! # Arrays of arrays

An array of arrays is a tree of arrays that are all new (`Nested`, `Planted`). The tree is built from the root:
each array is held while those below it are created, so that a collection in between spares what has been
built (`builds_storeEach`, by induction on how many elements are left, and `builds_newNested`, by induction on
the lengths). `builds_trees` says what the instruction comes to that is given the lengths. -/

namespace Jvm

namespace Contents

/-- The objects in an array of objects. -/
theorem references_ofReferences (vs : List Value) :
    (array ⟨.reference, vs.toArray⟩).references = vs.filterMap Value.object? := by
  rw [references, if_pos rfl]

end Contents

namespace Execution

open Linking

/-- Whether an array class has at least a number of dimensions. -/
def HasDimensions (t : ClassTable) : ClassId → Nat → Prop
  | _, 0 => True
  | id, 1 => ∃ component, t.componentOf? id = some component
  | id, n + 2 => ∃ component, t.componentOf? id = some (.reference component) ∧ HasDimensions t component (n + 1)

/-- Whether a reference names an array of arrays of a class with some lengths, the outermost first; `all` are
the arrays that it consists of. The innermost ones hold zeros. -/
def Nested (t : ClassTable) (h : Heap ClassId) : ClassId → List Int32 → Ref → List Ref → Prop
  | _, [], _, _ => False
  | id, [length], r, all => ∃ component, t.componentOf? id = some component ∧
      h.Stores r id (.array (.zeros component.elementKind length.toInt.toNat)) ∧ all = [r]
  | id, length :: inner :: rest, r, all => ∃ component subs parts,
      t.componentOf? id = some (.reference component) ∧
      h.Stores r id (.array ⟨.reference, (subs.map Value.ref).toArray⟩) ∧
      subs.length = length.toInt.toNat ∧
      List.Forall₂ (Nested t h component (inner :: rest)) subs parts ∧ all = r :: parts.flatten

section

variable {t : ClassTable} {h h' : Heap ClassId} {id : ClassId} {lengths : List Int32} {r : Ref}
  {all : List Ref} {P : Ref → Prop} {roots : List Ref}

theorem exists_of_forall₂ {α β : Type} {R : α → β → Prop} {as : List α} {bs : List β}
    (h : List.Forall₂ R as bs) {b : β} (hb : b ∈ bs) : ∃ a ∈ as, R a b := by
  obtain ⟨hlength, hzip⟩ := List.forall₂_iff_zip.1 h
  obtain ⟨i, hi, rfl⟩ := List.getElem_of_mem hb
  have hmem : (as[i], bs[i]) ∈ as.zip bs := List.mem_iff_getElem.2 ⟨i, by simp; omega, by simp⟩
  exact ⟨as[i], (List.of_mem_zip hmem).1, hzip hmem⟩

theorem Nested.isLive (hnested : Nested t h id lengths r all) : h.IsLive r := by
  match lengths, hnested with
  | [_], ⟨_, _, hr, _⟩ => exact hr.isLive
  | _ :: _ :: _, ⟨_, _, _, _, hr, _⟩ => exact hr.isLive

/-- An array of arrays stays one if all its arrays are spared. -/
theorem Nested.spared (hnested : Nested t h id lengths r all) (hspares : h.Spares P h')
    (hP : ∀ x ∈ all, P x) : Nested t h' id lengths r all := by
  induction lengths generalizing id r all with
  | nil => exact hnested
  | cons length rest ih =>
    cases rest with
    | nil =>
      obtain ⟨component, hcomponent, hr, rfl⟩ := hnested
      exact ⟨component, hcomponent, hspares.stores hr (hP r (by simp)), rfl⟩
    | cons inner rest =>
      obtain ⟨component, subs, parts, hcomponent, hr, hlength, hsubs, rfl⟩ := hnested
      obtain ⟨hsize, hzip⟩ := List.forall₂_iff_zip.1 hsubs
      refine ⟨component, subs, parts, hcomponent, hspares.stores hr (hP r (by simp)), hlength,
        List.forall₂_iff_zip.2 ⟨hsize, fun {sub part} hmem => ih (hzip hmem) fun x hx => ?_⟩, rfl⟩
      exact hP x (List.mem_cons_of_mem _ (List.mem_flatten_of_mem (List.of_mem_zip hmem).2 hx))

/-- All arrays of an array of arrays can be reached if it can. -/
theorem Nested.reachable (hnested : Nested t h id lengths r all) (hr : h.Reachable roots r) :
    ∀ x ∈ all, h.Reachable roots x := by
  induction lengths generalizing id r all with
  | nil => exact hnested.elim
  | cons length rest ih =>
    cases rest with
    | nil =>
      obtain ⟨component, -, -, rfl⟩ := hnested
      simpa using hr
    | cons inner rest =>
      obtain ⟨component, subs, parts, -, ⟨o, ho, -, hcontents, -⟩, -, hsubs, rfl⟩ := hnested
      have hrefs : o.contents.references = subs := by
        rw [hcontents, Contents.references_ofReferences]
        simp [Value.object?, List.filterMap_map, Function.comp_def]
      intro x hx
      obtain rfl | hx := List.mem_cons.1 hx
      · exact hr
      obtain ⟨part, hpart, hx⟩ := List.mem_flatten.1 hx
      obtain ⟨sub, hsub, hnested⟩ := exists_of_forall₂ hsubs hpart
      exact ih hnested (hr.step ho (hrefs ▸ hsub) hnested.isLive) x hx

end

namespace VM

open Machine

variable {c : Context} {m : Machine} {t : ClassTable} {id component : ClassId} {length : Int32}

/-! ### One level -/

theorem newArrayOf_of_componentOf? {element : Component}
    (hid : m.registry.table.componentOf? id = some element) (hlength : 0 ≤ length) :
    newArrayOf id length c m = allocate (.zeros id element.elementKind length.toInt.toNat) c m := by
  obtain ⟨cl, hcl, hcomponent⟩ := ClassTable.exists_of_componentOf? hid
  have hrequest : Heap.Request.array id element.elementKind length =
      .ok (.zeros id element.elementKind length.toInt.toNat) := if_neg (by grind)
  rw [newArrayOf, bind_of_ok (getClass_eq hcl)]
  simp only [hcomponent, hrequest]

/-- A new array holds zeros, and is where nothing could be reached. -/
theorem builds_newArrayOf {element : Component} (hbalanced : m.heap.Balanced) (hclean : m.heap.Clean)
    (hid : m.registry.table.componentOf? id = some element) (hlength : 0 ≤ length) :
    m.Builds (m.heap.Reachable m.roots)
      (fun r h => h.Stores r id (.array (.zeros element.elementKind length.toInt.toNat)) ∧
        ¬ m.heap.Reachable m.roots r) (newArrayOf id length c m) := by
  rw [newArrayOf_of_componentOf? hid hlength]
  exact builds_allocate hbalanced hclean (.zeros id element.elementKind length.toInt.toNat) c

/-- An array of arrays that is being filled: the arrays that are there, and nulls. -/
def filling (subs : List Ref) (n : Nat) : Contents :=
  .array ⟨.reference, (subs.map Value.ref ++ List.replicate n Value.null).toArray⟩

theorem filling_nil (n : Nat) : filling [] n = .array (.zeros .reference n) := by
  simp [Elements.zeros, filling, ElementKind.access, ElementAccess.zero]

theorem references_filling (subs : List Ref) (n : Nat) : (filling subs n).references = subs := by
  rw [filling, Contents.references_ofReferences, List.filterMap_append, List.filterMap_map]
  simp [Value.object?, Function.comp_def]

/-- The next array is stored. -/
theorem storeElement_filling (c : Context) (sub : Ref) {array : Ref} {subs : List Ref} {n : Nat}
    (harray : m.heap.Stores array id (filling subs (n + 1))) (hbalanced : m.heap.Balanced)
    (hclean : m.heap.Clean) : ∃ m', storeElement array subs.length (.ref sub) c m = .ok true m' ∧
      m.Grows (· ≠ array) m' ∧ m'.heap.Stores array id (filling (subs ++ [sub]) n) := by
  obtain ⟨o, ho, hcls, hcontents, hmonitor⟩ := harray
  have hkept : (⟨.reference, (subs.map Value.ref ++ List.replicate (n + 1) Value.null).toArray⟩ : Elements).kept?
      subs.length (.ref sub) = some (.ref sub) := by
    rw [Elements.kept?, if_pos (by simp [Elements.size])]
    rfl
  refine ⟨_, storeElement_eq ho hcontents hkept, ⟨rfl, ?_, ?_, .of_object?_eq fun r p hr hp => ?_⟩, ?_⟩
  · exact Heap.balanced_kept.modify hbalanced (Heap.inPlace_contents _)
  · exact Heap.clean_kept.modify hclean (Heap.inPlace_contents _)
  · exact (Heap.object?_putElement_of_ne hr ..).trans hp
  · refine ⟨_, Heap.object?_putElement ho hcontents _ _, hcls, ?_, hmonitor⟩
    simp [filling, Elements.put, List.replicate_succ]

/-! ### All levels -/

/-- Whether an array of arrays is made of different arrays, none of which could be reached before. -/
def Planted (m : Machine) (id : ClassId) (lengths : List Int32) (r : Ref) (h : Heap ClassId) : Prop :=
  ∃ all, Nested m.registry.table h id lengths r all ∧ all.Nodup ∧ ∀ x ∈ all, ¬ m.heap.Reachable m.roots x

/-- Whether `n` more arrays with some lengths are in an array, made of different arrays, none of which could
be reached before. -/
def Filled (m : Machine) (array : Ref) (id component : ClassId) (lengths : List Int32) (before : List Ref)
    (n : Nat) (h : Heap ClassId) : Prop :=
  ∃ subs parts, subs.length = n ∧ h.Stores array id (filling (before ++ subs) 0) ∧
    List.Forall₂ (Nested m.registry.table h component lengths) subs parts ∧
    parts.flatten.Nodup ∧ ∀ x ∈ parts.flatten, ¬ m.heap.Reachable m.roots x

/-- What can be reached still can when an array holds more than before. -/
theorem reachable_of_filling {m' : Machine} {array r : Ref} {before more : List Ref} {k n : Nat}
    (hgrows : m.Grows (fun r => m.heap.Reachable m.roots r ∧ r ≠ array) m')
    (harray : m.heap.Stores array id (filling before k))
    (harray' : m'.heap.Stores array id (filling (before ++ more) n)) (hr : m.heap.Reachable m.roots r) :
    m'.heap.Reachable m'.roots r := by
  rw [hgrows.roots_eq]
  refine hr.carry (fun _ h => h) fun s o hs ho => ?_
  by_cases heq : s = array
  · subst heq
    obtain ⟨p, hp, -, hcontents, -⟩ := harray
    obtain ⟨p', hp', -, hcontents', -⟩ := harray'
    cases ho.symm.trans hp
    refine ⟨p', hp', ?_⟩
    rw [hcontents, hcontents', references_filling, references_filling]
    exact List.subset_append_left _ _
  · obtain ⟨age, ho'⟩ := hgrows.spares s o ⟨hs, heq⟩ ho
    exact ⟨_, ho', List.Subset.refl _⟩

/-- Once what has been made is stored, it can be reached through the array, so that a collection spares it
from then on. -/
theorem storeElement_planted {m₁ : Machine} {array sub : Ref} {lengths : List Int32} {before : List Ref} {n : Nat}
    (harray : m.heap.Stores array id (filling before (n + 1))) (hreached : m.heap.Reachable m.roots array)
    (hgrows₁ : m.Grows (m.heap.Reachable m.roots) m₁) (hplanted : Planted m component lengths sub m₁.heap) :
    ∃ m₂ all, storeElement array before.length (.ref sub) c m₁ = .ok true m₂ ∧
      m.Grows (fun r => m.heap.Reachable m.roots r ∧ r ≠ array) m₂ ∧
      m₂.heap.Stores array id (filling (before ++ [sub]) n) ∧
      (∀ r, m.heap.Reachable m.roots r → m₂.heap.Reachable m₂.roots r) ∧
      Nested m.registry.table m₂.heap component lengths sub all ∧ all.Nodup ∧
      ∀ x ∈ all, ¬ m.heap.Reachable m.roots x ∧ m₂.heap.Reachable m₂.roots x ∧ x ≠ array := by
  obtain ⟨all, hnested, hnodup, hfresh⟩ := hplanted
  obtain ⟨m₂, hstore, hgrows₂, harray₂⟩ :=
    storeElement_filling c sub (hgrows₁.spares.stores harray hreached) hgrows₁.balanced hgrows₁.clean
  have hgrows : m.Grows (fun r => m.heap.Reachable m.roots r ∧ r ≠ array) m₂ :=
    (hgrows₁.mono fun r hr => hr.1).trans (hgrows₂.mono fun r hr => hr.2)
  have hreach : ∀ r, m.heap.Reachable m.roots r → m₂.heap.Reachable m₂.roots r := fun r =>
    reachable_of_filling hgrows harray harray₂
  have hother : ∀ x ∈ all, x ≠ array := fun x hx heq => hfresh x hx (heq ▸ hreached)
  have hnested₂ := hnested.spared hgrows₂.spares hother
  have hsub : m₂.heap.Reachable m₂.roots sub := by
    obtain ⟨p, hp, -, hcontents, -⟩ := harray₂
    have hmem : sub ∈ p.contents.references := by
      rw [hcontents, references_filling]
      simp
    exact (hreach array hreached).step hp hmem hnested₂.isLive
  exact ⟨m₂, all, hstore, hgrows, harray₂, hreach, hnested₂, hnodup, fun x hx =>
    ⟨hfresh x hx, hnested₂.reachable hsub x hx, hother x hx⟩⟩

/-- Filling an array spares what can be reached but for the array itself, which is held. The induction is on
how many elements are left. -/
theorem builds_storeEach {array : Ref} {make : VM Ref} {lengths : List Int32}
    (hmake : ∀ m' : Machine, m'.registry = m.registry → m'.heap.Balanced → m'.heap.Clean →
      m'.Builds (m'.heap.Reachable m'.roots) (Planted m' component lengths) (make c m'))
    (hbalanced : m.heap.Balanced) (hclean : m.heap.Clean) (hroot : array ∈ m.roots) {before : List Ref}
    {n : Nat} (harray : m.heap.Stores array id (filling before n)) :
    m.Builds (fun r => m.heap.Reachable m.roots r ∧ r ≠ array)
      (fun _ => Filled m array id component lengths before n)
      (storeEach array make before.length n c m) := by
  induction n generalizing m before with
  | zero => exact .done (.refl _ hbalanced hclean) ⟨[], [], rfl, by simpa using harray, .nil, by simp, by simp⟩
  | succ n ih =>
    have hreached : m.heap.Reachable m.roots array := .root hroot harray.isLive
    rw [storeEach]
    refine (hmake m rfl hbalanced hclean).bind (fun r hr => hr.1) fun sub m₁ hgrows₁ hplanted => ?_
    obtain ⟨m₂, all, hstore, hgrows, harray₂, hreach, hnested, hnodup, hall⟩ :=
      storeElement_planted (c := c) harray hreached hgrows₁ hplanted
    have hlater := ih (m := m₂) (by rw [hgrows.registry_eq]; exact hmake)
      hgrows.balanced hgrows.clean (hgrows.roots_eq ▸ hroot) harray₂
    rw [List.length_append, List.length_singleton] at hlater
    rw [bind_of_ok hstore]
    refine hlater.after hgrows (fun r hr => ⟨hreach r hr.1, hr.2⟩) ?_
    rintro _ m' hgrows' ⟨subs, parts, hlength, harray', htrees, hnodup', hfresh'⟩
    rw [hgrows.registry_eq] at htrees
    refine ⟨sub :: subs, all :: parts, by simp [hlength], by simpa using harray', ?_, ?_, ?_⟩
    · exact .cons (hnested.spared hgrows'.spares fun x hx => (hall x hx).2) htrees
    · rw [List.flatten_cons]
      exact List.nodup_append'.2 ⟨hnodup, hnodup', fun x hx hx' => hfresh' x hx' (hall x hx).2.1⟩
    · intro x hx
      obtain hx | hx := List.mem_append.1 (List.flatten_cons ▸ hx)
      · exact (hall x hx).1
      · exact fun hr => hfresh' x hx (hreach x hr)

/-- **The tree is built** or there is no room: the induction is on the lengths, and each array is held while
the ones below it are created. -/
theorem builds_newNested {lengths : List Int32} (hbalanced : m.heap.Balanced) (hclean : m.heap.Clean)
    (hnonempty : lengths ≠ []) (hlengths : ∀ n ∈ lengths, 0 ≤ n)
    (hid : HasDimensions m.registry.table id lengths.length) :
    m.Builds (m.heap.Reachable m.roots) (Planted m id lengths) (newNested id lengths c m) := by
  induction lengths generalizing m id with
  | nil => exact absurd rfl hnonempty
  | cons length rest ih =>
    have hlength := hlengths length List.mem_cons_self
    cases rest with
    | nil =>
      obtain ⟨component, hcomponent⟩ := hid
      refine (builds_newArrayOf hbalanced hclean hcomponent hlength).after (.refl _ hbalanced hclean)
        (fun _ h => h) ?_
      rintro r m' - ⟨hr, hfresh⟩
      exact ⟨[r], ⟨component, hcomponent, hr, rfl⟩, by simp, by simpa using hfresh⟩
    | cons inner rest =>
      obtain ⟨component, hcomponent, hinner⟩ := hid
      obtain ⟨cl, hcl, hreference⟩ := ClassTable.exists_of_componentOf? hcomponent
      rw [newNested]
      refine (builds_newArrayOf hbalanced hclean hcomponent hlength).bind (fun _ h => h)
        fun array m₁ hgrows₁ hnew => ?_
      obtain ⟨harray, hfresh⟩ := hnew
      rw [← hgrows₁.registry_eq] at hcl
      rw [bind_of_ok (getClass_eq hcl), hreference]
      dsimp only
      have hroots : ∀ r, r ∈ (m₁.hold [array]).roots ↔ r = array ∨ r ∈ m₁.roots := by
        intro r
        simp only [mem_roots, List.mem_append, List.mem_singleton, or_assoc]
      have hreach : ∀ r, m.heap.Reachable m.roots r →
          (m₁.hold [array]).heap.Reachable (m₁.hold [array]).roots r ∧ r ≠ array := by
        refine fun r hr => ⟨(hgrows₁.reachable hr).mono fun s hs hlive => ?_, fun h => hfresh (h ▸ hr)⟩
        exact .root ((hroots s).2 (.inr hs)) hlive
      have harray₁ : (m₁.hold [array]).heap.Stores array id (filling [] length.toInt.toNat) := by
        rw [filling_nil]
        exact harray
      have hfill := builds_storeEach (m := m₁.hold [array]) (c := c)
        (fun m' hregistry hbalanced hclean => ih hbalanced hclean (by simp)
          (fun n hn => hlengths n (List.mem_cons_of_mem _ hn))
          (by rw [hregistry, hgrows₁.registry_eq]; exact hinner))
        hgrows₁.balanced hgrows₁.clean ((hroots array).2 (.inl rfl)) harray₁
      refine Builds.after (R := fun r h => r = array ∧
        Filled (m₁.hold [array]) array id component (inner :: rest) [] length.toInt.toNat h) ?_ hgrows₁ hreach ?_
      · exact Builds.bind hfill.pinning (fun _ h => h) fun _ m₂ hgrows₂ hfilled => .done hgrows₂ ⟨rfl, hfilled⟩
      rintro r m' - ⟨rfl, subs, parts, hsize, harray', htrees, hnodup, hfresh'⟩
      rw [show (m₁.hold [r]).registry = m.registry from hgrows₁.registry_eq] at htrees
      refine ⟨r :: parts.flatten, ⟨component, subs, parts, hcomponent, ?_, hsize, htrees, rfl⟩, ?_, ?_⟩
      · simpa [filling] using harray'
      · refine List.nodup_cons.2 ⟨fun hmem => hfresh' r hmem ?_, hnodup⟩
        exact .root ((hroots r).2 (.inl rfl)) harray.isLive
      · intro x hx hreached
        obtain rfl | hx := List.mem_cons.1 hx
        exacts [hfresh hreached, hfresh' x hx (hreach x hreached).1]

/-- Two arrays of one int each, in an array. -/
example : (match newNested 1 [2, 1] (.ofTasks coreEnvironment (perform coreEnvironment 0)) arrayMachine with
    | .ok r m => some (r, m.heap.slots.toList.map fun slot => slot.map fun o => (o.cls, o.contents))
    | .error _ _ => none) = some (⟨0⟩, [some (1, .array ⟨.reference, #[.ref ⟨1⟩, .ref ⟨2⟩]⟩),
      some (0, .array ⟨.primitive .int, #[.int 0]⟩), some (0, .array ⟨.primitive .int, #[.int 0]⟩)]) := by
  decide +kernel

/-! ### The instruction -/

theorem lengthsOf_map (lengths : List Int32) (f : Frame) :
    lengthsOf (lengths.map Value.int) f = .ok lengths f := by
  induction lengths with
  | nil => rfl
  | cons n lengths ih =>
    rw [List.map_cons, lengthsOf, Linking.bind_of_ok ih]
    rfl

theorem popArgs_eq {f : Frame} {vs rest : List Value} (hstack : f.stack.list = vs.reverse ++ rest) :
    Frame.popArgs vs.length f = .ok vs { f with stack := f.stack.drop vs.length } := by
  have hsize : vs.length ≤ f.stack.size := by
    rw [f.stack.size_eq, hstack]
    simp
  have htake : (f.stack.list.take vs.length).reverse = vs := by
    rw [hstack, List.take_left' (by simp), List.reverse_reverse]
  rw [Frame.popArgs_of_le hsize, htake]

theorem onFrame_eq {α : Type} {x : OnFrame α} {a : α} {f f' : Frame} {below : List Frame}
    (hframes : m.frames.list = f :: below) (hx : x f = .ok a f') :
    onFrame x c m = .ok a { m with frames := m.frames.setTop f' } := by
  simp only [onFrame, Stack.top?, hframes, List.head?_cons, hx]

/-- A value is pushed if there is room for it. -/
theorem push_cases {f : Frame} {below : List Frame} (hframes : m.frames.list = f :: below) (v : Value) :
    push v c m = .ok () { m with frames := m.frames.setTop { f with stack := f.stack.push v } } ∨
      f.code.maxStack ≤ f.stack.size ∧
        push v c m = .error (f.fault "operand stack overflow") { m with frames := m.frames.setTop f } := by
  rcases Nat.lt_or_ge f.stack.size f.code.maxStack with hroom | hfull
  · exact .inl (onFrame_eq hframes (Frame.push_of_room v hroom))
  · refine .inr ⟨hfull, ?_⟩
    simp only [push, onFrame, Stack.top?, hframes, List.head?_cons, Frame.push_of_full v hfull]

end VM

/-- What is held on to stays held on to while classes are loaded and references resolved. -/
theorem roots_subset_of_resolves {r r' : Registry} (h : r.Resolves r')
    (hr : r.Consistent) {x : Ref} (hx : x ∈ r.roots) : x ∈ r'.roots := by
  obtain ⟨hr', -⟩ := h.consistent hr
  rcases hr.linked.mem_roots.1 hx with ⟨id, s, hs, hmem⟩ | ⟨text, htext⟩
  · obtain ⟨s', hs', hresolved⟩ := h.states id s hs
    exact hr'.linked.mem_roots.2 (.inl ⟨id, s', hs', hresolved.roots_eq ▸ hmem⟩)
  · exact hr'.linked.mem_roots.2 (.inr ⟨text, (h.interned?_eq hr text).trans htext⟩)

/-- Whether an instruction that creates an array of arrays is due: its class is there or can be resolved, and
the lengths lie on top of the operand stack of the current frame, the innermost one on top of the others. -/
structure Machine.Asks (m : Machine) (c : Context) (index : UInt16) (dimensions : UInt8) (id : ClassId)
    (lengths : List Int32) (f : Frame) (below : List Frame) (rest : List Value) (registry : Registry) :
    Prop where
  frames : m.frames.list = f :: below
  stack : f.stack.list = (lengths.map Value.int).reverse ++ rest
  count : lengths.length = dimensions.toNat
  cls : VM.classAt index c m = .ok id { m with registry }

namespace Machine.Asks

variable {m : Machine} {c : Context} {index : UInt16} {dimensions : UInt8} {id : ClassId}
  {lengths : List Int32} {f : Frame} {below : List Frame} {rest : List Value} {registry : Registry}

/-- The machine once the class is resolved and the lengths are popped. -/
def popped (m : Machine) (f : Frame) (dimensions : UInt8) (registry : Registry) : Machine :=
  { m with registry, frames := m.frames.setTop { f with stack := f.stack.drop dimensions.toNat } }

theorem newMultiArray_eq (h : m.Asks c index dimensions id lengths f below rest registry) :
    VM.newMultiArray index dimensions c m = match lengths.find? (· < 0) with
      | some n => .error (negativeLength n) (popped m f dimensions registry)
      | none => (VM.newNested id lengths >>= fun r => VM.push (.ref r)) c (popped m f dimensions registry) := by
  have hpop : (do VM.lengthsOf (← Frame.popArgs dimensions.toNat) : OnFrame (List Int32)) f =
      .ok lengths { f with stack := f.stack.drop dimensions.toNat } := by
    have hargs := VM.popArgs_eq h.stack
    rw [List.length_map, h.count] at hargs
    rw [Linking.bind_of_ok hargs]
    exact VM.lengthsOf_map lengths _
  rw [VM.newMultiArray, VM.bind_of_ok h.cls,
    VM.bind_of_ok (VM.onFrame_eq (m := { m with registry }) h.frames hpop)]
  cases lengths.find? (· < 0) with
  | some n => rfl
  | none => rfl

theorem resolves (h : m.Asks c index dimensions id lengths f below rest registry) :
    m.registry.Resolves registry := by
  have hcurrent : VM.currentClass c m = .ok f.cls m := by
    have hframe : VM.currentFrame c m = .ok f m := by
      rw [VM.currentFrame, VM.bind_of_ok (VM.getMachine c m), Stack.top?, h.frames]
      rfl
    rw [VM.currentClass, VM.bind_of_ok hframe]
    rfl
  have hcls := h.cls
  rw [VM.classAt, VM.bind_of_ok hcurrent] at hcls
  unfold VM.link at hcls
  have hmeets := (admits_resolves c.env.paths).resolveClass f.cls index (r := m.registry)
  split at hcls
  · next id' r hresolve =>
    cases hcls
    exact (hmeets.of_eq_ok hresolve).1
  · cases hcls

/-- Ints that are popped are no objects. -/
theorem mem_roots_drop (hstack : f.stack.list = (lengths.map Value.int).reverse ++ rest) {r : Ref}
    (hr : r ∈ f.roots) : r ∈ ({ f with stack := f.stack.drop lengths.length } : Frame).roots := by
  have hpopped : ({ f with stack := f.stack.drop lengths.length } : Frame).All
      (· ∈ ({ f with stack := f.stack.drop lengths.length } : Frame).roots) :=
    Frame.all_iff_roots.2 fun _ h => h
  refine (Frame.all_iff_roots (f := f)).1 ⟨hpopped.locals, fun v hv => ?_, hpopped.monitor⟩ r hr
  rw [hstack, List.mem_append, List.mem_reverse] at hv
  obtain hv | hv := hv
  · obtain ⟨n, -, rfl⟩ := List.mem_map.1 hv
    exact Value.all_of_ne_ref (by simp)
  · refine hpopped.stack v ?_
    rw [Stack.list_drop, hstack, List.drop_left' (by simp)]
    exact hv

/-- What could be reached before still can: resolving lets go of nothing, and ints are no objects. -/
theorem reachable_popped (h : m.Asks c index dimensions id lengths f below rest registry)
    (hregistry : m.registry.Consistent) {r : Ref} (hr : m.heap.Reachable m.roots r) :
    m.heap.Reachable (popped m f dimensions registry).roots r := by
  refine hr.mono fun x hx hlive => .root (mem_roots.2 ?_) hlive
  refine (mem_roots.1 hx).imp_right (Or.imp ?_ (roots_subset_of_resolves h.resolves hregistry))
  rintro ⟨g, hg, hxg⟩
  have hlist : (popped m f dimensions registry).frames.list =
      { f with stack := f.stack.drop dimensions.toNat } :: below := VM.list_setTop h.frames
  rw [h.frames] at hg
  rw [hlist]
  obtain rfl | hg := List.mem_cons.1 hg
  swap
  · exact ⟨g, List.mem_cons_of_mem _ hg, hxg⟩
  exact ⟨_, List.mem_cons_self, h.count ▸ mem_roots_drop h.stack hxg⟩

/-- The frame of the instruction, with the result in the place of the lengths. -/
def answered (f : Frame) (dimensions : UInt8) (r : Ref) : Frame :=
  { f with stack := (f.stack.drop dimensions.toNat).push (.ref r) }

/-- How the instruction ends. -/
inductive Ends (m : Machine) (dimensions : UInt8) (id : ClassId) (lengths : List Int32) (f : Frame)
    (below : List Frame) (registry : Registry) : EStateM.Result Abrupt Machine Unit → Prop
  | negative {n : Int32} (hn : n ∈ lengths) (hnegative : n < 0) :
      Ends m dimensions id lengths f below registry
        (.error (negativeLength n) (popped m f dimensions registry))
  | empty (hempty : lengths = []) (e : Fault) :
      Ends m dimensions id lengths f below registry (.error (.fault e) (popped m f dimensions registry))
  | built {r : Ref} {all : List Ref} {m' : Machine} (hframes : m'.frames.list = answered f dimensions r :: below)
      (htree : Nested registry.table m'.heap id lengths r all) (hnodup : all.Nodup)
      (hfresh : ∀ x ∈ all, ¬ m.heap.Reachable m.roots x)
      (hspares : m.heap.Spares (m.heap.Reachable m.roots) m'.heap) (hpinned : m'.pinned = m.pinned) :
      Ends m dimensions id lengths f below registry (.ok () m')
  | full (hfull : f.code.maxStack ≤ f.stack.size - lengths.length) (e : Fault) {m' : Machine}
      (hspares : m.heap.Spares (m.heap.Reachable m.roots) m'.heap) (hpinned : m'.pinned = m.pinned) :
      Ends m dimensions id lengths f below registry (.error (.fault e) m')
  | refused (text : String) {m' : Machine} (hspares : m.heap.Spares (m.heap.Reachable m.roots) m'.heap)
      (hpinned : m'.pinned = m.pinned) :
      Ends m dimensions id lengths f below registry (.error (.fault (.outOfMemory text)) m')
  | stuck {m' : Machine} (hspares : m.heap.Spares (m.heap.Reachable m.roots) m'.heap) :
      Ends m dimensions id lengths f below registry (.error .stuck m')

/-- The instruction ends in one of these ways. -/
theorem ends_newMultiArray (h : m.Asks c index dimensions id lengths f below rest registry)
    (hregistry : m.registry.Consistent) (hbalanced : m.heap.Balanced) (hclean : m.heap.Clean)
    (hid : HasDimensions registry.table id lengths.length) :
    Ends m dimensions id lengths f below registry (VM.newMultiArray index dimensions c m) := by
  rw [h.newMultiArray_eq]
  cases hfind : lengths.find? (· < 0) with
  | some n => exact .negative (List.mem_of_find?_eq_some hfind) (by simpa using List.find?_some hfind)
  | none =>
    dsimp only
    by_cases hempty : lengths = []
    · subst hempty
      exact .empty rfl _
    have hlengths : ∀ n ∈ lengths, 0 ≤ n := by
      intro n hn
      have hnot : ¬ n < 0 := by simpa using List.find?_eq_none.1 hfind n hn
      exact Int32.not_lt.1 hnot
    have hreach := fun r (hr : m.heap.Reachable m.roots r) => h.reachable_popped hregistry hr
    have hbuilds := VM.builds_newNested (m := popped m f dimensions registry) (c := c) hbalanced hclean
      hempty hlengths hid
    generalize hresult : VM.newNested id lengths c (popped m f dimensions registry) = result at hbuilds
    cases hbuilds with
    | @done r m₁ hgrows hplanted =>
      obtain ⟨all, htree, hnodup, hfresh⟩ := hplanted
      have hframes : m₁.frames.list = { f with stack := f.stack.drop dimensions.toNat } :: below := by
        rw [hgrows.rest]
        exact VM.list_setTop h.frames
      rw [VM.bind_of_ok hresult]
      obtain hpush | ⟨hfull, hpush⟩ := VM.push_cases (c := c) hframes (.ref r)
      · rw [hpush]
        exact .built (VM.list_setTop hframes) htree hnodup (fun x hx hr => hfresh x hx (hreach x hr))
          (hgrows.spares.mono hreach) hgrows.pinned_eq
      · rw [hpush]
        exact .full (h.count ▸ hfull) _ (hgrows.spares.mono hreach) hgrows.pinned_eq
    | refused hgrows text =>
      rw [VM.bind_of_error hresult]
      exact .refused text (hgrows.spares.mono hreach) hgrows.pinned_eq
    | stuck hspares =>
      rw [VM.bind_of_error hresult]
      exact .stuck (hspares.mono hreach)

end Machine.Asks

/-- What the instruction comes to that creates arrays of arrays, for every array class and every list of
lengths, no longer than the class has dimensions. -/
structure Machine.BuildsTrees (m : Machine) : Prop where
  -- If it succeeds, the result is on the operand stack, an array of arrays with these lengths, which are all
  -- different and none of which could be reached before; what could be reached before has not changed, and no
  -- more is held than before.
  built : ∀ c index dimensions id lengths f below rest registry m',
    m.Asks c index dimensions id lengths f below rest registry →
    HasDimensions registry.table id lengths.length →
    VM.newMultiArray index dimensions c m = .ok () m' →
      ∃ r all, m'.frames.list = Machine.Asks.answered f dimensions r :: below ∧
        Nested registry.table m'.heap id lengths r all ∧ all.Nodup ∧
        (∀ x ∈ all, ¬ m.heap.Reachable m.roots x) ∧ m.heap.Spares (m.heap.Reachable m.roots) m'.heap ∧
        m'.pinned = m.pinned
  -- If it fails, what could be reached before has not changed, and no more is held than before. A thread that
  -- stands still in the middle of it has not failed yet, and holds what it has built.
  failed : ∀ c index dimensions id lengths f below rest registry e m',
    m.Asks c index dimensions id lengths f below rest registry →
    HasDimensions registry.table id lengths.length →
    VM.newMultiArray index dimensions c m = .error e m' →
      m.heap.Spares (m.heap.Reachable m.roots) m'.heap ∧ (e ≠ .stuck → m'.pinned = m.pinned)
  refused : ∀ c index dimensions id lengths f below rest registry e m',
    m.Asks c index dimensions id lengths f below rest registry →
    HasDimensions registry.table id lengths.length → lengths ≠ [] → f.stack.size ≤ f.code.maxStack →
    (∀ n ∈ lengths, 0 ≤ n) → VM.newMultiArray index dimensions c m = .error e m' → e ≠ .stuck →
      ∃ text, e = .fault (.outOfMemory text)
  negative : ∀ c index dimensions id lengths f below rest registry,
    m.Asks c index dimensions id lengths f below rest registry → (∃ n ∈ lengths, n < 0) →
      ∃ n ∈ lengths, n < 0 ∧ ∃ m', m'.heap = m.heap ∧
        VM.newMultiArray index dimensions c m = .error (negativeLength n) m'

/-- **Arrays of arrays are built in full** in every machine whose accounts are right, or the failure leaves no
trace in what can be reached. -/
theorem builds_trees {m : Machine} (hregistry : m.registry.Consistent) (hbalanced : m.heap.Balanced)
    (hclean : m.heap.Clean) : m.BuildsTrees where
  built c index dimensions id lengths f below rest registry m' hasks hid hrun := by
    have hends := hasks.ends_newMultiArray hregistry hbalanced hclean hid
    rw [hrun] at hends
    cases hends with
    | built hframes htree hnodup hfresh hspares hpinned =>
      exact ⟨_, _, hframes, htree, hnodup, hfresh, hspares, hpinned⟩
  failed c index dimensions id lengths f below rest registry e m' hasks hid hrun := by
    have hends := hasks.ends_newMultiArray hregistry hbalanced hclean hid
    rw [hrun] at hends
    cases hends with
    | negative => exact ⟨.refl _ _, fun _ => rfl⟩
    | empty => exact ⟨.refl _ _, fun _ => rfl⟩
    | full _ _ hspares hpinned => exact ⟨hspares, fun _ => hpinned⟩
    | refused _ hspares hpinned => exact ⟨hspares, fun _ => hpinned⟩
    | stuck hspares => exact ⟨hspares, fun h => absurd rfl h⟩
  refused c index dimensions id lengths f below rest registry e m' hasks hid hnonempty hroom hlengths hrun
      hstuck := by
    have hends := hasks.ends_newMultiArray hregistry hbalanced hclean hid
    rw [hrun] at hends
    cases hends with
    | negative hn hnegative => exact absurd hnegative (Int32.not_lt.2 (hlengths _ hn))
    | empty hempty => exact absurd hempty hnonempty
    | full hfull =>
      have hpos := List.length_pos_iff.2 hnonempty
      have hsize : lengths.length ≤ f.stack.size := by
        rw [f.stack.size_eq, hasks.stack]
        simp
      omega
    | refused text => exact ⟨text, rfl⟩
    | stuck => exact absurd rfl hstuck
  negative c index dimensions id lengths f below rest registry hasks hnegative := by
    obtain ⟨n, hn, hlt⟩ := hnegative
    cases hfind : lengths.find? (· < 0) with
    | none => exact absurd (by simpa using hlt) (List.find?_eq_none.1 hfind n hn)
    | some k =>
      refine ⟨k, List.mem_of_find?_eq_some hfind, by simpa using List.find?_some hfind,
        Machine.Asks.popped m f dimensions registry, rfl, ?_⟩
      rw [hasks.newMultiArray_eq, hfind]

/-! ### The rows of a matrix

The class of matrices refers to the class of arrays of arrays of ints. -/

namespace Matrix

/-- The registry of these classes. -/
def registry : Registry := Registry.after OddCore.paths OddCore.requests

/-- The registry once the reference is resolved. -/
def resolved : Registry := (resolveClass OddCore.paths 5 6).leads registry

theorem consistent_registry : registry.Consistent := by
  have hload : ∀ (r : Registry) name, r.Consistent →
      (Request.apply OddCore.paths r (.load .boot name)).Consistent := fun r name hr =>
    (((admits_resolves OddCore.paths).load .boot name r).leads.consistent hr).1
  exact hload _ _ (hload _ _ (hload _ _ (hload _ _ (hload _ _ (hload _ _ Registry.consistent_empty)))))

/-- The reference leads to the class of arrays of arrays, which is there already. -/
theorem resolveClass_registry : resolveClass OddCore.paths 5 6 registry = .ok 4 resolved ∧
    resolved.table = registry.table := by
  have hrequests : ∀ q ∈ OddCore.requests, q.Transparent := by simp [OddCore.requests, Request.Transparent]
  have hgrids : loadClass OddCore.paths .boot "[[I" registry = .ok 4 registry := by
    rw [loadClass, load]
    exact define_of_loaded (OddCore.holds_after.found 4 OddCore.grids rfl)
  have hlookUp : Resolution.Kind.classes.lookUp OddCore.paths 5 6 registry = .ok 4 registry :=
    (bind_of_ok (getClass_of_class? (OddCore.holds_after.class? 5))).trans hgrids
  have hresolve : (resolveClass OddCore.paths 5 6).outcome registry =
      (Resolution.Kind.classes.lookUp OddCore.paths 5 6).outcome registry ∧
        resolved.SameClasses ((Resolution.Kind.classes.lookUp OddCore.paths 5 6).leads registry) :=
    (coherent_after OddCore.paths hrequests).recalls.resolve .classes 5 6
  obtain ⟨hleads, houtcome⟩ := Linker.leads_of_ok hlookUp
  rw [hleads, houtcome] at hresolve
  exact ⟨Linker.eq_ok_of_outcome hresolve.1, hresolve.2.table⟩

/-- The classes, in a table that can be looked at. -/
def table : ClassTable where
  classes := #[OddCore.object, OddCore.cloneable, OddCore.serializable, OddCore.ints, OddCore.grids, OddCore.matrix]
  ordered := by
    have hclasses : registry.table.classes = #[OddCore.object, OddCore.cloneable, OddCore.serializable,
        OddCore.ints, OddCore.grids, OddCore.matrix] := Array.toList_inj.1 OddCore.holds_after.classes
    rw [← hclasses]
    exact registry.table.ordered

theorem table_resolved : resolved.table = table :=
  resolveClass_registry.2.trans (OddCore.holds_after.table_eq rfl)

/-- A frame of the class of matrices, with two lengths on its operand stack. -/
def frame : Frame := { (default : Frame) with
  cls := 5
  code := { (default : Linking.Code) with maxStack := 2 }
  stack := (Stack.empty.push (.int 2)).push (.int 1) }

/-- A machine in which the rows of a matrix are due. -/
def machine : Machine := { Machine.start .standard with registry, frames := Stack.empty.push frame, steps := 9 }

def context : Context := .ofTasks { coreEnvironment with paths := OddCore.paths } (perform coreEnvironment 0)

theorem asks_machine : machine.Asks context 6 2 4 [2, 1] frame [] [] resolved where
  frames := rfl
  stack := rfl
  count := rfl
  cls := by
    have hlink : VM.classAt 6 context machine = VM.link (resolveClass · 5 6) context machine := rfl
    have hresolve : resolveClass context.env.paths 5 6 machine.registry = .ok 4 resolved := resolveClass_registry.1
    rw [hlink, VM.link, hresolve]

theorem hasDimensions_resolved : HasDimensions resolved.table 4 2 := by
  rw [table_resolved]
  exact ⟨3, rfl, .primitive .int, rfl⟩

/-- The objects that a computation ends with, if it succeeds. -/
def objectsAfter : EStateM.Result Abrupt Machine Unit → Option (List (Option (ClassId × Contents)))
  | .ok _ m => some (m.heap.slots.toList.map fun slot => slot.map fun o => (o.cls, o.contents))
  | .error _ _ => none

/-- Two rows of one column. -/
def rows : List (Option (ClassId × Contents)) :=
  [some (4, .array ⟨.reference, #[.ref ⟨1⟩, .ref ⟨2⟩]⟩), some (3, .array ⟨.primitive .int, #[.int 0]⟩),
    some (3, .array ⟨.primitive .int, #[.int 0]⟩)]

theorem newMultiArray_machine : objectsAfter (VM.newMultiArray 6 2 context machine) = some rows := by
  have hregistry : resolved = { resolved with table } := by rw [← table_resolved]
  have hbuilt : objectsAfter ((VM.newNested 4 [2, 1] >>= fun r => VM.push (.ref r)) context
      (Machine.Asks.popped machine frame 2 { resolved with table })) = some rows := by
    decide +kernel
  rw [← hregistry] at hbuilt
  rw [asks_machine.newMultiArray_eq]
  exact hbuilt

end Matrix

/-- Two rows of one column are built: an array of two arrays. -/
theorem builds_trees_matrix : Matrix.machine.registry.Consistent ∧ Matrix.machine.heap.Balanced ∧
    Matrix.machine.heap.Clean ∧ Matrix.machine.BuildsTrees ∧
    Matrix.machine.Asks Matrix.context 6 2 4 [2, 1] Matrix.frame [] [] Matrix.resolved ∧
    HasDimensions Matrix.resolved.table 4 2 ∧
    Matrix.objectsAfter (VM.newMultiArray 6 2 Matrix.context Matrix.machine) = some Matrix.rows := by
  have hheap := Heap.sound_empty .standard Matrix.table
  have hregistry : Matrix.machine.registry.Consistent := Matrix.consistent_registry
  exact ⟨hregistry, hheap.balanced, hheap.clean, builds_trees hregistry hheap.balanced hheap.clean,
    Matrix.asks_machine, Matrix.hasDimensions_resolved, Matrix.newMultiArray_machine⟩

end Execution

end Jvm
