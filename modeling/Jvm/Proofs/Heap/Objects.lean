import Mathlib
import Jvm.Heap.Collect

/-! # The objects of a heap

What a heap holds is read off through `Heap.object?`. The lemmas here say how each way of changing a heap
changes the objects behind its references; `Operation` lists the operations of a heap, and `Kept.after`
carries a property through every run of them. -/

namespace Jvm.Heap

variable {κ : Type}

/-! ### Reading -/

/-- Whether a reference names an object. -/
def IsLive (h : Heap κ) (r : Ref) : Prop := ∃ o, h.object? r = some o

theorem object?_eq_some {h : Heap κ} {r : Ref} {o : Object κ} :
    h.object? r = some o ↔ h.slots[r.index]? = some (some o) := by
  rw [object?, Option.join_eq_some_iff]

theorem object?_congr {h h' : Heap κ} (hslots : h'.slots = h.slots) (r : Ref) :
    h'.object? r = h.object? r := by
  rw [object?, object?, hslots]

theorem IsLive.index_lt {h : Heap κ} {r : Ref} (hlive : h.IsLive r) : r.index < h.slots.size := by
  obtain ⟨o, ho⟩ := hlive
  exact (Array.getElem?_eq_some_iff.mp (object?_eq_some.mp ho)).1

theorem isLive_iff {h : Heap κ} {r : Ref} : h.IsLive r ↔ (h.object? r).isSome := by
  rw [IsLive, Option.isSome_iff_exists]

theorem not_isLive_iff {h : Heap κ} {r : Ref} : ¬ h.IsLive r ↔ h.object? r = none := by
  rw [isLive_iff, Option.not_isSome_iff_eq_none]

@[simp] theorem object?_empty (config : Config) (r : Ref) :
    (empty config : Heap κ).object? r = none := rfl

/-! ### Changing an object in place -/

theorem object?_modifyObject (h : Heap κ) (r s : Ref) (f : Object κ → Object κ) :
    (h.modifyObject r f).object? s = if s = r then (h.object? s).map f else h.object? s := by
  obtain ⟨i⟩ := r
  obtain ⟨j⟩ := s
  simp only [object?, modifyObject, Array.getElem?_modify, Ref.mk.injEq]
  by_cases hij : i = j
  · subst hij
    rcases h.slots[i]? with _ | _ | o <;> simp
  · rw [if_neg hij, if_neg (Ne.symm hij)]

/-! ### The objects with a property -/

/-- The objects that pass a test, with their slots, in increasing order of the slots. -/
def objectsWhere (h : Heap κ) (p : Object κ → Bool) : List (Nat × Object κ) :=
  h.slots.toList.zipIdx.filterMap fun (slot, i) => (slot.filter p).map fun o => (i, o)

theorem mem_objectsWhere {h : Heap κ} {p : Object κ → Bool} {i : Nat} {o : Object κ} :
    (i, o) ∈ h.objectsWhere p ↔ h.object? ⟨i⟩ = some o ∧ p o = true := by
  simp only [objectsWhere, List.mem_filterMap, Prod.exists, object?_eq_some]
  constructor
  · rintro ⟨slot, j, hmem, heq⟩
    obtain ⟨o', ho', hpair⟩ := Option.map_eq_some_iff.mp heq
    obtain ⟨hslot, hp⟩ := Option.filter_eq_some_iff.mp ho'
    cases hpair
    refine ⟨?_, hp⟩
    rw [← hslot, ← Array.getElem?_toList]
    exact List.mem_zipIdx_iff_getElem?.mp hmem
  · rintro ⟨hslot, hp⟩
    refine ⟨some o, i, ?_, by simp [Option.filter, hp]⟩
    rw [List.mem_zipIdx_iff_getElem?, Array.getElem?_toList]
    exact hslot

theorem nodup_objectsWhere (h : Heap κ) (p : Object κ → Bool) :
    ((h.objectsWhere p).map (·.1)).Nodup := by
  have hindices : h.slots.toList.zipIdx.Pairwise fun a b => a.2 ≠ b.2 := by
    rw [← List.pairwise_map, List.zipIdx_map_snd]
    exact List.nodup_range'
  refine List.pairwise_map.mpr (hindices.filterMap _ fun a b hab x hx y hy => ?_)
  obtain ⟨_, -, rfl⟩ := Option.map_eq_some_iff.mp hx
  obtain ⟨_, -, rfl⟩ := Option.map_eq_some_iff.mp hy
  exact hab

/-! ### Sums over the objects -/

/-- The sum of the weights of the objects in some slots. -/
def total (w : Object κ → Nat) (slots : Array (Option (Object κ))) : Nat :=
  (slots.toList.map fun slot => slot.elim 0 w).sum

theorem sum_map_set {α : Type} (f : α → Nat) (b : α) : ∀ (l : List α) (i : Nat) (a : α),
    l[i]? = some a → ((l.set i b).map f).sum + f a = (l.map f).sum + f b
  | [], i, a, ha => by simp at ha
  | c :: l, 0, a, ha => by
    obtain rfl : c = a := by simpa using ha
    simp only [List.set_cons_zero, List.map_cons, List.sum_cons]
    omega
  | c :: l, i + 1, a, ha => by
    have := sum_map_set f b l i a (by simpa using ha)
    simp only [List.set_cons_succ, List.map_cons, List.sum_cons]
    omega

theorem total_set (w : Object κ → Nat) {slots : Array (Option (Object κ))} {i : Nat}
    {old : Option (Object κ)} (new : Option (Object κ)) (hold : slots[i]? = some old) :
    total w (slots.setIfInBounds i new) + old.elim 0 w = total w slots + new.elim 0 w := by
  rw [total, total, Array.toList_setIfInBounds]
  exact sum_map_set (fun slot => slot.elim 0 w) new _ i old (by rw [Array.getElem?_toList, hold])

theorem total_push (w : Object κ → Nat) (slots : Array (Option (Object κ)))
    (new : Option (Object κ)) : total w (slots.push new) = total w slots + new.elim 0 w := by
  simp [total]

theorem total_map (w : Object κ → Nat) (slots : Array (Option (Object κ)))
    (f : Option (Object κ) → Option (Object κ)) :
    total w (slots.map f) = (slots.toList.map fun slot => (f slot).elim 0 w).sum := by
  rw [total, Array.toList_map, List.map_map]
  rfl

theorem modify_eq_set {α : Type} {xs : Array α} {i : Nat} {a : α} (f : α → α)
    (ha : xs[i]? = some a) : xs.modify i f = xs.setIfInBounds i (f a) := by
  refine Array.ext (by simp) fun j hj hj' => ?_
  rw [Array.getElem_modify, Array.getElem_setIfInBounds]
  split_ifs with hij
  · subst hij
    rw [(Array.getElem?_eq_some_iff.mp ha).2]
  · rfl

theorem modify_of_le {α : Type} {xs : Array α} {i : Nat} (f : α → α) (hi : xs.size ≤ i) :
    xs.modify i f = xs := by
  refine Array.ext (by simp) fun j hj hj' => ?_
  rw [Array.getElem_modify, if_neg (by omega)]

theorem total_modifyObject {h : Heap κ} {r : Ref} {o : Object κ} (w : Object κ → Nat)
    (f : Object κ → Object κ) (ho : h.object? r = some o) :
    total w (h.modifyObject r f).slots + w o = total w h.slots + w (f o) := by
  have hslot := object?_eq_some.mp ho
  rw [modifyObject, modify_eq_set _ hslot]
  exact total_set w (some (f o)) hslot

theorem total_modifyObject_of_eq (h : Heap κ) (r : Ref) {w : Object κ → Nat}
    {f : Object κ → Object κ} (hw : ∀ o, w (f o) = w o) :
    total w (h.modifyObject r f).slots = total w h.slots := by
  rcases hslot : h.slots[r.index]? with _ | slot
  · rw [modifyObject, modify_of_le _ (Array.getElem?_eq_none_iff.mp hslot)]
  · have hset := total_set w (slot.map f) hslot
    rw [modifyObject, modify_eq_set _ hslot]
    rcases slot with _ | o
    · simpa using hset
    · simp only [Option.map_some, Option.elim_some, hw] at hset ⊢
      omega

theorem sum_filterMap_zipIdx (w : Object κ → Nat) (p : Object κ → Bool) :
    ∀ (slots : List (Option (Object κ))) (start : Nat),
      (((slots.zipIdx start).filterMap fun (slot, i) => (slot.filter p).map fun o => (i, o)).map
          fun entry => w entry.2).sum =
        (slots.map fun slot => slot.elim 0 fun o => if p o then w o else 0).sum
  | [], _ => rfl
  | none :: slots, start => by
    simpa [List.zipIdx_cons] using sum_filterMap_zipIdx w p slots (start + 1)
  | some o :: slots, start => by
    have ih := sum_filterMap_zipIdx w p slots (start + 1)
    by_cases hp : p o = true
    · simp [List.zipIdx_cons, Option.filter_some, hp, ih]
    · simp [List.zipIdx_cons, Option.filter_some, hp, ih]

theorem sum_objectsWhere (h : Heap κ) (p : Object κ → Bool) (w : Object κ → Nat) :
    ((h.objectsWhere p).map fun entry => w entry.2).sum =
      total (fun o => if p o then w o else 0) h.slots :=
  sum_filterMap_zipIdx w p h.slots.toList 0

theorem totalSize_eq_sum (objects : List (Nat × Object κ)) :
    totalSize objects = (objects.map fun entry => entry.2.size).sum := by
  induction objects with
  | nil => rfl
  | cons entry objects ih => rw [List.map_cons, List.sum_cons, ← ih]; rfl

theorem length_objectsWhere (h : Heap κ) (p : Object κ → Bool) :
    (h.objectsWhere p).length = total (fun o => if p o then 1 else 0) h.slots := by
  rw [← sum_objectsWhere h p fun _ => 1]
  simp

/-! ### Operations -/

/-- The operations of a heap. -/
inductive Operation (κ : Type) where
  | tryAllocate (request : Request κ)
  | growAndAllocate (request : Request κ)
  | allocate (request : Request κ) (roots : List Ref)
  | collect (roots : List Ref)
  | setField (r : Ref) (slot : Nat) (v : Value)
  | storeElement (r : Ref) (i : Nat) (v : Value)
  | copyElements (source : Ref) (sourceAt : Nat) (target : Ref) (targetAt n : Nat)
  | enterMonitor (r : Ref) (thread : Nat)
  | exitMonitor (r : Ref) (thread : Nat)

/-- The heap after an operation; one that is refused leaves the heap as it is. -/
def Operation.apply (h : Heap κ) : Operation κ → Heap κ
  | tryAllocate request => (h.tryAllocate request).elim h (·.2)
  | growAndAllocate request => (h.growAndAllocate request).2
  | allocate request roots => (h.allocate request roots).2
  | collect roots => (h.collect roots).2
  | setField r slot v => (h.setField r slot v).toOption.getD h
  | storeElement r i v => (h.storeElement r i v).toOption.join.getD h
  | copyElements source sourceAt target targetAt n =>
    (h.copyElements source sourceAt target targetAt n).toOption.join.getD h
  | enterMonitor r thread => (h.enterMonitor r thread).toOption.join.getD h
  | exitMonitor r thread => ((h.exitMonitor r thread).toOption.join.map (·.2)).getD h

/-- The heap after some operations, from one without objects. -/
def after (config : Config) (operations : List (Operation κ)) : Heap κ :=
  operations.foldl Operation.apply (empty config)

/-- Whether a change of an object touches only what programs see of it: the accounting and the mark
stay. -/
def InPlace (f : Object κ → Object κ) : Prop :=
  ∀ o, (f o).size = o.size ∧ (f o).block = o.block ∧ (f o).marked = o.marked

theorem inPlace_contents (f : Contents → Contents) :
    InPlace fun o : Object κ => { o with contents := f o.contents } :=
  fun _ => ⟨rfl, rfl, rfl⟩

theorem inPlace_monitor (monitor : Monitor) :
    InPlace fun o : Object κ => { o with monitor } :=
  fun _ => ⟨rfl, rfl, rfl⟩

theorem eq_of_setField {h h' : Heap κ} {r : Ref} {slot : Nat} {v : Value}
    (hset : h.setField r slot v = .ok h') : h' = h.putField r slot v := by
  unfold setField at hset
  rcases hget : h.getField r slot with e | old
  · rw [hget] at hset
    cases hset
  · rw [hget] at hset
    cases hset
    rfl

theorem eq_of_storeElement {h h' : Heap κ} {r : Ref} {i : Nat} {v : Value}
    (hstore : h.storeElement r i v = .ok (some h')) : ∃ kept, h' = h.putElement r i kept := by
  unfold storeElement at hstore
  rcases he : h.elements r with e | elements
  · rw [he] at hstore
    cases hstore
  · rw [he] at hstore
    obtain ⟨kept, -, rfl⟩ := Option.map_eq_some_iff.mp (Except.ok.inj hstore)
    exact ⟨kept, rfl⟩

theorem eq_of_copyElements {h h' : Heap κ} {source target : Ref} {sourceAt targetAt n : Nat}
    (hcopy : h.copyElements source sourceAt target targetAt n = .ok (some h')) :
    ∃ elements, h.copied source sourceAt target targetAt n = .ok (some elements) ∧
      h' = h.setElements target elements := by
  unfold copyElements at hcopy
  rcases hc : h.copied source sourceAt target targetAt n with e | elements
  · rw [hc] at hcopy
    cases hcopy
  · rw [hc] at hcopy
    obtain ⟨elements, rfl, rfl⟩ := Option.map_eq_some_iff.mp (Except.ok.inj hcopy)
    exact ⟨elements, rfl, rfl⟩

theorem eq_of_enterMonitor {h h' : Heap κ} {r : Ref} {thread : Nat}
    (henter : h.enterMonitor r thread = .ok (some h')) :
    ∃ o monitor, h.object? r = some o ∧ o.monitor.enter? thread = some monitor ∧
      h' = h.setMonitor r monitor := by
  unfold enterMonitor monitor object at henter
  rcases ho : h.object? r with _ | o
  · rw [ho] at henter
    cases henter
  · rw [ho] at henter
    obtain ⟨monitor, hmonitor, rfl⟩ := Option.map_eq_some_iff.mp (Except.ok.inj henter)
    exact ⟨o, monitor, rfl, hmonitor, rfl⟩

theorem eq_of_exitMonitor {h h' : Heap κ} {r : Ref} {thread : Nat} {isFree : Bool}
    (hexit : h.exitMonitor r thread = .ok (some (isFree, h'))) :
    ∃ o monitor, h.object? r = some o ∧ o.monitor.exit? thread = some monitor ∧
      h' = h.setMonitor r monitor := by
  unfold exitMonitor monitor object at hexit
  rcases ho : h.object? r with _ | o
  · rw [ho] at hexit
    cases hexit
  · rw [ho] at hexit
    obtain ⟨monitor, hmonitor, heq⟩ := Option.map_eq_some_iff.mp (Except.ok.inj hexit)
    cases heq
    exact ⟨o, monitor, rfl, hmonitor, rfl⟩

/-- A property of heaps that the operations carry on. -/
structure Carried (P : Heap κ → Prop) : Prop where
  modify : ∀ {h : Heap κ} {r f}, P h → InPlace f → P (h.modifyObject r f)
  create : ∀ {h h' : Heap κ} {request r}, P h → h.tryAllocate request = some (r, h') → P h'
  grow : ∀ {h h' : Heap κ} {size}, P h → h.grow size = .ok h' → P h'
  collect : ∀ {h : Heap κ} {roots}, P h → P (h.collect roots).2

namespace Carried

variable {P : Heap κ → Prop}

theorem growAndAllocate (hP : Carried P) {h : Heap κ} (request : Request κ) (hh : P h) :
    P (h.growAndAllocate request).2 := by
  rw [Heap.growAndAllocate]
  rcases hgrow : h.grow request.bytes with e | h'
  · exact hh
  · have hh' := hP.grow hh hgrow
    rcases htry : h'.tryAllocate request with _ | ⟨r, h''⟩
    · simpa only [htry] using hh'
    · simpa only [htry] using hP.create hh' htry

theorem allocate (hP : Carried P) {h : Heap κ} (request : Request κ) (roots : List Ref) (hh : P h) :
    P (h.allocate request roots).2 := by
  rw [Heap.allocate]
  rcases htry : h.tryAllocate request with _ | ⟨r, h'⟩
  · have hh' : P (h.collect roots).2 := hP.collect hh
    rcases hagain : (h.collect roots).2.tryAllocate request with _ | ⟨r, h'⟩
    · simpa only [hagain] using hP.growAndAllocate request hh'
    · simpa only [hagain] using hP.create hh' hagain
  · exact hP.create hh htry

/-- A single operation keeps the property. -/
theorem apply (hP : Carried P) {h : Heap κ} (operation : Operation κ) (hh : P h) :
    P (operation.apply h) := by
  have hcontents : ∀ r f, P (h.modifyContents r f) :=
    fun r f => hP.modify hh (inPlace_contents f)
  have hmonitor : ∀ r monitor, P (h.setMonitor r monitor) :=
    fun r monitor => hP.modify hh (inPlace_monitor monitor)
  cases operation with
  | tryAllocate request =>
    rcases htry : h.tryAllocate request with _ | ⟨r, h'⟩
    · simpa [Operation.apply, htry] using hh
    · simpa [Operation.apply, htry] using hP.create hh htry
  | growAndAllocate request => exact hP.growAndAllocate request hh
  | allocate request roots => exact hP.allocate request roots hh
  | collect roots => exact hP.collect hh
  | setField r slot v =>
    rcases hset : h.setField r slot v with e | h'
    · simpa [Operation.apply, hset, Except.toOption] using hh
    · obtain rfl := eq_of_setField hset
      rw [Operation.apply, hset]
      exact hcontents r _
  | storeElement r i v =>
    rcases hstore : h.storeElement r i v with e | _ | h'
    · simpa [Operation.apply, hstore, Except.toOption] using hh
    · simpa [Operation.apply, hstore, Except.toOption] using hh
    · obtain ⟨kept, rfl⟩ := eq_of_storeElement hstore
      rw [Operation.apply, hstore]
      exact hcontents r _
  | copyElements source sourceAt target targetAt n =>
    rcases hcopy : h.copyElements source sourceAt target targetAt n with e | _ | h'
    · simpa [Operation.apply, hcopy, Except.toOption] using hh
    · simpa [Operation.apply, hcopy, Except.toOption] using hh
    · obtain ⟨elements, -, rfl⟩ := eq_of_copyElements hcopy
      rw [Operation.apply, hcopy]
      exact hcontents target fun _ => .array elements
  | enterMonitor r thread =>
    rcases henter : h.enterMonitor r thread with e | _ | h'
    · simpa [Operation.apply, henter, Except.toOption] using hh
    · simpa [Operation.apply, henter, Except.toOption] using hh
    · obtain ⟨o, monitor, -, -, rfl⟩ := eq_of_enterMonitor henter
      rw [Operation.apply, henter]
      exact hmonitor r monitor
  | exitMonitor r thread =>
    rcases hexit : h.exitMonitor r thread with e | _ | ⟨isFree, h'⟩
    · simpa [Operation.apply, hexit, Except.toOption] using hh
    · simpa [Operation.apply, hexit, Except.toOption] using hh
    · obtain ⟨o, monitor, -, -, rfl⟩ := eq_of_exitMonitor hexit
      rw [Operation.apply, hexit]
      exact hmonitor r monitor

/-- A run of operations carries the property on from the heap without objects. -/
theorem run (hP : Carried P) {config : Config} (hempty : P (empty config))
    (operations : List (Operation κ)) : P (Heap.after config operations) := by
  have hrun : ∀ (operations : List (Operation κ)) (h : Heap κ), P h →
      P (operations.foldl Operation.apply h) := by
    intro operations
    induction operations with
    | nil => exact fun h hh => hh
    | cons operation operations ih => exact fun h hh => ih _ (hP.apply operation hh)
  exact hrun operations _ hempty

end Carried

/-- A property of heaps that holds without objects and that the operations carry on. -/
structure Kept (P : Heap κ → Prop) : Prop extends Carried P where
  empty : ∀ config, P (empty config)

/-- **Every run of operations keeps the property.** -/
theorem Kept.after {P : Heap κ → Prop} (hP : Kept P) (config : Config)
    (operations : List (Operation κ)) : P (after config operations) :=
  hP.run (hP.empty config) operations

end Jvm.Heap
