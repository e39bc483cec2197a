import Mathlib
import Jvm.Proofs.Execution.Soundness
import Jvm.Proofs.Linking.Entering

/-! # Arrays

What is read from the arrays of a machine, and what stores leave in them. `Elements.overlaid` puts values over
elements that follow each other; `load?_overlaid` says what stands where afterwards. -/

namespace Jvm

namespace Elements

variable {e f : Elements} {v : Value} {i j k n : Nat}

/-- The `n` elements from an index on, or those of them that there are. -/
def part (e : Elements) (i n : Nat) : List Value := (e.values.toList.drop i).take n

/-- The elements with values put over those from an index on. -/
def overlaid (e : Elements) (j : Nat) (vs : List Value) : Elements :=
  { e with values := overwrite e.values j vs }

theorem part_succ (h : e.load? i = some v) (n : Nat) : e.part i (n + 1) = v :: e.part (i + 1) n := by
  obtain ⟨hi, rfl⟩ := Array.getElem?_eq_some_iff.1 h
  rw [part, part, ← Array.getElem_toList, List.drop_eq_getElem_cons (by simpa using hi), List.take_succ_cons]

theorem length_part (h : i + n ≤ e.size) : (e.part i n).length = n := by
  rw [size] at h
  simp only [part, List.length_take, List.length_drop, Array.length_toList]
  omega

theorem getElem?_part (hk : k < n) : (e.part i n)[k]? = e.load? (i + k) := by
  rw [part, List.getElem?_take_of_lt hk, List.getElem?_drop, Array.getElem?_toList, load?]

/-- The values come to stand from the index on, in their order, and the elements before and behind stay. -/
theorem getElem?_overwrite {values : Array Value} (vs : List Value) (hj : j + vs.length ≤ values.size)
    (k : Nat) :
    (overwrite values j vs)[k]? = if j ≤ k ∧ k < j + vs.length then vs[k - j]? else values[k]? := by
  induction vs generalizing values j with
  | nil => simp [overwrite]
  | cons v rest ih =>
    rw [List.length_cons] at hj ⊢
    rw [overwrite, ih (by simp; omega), Array.getElem?_setIfInBounds]
    rcases lt_trichotomy k j with hk | rfl | hk
    · rw [if_neg (by omega), if_neg (by omega), if_neg (by omega)]
    · rw [if_neg (by omega), if_pos rfl, if_pos (by omega), if_pos (by omega), Nat.sub_self]
      rfl
    · rw [if_neg (c := j = k) (by omega), show k - j = k - (j + 1) + 1 by omega, List.getElem?_cons_succ]
      exact if_congr (by omega) rfl rfl

theorem load?_overlaid {vs : List Value} (hj : j + vs.length ≤ e.size) (k : Nat) :
    (e.overlaid j vs).load? k = if j ≤ k ∧ k < j + vs.length then vs[k - j]? else e.load? k :=
  getElem?_overwrite vs hj k

@[simp] theorem size_overlaid (e : Elements) (j : Nat) (vs : List Value) :
    (e.overlaid j vs).size = e.size :=
  overwrite_size ..

end Elements

namespace Heap

variable {κ : Type} {h : Heap κ} {r s : Ref} {o : Object κ} {e : Elements}

/-- The number of elements of an array; none for other objects. -/
def length? (h : Heap κ) (r : Ref) : Option Nat :=
  (h.object? r).bind fun o => o.contents.elements?.map (·.size)

/-- An element of an array. -/
def element? (h : Heap κ) (r : Ref) (i : Nat) : Option Value :=
  (h.object? r).bind fun o => o.contents.elements?.bind (·.load? i)

theorem length?_of_object? (ho : h.object? r = some o) (hc : o.contents = .array e) :
    h.length? r = some e.size := by
  rw [length?, ho, Option.bind_some, hc]
  rfl

theorem element?_of_object? (ho : h.object? r = some o) (hc : o.contents = .array e) (i : Nat) :
    h.element? r i = e.load? i := by
  rw [element?, ho, Option.bind_some, hc]
  rfl

theorem elements_of_object? (ho : h.object? r = some o) (hc : o.contents = .array e) :
    h.elements r = .ok e := by
  simp only [elements, object, ho, hc, bind, Except.bind, Contents.elements?]
  rfl

theorem Has.classOf {k : κ} (hr : h.Has r k) : h.classOf r = .ok k := by
  obtain ⟨o, ho, rfl⟩ := hr
  rw [Heap.classOf, object, ho]
  rfl

theorem object?_setElements (h : Heap κ) (r s : Ref) (e : Elements) : (h.setElements r e).object? s =
    if s = r then (h.object? s).map fun o => { o with contents := .array e } else h.object? s :=
  object?_modifyObject ..

theorem object?_putElement_of_ne (hne : s ≠ r) (h : Heap κ) (i : Nat) (v : Value) :
    (h.putElement r i v).object? s = h.object? s :=
  (object?_modifyObject ..).trans (if_neg hne)

theorem object?_putElement (ho : h.object? r = some o) (hc : o.contents = .array e) (i : Nat) (v : Value) :
    (h.putElement r i v).object? r = some { o with contents := .array (e.put i v) } := by
  refine (object?_modifyObject ..).trans ((if_pos rfl).trans ?_)
  rw [ho, Option.map_some, hc]
  rfl

/-- The last of two changes to the elements of an array decides. -/
theorem setElements_putElement (h : Heap κ) (r : Ref) (i : Nat) (v : Value) (e : Elements) :
    (h.putElement r i v).setElements r e = h.setElements r e := by
  have hslots : ∀ f g : Option (Object κ) → Option (Object κ),
      (h.slots.modify r.index f).modify r.index g = h.slots.modify r.index (g ∘ f) := by
    intro f g
    refine Array.ext (by simp) fun k hk hk' => ?_
    simp only [Array.getElem_modify]
    split_ifs <;> rfl
  unfold putElement setElements modifyContents modifyObject
  rw [hslots]
  congr 2
  funext slot
  cases slot <;> rfl

end Heap

namespace Execution

open Linking

namespace VM

variable {c : Context} {m : Machine} {r : Ref} {o : Object ClassId} {e : Elements}

theorem table_eq (c : Context) (m : Machine) : table c m = .ok m.registry.table m := rfl

theorem elements_eq (ho : m.heap.object? r = some o) (hc : o.contents = .array e) :
    elements r c m = .ok e m :=
  readObject_of_ok (Heap.elements_of_object? ho hc)

theorem getClass_eq {id : ClassId} {cl : LinkedClass} (h : m.registry.table.class? id = some cl) :
    getClass id c m = .ok cl m := by
  simp only [getClass, link, getClass_of_class? h]

theorem storeElement_eq (ho : m.heap.object? r = some o) (hc : o.contents = .array e) {i : Nat}
    {v kept : Value} (hkept : e.kept? i v = some kept) :
    storeElement r i v c m = .ok true (m.modifyHeap (·.putElement r i kept)) := by
  unfold storeElement
  rw [bind_of_ok (elements_eq ho hc), hkept]
  rfl

/-- A reference that names no object cannot be followed. -/
theorem classOf_of_not_isLive (h : ¬ m.heap.IsLive r) :
    ∃ fault m', classOf r c m = .error (.fault fault) m' := by
  have hread : m.heap.classOf r = .error (.internal ("dangling reference " ++ r.text)) := by
    rw [Heap.classOf, Heap.object, Heap.not_isLive_iff.1 h]
    rfl
  obtain ⟨missing, -, hnotes⟩ := readObject_of_error (c := c) (f := Heap.classOf) hread
  exact ⟨_, _, hnotes⟩

end VM

/-! ### A machine with arrays -/

/-- The classes of arrays of ints and of arrays of these. -/
def intArrays : ClassTable :=
  (ClassTable.empty.push { (default : LinkedClass) with name := "[I", kind := .array (.primitive .int) }
    (by decide)).push { (default : LinkedClass) with name := "[[I", kind := .array (.reference 0) } (by decide)

/-- A machine that has these classes, and may take some steps. -/
def arrayMachine : Machine :=
  { Machine.start .standard with registry := { Registry.empty with table := intArrays }, steps := 9 }

end Execution

end Jvm
