import Mathlib
import Jvm.Proofs.Heap.Collection
import Jvm.Proofs.Heap.Elements

/-! # What objects hold

A property of the contents of all objects (`Heap.Holds`) stays while the heap is collected and grows, and is
kept by a new object or a change with contents of the property. The one for which this is needed is that no
object holds the half of a wide value (`Contents.Proper`): what fields and arrays take is never one. -/

namespace Jvm

/-! ## Values of their own -/

/-- Whether a value is one of its own, not an unset local or the second half of a wide one. -/
def Value.Proper (v : Value) : Prop := v ≠ .top

namespace Value

variable {v : Value}

theorem Proper.of_isReference (h : v.isReference = true) : v.Proper := by
  rintro rfl
  cases h

theorem proper_int (i : Int32) : (Value.int i).Proper := Value.noConfusion

theorem proper_ofObject (o : Option Ref) : (ofObject o).Proper :=
  .of_isReference (isReference_ofObject o)

theorem proper_zero (a : ElementAccess) : a.zero.Proper := by
  cases a <;> nofun

theorem Proper.of_keep? {a : ElementAccess} {w : Value} (h : a.keep? v = some w) : w.Proper := by
  cases a <;> cases v <;> cases h <;> nofun

end Value

namespace Elements

/-- Whether an array holds values of their own. -/
def Proper (e : Elements) : Prop := ∀ v ∈ e.values, v.Proper

variable {e e' source : Elements} {i n : Nat} {v w : Value}

theorem proper_zeros (kind : ElementKind) (n : Nat) : (zeros kind n).Proper := by
  intro v hv
  obtain ⟨-, rfl⟩ := Array.mem_replicate.1 hv
  exact Value.proper_zero _

theorem proper_ofChars (units : List UInt16) : (ofChars units).Proper := by
  intro v hv
  obtain ⟨u, -, rfl⟩ : ∃ u ∈ units, Value.int u.toUInt32.toInt32 = v := by simpa [ofChars] using hv
  exact Value.proper_int _

theorem Proper.load? (he : e.Proper) (h : e.load? i = some v) : v.Proper :=
  he v (Array.mem_of_getElem? h)

theorem Proper.put (he : e.Proper) (i : Nat) (hv : v.Proper) : (e.put i v).Proper := by
  intro w hw
  rcases mem_put hw with hw | rfl
  exacts [he w hw, hv]

theorem Proper.slice? (he : e.Proper) (h : e.slice? i n = some e') : e'.Proper :=
  fun v hv => he v ((of_slice? h).2 v hv)

theorem Proper.writeSlice? (he : e.Proper) (hsource : source.Proper) (h : e.writeSlice? i source = some e') :
    e'.Proper :=
  fun v hv => ((of_writeSlice? h).2.2 v hv).elim (he v) (hsource v)

theorem proper_of_kept? (h : e.kept? i v = some w) : w.Proper := .of_keep? (keep?_of_kept? h)

end Elements

/-- Whether an object holds values of their own. -/
def Contents.Proper : Contents → Prop
  | .fields values => ∀ v ∈ values, v.Proper
  | .array e => e.Proper

namespace Contents

variable {c : Contents} {v : Value}

theorem Proper.putField (hc : c.Proper) (slot : Nat) (hv : v.Proper) : (c.putField slot v).Proper := by
  cases c with
  | fields values =>
    intro w hw
    rcases Array.mem_or_eq_of_mem_setIfInBounds hw with hw | rfl
    exacts [hc w hw, hv]
  | array e => exact hc

theorem Proper.putElement (hc : c.Proper) (i : Nat) (hv : v.Proper) : (c.putElement i v).Proper := by
  cases c with
  | fields values => exact hc
  | array e => exact Elements.Proper.put hc i hv

end Contents

namespace Heap

variable {κ : Type} {p : Contents → Prop} {h h' : Heap κ}

/-! ## Properties of all objects -/

/-- Whether the contents of all objects have a property. -/
def Holds (p : Contents → Prop) (h : Heap κ) : Prop := ∀ r o, h.object? r = some o → p o.contents

theorem holds_empty (config : Config) : (empty config : Heap κ).Holds p := by
  intro r o ho
  simp at ho

theorem Holds.congr (hh : h.Holds p) (hslots : h'.slots = h.slots) : h'.Holds p :=
  fun r o ho => hh r o (object?_congr hslots r ▸ ho)

theorem Holds.place (hh : h.Holds p) {request : Request κ} (hrequest : p request.contents) (block : Nat) :
    (h.place request block).2.Holds p := by
  intro r o ho
  rcases object?_place ho with ho | ⟨-, rfl⟩
  exacts [hh r o ho, hrequest]

theorem Holds.reserve (hh : h.Holds p) {size block : Nat} (hreserve : h.reserve size = some (block, h')) :
    h'.Holds p :=
  hh.congr (slots_reserve hreserve)

theorem Holds.tryAllocate (hh : h.Holds p) {request : Request κ} (hrequest : p request.contents) {r : Ref}
    (htry : h.tryAllocate request = some (r, h')) : h'.Holds p := by
  obtain ⟨block, h₁, hreserve, -, rfl⟩ := tryAllocate_eq_some htry
  exact (hh.reserve hreserve).place hrequest block

theorem Holds.growAndAllocate (hh : h.Holds p) {request : Request κ} (hrequest : p request.contents) :
    (h.growAndAllocate request).2.Holds p := by
  unfold Heap.growAndAllocate
  dsimp only
  split
  · exact hh
  · next h₁ hgrow =>
    have hh₁ : h₁.Holds p := by
      obtain ⟨-, rfl⟩ := eq_of_grow hgrow
      exact hh.congr rfl
    split
    · next r h₂ htry => exact hh₁.tryAllocate hrequest htry
    · exact hh₁

/-- A collection keeps objects as they are, or not at all. -/
theorem Holds.collect (hh : h.Holds p) (roots : List Ref) : (h.collect roots).2.Holds p := by
  intro r o ho
  rw [object?_collect] at ho
  obtain ⟨o₁, hfilter, rfl⟩ := Option.map_eq_some_iff.1 ho
  obtain ⟨ho₁, -⟩ := Option.filter_eq_some_iff.1 hfilter
  obtain ⟨o₂, ho₂, heq⟩ := (markedFrom_markFrom h 0 roots).marks.object_eq ho₁
  have hcontents : o₁.contents = o₂.contents := by rw [heq]
  exact hcontents ▸ hh r o₂ ho₂

theorem Holds.modifyContents (hh : h.Holds p) (r : Ref) {f : Contents → Contents}
    (hf : ∀ c, p c → p (f c)) : (h.modifyContents r f).Holds p := by
  intro s o ho
  rw [Heap.modifyContents, object?_modifyObject] at ho
  split at ho
  · obtain ⟨o', ho', rfl⟩ := Option.map_eq_some_iff.1 ho
    exact hf _ (hh s o' ho')
  · exact hh s o ho

theorem Holds.setMonitor (hh : h.Holds p) (r : Ref) (monitor : Monitor) : (h.setMonitor r monitor).Holds p := by
  intro s o ho
  rw [Heap.setMonitor, object?_modifyObject] at ho
  split at ho
  · obtain ⟨o', ho', rfl⟩ := Option.map_eq_some_iff.1 ho
    exact hh s o' ho'
  · exact hh s o ho

/-! ## Objects that hold values of their own -/

/-- Whether all objects hold values of their own. -/
abbrev Proper (h : Heap κ) : Prop := h.Holds Contents.Proper

namespace Proper

variable (hh : h.Proper) {r : Ref}

include hh

theorem getField {slot : Nat} {v : Value} (hv : h.getField r slot = .ok v) : v.Proper := by
  unfold Heap.getField Heap.object at hv
  cases ho : h.object? r with
  | none => rw [ho] at hv; cases hv
  | some o =>
    simp only [ho, bind, Except.bind] at hv
    split at hv
    · next w hw =>
      cases hv
      have hcontents := hh r o ho
      cases hc : o.contents with
      | fields values =>
        rw [hc] at hw hcontents
        exact hcontents _ (Array.mem_of_getElem? hw)
      | array e => rw [hc] at hw; cases hw
    · cases hv

theorem elements {e : Elements} (he : h.elements r = .ok e) : e.Proper := by
  unfold Heap.elements Heap.object at he
  cases ho : h.object? r with
  | none => rw [ho] at he; cases he
  | some o =>
    simp only [ho, bind, Except.bind] at he
    have hcontents := hh r o ho
    cases hc : o.contents with
    | fields values => rw [hc] at he; cases he
    | array e' =>
      rw [hc] at he hcontents
      cases he
      exact hcontents

theorem copied {target : Ref} {sourceAt targetAt n : Nat} {e : Elements}
    (he : h.copied r sourceAt target targetAt n = .ok (some e)) : e.Proper := by
  unfold Heap.copied at he
  cases hsource : h.elements r with
  | error _ => rw [hsource] at he; cases he
  | ok source =>
    simp only [hsource, bind, Except.bind] at he
    split at he
    · cases he
    · next slice hslice =>
      cases htarget : h.elements target with
      | error _ => rw [htarget] at he; cases he
      | ok old =>
        simp only [htarget, pure, Except.pure, Except.ok.injEq] at he
        exact (hh.elements htarget).writeSlice? ((hh.elements hsource).slice? hslice) he

end Proper

end Heap

end Jvm
