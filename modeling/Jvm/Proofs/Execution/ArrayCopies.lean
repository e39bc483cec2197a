import Mathlib
import Jvm.Proofs.Execution.ArrayStorage
import Jvm.Proofs.Execution.Reached

/-! # Copies between arrays

A copy puts elements of an array over those of an array, which may be the same one: `Ends` says for each pair
of objects how that ends, and `ends_copy` that it does. The elements of a copy in one piece are read before
any is written; those of a copy with checks go over one by one (`checked_copyChecked`, by induction on how many
are left), between two arrays that are never the same. `copies_exactly` puts together what a program sees of
it. -/

namespace Jvm.Execution

open Linking

/-! ### What is copied -/

namespace Machine

variable (m : Machine)

/-- The component type of an array; none for other objects. -/
def componentOf? (r : Ref) : Option Component :=
  (m.heap.object? r).bind fun o => m.registry.table.componentOf? o.cls

/-- Whether elements of an array may be put into an array, as far as their types tell: the component types
are the same, or objects both. -/
def Copyable (s t : Ref) : Prop :=
  ∃ a b, m.componentOf? s = some a ∧ m.componentOf? t = some b ∧
    (a = b ∨ (∃ x, a = .reference x) ∧ ∃ y, b = .reference y)

/-- Whether a copy of `n` elements reads or writes outside its arrays. -/
def Outside (s : Ref) (i : Int) (t : Ref) (j n : Int) : Prop :=
  n < 0 ∨ i < 0 ∨ j < 0 ∨ (∃ l : Nat, m.heap.length? s = some l ∧ l < i + n) ∨
    ∃ l : Nat, m.heap.length? t = some l ∧ l < j + n

/-- Whether an element of an array is an object that does not fit the component class of an array. -/
def Misfit (s : Ref) (k : Nat) (t : Ref) : Prop :=
  ∃ r cls component, m.heap.element? s k = some (.ref r) ∧ m.heap.Has r cls ∧
    m.componentOf? t = some (.reference component) ∧
    m.registry.table.isAssignable cls component = false

/-- Whether a machine becomes another by a copy of `n` elements, and by that only: they are those that the
source had before. -/
structure Copied (m' : Machine) (s : Ref) (i : Nat) (t : Ref) (j n : Nat) : Prop where
  copied : ∀ k < n, ∃ v, m.heap.element? s (i + k) = some v ∧ m'.heap.element? t (j + k) = some v
  others : ∀ k, k < j ∨ j + n ≤ k → m'.heap.element? t k = m.heap.element? t k
  target : ∃ o e e', m.heap.object? t = some o ∧ o.contents = .array e ∧
    m'.heap.object? t = some { o with contents := .array e' } ∧ e'.kind = e.kind ∧ e'.size = e.size
  objects : ∀ r, r ≠ t → m'.heap.object? r = m.heap.object? r
  rest : m' = { m with heap := { m.heap with slots := m'.heap.slots } }

/-- The machine with values put over elements of an array. -/
def overlaid (t : Ref) (f : Elements) (j : Nat) (vs : List Value) : Machine :=
  m.modifyHeap (·.setElements t (f.overlaid j vs))

variable {m} {s t : Ref} {o p : Object ClassId} {e f : Elements}

theorem Copyable.isLive (h : m.Copyable s t) : m.heap.IsLive s ∧ m.heap.IsLive t := by
  obtain ⟨a, b, ha, hb, -⟩ := h
  obtain ⟨o, ho, -⟩ := Option.bind_eq_some_iff.1 ha
  obtain ⟨p, hp, -⟩ := Option.bind_eq_some_iff.1 hb
  exact ⟨⟨o, ho⟩, p, hp⟩

theorem copied_overlaid (ho : m.heap.object? s = some o) (he : o.contents = .array e)
    (hp : m.heap.object? t = some p) (hf : p.contents = .array f) {i j n : Nat} (hi : i + n ≤ e.size)
    (hj : j + n ≤ f.size) : m.Copied (m.overlaid t f j (e.part i n)) s i t j n := by
  obtain ⟨hcopied, hothers, htarget, hobjects, -⟩ := Heap.transfer_overlaid ho he hp hf hi hj
  exact ⟨hcopied, hothers, htarget, hobjects, rfl⟩

end Machine

/-! ### Element by element -/

namespace Machine

variable {m : Machine} {s t : Ref} {p : Object ClassId} {f : Elements}

theorem overlaid_nil (hp : m.heap.object? t = some p) (hf : p.contents = .array f) (j : Nat) :
    m.overlaid t f j [] = m := by
  have hslot := Heap.object?_eq_some.1 hp
  obtain ⟨hlt, hget⟩ := Array.getElem?_eq_some_iff.1 hslot
  have hslots : (m.heap.setElements t f).slots = m.heap.slots := by
    rw [Heap.setElements, Heap.modifyContents, Heap.modifyObject, Heap.modify_eq_set _ hslot, Option.map_some,
      ← hf, ← hget, Array.setIfInBounds_def, dif_pos hlt, Array.set_getElem_self]
  change { m with heap := { m.heap with slots := (m.heap.setElements t f).slots } } = m
  rw [hslots]

/-- A store, and then more of them behind it. -/
theorem overlaid_putElement (t : Ref) (f : Elements) (j : Nat) (v : Value) (vs : List Value) :
    (m.modifyHeap (·.putElement t j v)).overlaid t (f.put j v) (j + 1) vs = m.overlaid t f j (v :: vs) := by
  rw [overlaid, modifyHeap, modifyHeap, Heap.setElements_putElement]
  rfl

theorem componentOf?_putElement (t : Ref) (j : Nat) (v : Value) (r : Ref) :
    (m.modifyHeap (·.putElement t j v)).componentOf? r = m.componentOf? r := by
  simp only [componentOf?, modifyHeap, Heap.putElement, Heap.modifyContents, Heap.object?_modifyObject]
  split_ifs
  · cases m.heap.object? r <;> rfl
  · rfl

/-- Stores to another array do not change which elements fit. -/
theorem misfit_putElement (hne : s ≠ t) (j : Nat) (v : Value) (k : Nat) :
    (m.modifyHeap (·.putElement t j v)).Misfit s k t ↔ m.Misfit s k t := by
  have helement : (m.modifyHeap (·.putElement t j v)).heap.element? s k = m.heap.element? s k := by
    rw [modifyHeap, Heap.element?, Heap.object?_putElement_of_ne hne]
    rfl
  have hhas : ∀ r cls, (m.modifyHeap (·.putElement t j v)).heap.Has r cls ↔ m.heap.Has r cls :=
    fun r cls => Heap.has_modifyContents
  simp only [Misfit, componentOf?_putElement, helement, hhas]
  rfl

end Machine

namespace ArrayCopy

variable {c : Context} {m : Machine} {s t : Ref} {o p : Object ClassId} {e f : Elements} {i j n : Nat}
  {v : Value} {result : EStateM.Result Abrupt Machine Unit}

/-- How the checks of a copy end: all elements fit and are copied, or the first one that does not fit stops
the copy. -/
inductive Checked (m : Machine) (s : Ref) (e : Elements) (i : Nat) (t : Ref) (f : Elements) (j n : Nat) :
    EStateM.Result Abrupt Machine Unit → Prop
  | copied (hfits : ∀ k < n, ¬ m.Misfit s (i + k) t) :
      Checked m s e i t f j n (.ok () (m.overlaid t f j (e.part i n)))
  | stopped {k : Nat} (hk : k < n) (hmisfit : m.Misfit s (i + k) t)
      (hleast : ∀ l < k, ¬ m.Misfit s (i + l) t) (message : String) :
      Checked m s e i t f j n (.error (Abrupt.raise .arrayStore message) (m.overlaid t f j (e.part i k)))

namespace Checked

theorem zero (hp : m.heap.object? t = some p) (hf : p.contents = .array f) :
    Checked m s e i t f j 0 (.ok () m) := by
  have hdone : Checked m s e i t f j 0 (.ok () (m.overlaid t f j (e.part i 0))) :=
    .copied fun k hk => absurd hk (Nat.not_lt_zero k)
  rwa [show e.part i 0 = [] from rfl, Machine.overlaid_nil hp hf] at hdone

theorem stop (hp : m.heap.object? t = some p) (hf : p.contents = .array f) (hmisfit : m.Misfit s i t)
    (message : String) : Checked m s e i t f j (n + 1) (.error (Abrupt.raise .arrayStore message) m) := by
  have hstopped : Checked m s e i t f j (n + 1)
      (.error (Abrupt.raise .arrayStore message) (m.overlaid t f j (e.part i 0))) :=
    .stopped (Nat.succ_pos n) hmisfit (fun l hl => absurd hl (Nat.not_lt_zero l)) message
  rwa [show e.part i 0 = [] from rfl, Machine.overlaid_nil hp hf] at hstopped

/-- An element that fits is copied, and then the others are. -/
theorem store (hne : s ≠ t) (hv : e.load? i = some v) (hfit : ¬ m.Misfit s i t)
    (h : Checked (m.modifyHeap (·.putElement t j v)) s e (i + 1) t (f.put j v) (j + 1) n result) :
    Checked m s e i t f j (n + 1) result := by
  -- The elements from `i` on are the one at `i` and those from `i + 1` on.
  have hfits : ∀ k, (∀ l < k, ¬ (m.modifyHeap (·.putElement t j v)).Misfit s (i + 1 + l) t) →
      ∀ l < k + 1, ¬ m.Misfit s (i + l) t := by
    intro k hk l hl
    cases l with
    | zero => exact hfit
    | succ l =>
      have hl := hk l (Nat.lt_of_succ_lt_succ hl)
      rwa [Machine.misfit_putElement hne, Nat.add_right_comm] at hl
  cases h with
  | copied hrest =>
    rw [Machine.overlaid_putElement, ← Elements.part_succ hv]
    exact .copied (hfits n hrest)
  | stopped hk hmisfit hleast message =>
    rw [Machine.overlaid_putElement, ← Elements.part_succ hv]
    rw [Machine.misfit_putElement hne, Nat.add_right_comm] at hmisfit
    exact .stopped (Nat.succ_lt_succ hk) hmisfit (hfits _ hleast) message

end Checked

/-- A copy with checks goes from element to element, the induction being on how many are left. The array
that is read is not the one that is written. -/
theorem checked_copyChecked {element : ClassId} (names : String × String) (hne : s ≠ t)
    (ho : m.heap.object? s = some o) (he : o.contents = .array e)
    (hp : m.heap.object? t = some p) (hf : p.contents = .array f) (hkind : f.kind = .reference)
    (helement : m.componentOf? t = some (.reference element))
    (hvalues : ∀ v ∈ e.values, v = .null ∨ ∃ r cls, v = .ref r ∧ m.heap.Has r cls)
    (hi : i + n ≤ e.size) (hj : j + n ≤ f.size) :
    Checked m s e i t f j n (copyChecked s t element names i j n c m) := by
  induction n generalizing m p f i j with
  | zero => exact .zero hp hf
  | succ n ih =>
    have hlt : i < e.values.size := lt_of_lt_of_le (by omega) hi
    obtain ⟨v, hv⟩ : ∃ v, e.load? i = some v := ⟨_, Array.getElem?_eq_getElem hlt⟩
    have hread : m.heap.element? s i = some v := (Heap.element?_of_object? ho he i).trans hv
    have hnext (hfit : ¬ m.Misfit s i t) (hkeep : f.access.keep? v = some v) :
        Checked m s e i t f j (n + 1) ((do
          let _ ← VM.storeElement t j v
          copyChecked s t element names (i + 1) (j + 1) n) c m) := by
      rw [VM.bind_of_ok (VM.storeElement_eq hp hf ((if_pos (by omega)).trans hkeep))]
      refine .store hne hv hfit (ih (p := { p with contents := .array (f.put j v) }) ?_ ?_ rfl hkind ?_ ?_ ?_ ?_)
      · exact (Heap.object?_putElement_of_ne hne ..).trans ho
      · exact Heap.object?_putElement hp hf j v
      · rw [Machine.componentOf?_putElement, helement]
      · intro w hw
        obtain rfl | ⟨r, cls, rfl, hr⟩ := hvalues w hw
        · exact .inl rfl
        · exact .inr ⟨r, cls, rfl, Heap.has_modifyContents.2 hr⟩
      · omega
      · rw [Elements.size_put]
        omega
    have haccess : f.access = .reference := by
      rw [Elements.access, hkind]
      rfl
    rw [copyChecked, VM.bind_of_ok (VM.elements_eq ho he), hv]
    obtain rfl | ⟨r, cls, rfl, hr⟩ := hvalues v (Array.mem_of_getElem? hv)
    · refine hnext ?_ (by rw [haccess]; rfl)
      rintro ⟨r, cls, component, hnull, -⟩
      cases hread.symm.trans hnull
    · dsimp only
      rw [VM.bind_of_ok (VM.table_eq c m), VM.bind_of_ok (VM.classOf_eq hr.classOf)]
      cases hassign : m.registry.table.isAssignable cls element with
      | false => exact .stop hp hf ⟨r, cls, element, hread, hr, helement, hassign⟩ _
      | true =>
        refine hnext ?_ (by rw [haccess]; rfl)
        rintro ⟨r', cls', component, hr', hcls', hcomponent, hfalse⟩
        cases hread.symm.trans hr'
        cases hr.unique hcls'
        cases helement.symm.trans hcomponent
        cases hassign.symm.trans hfalse

/-! ### In one piece -/

theorem copyWhole_eq (names : String × String) (ho : m.heap.object? s = some o) (he : o.contents = .array e)
    (hp : m.heap.object? t = some p) (hf : p.contents = .array f) (hkind : e.kind = f.kind)
    (hi : i + n ≤ e.size) (hj : j + n ≤ f.size) :
    copyWhole s t names i j n c m = .ok () (m.overlaid t f j (e.part i n)) := by
  have haccess : e.access = f.access := by rw [Elements.access, hkind, Elements.access]
  have hcopied : m.heap.copied s i t j n = .ok (some (f.overlaid j (e.part i n))) := by
    rw [Heap.copied_eq (Heap.elements_of_object? ho he) (Heap.elements_of_object? hp hf),
      if_pos ⟨hi, haccess, hj⟩]
  have hread : VM.readHeap (·.copied s i t j n) c m = .ok (some (f.overlaid j (e.part i n))) m := by
    rw [VM.readHeap, VM.bind_of_ok (VM.getMachine c m), hcopied]
    rfl
  rw [copyWhole, VM.bind_of_ok hread]
  rfl

/-! ### The checks before anything is copied -/

theorem rangesFault?_eq_none {i j n : Int} {l l' : Nat} :
    rangesFault? i j n l l' = none ↔ ¬ (n < 0 ∨ i < 0 ∨ j < 0 ∨ l < i + n ∨ l' < j + n) := by
  unfold rangesFault? rangeFault?
  split_ifs <;> simp <;> omega

section

variable {table : ClassTable} {source target element : ClassId} {sourceClass targetClass : LinkedClass}

/-- The types of two arrays are fine if the component types are the same or objects both. -/
theorem exists_route_iff : (∃ way, route table source target sourceClass targetClass = .ok way) ↔
    ∃ a b, sourceClass.component? = some a ∧ targetClass.component? = some b ∧
      (a = b ∨ (∃ x, a = .reference x) ∧ ∃ y, b = .reference y) := by
  unfold route
  split
  · next hnone => simp [hnone]
  · next hnone _ => simp [hnone]
  · next a b ha hb => simp [ha, hb]
  · next a b hother ha hb =>
    have hprimitive : ¬ ((∃ x, a = .reference x) ∧ ∃ y, b = .reference y) := by
      rintro ⟨⟨x, rfl⟩, y, rfl⟩
      exact hother x y rfl rfl
    split_ifs with hab <;> simp [ha, hb, hab, hprimitive]

/-- Elements are checked where arrays of the source's class do not fit the target's. -/
theorem isAssignable_of_checked
    (h : route table source target sourceClass targetClass = .ok (.checked element)) :
    table.isAssignable source target = false := by
  unfold route at h
  split at h
  · cases h
  · cases h
  · split at h
    · cases h
    · next hassign => exact Bool.eq_false_iff.2 hassign
  · split at h <;> cases h

end

/-! ### How a copy ends -/

/-- How a copy between two objects ends. -/
inductive Ends (m : Machine) (s : Ref) (i : Int) (t : Ref) (j n : Int) :
    EStateM.Result Abrupt Machine Unit → Prop
  | missing (hmissing : ¬ (m.heap.IsLive s ∧ m.heap.IsLive t)) (e : Fault) (m' : Machine) :
      Ends m s i t j n (.error (.fault e) m')
  | types (htypes : ¬ m.Copyable s t) (message : String) :
      Ends m s i t j n (.error (Abrupt.raise .arrayStore message) m)
  | outside (htypes : m.Copyable s t) (hranges : m.Outside s i t j n) (message : String) :
      Ends m s i t j n (.error (Abrupt.raise .arrayIndexOutOfBounds message) m)
  | copied {m' : Machine} (htypes : m.Copyable s t) (hranges : ¬ m.Outside s i t j n)
      (hfits : ∀ k < n.toNat, ¬ m.Misfit s (i.toNat + k) t)
      (hcopied : m.Copied m' s i.toNat t j.toNat n.toNat) : Ends m s i t j n (.ok () m')
  | stopped {m' : Machine} (htypes : m.Copyable s t) (hranges : ¬ m.Outside s i t j n) {k : Nat}
      (hk : k < n.toNat) (hmisfit : m.Misfit s (i.toNat + k) t)
      (hleast : ∀ l < k, ¬ m.Misfit s (i.toNat + l) t)
      (hcopied : m.Copied m' s i.toNat t j.toNat k) (message : String) :
      Ends m s i t j n (.error (Abrupt.raise .arrayStore message) m')

/-- The arrays between which elements may be copied hold elements of one kind. -/
theorem kind_of_copyable (hfit : m.ArraysFit) (ho : m.heap.object? s = some o)
    (hp : m.heap.object? t = some p) (htypes : m.Copyable s t) :
    ∃ e f, o.contents = .array e ∧ p.contents = .array f ∧ e.kind = f.kind := by
  obtain ⟨a, b, ha, hb, hab⟩ := htypes
  rw [Machine.componentOf?, ho, Option.bind_some] at ha
  rw [Machine.componentOf?, hp, Option.bind_some] at hb
  obtain ⟨e, he, hekind⟩ := hfit.kind s o a ho ha
  obtain ⟨f, hf, hfkind⟩ := hfit.kind t p b hp hb
  refine ⟨e, f, he, hf, ?_⟩
  rw [hekind, hfkind]
  obtain rfl | ⟨⟨x, rfl⟩, y, rfl⟩ := hab
  exacts [rfl, rfl]

theorem outside_iff (ho : m.heap.object? s = some o) (he : o.contents = .array e)
    (hp : m.heap.object? t = some p) (hf : p.contents = .array f) {i j n : Int} :
    m.Outside s i t j n ↔ n < 0 ∨ i < 0 ∨ j < 0 ∨ e.size < i + n ∨ f.size < j + n := by
  simp [Machine.Outside, Heap.length?_of_object? ho he, Heap.length?_of_object? hp hf]

/-- Ranges that do not leave their arrays lie in them. -/
theorem inside_of_not_outside (ho : m.heap.object? s = some o) (he : o.contents = .array e)
    (hp : m.heap.object? t = some p) (hf : p.contents = .array f) {i j n : Int}
    (hranges : ¬ m.Outside s i t j n) : i.toNat + n.toNat ≤ e.size ∧ j.toNat + n.toNat ≤ f.size := by
  rw [outside_iff ho he hp hf] at hranges
  omega

/-- What is copied into an array of objects are nulls and objects. -/
theorem values_of_copyable (hfit : m.ArraysFit) (ho : m.heap.object? s = some o) (he : o.contents = .array e)
    {element : ClassId} (helement : m.componentOf? t = some (.reference element)) (htypes : m.Copyable s t) :
    ∀ v ∈ e.values, v = .null ∨ ∃ r cls, v = .ref r ∧ m.heap.Has r cls := by
  obtain ⟨a, b, ha, hb, hab⟩ := htypes
  cases hb.symm.trans helement
  obtain ⟨x, rfl⟩ : ∃ x, a = .reference x := by
    obtain rfl | ⟨hx, -⟩ := hab
    exacts [⟨element, rfl⟩, hx]
  rw [Machine.componentOf?, ho, Option.bind_some] at ha
  intro v hv
  obtain rfl | ⟨r, cls, rfl, hr, -⟩ := hfit.references s o e x ho he ha v hv
  exacts [.inl rfl, .inr ⟨r, cls, rfl, hr⟩]

section

variable (hfit : m.ArraysFit) (ho : m.heap.object? s = some o) (he : o.contents = .array e)
  (hp : m.heap.object? t = some p) (hf : p.contents = .array f) {sourceClass targetClass : LinkedClass}
  (hsource : m.registry.table.class? o.cls = some sourceClass)
  (htarget : m.registry.table.class? p.cls = some targetClass)
include hfit ho he hp hsource htarget

/-- Where the elements may go over in one piece, all of them fit: what fits the source's component class
fits the target's. -/
theorem not_misfit_of_whole (ht : m.registry.table.Regular)
    (hroute : route m.registry.table o.cls p.cls sourceClass targetClass = .ok .whole) (k : Nat) :
    ¬ m.Misfit s k t := by
  rintro ⟨r, cls, component, hr, hcls, hcomponent, hfalse⟩
  rw [Heap.element?_of_object? ho he] at hr
  rw [Machine.componentOf?, hp, Option.bind_some] at hcomponent
  have hassign : m.registry.table.isAssignable cls component = true := by
    have hfits : ∀ x, m.registry.table.componentOf? o.cls = some (.reference x) →
        m.registry.table.isAssignable cls x = true := by
      intro x hx
      obtain hnull | ⟨r', cls', hr', hcls', hx'⟩ :=
        hfit.references s o e x ho he hx _ (Array.mem_of_getElem? hr)
      · cases hnull
      · cases hr'
        cases hcls.unique hcls'
        exact hx'
    obtain heq | ⟨a, b, ha, hb, himp⟩ := componentOf?_of_route ht hsource htarget hroute
    · exact hfits component (heq.trans hcomponent)
    · cases hb.symm.trans hcomponent
      exact himp cls (hfits a ha)
  cases hassign.symm.trans hfalse

include hf in
theorem ends_copyWhole (names : String × String) (ht : m.registry.table.Regular)
    (hroute : route m.registry.table o.cls p.cls sourceClass targetClass = .ok .whole)
    (htypes : m.Copyable s t) (hkind : e.kind = f.kind) {i j n : Int} (hranges : ¬ m.Outside s i t j n) :
    Ends m s i t j n (copyWhole s t names i.toNat j.toNat n.toNat c m) := by
  obtain ⟨hi, hj⟩ := inside_of_not_outside ho he hp hf hranges
  rw [copyWhole_eq names ho he hp hf hkind hi hj]
  exact .copied htypes hranges (fun k _ => not_misfit_of_whole hfit ho he hp hsource htarget ht hroute _)
    (Machine.copied_overlaid ho he hp hf hi hj)

include hf in
omit hsource in
theorem ends_copyChecked (names : String × String) {element : ClassId}
    (hroute : route m.registry.table o.cls p.cls sourceClass targetClass = .ok (.checked element))
    (htypes : m.Copyable s t) {i j n : Int} (hranges : ¬ m.Outside s i t j n) :
    Ends m s i t j n (copyChecked s t element names i.toNat j.toNat n.toNat c m) := by
  obtain ⟨hi, hj⟩ := inside_of_not_outside ho he hp hf hranges
  have hcomponent := componentOf?_of_checked htarget hroute
  have helement : m.componentOf? t = some (.reference element) := by
    rw [Machine.componentOf?, hp, Option.bind_some, hcomponent]
  have hfkind : f.kind = .reference := by
    obtain ⟨f', hf', hkind'⟩ := hfit.kind t p _ hp hcomponent
    cases hf.symm.trans hf'
    exact hkind'
  -- An array fits its own class.
  have hne : s ≠ t := by
    rintro rfl
    cases ho.symm.trans hp
    have hself : m.registry.table.isAssignable o.cls o.cls = true := ClassTable.isAssignable_iff.2 (.refl _)
    cases hself.symm.trans (isAssignable_of_checked hroute)
  have hvalues := values_of_copyable hfit ho he helement htypes
  have hchecked := checked_copyChecked (c := c) names hne ho he hp hf hfkind helement hvalues hi hj
  generalize copyChecked s t element names i.toNat j.toNat n.toNat c m = result at hchecked ⊢
  cases hchecked with
  | copied hfits => exact .copied htypes hranges hfits (Machine.copied_overlaid ho he hp hf hi hj)
  | stopped hk hmisfit hleast message =>
    exact .stopped htypes hranges hk hmisfit hleast
      (Machine.copied_overlaid ho he hp hf (by omega) (by omega)) message

end

/-- A copy between two objects ends in one of these ways. -/
theorem ends_copy (hfit : m.ArraysFit) (ht : m.registry.table.Regular) (s t : Ref) (i j n : Int) :
    Ends m s i t j n (copy s t i j n c m) := by
  by_cases hs : m.heap.IsLive s
  swap
  · obtain ⟨fault, m', hfault⟩ := VM.classOf_of_not_isLive (c := c) hs
    rw [copy, VM.bind_of_error hfault]
    exact .missing (fun h => hs h.1) fault m'
  obtain ⟨o, ho⟩ := hs
  rw [copy, VM.bind_of_ok (VM.classOf_eq (Heap.Has.classOf ⟨o, ho, rfl⟩))]
  by_cases htlive : m.heap.IsLive t
  swap
  · obtain ⟨fault, m', hfault⟩ := VM.classOf_of_not_isLive (c := c) htlive
    rw [VM.bind_of_error hfault]
    exact .missing (fun h => htlive h.2) fault m'
  obtain ⟨p, hp⟩ := htlive
  obtain ⟨sourceClass, hsource⟩ := hfit.known s o ho
  obtain ⟨targetClass, htarget⟩ := hfit.known t p hp
  rw [VM.bind_of_ok (VM.classOf_eq (Heap.Has.classOf ⟨p, hp, rfl⟩)), VM.bind_of_ok (VM.getClass_eq hsource),
    VM.bind_of_ok (VM.getClass_eq htarget), VM.bind_of_ok (VM.table_eq c m)]
  have htypes : (∃ way, route m.registry.table o.cls p.cls sourceClass targetClass = .ok way) ↔
      m.Copyable s t := by
    rw [exists_route_iff, Machine.Copyable, Machine.componentOf?, Machine.componentOf?, ho, hp,
      Option.bind_some, Option.bind_some, ClassTable.componentOf?_of_class? hsource,
      ClassTable.componentOf?_of_class? htarget]
  cases hroute : route m.registry.table o.cls p.cls sourceClass targetClass with
  | error message =>
    refine .types (fun hcopyable => ?_) message
    obtain ⟨way, hway⟩ := htypes.2 hcopyable
    cases hroute.symm.trans hway
  | ok way =>
    have hcopyable : m.Copyable s t := htypes.1 ⟨way, hroute⟩
    obtain ⟨e, f, he, hf, hkind⟩ := kind_of_copyable hfit ho hp hcopyable
    dsimp only
    rw [VM.bind_of_ok (VM.elements_eq ho he), VM.bind_of_ok (VM.elements_eq hp hf)]
    cases hranges : rangesFault? i j n e.size f.size with
    | some message =>
      refine .outside hcopyable ?_ message
      rw [outside_iff ho he hp hf]
      by_contra hnot
      rw [rangesFault?_eq_none.2 hnot] at hranges
      cases hranges
    | none =>
      have hinside : ¬ m.Outside s i t j n := by
        rw [outside_iff ho he hp hf]
        exact rangesFault?_eq_none.1 hranges
      cases way with
      | whole => exact ends_copyWhole hfit ho he hp hf hsource htarget _ ht hroute hcopyable hkind hinside
      | checked element =>
        exact ends_copyChecked hfit ho he hp hf htarget _ hroute hcopyable hinside

/-- Within one array, the elements are those from before the copy. -/
example : (match (do
      let a ← VM.allocate (.object 0 (.array ⟨.primitive .int, #[.int 1, .int 2, .int 3, .int 4]⟩))
      let _ ← arraycopy [.ref a, .int 0, .ref a, .int 1, .int 3]
      VM.elements a : VM Elements) (.ofTasks coreEnvironment (perform coreEnvironment 0)) arrayMachine with
    | .ok e _ => e.values
    | .error _ _ => #[]) = #[.int 1, .int 1, .int 2, .int 3] := by
  decide +kernel

/-! ### What programs see -/

/-- A call with two objects ends as the copy between them does, and returns nothing. -/
theorem ends_arraycopy (hfit : m.ArraysFit) (ht : m.registry.table.Regular) (c : Context) (s t : Ref)
    (i j n : Int32) : ∃ ending, Ends m s i.toInt t j.toInt n.toInt ending ∧
      arraycopy [.ref s, .int i, .ref t, .int j, .int n] c m = match ending with
        | .ok _ m' => .ok none m'
        | .error e m' => .error e m' := by
  refine ⟨_, ends_copy (c := c) hfit ht s t i.toInt j.toInt n.toInt, ?_⟩
  cases hcopy : copy s t i.toInt j.toInt n.toInt c m with
  | ok u m' => exact VM.bind_of_ok hcopy
  | error e m' => exact VM.bind_of_error hcopy

/-- Two values are objects, or one of them is none. -/
theorem objects_or_none (source target : Value) :
    (∃ s t, source = .ref s ∧ target = .ref t) ∨ source.object? = none ∨ target.object? = none := by
  cases source <;> cases target <;> simp [Value.object?]

theorem arraycopy_of_object?_eq_none (c : Context) (m : Machine) {source target : Value}
    (hnull : source.object? = none ∨ target.object? = none) (i j n : Int32) :
    arraycopy [source, .int i, target, .int j, .int n] c m = .error Abrupt.nullPointer m := by
  cases hs : source.object? with
  | none =>
    simp only [arraycopy, hs]
    rfl
  | some s =>
    have ht : target.object? = none := hnull.resolve_left (by simp [hs])
    simp only [arraycopy, hs, ht]
    rfl

end ArrayCopy

open ArrayCopy in
/-- What programs see of the copies between the arrays of a machine, whatever the arguments are. -/
structure Machine.CopiesExactly (m : Machine) : Prop where
  -- After a copy that completes, the target has the elements that the source had, and all else is what it
  -- was.
  completed : ∀ c source target i j n result m',
    arraycopy [source, .int i, target, .int j, .int n] c m = .ok result m' →
      ∃ s t, source = .ref s ∧ target = .ref t ∧ ¬ m.Outside s i.toInt t j.toInt n.toInt ∧
        m.Copied m' s i.toInt.toNat t j.toInt.toNat n.toInt.toNat
  unchanged : ∀ c source target i j n check message m',
    arraycopy [source, .int i, target, .int j, .int n] c m = .error (.raised check message) m' →
      (check = .arrayStore → ∀ s t, source = .ref s → target = .ref t → ¬ m.Copyable s t) → m' = m
  element : ∀ c s t i j n message m', m.Copyable s t →
    arraycopy [.ref s, .int i, .ref t, .int j, .int n] c m = .error (.raised .arrayStore message) m' →
      ∃ k < n.toInt.toNat, m.Misfit s (i.toInt.toNat + k) t ∧
        (∀ l < k, ¬ m.Misfit s (i.toInt.toNat + l) t) ∧
        m.Copied m' s i.toInt.toNat t j.toInt.toNat k
  index : ∀ c s t i j n, m.Copyable s t →
    ((∃ message m', arraycopy [.ref s, .int i, .ref t, .int j, .int n] c m =
        .error (.raised .arrayIndexOutOfBounds message) m') ↔ m.Outside s i.toInt t j.toInt n.toInt)
  completes : ∀ c s t i j n, m.Copyable s t → ¬ m.Outside s i.toInt t j.toInt n.toInt →
    (∀ k < n.toInt.toNat, ¬ m.Misfit s (i.toInt.toNat + k) t) →
      ∃ m', arraycopy [.ref s, .int i, .ref t, .int j, .int n] c m = .ok none m'
  types : ∀ c s t i j n, m.heap.IsLive s → m.heap.IsLive t → ¬ m.Copyable s t →
    ∃ message, arraycopy [.ref s, .int i, .ref t, .int j, .int n] c m =
      .error (.raised .arrayStore message) m
  null : ∀ c source target i j n, source.object? = none ∨ target.object? = none →
    arraycopy [source, .int i, target, .int j, .int n] c m = .error Abrupt.nullPointer m

/-- **Copies between arrays** do what they say and nothing else, in every machine whose arrays hold what
their classes say. -/
theorem copies_exactly {m : Machine} (hfit : m.ArraysFit) (ht : m.registry.table.Regular) :
    m.CopiesExactly where
  completed c source target i j n result m' h := by
    obtain ⟨s, t, rfl, rfl⟩ | hnull := ArrayCopy.objects_or_none source target
    · obtain ⟨ending, hends, heq⟩ := ArrayCopy.ends_arraycopy hfit ht c s t i j n
      rw [heq] at h
      cases hends with
      | copied _ hranges _ hcopied =>
        cases h
        exact ⟨s, t, rfl, rfl, hranges, hcopied⟩
      | _ => cases h
    · rw [ArrayCopy.arraycopy_of_object?_eq_none c m hnull] at h
      cases h
  unchanged c source target i j n check message m' h hcheck := by
    obtain ⟨s, t, rfl, rfl⟩ | hnull := ArrayCopy.objects_or_none source target
    · obtain ⟨ending, hends, heq⟩ := ArrayCopy.ends_arraycopy hfit ht c s t i j n
      rw [heq] at h
      cases hends with
      | missing => cases h
      | types => cases h; rfl
      | outside => cases h; rfl
      | copied => cases h
      | stopped htypes =>
        cases h
        exact absurd htypes (hcheck rfl s t rfl rfl)
    · rw [ArrayCopy.arraycopy_of_object?_eq_none c m hnull] at h
      cases h
      rfl
  element c s t i j n message m' htypes h := by
    obtain ⟨ending, hends, heq⟩ := ArrayCopy.ends_arraycopy hfit ht c s t i j n
    rw [heq] at h
    cases hends with
    | types hnot => exact absurd htypes hnot
    | stopped _ _ hk hmisfit hleast hcopied =>
      cases h
      exact ⟨_, hk, hmisfit, hleast, hcopied⟩
    | _ => cases h
  index c s t i j n htypes := by
    obtain ⟨ending, hends, heq⟩ := ArrayCopy.ends_arraycopy hfit ht c s t i j n
    rw [heq]
    cases hends with
    | missing hmissing => exact absurd htypes.isLive hmissing
    | types hnot => exact absurd htypes hnot
    | outside _ hranges message => exact ⟨fun _ => hranges, fun _ => ⟨_, _, rfl⟩⟩
    | copied _ hranges => exact ⟨fun ⟨_, _, h⟩ => (by cases h), fun h => absurd h hranges⟩
    | stopped _ hranges => exact ⟨fun ⟨_, _, h⟩ => (by cases h), fun h => absurd h hranges⟩
  completes c s t i j n htypes hranges hfits := by
    obtain ⟨ending, hends, heq⟩ := ArrayCopy.ends_arraycopy hfit ht c s t i j n
    rw [heq]
    cases hends with
    | missing hmissing => exact absurd htypes.isLive hmissing
    | types hnot => exact absurd htypes hnot
    | outside _ houtside => exact absurd houtside hranges
    | copied => exact ⟨_, rfl⟩
    | stopped _ _ hk hmisfit => exact absurd hmisfit (hfits _ hk)
  types c s t i j n hs hslive hnot := by
    obtain ⟨ending, hends, heq⟩ := ArrayCopy.ends_arraycopy hfit ht c s t i j n
    rw [heq]
    cases hends with
    | missing hmissing => exact absurd ⟨hs, hslive⟩ hmissing
    | types _ message => exact ⟨_, rfl⟩
    | outside htypes => exact absurd htypes hnot
    | copied htypes => exact absurd htypes hnot
    | stopped htypes => exact absurd htypes hnot
  null c source target i j n hnull := ArrayCopy.arraycopy_of_object?_eq_none c m hnull i j n

/-- Numbers have been moved within their array, and a book and an item are due for places where only books go. -/
theorem copies_exactly_arranging : (arranging 131).ArraysFit ∧ (arranging 131).registry.table.Regular ∧
    (arranging 131).CopiesExactly := by
  have hsound := (reached_arranging 131).sound
  exact ⟨hsound.arraysFit, hsound.registry.linked.regular,
    copies_exactly hsound.arraysFit hsound.registry.linked.regular⟩

end Jvm.Execution
