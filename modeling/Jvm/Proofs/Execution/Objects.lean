import Mathlib
import Jvm.Proofs.Execution.Calculation
import Jvm.Proofs.Execution.FieldTypes
import Jvm.Proofs.Heap.Accounting
import Jvm.Proofs.Heap.Elements

/-! # Objects of classes

An object is shaped if it holds what its class says: an instance has a field for each slot of its class, with
a value that may stand there, an array has elements of the kind of its class, and what it refers to is there;
the elements of an array of objects fit its element class, and those of a boolean array are zero or one. A
heap is sound if its accounts are right, nothing is marked and all objects are shaped. Assignments that are
checked, new objects and collections keep it so. -/

namespace Jvm

namespace Heap

variable {κ : Type}

/-- Whether a reference names an object of a class. -/
def Has (h : Heap κ) (r : Ref) (k : κ) : Prop := ∃ o, h.object? r = some o ∧ o.cls = k

/-- Whether the references with a property still name objects of their classes in another heap. -/
def Keeps (P : Ref → Prop) (h h' : Heap κ) : Prop := ∀ r k, P r → h.Has r k → h'.Has r k

variable {h h₁ h₂ : Heap κ} {P Q : Ref → Prop} {r : Ref} {k l : κ}

theorem Has.isLive (hr : h.Has r k) : h.IsLive r := by
  obtain ⟨o, ho, -⟩ := hr
  exact ⟨o, ho⟩

theorem IsLive.exists_has (hr : h.IsLive r) : ∃ k, h.Has r k := by
  obtain ⟨o, ho⟩ := hr
  exact ⟨o.cls, o, ho, rfl⟩

theorem Has.unique (h₁ : h.Has r k) (h₂ : h.Has r l) : k = l := by
  obtain ⟨o, ho, rfl⟩ := h₁
  obtain ⟨p, hp, rfl⟩ := h₂
  cases ho.symm.trans hp
  rfl

theorem Keeps.refl (P : Ref → Prop) (h : Heap κ) : h.Keeps P h := fun _ _ _ => id

theorem Keeps.trans (h₁₂ : h.Keeps P h₁) (h₂₃ : h₁.Keeps P h₂) : h.Keeps P h₂ :=
  fun r k hr hk => h₂₃ r k hr (h₁₂ r k hr hk)

theorem Keeps.mono (hkeeps : h.Keeps P h₁) (himp : ∀ r, Q r → P r) : h.Keeps Q h₁ :=
  fun r k hr => hkeeps r k (himp r hr)

theorem Keeps.isLive (hkeeps : h.Keeps P h₁) (hr : P r) (hlive : h.IsLive r) : h₁.IsLive r := by
  obtain ⟨k, hk⟩ := hlive.exists_has
  exact (hkeeps r k hr hk).isLive

theorem has_modifyObject {f : Object κ → Object κ} (hf : ∀ o, (f o).cls = o.cls) {s : Ref} :
    (h.modifyObject r f).Has s k ↔ h.Has s k := by
  unfold Has
  rw [object?_modifyObject]
  split_ifs
  · constructor
    · rintro ⟨_, hmap, hk⟩
      obtain ⟨o, ho, rfl⟩ := Option.map_eq_some_iff.1 hmap
      exact ⟨o, ho, (hf o).symm.trans hk⟩
    · rintro ⟨o, ho, hk⟩
      exact ⟨f o, by rw [ho]; rfl, (hf o).trans hk⟩
  · rfl

theorem has_modifyContents {f : Contents → Contents} {s : Ref} :
    (h.modifyContents r f).Has s k ↔ h.Has s k :=
  has_modifyObject (f := fun o => { o with contents := f o.contents }) fun _ => rfl

theorem has_setMonitor {monitor : Monitor} {s : Ref} : (h.setMonitor r monitor).Has s k ↔ h.Has s k :=
  has_modifyObject (f := fun o => { o with monitor }) fun _ => rfl

/-- The elements of an array are its contents. -/
theorem contents_of_elements {o : Object κ} (ho : h.object? r = some o) {e : Elements}
    (he : h.elements r = .ok e) : o.contents = .array e := by
  simp only [elements, object, ho, bind, Except.bind] at he
  cases hc : o.contents with
  | fields values => rw [hc] at he; cases he
  | array e' => rw [hc] at he; cases he; rfl

/-- A copy is one of a slice of the source into the target. -/
theorem of_copied {source target : Ref} {o p : Object κ} (ho : h.object? source = some o)
    (hp : h.object? target = some p) {i j n : Nat} {e' : Elements}
    (hcopied : h.copied source i target j n = .ok (some e')) :
    ∃ e f slice, p.contents = .array e ∧ o.contents = .array f ∧ f.slice? i n = some slice ∧
      e.writeSlice? j slice = some e' := by
  unfold copied at hcopied
  rcases hf : h.elements source with _ | f
  · rw [hf] at hcopied
    cases hcopied
  · rw [hf] at hcopied
    simp only [bind, Except.bind] at hcopied
    split at hcopied
    · cases hcopied
    · next slice hslice =>
      rcases he : h.elements target with _ | e
      · rw [he] at hcopied
        cases hcopied
      · rw [he] at hcopied
        exact ⟨e, f, slice, contents_of_elements hp he, contents_of_elements ho hf, hslice,
          Except.ok.inj hcopied⟩

end Heap

namespace Execution

open Linking

/-- Whether contents are those of an object of a class. -/
structure Shaped (t : ClassTable) (h : Heap ClassId) (cls : ClassId) (contents : Contents) : Prop where
  kind : ∃ c, t.class? cls = some c ∧
    c.component?.map Component.elementKind = contents.elements?.map (·.kind)
  typed : ∀ e, contents = .array e → e.Typed
  references : ∀ s ∈ contents.references, ∃ k, h.Has s k ∧
    ∀ component, t.componentOf? cls = some (.reference component) → t.isAssignable k component = true
  booleans : ∀ e, contents = .array e → e.kind = .primitive .boolean →
    ∀ v ∈ e.values, v = .int 0 ∨ v = .int 1
  fields : ∀ values, contents = .fields values → ∀ c, t.class? cls = some c →
    values.size = c.template.size ∧ ∀ slot v, values[slot]? = some v → t.SlotTakes slot v

namespace Shaped

variable {t t' : ClassTable} {h h' : Heap ClassId} {cls : ClassId} {contents : Contents}

theorem componentOf?_eq (hs : Shaped t h cls contents) :
    (t.componentOf? cls).map Component.elementKind = contents.elements?.map (·.kind) := by
  obtain ⟨c, hc, hkind⟩ := hs.kind
  rw [ClassTable.componentOf?_of_class? hc, hkind]

theorem isLive (hs : Shaped t h cls contents) {s : Ref} (hmem : s ∈ contents.references) :
    h.IsLive s := by
  obtain ⟨k, hk, -⟩ := hs.references s hmem
  exact hk.isLive

/-- The elements of an array are of the kind of its class. -/
theorem component_of_array (hs : Shaped t h cls contents) {e : Elements} (he : contents = .array e) :
    ∃ component, t.componentOf? cls = some component ∧ component.elementKind = e.kind := by
  have hkind := hs.componentOf?_eq
  rw [he] at hkind
  obtain ⟨component, hcomponent, heq⟩ := Option.map_eq_some_iff.1 hkind
  exact ⟨component, hcomponent, heq⟩

/-- An instance is not of an array class. -/
theorem component_of_fields (hs : Shaped t h cls contents) {values : Array Value}
    (he : contents = .fields values) : t.componentOf? cls = none := by
  have hkind := hs.componentOf?_eq
  rw [he] at hkind
  exact Option.map_eq_none_iff.1 hkind

theorem mono (hs : Shaped t h cls contents) (htable : t.Within t')
    (hkeeps : ∀ s ∈ contents.references, ∀ k, h.Has s k → h'.Has s k) : Shaped t' h' cls contents := by
  obtain ⟨c, hc, hkind⟩ := hs.kind
  have hcomponent : t'.componentOf? cls = t.componentOf? cls := by
    rw [ClassTable.componentOf?_of_class? hc, ClassTable.componentOf?_of_class? (htable cls c hc)]
  refine ⟨⟨c, htable cls c hc, hkind⟩, hs.typed, fun s hmem => ?_, hs.booleans, fun values hv d hd => ?_⟩
  · obtain ⟨k, hk, hfits⟩ := hs.references s hmem
    refine ⟨k, hkeeps s hmem k hk, fun component hcls => ?_⟩
    rw [hcomponent] at hcls
    exact ClassTable.isAssignable_iff.2 ((ClassTable.isAssignable_iff.1 (hfits component hcls)).mono htable)
  · cases (htable cls c hc).symm.trans hd
    obtain ⟨hsize, htakes⟩ := hs.fields values hv c hc
    exact ⟨hsize, fun slot v hslot => (htakes slot v hslot).mono htable⟩

/-! ### New objects -/

/-- An instance with the values that it starts with, which refer to nothing. -/
theorem of_template (ht : t.Built) {c : LinkedClass} (hc : t.class? cls = some c)
    (hplain : c.component? = none) (hvalues : NoObjects c.template) :
    Shaped t h cls (.fields c.template) where
  kind := ⟨c, hc, by rw [hplain]; rfl⟩
  typed e he := by cases he
  references s hmem := by
    have := hvalues _ (Contents.mem_references_fields.1 hmem)
    cases this
  booleans e he := by cases he
  fields values hv d hd := by
    cases hv
    cases hc.symm.trans hd
    have hplain : c.isArray = false := by rw [LinkedClass.isArray, hplain]; rfl
    exact ⟨rfl, fun slot v hslot => ht.slotTakes_template hc hplain hslot⟩

/-- An array without objects. -/
theorem of_array {component : Component} (hcomponent : t.componentOf? cls = some component)
    {e : Elements} (hkind : component.elementKind = e.kind) (htyped : e.Typed)
    (hvalues : NoObjects e.values) (hbooleans : e.kind = .primitive .boolean →
      ∀ v ∈ e.values, v = .int 0 ∨ v = .int 1) : Shaped t h cls (.array e) := by
  obtain ⟨c, hc, hcomp⟩ := ClassTable.exists_of_componentOf? hcomponent
  refine ⟨⟨c, hc, by rw [hcomp]; exact congrArg some hkind⟩, ?_, fun s hmem => ?_, ?_,
    fun values hv => by cases hv⟩
  · rintro _ ⟨⟩
    exact htyped
  · have := hvalues _ ((Contents.mem_references_array htyped).1 hmem)
    cases this
  · rintro _ ⟨⟩
    exact hbooleans

theorem of_zeros {component : Component} (hcomponent : t.componentOf? cls = some component) (n : Nat) :
    Shaped t h cls (.array (.zeros component.elementKind n)) := by
  have hzero : ∀ v ∈ (Elements.zeros component.elementKind n).values,
      v = component.elementKind.access.zero := fun v hv => (Array.mem_replicate.1 hv).2
  refine of_array hcomponent rfl (Elements.typed_zeros _ n) (fun v hv => ?_) fun hkind v hv => ?_
  · rw [hzero v hv]
    cases component.elementKind.access <;> rfl
  · rw [hzero v hv, show component.elementKind = .primitive .boolean from hkind]
    exact .inl rfl

theorem of_chars (hcomponent : t.componentOf? cls = some (.primitive .char)) (units : List UInt16) :
    Shaped t h cls (.array (.ofChars units)) := by
  refine of_array hcomponent rfl (Elements.typed_ofChars units) (fun v hv => ?_) fun hkind => by cases hkind
  obtain ⟨u, -, rfl⟩ : ∃ u ∈ units, Value.int u.toUInt32.toInt32 = v := by
    simpa [Elements.ofChars] using hv
  rfl

/-! ### Assignments -/

/-- An assignment to a field, of what may stand in the slot. -/
theorem putField (hs : Shaped t h cls contents) {slot : Nat} {v : Value} (hslot : t.SlotTakes slot v)
    (hv : v.All h.IsLive) : Shaped t h cls (contents.putField slot v) := by
  cases contents with
  | array e => exact hs
  | fields values =>
    refine ⟨hs.kind, (fun e he => by cases he), fun s hmem => ?_, (fun e he => by cases he), ?_⟩
    · have hmem := Contents.mem_references_fields.1 hmem
      rcases Array.mem_or_eq_of_mem_setIfInBounds hmem with hmem | rfl
      · exact hs.references s (Contents.mem_references_fields.2 hmem)
      · obtain ⟨k, hk⟩ := (Value.all_ref.1 hv).exists_has
        refine ⟨k, hk, fun component hcomponent => ?_⟩
        rw [hs.component_of_fields rfl] at hcomponent
        cases hcomponent
    · rintro _ ⟨⟩ c hc
      obtain ⟨hsize, htakes⟩ := hs.fields values rfl c hc
      refine ⟨(Array.size_setIfInBounds ..).trans hsize, fun i w hw => ?_⟩
      rw [Array.getElem?_setIfInBounds] at hw
      split_ifs at hw with hi
      · cases hw
        exact hi ▸ hslot
      · exact htakes i w hw

/-- What may be stored in an array of a class. -/
structure Storable (t : ClassTable) (h : Heap ClassId) (cls : ClassId) (v : Value) : Prop where
  reference : ∀ s, v = .ref s → ∃ k, h.Has s k ∧
    ∀ component, t.componentOf? cls = some (.reference component) → t.isAssignable k component = true
  boolean : t.componentOf? cls = some (.primitive .boolean) → ∀ n, v = .int n → n = 0 ∨ n = 1

/-- A store to an array. -/
theorem putElement (hs : Shaped t h cls contents) {e : Elements} (he : contents = .array e) (i : Nat)
    {v w : Value} (hkept : e.kept? i v = some w) (hv : Storable t h cls v) :
    Shaped t h cls (contents.putElement i w) := by
  subst he
  have hkeep := Elements.keep?_of_kept? hkept
  have htyped := (hs.typed e rfl).put i (ElementAccess.keep?_keep? hkeep)
  refine ⟨hs.kind, ?_, fun s hmem => ?_, ?_, fun values hv => by cases hv⟩
  · rintro _ ⟨⟩
    exact htyped
  · rcases Elements.mem_put ((Contents.mem_references_array htyped).1 hmem) with hmem | rfl
    · exact hs.references s ((Contents.mem_references_array (hs.typed e rfl)).2 hmem)
    · exact hv.reference s (ElementAccess.of_keep?_ref hkeep).2
  · rintro _ ⟨⟩ hkind u hu
    rcases Elements.mem_put hu with hu | rfl
    · exact hs.booleans e rfl hkind u hu
    · obtain ⟨component, hcomponent, helement⟩ := hs.component_of_array rfl
      have hboolean : component = .primitive .boolean := by
        rw [show e.kind = .primitive .boolean from hkind] at helement
        cases component <;> cases helement
        rfl
      rw [show e.access = .byte by rw [Elements.access, show e.kind = .primitive .boolean from hkind]; rfl]
        at hkeep
      cases v <;> cases hkeep
      rcases hv.boolean (hboolean ▸ hcomponent) _ rfl with rfl | rfl
      exacts [.inl rfl, .inr rfl]

/-- A copy of elements from another array, whose elements may be stored. -/
theorem copied {source : ClassId} {from' : Contents} (hs : Shaped t h cls contents)
    (hfrom : Shaped t h source from') {e f slice e' : Elements} (he : contents = .array e)
    (hf : from' = .array f) {i j n : Nat} (hslice : f.slice? i n = some slice)
    (hwrite : e.writeSlice? j slice = some e')
    (hroute : t.componentOf? source = t.componentOf? cls ∨
      ∃ a b, t.componentOf? source = some (.reference a) ∧ t.componentOf? cls = some (.reference b) ∧
        ∀ k, t.isAssignable k a = true → t.isAssignable k b = true) :
    Shaped t h cls (.array e') := by
  subst he hf
  obtain ⟨hkindslice, hmemslice⟩ := Elements.of_slice? hslice
  obtain ⟨-, hkind, hmem⟩ := Elements.of_writeSlice? hwrite
  have hslicetyped : slice.Typed := fun v hv => by
    rw [Elements.access, hkindslice]
    exact hfrom.typed f rfl v (hmemslice v hv)
  have htyped := (hs.typed e rfl).writeSlice? hslicetyped hwrite
  obtain ⟨c, hc, hckind⟩ := hs.kind
  refine ⟨⟨c, hc, hckind.trans (congrArg some hkind.symm)⟩, ?_, fun s hs' => ?_, ?_,
    fun values hv => by cases hv⟩
  · rintro _ ⟨⟩
    exact htyped
  · rcases hmem _ ((Contents.mem_references_array htyped).1 hs') with h' | h'
    · exact hs.references s ((Contents.mem_references_array (hs.typed e rfl)).2 h')
    · obtain ⟨k, hk, hfits⟩ :=
        hfrom.references s ((Contents.mem_references_array (hfrom.typed f rfl)).2 (hmemslice _ h'))
      refine ⟨k, hk, fun component hcomponent => ?_⟩
      rcases hroute with heq | ⟨a, b, ha, hb, himp⟩
      · exact hfits component (heq.trans hcomponent)
      · rw [hb] at hcomponent
        cases hcomponent
        exact himp k (hfits a ha)
  · rintro _ ⟨⟩ hboolean v hv
    rcases hmem v hv with hv | hv
    · exact hs.booleans e rfl (hkind.symm.trans hboolean) v hv
    · refine hfrom.booleans f rfl ?_ v (hmemslice v hv)
      obtain ⟨x, hx, hxkind⟩ := hs.component_of_array rfl
      obtain ⟨y, hy, hykind⟩ := hfrom.component_of_array rfl
      rcases hroute with heq | ⟨a, b, ha, hb, -⟩
      · rw [hx, hy] at heq
        cases heq
        rw [← hykind, hxkind, ← hkind, hboolean]
      · rw [hb] at hx
        cases hx
        rw [← hkind, hboolean] at hxkind
        cases hxkind

end Shaped

end Execution

namespace Heap

open Execution Linking

/-- Other objects stay where they are when one is put into a block. -/
theorem Balanced.object?_place_of_eq_some {κ : Type} {h : Heap κ} (hh : h.Balanced)
    {request : Request κ} {block : Nat} {s : Ref} {o : Object κ} (ho : h.object? s = some o) :
    (h.place request block).2.object? s = some o := by
  rw [object?_eq_some] at ho ⊢
  rw [Heap.place]
  dsimp only
  split
  · next i free hfree =>
    have hi := (hh.free i).1 (by rw [hfree]; exact List.mem_cons_self)
    rw [Array.getElem?_setIfInBounds, if_neg]
    · exact ho
    · rintro rfl
      cases hi.symm.trans ho
  · rw [Array.getElem?_push, if_neg]
    · exact ho
    · exact (Array.getElem?_eq_some_iff.1 ho).1.ne

/-- Whether the accounts of a heap are right, nothing is marked, and every object is what its class
says. -/
structure Sound (h : Heap ClassId) (t : ClassTable) : Prop where
  balanced : h.Balanced
  clean : h.Clean
  shaped : ∀ r o, h.object? r = some o → Shaped t h o.cls o.contents

variable {h h' : Heap ClassId} {t t' : ClassTable}

theorem sound_empty (config : Config) (t : ClassTable) : (empty config).Sound t :=
  ⟨balanced_empty config, clean_kept.empty config, fun r o ho => by simp at ho⟩

theorem Sound.mono (hh : h.Sound t) (htable : t.Within t') : h.Sound t' :=
  ⟨hh.balanced, hh.clean, fun r o ho => (hh.shaped r o ho).mono htable fun _ _ _ => id⟩

/-- The class of an object is there. -/
theorem Sound.class? (hh : h.Sound t) {r : Ref} {k : ClassId} (hr : h.Has r k) :
    ∃ c, t.class? k = some c := by
  obtain ⟨o, ho, rfl⟩ := hr
  obtain ⟨c, hc, -⟩ := (hh.shaped r o ho).kind
  exact ⟨c, hc⟩

/-- A change of an object that leaves it shaped. -/
theorem Sound.modify (hh : h.Sound t) {r : Ref} {o : Object ClassId} (ho : h.object? r = some o)
    {f : Object ClassId → Object ClassId} (hf : InPlace f) (hcls : ∀ o, (f o).cls = o.cls)
    (hshaped : Shaped t h o.cls (f o).contents) : (h.modifyObject r f).Sound t where
  balanced := balanced_kept.modify hh.balanced hf
  clean := clean_kept.modify hh.clean hf
  shaped s p hp := by
    have hkeeps : ∀ (s : Ref) k, h.Has s k → (h.modifyObject r f).Has s k :=
      fun s k hk => (has_modifyObject hcls).2 hk
    rw [object?_modifyObject] at hp
    split_ifs at hp with hs
    · subst hs
      rw [ho] at hp
      cases hp
      rw [hcls]
      exact hshaped.mono (.refl t) fun s _ => hkeeps s
    · exact (hh.shaped s p hp).mono (.refl t) fun s _ => hkeeps s

/-- An object that is created as its class says. -/
theorem Sound.create (hh : h.Sound t) {request : Request ClassId} {r : Ref}
    (htry : h.tryAllocate request = some (r, h'))
    (hrequest : Shaped t h request.cls request.contents) :
    h'.Sound t ∧ h'.Has r request.cls ∧ h.Keeps (fun _ => True) h' := by
  have hbalanced := balanced_kept.create hh.balanced htry
  have hclean := clean_kept.create hh.clean htry
  obtain ⟨block, h₁, hreserve, rfl, rfl⟩ := tryAllocate_eq_some htry
  have hh₁ := (hh.balanced.reserve hreserve).1
  have hobject : ∀ s, h₁.object? s = h.object? s := object?_congr (slots_reserve hreserve)
  have hplaced := hh₁.placed_place request block
  have hkeeps : h.Keeps (fun _ => True) (h₁.place request block).2 := by
    rintro s k - ⟨o, ho, hk⟩
    exact ⟨o, hh₁.object?_place_of_eq_some ((hobject s).trans ho), hk⟩
  refine ⟨⟨hbalanced, hclean, fun s o ho => ?_⟩, ⟨_, hplaced.object, rfl⟩, hkeeps⟩
  rcases object?_place ho with ho | ⟨-, rfl⟩
  · exact (hh.shaped s o ((hobject s).symm.trans ho)).mono (.refl t) fun s _ k => hkeeps s k trivial
  · exact hrequest.mono (.refl t) fun s _ k => hkeeps s k trivial

/-- What a collection keeps is what it was. -/
theorem Sound.collect (hh : h.Sound t) (roots : List Ref) :
    (h.collect roots).2.Sound t ∧ h.Keeps (h.Reachable roots) (h.collect roots).2 := by
  have hcollected := collected_of_clean hh.clean roots
  have hkeeps : h.Keeps (h.Reachable roots) (h.collect roots).2 := by
    rintro r k hr ⟨o, ho, hk⟩
    exact ⟨_, hcollected.kept r o hr ho, hk⟩
  refine ⟨⟨balanced_kept.collect hh.balanced, clean_kept.collect hh.clean, fun r o' ho' => ?_⟩, hkeeps⟩
  obtain ⟨⟨o, ho⟩, hr⟩ := (hcollected.live r).1 ⟨o', ho'⟩
  cases ho'.symm.trans (hcollected.kept r o hr ho)
  exact (hh.shaped r o ho).mono (.refl t) fun s hs k hk => hkeeps s k (hr.step ho hs hk.isLive) hk

theorem Sound.grow (hh : h.Sound t) {size : Nat} (hgrow : h.grow size = .ok h') :
    h'.Sound t ∧ ∀ r, h'.object? r = h.object? r := by
  have hbalanced := balanced_kept.grow hh.balanced hgrow
  have hclean := clean_kept.grow hh.clean hgrow
  obtain ⟨-, rfl⟩ := eq_of_grow hgrow
  exact ⟨⟨hbalanced, hclean, fun r o ho => (hh.shaped r o ho).mono (.refl t) fun _ _ _ => id⟩, fun _ => rfl⟩

/-- What comes of a request for an object: the object, of the class asked for, or a fault. -/
structure Serves (t : ClassTable) (P : Ref → Prop) (request : Request ClassId) (h : Heap ClassId)
    (result : Except Fault Ref) (h' : Heap ClassId) : Prop where
  sound : h'.Sound t
  keeps : h.Keeps P h'
  object : ∀ r, result = .ok r → h'.Has r request.cls

theorem Sound.growAndAllocate (hh : h.Sound t) {request : Request ClassId}
    (hrequest : Shaped t h request.cls request.contents) :
    Serves t (fun _ => True) request h (h.growAndAllocate request).1 (h.growAndAllocate request).2 := by
  rw [Heap.growAndAllocate]
  rcases hgrow : h.grow request.bytes with e | h₁
  · exact ⟨hh, .refl _ h, fun r hr => by cases hr⟩
  · obtain ⟨hh₁, hobject⟩ := hh.grow hgrow
    have hkeeps : h.Keeps (fun _ => True) h₁ := by
      rintro s k - ⟨o, ho, hk⟩
      exact ⟨o, (hobject s).trans ho, hk⟩
    rcases htry : h₁.tryAllocate request with _ | ⟨r, h₂⟩
    · simp only [htry]
      exact ⟨hh₁, hkeeps, fun r hr => by cases hr⟩
    · simp only [htry]
      obtain ⟨hh₂, hr, hkeeps₂⟩ :=
        hh₁.create htry (hrequest.mono (.refl t) fun s _ k => hkeeps s k trivial)
      refine ⟨hh₂, hkeeps.trans hkeeps₂, ?_⟩
      rintro _ ⟨⟩
      exact hr

end Heap

end Jvm
