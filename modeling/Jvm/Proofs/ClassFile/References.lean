import Mathlib
import Jvm.ClassFile.References

/-! # What the check of cross references establishes

Each part of the check passes exactly where what it looks for is so: the indices lead to constants of the
right kinds, at every depth of attributes (`Within`), descriptors can be read, and no two members share
name and descriptor. `checkReferences_eq_ok_iff` puts the parts together. -/

namespace Jvm.ClassFile

section

variable {α β ε : Type}

theorem except_bind_eq_ok {x : Except ε α} {f : α → Except ε β} {b : β} :
    x >>= f = .ok b ↔ ∃ a, x = .ok a ∧ f a = .ok b := by
  cases x with
  | error e => simp [bind, Except.bind]
  | ok a => simp [bind, Except.bind]

theorem except_then_eq_ok {x : Except ε Unit} {f : Unit → Except ε β} {b : β} :
    x >>= f = .ok b ↔ x = .ok () ∧ f () = .ok b := by
  rw [except_bind_eq_ok]
  exact ⟨fun ⟨_, hx, hf⟩ => ⟨hx, hf⟩, fun ⟨hx, hf⟩ => ⟨(), hx, hf⟩⟩

theorem except_forM_eq_ok {f : α → Except ε Unit} {l : List α} :
    l.forM f = .ok () ↔ ∀ a ∈ l, f a = .ok () := by
  induction l with
  | nil => simp [pure, Except.pure]
  | cons a l ih =>
    change (f a >>= fun _ => l.forM f) = .ok () ↔ _
    rw [except_then_eq_ok, ih, List.forall_mem_cons]

/-- A check that fails where a condition is met. -/
theorem except_unless_eq_ok {p : Prop} [Decidable p] {e : ε} :
    (if p then throw e else pure () : Except ε Unit) = .ok () ↔ ¬ p := by
  split
  · next h => simp [h, throw, throwThe, MonadExceptOf.throw]
  · next h => simp [h, pure, Except.pure]

end

/-! ### Pools -/

namespace ConstantPool

variable {p : ConstantPool} {i : UInt16} {c : Constant}

/-- Whether an index leads to a usable constant with a tag. -/
def Leads (p : ConstantPool) (i : UInt16) (tag : UInt8) : Prop := ∃ c, p.get i = .ok c ∧ c.tag = tag

theorem get_eq_ok_iff : p.get i = .ok c ↔ p.entries[i.toNat]? = some c ∧ c ≠ .unusable := by
  unfold get
  split
  · next h => simp [h]
  · next h => simp [h, eq_comm]
  · next d hne h =>
    rw [h, Except.ok.injEq, Option.some.injEq]
    exact ⟨fun hd => ⟨hd, fun hc => hne (hd.trans hc)⟩, fun hd => hd.1⟩

theorem mem_usable_iff (hsize : p.size ≤ 0x10000) : (i, c) ∈ p.usable ↔ p.get i = .ok c := by
  rw [get_eq_ok_iff]
  simp only [usable, List.mem_map, List.mem_filter, bne_iff_ne, Prod.exists, Prod.mk.injEq,
    List.mem_zipIdx_iff_getElem?, Array.getElem?_toList]
  constructor
  · rintro ⟨d, n, ⟨hn, hd⟩, rfl, rfl⟩
    have hlt : n < p.size := (Array.getElem?_eq_some_iff.mp hn).1
    rw [Nat.toUInt16_eq, UInt16.toNat_ofNat', Nat.mod_eq_of_lt (by omega)]
    exact ⟨hn, hd⟩
  · rintro ⟨hi, hc⟩
    exact ⟨c, i.toNat, ⟨hi, hc⟩, UInt16.ofNat_toNat, rfl⟩

theorem expectTag_eq_ok_iff {tag : UInt8} {context : String} :
    p.expectTag i tag context = .ok c ↔ p.get i = .ok c ∧ c.tag = tag := by
  unfold expectTag
  rw [except_bind_eq_ok]
  constructor
  · rintro ⟨d, hd, h⟩
    split at h
    · cases h
    · next htag =>
      cases h
      exact ⟨hd, by simpa using htag⟩
  · rintro ⟨hc, rfl⟩
    exact ⟨c, hc, by simp [pure, Except.pure]⟩

theorem expectTag_then_eq_ok_iff {tag : UInt8} {context : String} {x : Except Fault Unit} :
    (do let _ ← p.expectTag i tag context; x) = .ok () ↔ p.Leads i tag ∧ x = .ok () := by
  simp only [except_bind_eq_ok, expectTag_eq_ok_iff, Leads, exists_and_right]

/-- The check of an index alone. -/
theorem expectTag_unit_eq_ok_iff {tag : UInt8} {context : String} :
    (do let _ ← p.expectTag i tag context : Except Fault Unit) = .ok () ↔ p.Leads i tag :=
  expectTag_then_eq_ok_iff.trans (and_iff_left rfl)

theorem utf8_eq_ok_iff {s : String} : p.utf8 i = .ok s ↔ p.get i = .ok (.utf8 s) := by
  unfold utf8
  rw [except_bind_eq_ok]
  constructor
  · rintro ⟨d, hd, h⟩
    cases d <;> cases h
    exact hd
  · intro h
    exact ⟨_, h, rfl⟩

theorem className_eq_ok_iff {s : String} :
    p.className i = .ok s ↔ ∃ j, p.get i = .ok (.classRef j) ∧ p.utf8 j = .ok s := by
  unfold className
  rw [except_bind_eq_ok]
  constructor
  · rintro ⟨d, hd, h⟩
    cases d <;> first | cases h | exact ⟨_, hd, h⟩
  · rintro ⟨j, hj, hs⟩
    exact ⟨_, hj, hs⟩

theorem nameAndType_eq_ok_iff {s : String × String} : p.nameAndType i = .ok s ↔
    ∃ j k, p.get i = .ok (.nameAndType j k) ∧ p.utf8 j = .ok s.1 ∧ p.utf8 k = .ok s.2 := by
  unfold nameAndType
  rw [except_bind_eq_ok]
  constructor
  · rintro ⟨d, hd, h⟩
    cases d <;> first | cases h | skip
    simp only [except_bind_eq_ok] at h
    obtain ⟨n, hn, t, ht, h⟩ := h
    cases h
    exact ⟨_, _, hd, hn, ht⟩
  · rintro ⟨j, k, hi, hj, hk⟩
    refine ⟨_, hi, ?_⟩
    simp only [except_bind_eq_ok]
    exact ⟨_, hj, _, hk, rfl⟩

/-- Whether an index leads to a reference to a member, with the indices of the reference. -/
def Refers (p : ConstantPool) (i owner nt : UInt16) : Prop :=
  p.get i = .ok (.fieldRef owner nt) ∨ p.get i = .ok (.methodRef owner nt) ∨
    p.get i = .ok (.interfaceMethodRef owner nt)

theorem member_eq_ok_iff {m : Member} : p.member i = .ok m ↔ ∃ owner nt, p.Refers i owner nt ∧
    p.className owner = .ok m.owner ∧ p.nameAndType nt = .ok (m.name, m.descriptor) := by
  have hthen {owner nt : UInt16} : (do
      let spelt ← p.nameAndType nt
      return ⟨← p.className owner, spelt.1, spelt.2⟩ : Except Fault Member) = .ok m ↔
      p.className owner = .ok m.owner ∧ p.nameAndType nt = .ok (m.name, m.descriptor) := by
    simp only [except_bind_eq_ok]
    constructor
    · rintro ⟨⟨name, descriptor⟩, hnt, _, howner, h⟩
      cases h
      exact ⟨howner, hnt⟩
    · rintro ⟨howner, hnt⟩
      exact ⟨_, hnt, _, howner, rfl⟩
  unfold member
  rw [except_bind_eq_ok]
  constructor
  · rintro ⟨d, hd, h⟩
    cases d <;> first | cases h | skip
    · exact ⟨_, _, .inl hd, hthen.mp h⟩
    · exact ⟨_, _, .inr (.inl hd), hthen.mp h⟩
    · exact ⟨_, _, .inr (.inr hd), hthen.mp h⟩
  · rintro ⟨owner, nt, hrefers | hrefers | hrefers, h⟩
    all_goals exact ⟨_, hrefers, hthen.mpr h⟩

theorem leads_utf8_iff : p.Leads i Tags.utf8 ↔ ∃ s, p.utf8 i = .ok s := by
  simp only [utf8_eq_ok_iff]
  constructor
  · rintro ⟨c, hc, htag⟩
    cases c <;> simp [Constant.tag, Tags.utf8] at htag
    exact ⟨_, hc⟩
  · rintro ⟨s, hs⟩
    exact ⟨_, hs, rfl⟩

theorem leads_classRef_iff : p.Leads i Tags.classRef ↔ ∃ name, p.get i = .ok (.classRef name) := by
  constructor
  · rintro ⟨c, hc, htag⟩
    cases c <;> simp [Constant.tag, Tags.classRef] at htag
    exact ⟨_, hc⟩
  · rintro ⟨name, h⟩
    exact ⟨_, h, rfl⟩

theorem leads_nameAndType_iff :
    p.Leads i Tags.nameAndType ↔ ∃ name type, p.get i = .ok (.nameAndType name type) := by
  constructor
  · rintro ⟨c, hc, htag⟩
    cases c <;> simp [Constant.tag, Tags.nameAndType] at htag
    exact ⟨_, _, hc⟩
  · rintro ⟨name, type, h⟩
    exact ⟨_, h, rfl⟩

end ConstantPool

/-! ### Constants -/

/-- Whether a method handle of a kind may refer to constants with a tag. -/
def HandleTag (kind tag : UInt8) : Prop :=
  1 ≤ kind ∧ kind ≤ 4 ∧ tag = Tags.fieldRef ∨ (kind = 5 ∨ kind = 8) ∧ tag = Tags.methodRef ∨
    (kind = 6 ∨ kind = 7) ∧ (tag = Tags.methodRef ∨ tag = Tags.interfaceMethodRef) ∨
    kind = 9 ∧ tag = Tags.interfaceMethodRef

/-- Whether the indices in a constant lead to constants of the kinds it needs. -/
def ConstantLinked (p : ConstantPool) : Constant → Prop
  | .classRef name => p.Leads name Tags.utf8
  | .string text => p.Leads text Tags.utf8
  | .fieldRef owner nt | .methodRef owner nt | .interfaceMethodRef owner nt =>
    p.Leads owner Tags.classRef ∧ p.Leads nt Tags.nameAndType
  | .nameAndType name descriptor => p.Leads name Tags.utf8 ∧ p.Leads descriptor Tags.utf8
  | .methodType descriptor => p.Leads descriptor Tags.utf8
  | .methodHandle kind target => ∃ tag, p.Leads target tag ∧ HandleTag kind tag
  | .invokeDynamic _ nt => p.Leads nt Tags.nameAndType
  | _ => True

/-- Whether a member reference, if a constant is one, can be spelt out and has a descriptor of its kind. -/
def ReferenceLinked (p : ConstantPool) (i : UInt16) : Constant → Prop
  | .fieldRef .. => ∃ m t, p.member i = .ok m ∧ FieldType.parse m.descriptor = .ok t
  | .methodRef .. | .interfaceMethodRef .. => ∃ m t, p.member i = .ok m ∧ MethodType.parse m.descriptor = .ok t
  | _ => True

theorem mem_handleTags_iff {kind tag : UInt8} (h : 1 ≤ kind ∧ kind ≤ 9) :
    tag ∈ handleTags kind ↔ HandleTag kind tag := by
  obtain ⟨h, h'⟩ := h
  rw [UInt8.le_iff_toNat_le] at h h'
  obtain ⟨n, hn⟩ : ∃ n, kind.toNat = n := ⟨_, rfl⟩
  change 1 ≤ _ at h
  change _ ≤ 9 at h'
  rw [hn] at h h'
  obtain rfl : kind = n.toUInt8 := by
    rw [← hn, Nat.toUInt8_eq, UInt8.ofNat_toNat]
  interval_cases n <;> simp [handleTags, HandleTag]

section

variable {p : ConstantPool}

/-- The kinds of method handles are those that there are. -/
def Constant.KindValid : Constant → Prop
  | .methodHandle kind _ => 1 ≤ kind ∧ kind ≤ 9
  | _ => True

theorem checkConstant_eq_ok_iff {i : UInt16} {c : Constant} (hkind : c.KindValid) :
    checkConstant p i c = .ok () ↔ ConstantLinked p c := by
  have hone {j : UInt16} {tag : UInt8} {context : String} :
      (do let _ ← p.expectTag j tag context : Except Fault Unit) = .ok () ↔ p.Leads j tag :=
    ConstantPool.expectTag_unit_eq_ok_iff
  cases c with
  | classRef | string | methodType | invokeDynamic => exact hone
  | fieldRef | methodRef | interfaceMethodRef | nameAndType =>
    exact except_then_eq_ok.trans (and_congr hone hone)
  | methodHandle kind target =>
    change (p.get target >>= fun d => if !(handleTags kind).contains d.tag then _ else pure ()) = _ ↔ _
    have hcontains (d : Constant) : ¬ (!(handleTags kind).contains d.tag) = true ↔ HandleTag kind d.tag := by
      rw [← mem_handleTags_iff hkind, Bool.not_eq_true', Bool.not_eq_false, List.contains_iff_mem]
    simp only [except_bind_eq_ok, except_unless_eq_ok, hcontains]
    constructor
    · rintro ⟨d, hd, htag⟩
      exact ⟨_, ⟨d, hd, rfl⟩, htag⟩
    · rintro ⟨_, ⟨d, hd, rfl⟩, htag⟩
      exact ⟨d, hd, htag⟩
  | unusable | utf8 | integer | float | long | double => exact iff_of_true rfl trivial

theorem checkMemberRef_eq_ok_iff {i : UInt16} {c : Constant} :
    checkMemberRef p i c = .ok () ↔ ReferenceLinked p i c := by
  unfold checkMemberRef ReferenceLinked
  split
  all_goals simp [except_bind_eq_ok, pure, Except.pure]

end

/-! ### Attributes -/

/-- Whether an attribute is among others or, at any depth, inside the code among them. -/
inductive Within (a : NamedAttribute) : List NamedAttribute → Prop
  | mem {as : List NamedAttribute} : a ∈ as → Within a as
  | inside {as inner : List NamedAttribute} {name maxStack maxLocals : UInt16} {code : List UInt8}
    {handlers : List HandlerRow} : .mk name (.code maxStack maxLocals code handlers inner) ∈ as →
    Within a inner → Within a as

/-- Whether the indices in the body of an attribute lead to constants of the kinds it needs. -/
def BodyLinked (p : ConstantPool) : Attribute → Prop
  | .constantValue index => ∃ c, p.get index = .ok c ∧ c.isFieldValue = true
  | .exceptions classes => ∀ i ∈ classes, p.Leads i Tags.classRef
  | .sourceFile index => p.Leads index Tags.utf8
  | .code _ _ _ handlers _ => ∀ h ∈ handlers, h.catchType ≠ 0 → p.Leads h.catchType Tags.classRef
  | .lineNumbers _ | .other _ => True

/-- Whether the indices in an attribute do, that of its name included. -/
def AttributeLinked (p : ConstantPool) (a : NamedAttribute) : Prop :=
  p.Leads a.name Tags.utf8 ∧ BodyLinked p a.body

theorem within_nil (a : NamedAttribute) : ¬ Within a [] := by
  rintro (h | h) <;> cases h

theorem within_cons_iff {a b : NamedAttribute} (as : List NamedAttribute) :
    Within a (b :: as) ↔ Within a [b] ∨ Within a as := by
  constructor
  · rintro (hmem | ⟨hmem, hin⟩)
    · rcases List.mem_cons.mp hmem with rfl | hmem
      · exact .inl (.mem List.mem_cons_self)
      · exact .inr (.mem hmem)
    · rcases List.mem_cons.mp hmem with rfl | hmem
      · exact .inl (.inside List.mem_cons_self hin)
      · exact .inr (.inside hmem hin)
  · rintro ((hmem | ⟨hmem, hin⟩) | (hmem | ⟨hmem, hin⟩))
    · exact .mem (List.mem_cons.mpr (.inl (List.mem_singleton.mp hmem)))
    · exact .inside (List.mem_cons.mpr (.inl (List.mem_singleton.mp hmem))) hin
    · exact .mem (List.mem_cons_of_mem _ hmem)
    · exact .inside (List.mem_cons_of_mem _ hmem) hin

/-- Whether an attribute is inside of a body. -/
inductive Inside (a : NamedAttribute) : Attribute → Prop
  | code {maxStack maxLocals : UInt16} {code : List UInt8} {handlers : List HandlerRow}
    {inner : List NamedAttribute} : Within a inner → Inside a (.code maxStack maxLocals code handlers inner)

theorem within_singleton_iff {a : NamedAttribute} {name : UInt16} {body : Attribute} :
    Within a [.mk name body] ↔ a = .mk name body ∨ Inside a body := by
  constructor
  · rintro (hmem | ⟨hmem, hin⟩)
    · exact .inl (List.mem_singleton.mp hmem)
    · cases List.mem_singleton.mp hmem
      exact .inr (.code hin)
  · rintro (rfl | h)
    · exact .mem List.mem_cons_self
    · cases h with
      | code hin => exact .inside List.mem_cons_self hin

section

variable (p : ConstantPool)

theorem forall_inside_code_iff {maxStack maxLocals : UInt16} {code : List UInt8} {handlers : List HandlerRow}
    {inner : List NamedAttribute} {P : NamedAttribute → Prop} :
    (∀ a, Inside a (.code maxStack maxLocals code handlers inner) → P a) ↔ ∀ a, Within a inner → P a := by
  refine ⟨fun h a ha => h a (.code ha), fun h a ha => ?_⟩
  cases ha with
  | code ha => exact h a ha

theorem checkHandlers_eq_ok_iff (handlers : List HandlerRow) : (handlers.forM fun h => do
      if h.catchType != 0 then
        let _ ← p.expectTag h.catchType Tags.classRef "exception table") = .ok () ↔
      ∀ h ∈ handlers, h.catchType ≠ 0 → p.Leads h.catchType Tags.classRef := by
  rw [except_forM_eq_ok]
  refine forall₂_congr fun h _ => ?_
  split
  · next hne =>
    have hcatch : h.catchType ≠ 0 := by simpa using hne
    rw [ConstantPool.expectTag_unit_eq_ok_iff]
    exact ⟨fun hleads _ => hleads, fun hleads => hleads hcatch⟩
  · next heq =>
    have hcatch : h.catchType = 0 := by simpa using heq
    exact iff_of_true rfl fun hne => (hne hcatch).elim

mutual

theorem checkBody_eq_ok_iff (body : Attribute) :
    checkBody p body = .ok () ↔ BodyLinked p body ∧ ∀ a, Inside a body → AttributeLinked p a := by
  cases body with
  | code maxStack maxLocals code handlers inner =>
    rw [checkBody, except_then_eq_ok, checkHandlers_eq_ok_iff, checkAttributes_eq_ok_iff inner,
      forall_inside_code_iff]
    rfl
  | constantValue index =>
    rw [checkBody, except_bind_eq_ok]
    simp only [except_unless_eq_ok, Bool.not_eq_true', Bool.not_eq_false]
    exact (and_iff_left fun a ha => by cases ha).symm
  | exceptions classes =>
    rw [checkBody, except_forM_eq_ok]
    simp only [ConstantPool.expectTag_unit_eq_ok_iff]
    exact (and_iff_left fun a ha => by cases ha).symm
  | sourceFile index =>
    rw [checkBody, ConstantPool.expectTag_unit_eq_ok_iff]
    exact (and_iff_left fun a ha => by cases ha).symm
  | lineNumbers lines =>
    rw [checkBody]
    exact iff_of_true rfl ⟨trivial, fun a ha => by cases ha⟩
  | other bytes =>
    rw [checkBody]
    exact iff_of_true rfl ⟨trivial, fun a ha => by cases ha⟩

theorem checkAttribute_eq_ok_iff (a : NamedAttribute) :
    checkAttribute p a = .ok () ↔ ∀ b, Within b [a] → AttributeLinked p b := by
  cases a with
  | mk name body =>
    rw [checkAttribute]
    constructor
    · intro h b hb
      obtain ⟨d, hname, hbody⟩ := except_bind_eq_ok.mp h
      obtain ⟨hlinked, hinside⟩ := (checkBody_eq_ok_iff body).mp hbody
      rcases within_singleton_iff.mp hb with rfl | hb
      · exact ⟨⟨d, ConstantPool.expectTag_eq_ok_iff.mp hname⟩, hlinked⟩
      · exact hinside b hb
    · intro h
      obtain ⟨⟨d, hname⟩, hlinked⟩ := h _ (.mem List.mem_cons_self)
      have hinside (b : NamedAttribute) (hb : Inside b body) : AttributeLinked p b :=
        h b (within_singleton_iff.mpr (.inr hb))
      exact except_bind_eq_ok.mpr
        ⟨d, ConstantPool.expectTag_eq_ok_iff.mpr hname, (checkBody_eq_ok_iff body).mpr ⟨hlinked, hinside⟩⟩

theorem checkAttributes_eq_ok_iff (as : List NamedAttribute) :
    checkAttributes p as = .ok () ↔ ∀ a, Within a as → AttributeLinked p a := by
  cases as with
  | nil =>
    rw [checkAttributes]
    exact iff_of_true rfl fun a ha => (within_nil a ha).elim
  | cons a rest =>
    rw [checkAttributes, except_then_eq_ok, checkAttribute_eq_ok_iff a, checkAttributes_eq_ok_iff rest]
    simp only [within_cons_iff rest, or_imp, forall_and]

end

end

/-! ### Members and classes -/

/-- The name and the descriptor of a member, where they can be read. -/
def MemberInfo.key (p : ConstantPool) (m : MemberInfo) : Except Fault String × Except Fault String :=
  (p.utf8 m.name, p.utf8 m.descriptor)

/-- Whether a member has a name, a descriptor of its kind, and attributes that are linked. -/
structure MemberLinked (p : ConstantPool) (Describes : String → Prop) (m : MemberInfo) : Prop where
  name : ∃ s, p.utf8 m.name = .ok s
  descriptor : ∃ s, p.utf8 m.descriptor = .ok s ∧ Describes s
  attributes : ∀ a, Within a m.attributes → AttributeLinked p a

theorem checkMembers_eq_ok_iff (p : ConstantPool) {parse : String → Except Fault Unit}
    {duplicate : String → String → String} {seen : List (String × String)} {members : List MemberInfo} :
    checkMembers p parse duplicate seen members = .ok () ↔
      (∀ m ∈ members, MemberLinked p (fun d => parse d = .ok ()) m) ∧ (members.map (·.key p)).Nodup ∧
        ∀ m ∈ members, ∀ s ∈ seen, m.key p ≠ (.ok s.1, .ok s.2) := by
  induction members generalizing seen with
  | nil => exact iff_of_true rfl ⟨by simp, by simp, by simp⟩
  | cons m rest ih =>
    rw [checkMembers]
    constructor
    · intro h
      obtain ⟨name, hname, h⟩ := except_bind_eq_ok.mp h
      obtain ⟨descriptor, hdescriptor, h⟩ := except_bind_eq_ok.mp h
      obtain ⟨hparse, h⟩ := except_then_eq_ok.mp h
      split at h
      · cases h
      next hnew =>
      obtain ⟨hattributes, h⟩ := except_then_eq_ok.mp h
      obtain ⟨hrest, hdistinct, hother⟩ := ih.mp h
      have hkey : m.key p = (.ok name, .ok descriptor) := Prod.ext hname hdescriptor
      refine ⟨List.forall_mem_cons.mpr ⟨⟨⟨name, hname⟩, ⟨descriptor, hdescriptor, hparse⟩,
        (checkAttributes_eq_ok_iff p _).mp hattributes⟩, hrest⟩, ?_, List.forall_mem_cons.mpr ⟨?_, ?_⟩⟩
      · refine List.nodup_cons.mpr ⟨fun hmem => ?_, hdistinct⟩
        obtain ⟨m', hm', heq⟩ := List.mem_map.mp hmem
        exact hother m' hm' (name, descriptor) List.mem_cons_self (heq.trans hkey)
      · rintro ⟨n, d⟩ hs heq
        rw [hkey] at heq
        cases heq
        simp only [List.contains_iff_mem] at hnew
        exact hnew hs
      · exact fun m' hm' s hs => hother m' hm' s (List.mem_cons_of_mem _ hs)
    · rintro ⟨hlinked, hdistinct, hother⟩
      obtain ⟨⟨⟨name, hname⟩, ⟨descriptor, hdescriptor, hparse⟩, hattributes⟩, hrest⟩ :=
        List.forall_mem_cons.mp hlinked
      obtain ⟨hfresh, hdistinct⟩ := List.nodup_cons.mp hdistinct
      obtain ⟨hm, hother⟩ := List.forall_mem_cons.mp hother
      have hkey : m.key p = (.ok name, .ok descriptor) := Prod.ext hname hdescriptor
      have hnew : ¬ seen.contains (name, descriptor) = true := by
        rw [List.contains_iff_mem]
        exact fun hs => hm _ hs hkey
      refine except_bind_eq_ok.mpr ⟨name, hname, except_bind_eq_ok.mpr ⟨descriptor, hdescriptor,
        except_then_eq_ok.mpr ⟨hparse, ?_⟩⟩⟩
      rw [if_neg hnew]
      refine except_then_eq_ok.mpr ⟨(checkAttributes_eq_ok_iff p _).mpr hattributes,
        ih.mpr ⟨hrest, hdistinct, fun m' hm' s hs => ?_⟩⟩
      rcases List.mem_cons.mp hs with rfl | hs
      · intro heq
        exact hfresh (List.mem_map.mpr ⟨m', hm', heq.trans hkey.symm⟩)
      · exact hother m' hm' s hs

end Jvm.ClassFile

namespace Jvm.ClassFile

/-- Whether all indices of a class file lead where they have to, its descriptors are ones, and its fields
and methods are distinct. -/
structure Linked (c : ClassFile) : Prop where
  constants : ∀ i d, c.pool.get i = .ok d → ConstantLinked c.pool d
  references : ∀ i d, c.pool.get i = .ok d → ReferenceLinked c.pool i d
  thisClass : c.pool.Leads c.thisClass Tags.classRef
  superClass : c.superClass ≠ 0 → c.pool.Leads c.superClass Tags.classRef
  interfaces : ∀ i ∈ c.interfaces, c.pool.Leads i Tags.classRef
  fields : ∀ m ∈ c.fields, MemberLinked c.pool (fun d => ∃ t, FieldType.parse d = .ok t) m
  distinctFields : (c.fields.map (·.key c.pool)).Nodup
  methods : ∀ m ∈ c.methods, MemberLinked c.pool (fun d => ∃ t, MethodType.parse d = .ok t) m
  distinctMethods : (c.methods.map (·.key c.pool)).Nodup
  attributes : ∀ a, Within a c.attributes → AttributeLinked c.pool a

/-- **The check of cross references passes** exactly where the class file is linked. -/
theorem checkReferences_eq_ok_iff {c : ClassFile} (hsize : c.pool.size ≤ 0x10000)
    (hkinds : ∀ i d, c.pool.get i = .ok d → d.KindValid) : checkReferences c = .ok () ↔ c.Linked := by
  have hsuper {x : Except Fault Unit} : (if (c.superClass != 0) = true then do
        let _ ← c.pool.expectTag c.superClass Tags.classRef "super_class"
        x
      else x) = .ok () ↔ (c.superClass ≠ 0 → c.pool.Leads c.superClass Tags.classRef) ∧ x = .ok () := by
    split
    · next hne =>
      have hsuper : c.superClass ≠ 0 := by simpa using hne
      rw [ConstantPool.expectTag_then_eq_ok_iff]
      exact and_congr_left fun _ => ⟨fun hleads _ => hleads, fun hleads => hleads hsuper⟩
    · next heq =>
      have hsuper : c.superClass = 0 := by simpa using heq
      exact (and_iff_right fun hne => (hne hsuper).elim).symm
  have hfield (d : String) : (do let _ ← FieldType.parse d : Except Fault Unit) = .ok () ↔
      ∃ t, FieldType.parse d = .ok t := by
    simp only [except_bind_eq_ok, pure, Except.pure, and_true]
  have hmethod (d : String) : (do let _ ← MethodType.parse d : Except Fault Unit) = .ok () ↔
      ∃ t, MethodType.parse d = .ok t := by
    simp only [except_bind_eq_ok, pure, Except.pure, and_true]
  have hconstants : (∀ a ∈ c.pool.usable, checkConstant c.pool a.1 a.2 = .ok ()) ↔
      ∀ i d, c.pool.get i = .ok d → ConstantLinked c.pool d := by
    simp only [Prod.forall, ConstantPool.mem_usable_iff hsize]
    exact forall₃_congr fun i d hd => checkConstant_eq_ok_iff (hkinds i d hd)
  have hreferences : (∀ a ∈ c.pool.usable, checkMemberRef c.pool a.1 a.2 = .ok ()) ↔
      ∀ i d, c.pool.get i = .ok d → ReferenceLinked c.pool i d := by
    simp only [Prod.forall, ConstantPool.mem_usable_iff hsize, checkMemberRef_eq_ok_iff]
  have hpure : (pure () : Except Fault Unit) = .ok () ↔ True := iff_of_true rfl trivial
  unfold checkReferences
  simp only [except_then_eq_ok, except_forM_eq_ok, ConstantPool.expectTag_then_eq_ok_iff, hsuper, hpure,
    checkMembers_eq_ok_iff, checkAttributes_eq_ok_iff, hfield, hmethod, hconstants, hreferences, and_true,
    List.not_mem_nil, false_imp_iff, implies_true]
  constructor
  · rintro ⟨h₁, h₂, h₃, h₄, h₅, ⟨h₆, h₇⟩, ⟨h₈, h₉⟩, h₁₀⟩
    exact ⟨h₁, h₂, h₃, h₄, h₅, h₆, h₇, h₈, h₉, h₁₀⟩
  · rintro ⟨h₁, h₂, h₃, h₄, h₅, h₆, h₇, h₈, h₉, h₁₀⟩
    exact ⟨h₁, h₂, h₃, h₄, h₅, ⟨h₆, h₇⟩, ⟨h₈, h₉⟩, h₁₀⟩

end Jvm.ClassFile
