import Mathlib
import Jvm.Proofs.ClassFile.Layout
import Jvm.Proofs.ClassFile.References

/-! # What holds of every class file that is read

A class file that is read is `Clean`: its unusable slots are the first one and those behind long and double
constants, its indices lead where they have to at every depth of attributes, everything that is named by an
index can be spelt out, and every code attribute has code that is not too long. -/

namespace Jvm.ClassFile

open Assembly Reader Text

/-- Whether a class file has an attribute, of its own, of a member, or at any depth inside of code. -/
inductive Carries (c : ClassFile) (a : NamedAttribute) : Prop
  | own : Within a c.attributes → Carries c a
  | field {m : MemberInfo} : m ∈ c.fields → Within a m.attributes → Carries c a
  | method {m : MemberInfo} : m ∈ c.methods → Within a m.attributes → Carries c a

/-- Whether nothing in a class file refers to nothing. -/
structure Clean (c : ClassFile) : Prop extends c.Linked where
  first : c.pool.entries[0]? = some .unusable
  slots : ∀ i, c.pool.entries[i + 1]? = some .unusable ↔ ∃ d, c.pool.entries[i]? = some d ∧ d.isWide = true
  named : ∃ name, c.name = .ok name
  superNamed : ∃ name, c.superName = .ok name
  interfacesNamed : ∃ names, c.interfaceNames = .ok names
  members : ∀ i owner nt, c.pool.Refers i owner nt → ∃ m, c.pool.member i = .ok m
  carried : ∀ a, c.Carries a → AttributeLinked c.pool a
  code : ∀ name maxStack maxLocals code handlers inner,
    c.Carries (.mk name (.code maxStack maxLocals code handlers inner)) →
      (1 ≤ code.length ∧ code.length ≤ 65535) ∧
        ∀ h ∈ handlers, h.catchType ≠ 0 → ∃ s, c.pool.className h.catchType = .ok s

/-! ### From the layout -/

section

variable {c : Constant} {cs : List Constant} {bs : List UInt8}

theorem kindValid_of_records (h : Records bs c) : c.KindValid := by
  cases c with
  | methodHandle kind target => exact h.1
  | _ => trivial

theorem Pooled.kindValid (h : Pooled cs bs) : ∀ d ∈ cs, d.KindValid := by
  induction h with
  | nil => simp
  | @cons c bs rest cs hc _ ih =>
    unfold Constant.slots
    split
    · exact List.forall_mem_cons.mpr ⟨kindValid_of_records hc, List.forall_mem_cons.mpr ⟨trivial, ih⟩⟩
    · exact List.forall_mem_cons.mpr ⟨kindValid_of_records hc, ih⟩

/-- Behind a constant that takes one slot, the unusable slots are those behind long and double ones. -/
theorem Pooled.unusable_iff (h : Pooled cs bs) {before : Constant} (hbefore : before.isWide = false) (i : Nat) :
    (before :: cs)[i + 1]? = some .unusable ↔ ∃ d, (before :: cs)[i]? = some d ∧ d.isWide = true := by
  induction h generalizing before i with
  | nil => cases i <;> simp [hbefore]
  | @cons c bs rest cs hc _ ih =>
    have hc : c ≠ .unusable := by
      rintro rfl
      exact hc
    unfold Constant.slots
    split
    · next hwide =>
      match i with
      | 0 => simp [hbefore, hc]
      | 1 => simp [hwide]
      | i + 2 => exact ih rfl i
    · next hnarrow =>
      match i with
      | 0 => simp [hbefore, hc]
      | i + 1 => exact ih (by simpa using hnarrow) i

end

theorem Fits.length_code {pool : ConstantPool} {depth : Nat} {as : List NamedAttribute} {name : UInt16}
    {maxStack maxLocals : UInt16} {code : List UInt8} {handlers : List HandlerRow} {inner : List NamedAttribute}
    (h : Fits pool depth as) (ha : Within (.mk name (.code maxStack maxLocals code handlers inner)) as) :
    1 ≤ code.length ∧ code.length ≤ 65535 := by
  induction ha generalizing depth with
  | mem hmem =>
    cases depth with
    | zero => exact h.elim
    | succ depth =>
      obtain ⟨-, _, -, -, hpos, hle, -⟩ := h.2 _ hmem
      exact ⟨hpos, hle⟩
  | inside hmem _ ih =>
    cases depth with
    | zero => exact h.elim
    | succ depth =>
      obtain ⟨-, _, -, -, -, -, -, hinner⟩ := h.2 _ hmem
      exact ih hinner

theorem Spelt.kindValid {pool : ConstantPool} {spelling : List UInt8} (h : pool.Spelt spelling) {i : UInt16}
    {d : Constant} (hd : pool.get i = .ok d) : d.KindValid := by
  obtain ⟨-, cs, _, hcs, hpooled, -⟩ := h
  obtain ⟨hentry, hne⟩ := ConstantPool.get_eq_ok_iff.mp hd
  rw [← Array.getElem?_toList, hcs] at hentry
  rcases List.mem_cons.mp (List.mem_of_getElem? hentry) with rfl | hmem
  · exact (hne rfl).elim
  · exact hpooled.kindValid d hmem

/-! ### From the references -/

section

variable {c : ClassFile} (h : c.Linked)
include h

theorem Linked.exists_className {i : UInt16} (hi : c.pool.Leads i Tags.classRef) :
    ∃ s, c.pool.className i = .ok s := by
  obtain ⟨j, hj⟩ := ConstantPool.leads_classRef_iff.mp hi
  obtain ⟨s, hs⟩ := ConstantPool.leads_utf8_iff.mp (h.constants i _ hj)
  exact ⟨s, ConstantPool.className_eq_ok_iff.mpr ⟨j, hj, hs⟩⟩

theorem Linked.exists_nameAndType {i : UInt16} (hi : c.pool.Leads i Tags.nameAndType) :
    ∃ s, c.pool.nameAndType i = .ok s := by
  obtain ⟨j, k, hjk⟩ := ConstantPool.leads_nameAndType_iff.mp hi
  obtain ⟨hj, hk⟩ := h.constants i _ hjk
  obtain ⟨name, hname⟩ := ConstantPool.leads_utf8_iff.mp hj
  obtain ⟨type, htype⟩ := ConstantPool.leads_utf8_iff.mp hk
  exact ⟨(name, type), ConstantPool.nameAndType_eq_ok_iff.mpr ⟨j, k, hjk, hname, htype⟩⟩

theorem Linked.exists_member {i owner nt : UInt16} (hi : c.pool.Refers i owner nt) :
    ∃ m, c.pool.member i = .ok m := by
  have hlinked : c.pool.Leads owner Tags.classRef ∧ c.pool.Leads nt Tags.nameAndType := by
    rcases hi with hi | hi | hi <;> exact h.constants i _ hi
  obtain ⟨ownerName, howner⟩ := h.exists_className hlinked.1
  obtain ⟨⟨name, descriptor⟩, hnt⟩ := h.exists_nameAndType hlinked.2
  exact ⟨⟨ownerName, name, descriptor⟩, ConstantPool.member_eq_ok_iff.mpr ⟨owner, nt, hi, howner, hnt⟩⟩

theorem Linked.attribute {a : NamedAttribute} (ha : c.Carries a) : AttributeLinked c.pool a := by
  cases ha with
  | own ha => exact h.attributes a ha
  | field hm ha => exact (h.fields _ hm).attributes a ha
  | method hm ha => exact (h.methods _ hm).attributes a ha

theorem Linked.exists_superName : ∃ name, c.superName = .ok name := by
  unfold superName
  split
  · exact ⟨_, rfl⟩
  · next hne =>
    obtain ⟨s, hs⟩ := h.exists_className (h.superClass hne)
    exact ⟨some s, by rw [hs, Except.map]⟩

end

theorem exists_mapM_eq_ok {α β ε : Type} {f : α → Except ε β} {l : List α} (h : ∀ a ∈ l, ∃ b, f a = .ok b) :
    ∃ bs, l.mapM f = .ok bs := by
  induction l with
  | nil => exact ⟨[], rfl⟩
  | cons a l ih =>
    obtain ⟨⟨b, hb⟩, hl⟩ := List.forall_mem_cons.mp h
    obtain ⟨bs, hbs⟩ := ih hl
    exact ⟨b :: bs, by rw [List.mapM_cons, hb, hbs]; rfl⟩

/-- **A class file that is read is clean.** -/
theorem clean_of_parse {bytes : List UInt8} {c : ClassFile} (h : parse bytes = .ok c) : c.Clean := by
  obtain ⟨hcheck, hfit, spelling, hpool, -⟩ := parse_eq_ok_iff.mp h
  have hsize : c.pool.size ≤ 0x10000 := hpool.1.trans (by decide)
  have hlinked : c.Linked := (checkReferences_eq_ok_iff hsize fun i d => Spelt.kindValid hpool).mp hcheck
  obtain ⟨-, cs, _, hcs, hpooled, -⟩ := hpool
  refine { hlinked with
    first := ?_
    slots := fun i => ?_
    named := hlinked.exists_className hlinked.thisClass
    superNamed := hlinked.exists_superName
    interfacesNamed := exists_mapM_eq_ok fun i hi => hlinked.exists_className (hlinked.interfaces i hi)
    members := fun i owner nt => hlinked.exists_member
    carried := fun a => hlinked.attribute
    code := fun name maxStack maxLocals code handlers inner ha => ⟨?_, fun row hrow hne => ?_⟩ }
  · rw [← Array.getElem?_toList, hcs]
    rfl
  · simp only [← Array.getElem?_toList, hcs]
    exact hpooled.unusable_iff rfl i
  · cases ha with
    | own ha => exact hfit.attributes.length_code ha
    | field hm ha => exact (hfit.fields.2 _ hm).length_code ha
    | method hm ha => exact (hfit.methods.2 _ hm).length_code ha
  · exact hlinked.exists_className ((hlinked.attribute ha).2 row hrow hne)

/-- A class with a long constant as the value of a field, and a handler that catches the class itself. -/
def catchesItself : ClassFile where
  minor := 0
  major := 52
  pool := ⟨#[.unusable, .utf8 "A", .classRef 1, .utf8 "f", .utf8 "J", .utf8 "ConstantValue", .long 7, .unusable,
    .utf8 "m", .utf8 "()V", .utf8 "Code"]⟩
  access := ⟨0x21⟩
  thisClass := 2
  superClass := 0
  interfaces := []
  fields := [⟨⟨8⟩, 3, 4, [.mk 5 (.constantValue 6)]⟩]
  methods := [⟨⟨1⟩, 8, 9, [.mk 10 (.code 1 1 [0xB1] [⟨0, 1, 0, 2⟩] [])]⟩]
  attributes := []

theorem clean_catchesItself : parse catchesItself.toBytes = .ok catchesItself ∧ catchesItself.Clean := by
  have hparse : parse catchesItself.toBytes = .ok catchesItself := by cbv
  exact ⟨hparse, clean_of_parse hparse⟩

end Jvm.ClassFile
