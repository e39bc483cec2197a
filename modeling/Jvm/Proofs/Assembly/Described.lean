import Mathlib
import Jvm.Proofs.Assembly.Instructions
import Jvm.Proofs.Assembly.Written
import Jvm.Proofs.ClassFile.Accepted
import Jvm.Proofs.ClassFile.RoundTrip

/-! # Assembled classes are read as they were described

The class file that assembling a description writes is read again (`parse_assemble`), with the names, the
flags, the members and the code of the description. -/

namespace Jvm.Assembly

open ClassFile Reader

/-! ### Finished pools -/

namespace Pool

variable {p : Pool} {i : UInt16} {c : Constant}

theorem get_finished (hfits : p.overflow = false) (h : p.Holds i c) (hc : c ≠ .unusable) :
    p.finished.get i = .ok c := by
  refine ConstantPool.get_eq_ok_iff.mpr ⟨?_, hc⟩
  have hat := h hfits
  unfold at? at hat
  split at hat
  · cases hat
  · next hne =>
    have hpos : i.toNat ≠ 0 := fun h => hne (UInt16.toNat_inj.mp h)
    obtain ⟨n, hn⟩ := Nat.exists_eq_succ_of_ne_zero hpos
    rw [hn, Nat.succ_sub_one] at hat
    rw [hn, finished, ← Array.getElem?_toList]
    simpa using hat

theorem Holds.ne_zero (hfits : p.overflow = false) (h : p.Holds i c) : i ≠ 0 := by
  rintro rfl
  cases h hfits

theorem mem_of_get_finished (h : p.finished.get i = .ok c) : c ∈ p.entries.toList ∧ c ≠ .unusable := by
  obtain ⟨hentry, hc⟩ := ConstantPool.get_eq_ok_iff.mp h
  have hmem := Array.mem_of_getElem? hentry
  simp only [finished, Array.mem_append, List.mem_toArray, List.mem_singleton] at hmem
  exact ⟨by simpa using hmem.resolve_left hc, hc⟩

section

variable (hfits : p.overflow = false)
include hfits

theorem utf8_finished {s : String} (h : p.Holds i (.utf8 s)) : p.finished.utf8 i = .ok s :=
  ConstantPool.utf8_eq_ok_iff.mpr (get_finished hfits h (by simp))

theorem className_finished {s : String} (h : p.Names i (.classRef s)) : p.finished.className i = .ok s := by
  obtain ⟨j, hi, hj⟩ := h
  exact ConstantPool.className_eq_ok_iff.mpr ⟨j, get_finished hfits hi (by simp), utf8_finished hfits hj⟩

theorem leads_utf8_finished {s : String} (h : p.Holds i (.utf8 s)) : p.finished.Leads i Tags.utf8 :=
  ⟨_, get_finished hfits h (by simp), rfl⟩

theorem leads_classRef_finished {s : String} (h : p.Names i (.classRef s)) : p.finished.Leads i Tags.classRef := by
  obtain ⟨j, hi, -⟩ := h
  exact ⟨_, get_finished hfits hi (by simp), rfl⟩

theorem nameAndType_finished {name descriptor : String} (h : p.Names i (.nameAndType name descriptor)) :
    p.finished.Leads i Tags.nameAndType ∧ p.finished.nameAndType i = .ok (name, descriptor) := by
  obtain ⟨j, k, hi, hj, hk⟩ := h
  have hget := get_finished hfits hi (by simp)
  exact ⟨⟨_, hget, rfl⟩, ConstantPool.nameAndType_eq_ok_iff.mpr
    ⟨j, k, hget, utf8_finished hfits hj, utf8_finished hfits hk⟩⟩

theorem constantLinked_finished (hc : p.Backs c) : ConstantLinked p.finished c := by
  cases c with
  | classRef | string =>
    obtain ⟨s, hs⟩ := hc
    exact leads_utf8_finished hfits hs
  | nameAndType =>
    obtain ⟨s, t, hs, ht⟩ := hc
    exact ⟨leads_utf8_finished hfits hs, leads_utf8_finished hfits ht⟩
  | fieldRef | methodRef | interfaceMethodRef =>
    obtain ⟨_, _, _, _, howner, hnt, -⟩ := hc
    exact ⟨leads_classRef_finished hfits howner, (nameAndType_finished hfits hnt).1⟩
  | utf8 | integer | float | long | double => trivial
  | unusable | methodHandle | methodType | invokeDynamic => exact hc.elim

theorem referenceLinked_finished (hi : p.finished.get i = .ok c) (hc : p.Backs c) :
    ReferenceLinked p.finished i c := by
  have hmember {owner nt : UInt16} {ownerName name descriptor : String} (hrefers : p.finished.Refers i owner nt)
      (howner : p.Names owner (.classRef ownerName)) (hnt : p.Names nt (.nameAndType name descriptor)) :
      p.finished.member i = .ok ⟨ownerName, name, descriptor⟩ :=
    ConstantPool.member_eq_ok_iff.mpr ⟨owner, nt, hrefers, className_finished hfits howner,
      (nameAndType_finished hfits hnt).2⟩
  cases c with
  | fieldRef owner nt =>
    obtain ⟨_, _, _, t, howner, hnt, ht⟩ := hc
    exact ⟨_, t, hmember (.inl hi) howner hnt, ht⟩
  | methodRef owner nt =>
    obtain ⟨_, _, _, t, howner, hnt, ht⟩ := hc
    exact ⟨_, t, hmember (.inr (.inl hi)) howner hnt, ht⟩
  | interfaceMethodRef owner nt =>
    obtain ⟨_, _, _, t, howner, hnt, ht⟩ := hc
    exact ⟨_, t, hmember (.inr (.inr hi)) howner hnt, ht⟩
  | _ => trivial

end

theorem spelt_finished (hp : p.WellMade) (hsize : p.entries.size ≤ 65534) : p.finished.Spelt p.finished.bytes := by
  have hlist : p.finished.entries.toList = .unusable :: p.entries.toList := by simp [finished]
  refine ⟨?_, _, _, hlist, hp.laidOut, ?_⟩
  · simp only [ConstantPool.size, finished, Array.size_append, List.size_toArray, List.length_singleton]
    omega
  · rw [ConstantPool.bytes, hlist]
    rfl

end Pool

/-! ### Descriptions of class files -/

/-- Whether a description keeps to what class files can hold: its version, entries, descriptors, numbers of
parts and sizes of code. -/
structure ClassText.Regular (c : ClassText) : Prop where
  major : 45 ≤ c.major ∧ c.major ≤ 65
  entries : ∀ e ∈ c.entries, e.Fine
  fieldDescriptors : ∀ f ∈ c.fields, ∃ t, FieldType.parse f.descriptor = .ok t
  methodDescriptors : ∀ m ∈ c.methods, ∃ t, MethodType.parse m.descriptor = .ok t
  distinctFields : (c.fields.map fun f => (f.name, f.descriptor)).Nodup
  distinctMethods : (c.methods.map fun m => (m.name, m.descriptor)).Nodup
  counts : c.interfaces.length ≤ 65535 ∧ c.fields.length ≤ 65535 ∧ c.methods.length ≤ 65535
  tables : ∀ m ∈ c.methods, ∀ statements ∈ m.code, (statements.filterMap Statement.handler?).length ≤ 65535 ∧
    (statements.filterMap Statement.line?).length ≤ 65535
  code : ∀ m ∈ c.methods, ∀ statements ∈ m.code, ∀ d, c.HasDraft m statements d → 1 ≤ d.size ∧ d.size ≤ 65535
  pool : ∀ d pool, Writer.calls c.name c.superName c.calls .empty = .ok (d, pool) → pool.entries.size ≤ 65534

/-- Whether an initial value is at an index. -/
def HasValue (pool : ConstantPool) (i : UInt16) : FieldValue → Prop
  | .int v => pool.get i = .ok (.integer v)
  | .long v => pool.get i = .ok (.long v)
  | .float bits => pool.get i = .ok (.float bits)
  | .double bits => pool.get i = .ok (.double bits)
  | .string s => ∃ j, pool.get i = .ok (.string j) ∧ pool.utf8 j = .ok s

/-- Whether a field of a class file is the one described. -/
structure FieldDescribed (pool : ConstantPool) (f : FieldText) (i : MemberInfo) : Prop where
  access : i.access = f.access
  name : pool.utf8 i.name = .ok f.name
  descriptor : pool.utf8 i.descriptor = .ok f.descriptor
  value : f.value = none ∧ i.constantValue? = none ∨
    ∃ v index, f.value = some v ∧ i.constantValue? = some index ∧ HasValue pool index v

/-- Whether a label stands at an offset of the code of some statements. -/
def LabelAt (Drafted : List Statement → Draft → Prop) (statements : List Statement) (l : Label) (n : Nat) : Prop :=
  ∃ before, Stands Drafted statements before (.label l) n

/-- Whether a row of an exception table is for a handler that is described, where labels are. -/
structure RowDescribed (pool : ConstantPool) (At : Label → Nat → Prop)
    (asked : Label × Label × Label × Option String) (row : HandlerRow) : Prop where
  start : At asked.1 row.start.toNat
  stop : At asked.2.1 row.stop.toNat
  handler : At asked.2.2.1 row.handler.toNat
  catchType : asked.2.2.2 = none ∧ row.catchType = 0 ∨
    ∃ name, asked.2.2.2 = some name ∧ row.catchType ≠ 0 ∧ pool.className row.catchType = .ok name

/-- Whether some code is that of described statements, which come to a draft; `Drafted` says which draft
those in front of a statement come to. -/
structure CodeDescribed (pool : ConstantPool) (Drafted : List Statement → Draft → Prop)
    (statements : List Statement) (d : Draft) (k : CodeAttribute) : Prop where
  maxStack : k.maxStack = d.maxStack
  maxLocals : k.maxLocals = d.maxLocals
  code : Spells d d.pieces.reverse k.code
  labels : ∀ l n, d.labels.lookup l = some n → LabelAt Drafted statements l n
  handlers : List.Forall₂ (RowDescribed pool (LabelAt Drafted statements))
    (statements.filterMap Statement.handler?) k.handlers
  lines : k.lines.map LineRow.line = statements.filterMap Statement.line?
  marks : ∀ i row, k.lines[i]? = some row → ∃ before, (before.filterMap Statement.line?).length = i ∧
    Stands Drafted statements before (.line row.line) row.start.toNat

/-- Whether a method of a class file is the one described; `Drafted` says of a draft whether it is that of the
method. -/
structure MethodDescribed (pool : ConstantPool) (Drafted : List Statement → Draft → Prop) (m : MethodText)
    (i : MemberInfo) : Prop where
  access : i.access = m.access
  name : pool.utf8 i.name = .ok m.name
  descriptor : pool.utf8 i.descriptor = .ok m.descriptor
  code : m.code = none ∧ i.code? = none ∨ ∃ statements d k, m.code = some statements ∧ i.code? = some k ∧
    Drafted statements d ∧ CodeDescribed pool Drafted statements d k

/-- Whether a class file is the one described. -/
structure Describes (c : ClassText) (f : ClassFile) : Prop where
  major : f.major = c.major
  name : f.name = .ok c.name
  superName : f.superName = .ok c.superName
  access : f.access = c.access
  interfaces : f.interfaceNames = .ok c.interfaces
  fields : List.Forall₂ (FieldDescribed f.pool) c.fields f.fields
  methods : List.Forall₂ (fun m i => MethodDescribed f.pool (c.HasDraft m) m i) c.methods f.methods
  source : f.sourceFile? = c.source

theorem forall₂_trans {α β γ : Type} {R : α → β → Prop} {S : β → γ → Prop} {T : α → γ → Prop} {as : List α}
    {bs : List β} {cs : List γ} (h : List.Forall₂ R as bs) (h' : List.Forall₂ S bs cs)
    (hT : ∀ a b c, R a b → S b c → T a c) : List.Forall₂ T as cs := by
  induction h generalizing cs with
  | nil =>
    cases h'
    exact .nil
  | cons hab _ ih =>
    cases h' with
    | cons hbc hbs => exact .cons (hT _ _ _ hab hbc) (ih hbs)

theorem Finished.lines_eq {pool : Pool} {d : Draft} {k : CodeAttribute} (h : Finished d pool k) :
    k.lines = d.lines.reverse := by
  rcases h.attributes with ⟨hnil, has⟩ | ⟨n, -, has⟩
  · rw [CodeAttribute.lines, has, hnil]
    rfl
  · rw [CodeAttribute.lines, has]
    simp [NamedAttribute.body]

section

variable {pool : Pool} (hfits : pool.overflow = false)
include hfits

theorem hasValue_finished {v : FieldValue} {i : UInt16} (h : pool.Names i v.entry) :
    HasValue pool.finished i v := by
  cases v with
  | string s =>
    obtain ⟨j, hi, hj⟩ := h
    exact ⟨j, Pool.get_finished hfits hi (by simp), Pool.utf8_finished hfits hj⟩
  | _ => exact Pool.get_finished hfits h (by simp)

theorem FieldWritten.described {f : FieldText} {i : MemberInfo} (h : FieldWritten pool f i) :
    FieldDescribed pool.finished f i := by
  refine ⟨h.access, Pool.utf8_finished hfits h.name, Pool.utf8_finished hfits h.descriptor, ?_⟩
  rcases h.attributes with ⟨hnone, has⟩ | ⟨v, name, index, hv, hindex, -, has⟩
  · exact .inl ⟨hnone, by rw [MemberInfo.constantValue?, has]; rfl⟩
  · exact .inr ⟨v, index, hv, by rw [MemberInfo.constantValue?, has]; rfl, hasValue_finished hfits hindex⟩

theorem row_described {Drafted : List Statement → Draft → Prop} {p : Pool} {statements : List Statement}
    {d : Draft} (hdrafts : Drafts p Drafted statements d) (hsize : d.size ≤ 65535)
    {asked : Label × Label × Label × Option String} {h : LabelledHandler} {row : HandlerRow}
    (hh : Handles pool asked h) (hrow : RowOf d h row) :
    RowDescribed pool.finished (LabelAt Drafted statements) asked row := by
  obtain ⟨start, stop, handler, hstart, hstop, hhandler, rfl⟩ := hrow
  have hat {l l' : Label} {n : Nat} (hl : l' = l) (hn : d.labels.lookup l' = some n) :
      LabelAt Drafted statements l n.toUInt16.toNat := by
    obtain ⟨hle, hstands⟩ := hdrafts.labels l' n (mem_of_lookup hn)
    rw [toNat_toUInt16 (hle.trans hsize)]
    exact hl ▸ hstands
  refine ⟨hat hh.start hstart, hat hh.stop hstop, hat hh.handler hhandler, ?_⟩
  have hcatch := hh.catchType
  cases hasked : asked.2.2.2 with
  | none =>
    rw [hasked] at hcatch
    exact .inl ⟨rfl, hcatch⟩
  | some name =>
    rw [hasked] at hcatch
    have hname := Pool.className_finished hfits (i := h.catchType) (s := name) hcatch
    obtain ⟨_, hclass, -⟩ := hcatch
    exact .inr ⟨name, rfl, hclass.ne_zero hfits, hname⟩

theorem CodeWritten.described {Drafted : List Statement → Draft → Prop} {statements : List Statement} {d : Draft}
    {k : CodeAttribute} (h : CodeWritten pool Drafted statements d k) (hsize : d.size ≤ 65535) :
    CodeDescribed pool.finished Drafted statements d k := by
  obtain ⟨-, ⟨_, hdrafts⟩, hfinished, hhandles⟩ := h
  refine ⟨hfinished.maxStack, hfinished.maxLocals, hfinished.code,
    fun l n hl => (hdrafts.labels l n (mem_of_lookup hl)).2, ?_, ?_, fun i row hrow => ?_⟩
  · exact forall₂_trans hhandles hfinished.handlers fun asked handler row hh hrow =>
      row_described hfits hdrafts hsize hh hrow
  · rw [hfinished.lines_eq, hdrafts.lines]
  · rw [hfinished.lines_eq] at hrow
    obtain ⟨n, hn, hstart, before, hi, hstands⟩ := hdrafts.marks i row hrow
    exact ⟨before, hi, by rw [hstart, toNat_toUInt16 (hn.trans hsize)]; exact hstands⟩

theorem MethodWritten.described {Drafted : List Statement → Draft → Prop} {m : MethodText} {i : MemberInfo}
    (h : MethodWritten pool Drafted m i)
    (hcode : ∀ statements ∈ m.code, ∀ d, Drafted statements d → d.size ≤ 65535) :
    MethodDescribed pool.finished Drafted m i := by
  refine ⟨h.access, Pool.utf8_finished hfits h.name, Pool.utf8_finished hfits h.descriptor, ?_⟩
  rcases h.attributes with ⟨hnone, has⟩ | ⟨statements, name, d, k, hm, hwritten, -, has⟩
  · exact .inl ⟨hnone, by rw [MemberInfo.code?, has]; rfl⟩
  · have hsize := hcode statements hm d hwritten.drafted
    exact .inr ⟨statements, d, k, hm, by rw [MemberInfo.code?, has]; rfl, hwritten.drafted,
      hwritten.described hfits hsize⟩

end

/-! ### Linking and layout -/

theorem forall₂_singleton {α β : Type} {R : α → β → Prop} {a : α} {bs : List β} (h : List.Forall₂ R [a] bs) :
    ∃ b, R a b ∧ bs = [b] := by
  obtain ⟨b, _, hb, hnil, rfl⟩ := List.forall₂_cons_left_iff.mp h
  cases hnil
  exact ⟨b, hb, rfl⟩

theorem fits_nil (pool : ConstantPool) (depth : Nat) : Fits pool (depth + 1) [] := ⟨Nat.zero_le _, by simp⟩

theorem fits_singleton {pool : ConstantPool} {depth : Nat} {n : UInt16} {body : Attribute} {name : String}
    (hlength : body.bytes.length < 2 ^ 32) (hname : pool.utf8 n = .ok name)
    (hbody : FitsBody (Fits pool depth) name body) : Fits pool (depth + 1) [.mk n body] :=
  ⟨by simp, by simpa using ⟨hlength, name, hname, hbody⟩⟩

section

variable {pool : Pool} (hfits : pool.overflow = false)
include hfits

theorem FieldWritten.linked {f : FieldText} {i : MemberInfo} (h : FieldWritten pool f i)
    (hf : ∃ t, FieldType.parse f.descriptor = .ok t) :
    MemberLinked pool.finished (fun d => ∃ t, FieldType.parse d = .ok t) i := by
  refine ⟨⟨_, Pool.utf8_finished hfits h.name⟩, ⟨_, Pool.utf8_finished hfits h.descriptor, hf⟩, fun a ha => ?_⟩
  rcases h.attributes with ⟨-, has⟩ | ⟨v, name, index, -, hindex, hname, has⟩
  · rw [has] at ha
    exact (within_nil a ha).elim
  · rw [has, within_singleton_iff] at ha
    rcases ha with rfl | ha
    · refine ⟨Pool.leads_utf8_finished hfits hname, ?_⟩
      cases v with
      | string s =>
        obtain ⟨j, hi, -⟩ := hindex
        exact ⟨_, Pool.get_finished hfits hi (by simp), rfl⟩
      | _ => exact ⟨_, Pool.get_finished hfits hindex (by simp), rfl⟩
    · cases ha

theorem MethodWritten.linked {Drafted : List Statement → Draft → Prop} {m : MethodText} {i : MemberInfo}
    (h : MethodWritten pool Drafted m i) (hm : ∃ t, MethodType.parse m.descriptor = .ok t) :
    MemberLinked pool.finished (fun d => ∃ t, MethodType.parse d = .ok t) i := by
  refine ⟨⟨_, Pool.utf8_finished hfits h.name⟩, ⟨_, Pool.utf8_finished hfits h.descriptor, hm⟩, fun a ha => ?_⟩
  rcases h.attributes with ⟨-, has⟩ | ⟨statements, name, d, k, -, hwritten, hname, has⟩
  · rw [has] at ha
    exact (within_nil a ha).elim
  rw [has, within_singleton_iff] at ha
  rcases ha with rfl | ha
  · refine ⟨Pool.leads_utf8_finished hfits hname, fun row hrow hne => ?_⟩
    -- the class that the row catches is that of a handler, which was asked for
    obtain ⟨handler, hhandler, _, _, _, -, -, -, rfl⟩ := mem_of_forall₂ hwritten.finished.handlers row hrow
    obtain ⟨⟨_, _, _, catchType⟩, -, hh⟩ := mem_of_forall₂ hwritten.handlers handler hhandler
    cases catchType with
    | none => exact (hne hh.catchType).elim
    | some s => exact Pool.leads_classRef_finished hfits hh.catchType
  · cases ha with
    | code ha =>
      rcases hwritten.finished.attributes with ⟨-, hk⟩ | ⟨n, hn, hk⟩
      · rw [hk] at ha
        exact (within_nil a ha).elim
      · rw [hk, within_singleton_iff] at ha
        rcases ha with rfl | ha
        · exact ⟨Pool.leads_utf8_finished hfits hn, trivial⟩
        · cases ha

theorem sources_linked {source : Option String} {as : List NamedAttribute}
    (h : List.Forall₂ (SourceWritten pool) source.toList as) (a : NamedAttribute) (ha : Within a as) :
    AttributeLinked pool.finished a := by
  cases source with
  | none =>
    cases h
    exact (within_nil a ha).elim
  | some file =>
    obtain ⟨_, ⟨name, index, hname, hindex, rfl⟩, rfl⟩ := forall₂_singleton h
    rcases within_singleton_iff.mp ha with rfl | ha
    · exact ⟨Pool.leads_utf8_finished hfits hname, Pool.leads_utf8_finished hfits hindex⟩
    · cases ha

theorem FieldWritten.fits {f : FieldText} {i : MemberInfo} (h : FieldWritten pool f i) (depth : Nat) :
    Fits pool.finished (depth + 1) i.attributes := by
  rcases h.attributes with ⟨-, has⟩ | ⟨v, name, index, -, -, hname, has⟩
  · exact has ▸ fits_nil _ _
  · rw [has]
    exact fits_singleton (by simp [Attribute.bytes]) (Pool.utf8_finished hfits hname) rfl

theorem sources_fit {source : Option String} {as : List NamedAttribute}
    (h : List.Forall₂ (SourceWritten pool) source.toList as) (depth : Nat) : Fits pool.finished (depth + 1) as := by
  cases source with
  | none =>
    cases h
    exact fits_nil _ _
  | some file =>
    obtain ⟨_, ⟨name, index, hname, -, rfl⟩, rfl⟩ := forall₂_singleton h
    exact fits_singleton (by simp [Attribute.bytes]) (Pool.utf8_finished hfits hname) rfl

/-- The attributes inside of code fit, and leave its length far below 32 bits. -/
theorem Finished.fits {d : Draft} {k : CodeAttribute} (h : Finished d pool k) (hlines : d.lines.length ≤ 65535)
    (depth : Nat) : Fits pool.finished (depth + 1) k.attributes ∧
      (NamedAttribute.listBytes k.attributes).length ≤ 8 + 4 * 65535 := by
  rw [← List.length_reverse] at hlines
  rcases h.attributes with ⟨-, hk⟩ | ⟨n, hn, hk⟩
  · rw [hk]
    exact ⟨fits_nil _ _, by simp [NamedAttribute.listBytes]⟩
  · rw [hk]
    refine ⟨fits_singleton ?_ (Pool.utf8_finished hfits hn) ⟨rfl, hlines⟩, ?_⟩
    · rw [Attribute.bytes, length_lineRows]
      omega
    · rw [NamedAttribute.listBytes, NamedAttribute.listBytes, List.append_nil, NamedAttribute.length_bytes,
        NamedAttribute.body, Attribute.bytes, length_lineRows]
      omega

theorem MethodWritten.fits {Drafted : List Statement → Draft → Prop} {m : MethodText} {i : MemberInfo}
    (h : MethodWritten pool Drafted m i) (depth : Nat)
    (hcode : ∀ statements ∈ m.code, ∀ d, Drafted statements d → 1 ≤ d.size ∧ d.size ≤ 65535)
    (htables : ∀ statements ∈ m.code, (statements.filterMap Statement.handler?).length ≤ 65535 ∧
      (statements.filterMap Statement.line?).length ≤ 65535) :
    Fits pool.finished (depth + 2) i.attributes := by
  rcases h.attributes with ⟨-, has⟩ | ⟨statements, name, d, k, hm, hwritten, hname, has⟩
  · exact has ▸ fits_nil _ _
  rw [has]
  obtain ⟨hdrafted, ⟨_, hdrafts⟩, hfinished, hhandles⟩ := hwritten
  obtain ⟨hpos, hle⟩ := hcode statements hm d hdrafted
  obtain ⟨hhandlers, hlines⟩ := htables statements hm
  have hlength : k.code.length = d.size := by
    rw [hfinished.code.length, hdrafts.size, piecesSize, piecesSize, List.map_reverse, List.sum_reverse]
  rw [hhandles.length_eq, hfinished.handlers.length_eq] at hhandlers
  rw [← hdrafts.lines, List.length_map, List.length_reverse] at hlines
  obtain ⟨hnested, hnestedLength⟩ := hfinished.fits hfits hlines depth
  refine fits_singleton ?_ (Pool.utf8_finished hfits hname)
    ⟨rfl, hlength ▸ hpos, hlength ▸ hle, hhandlers, hnested⟩
  simp only [codeBody, Attribute.bytes, List.length_append, length_bytes2, length_bytes4, length_handlerRows]
  omega

end

/-! ### Assembling and reading -/

theorem forall₂_mapM {α β ε : Type} {f : β → Except ε α} {as : List α} {bs : List β}
    (h : List.Forall₂ (fun a b => f b = .ok a) as bs) : bs.mapM f = .ok as := by
  induction h with
  | nil => rfl
  | cons hab _ ih =>
    rw [List.mapM_cons, hab, ih]
    rfl

theorem forall₂_map_eq {α β γ : Type} {f : α → γ} {g : β → γ} {as : List α} {bs : List β}
    (h : List.Forall₂ (fun a b => f a = g b) as bs) : as.map f = bs.map g := by
  rw [← List.forall₂_eq_eq_eq, List.forall₂_map_left_iff, List.forall₂_map_right_iff]
  exact h

/-- Members that have the names and descriptors of others are as distinct. -/
theorem nodup_keys {α : Type} {pool : ConstantPool} {name descriptor : α → String} {as : List α}
    {ms : List MemberInfo} (h : List.Forall₂ (fun a m => pool.utf8 m.name = .ok (name a) ∧
      pool.utf8 m.descriptor = .ok (descriptor a)) as ms)
    (has : (as.map fun a => (name a, descriptor a)).Nodup) : (ms.map (·.key pool)).Nodup := by
  have hkeys : (as.map fun a => (name a, descriptor a)).map
      (fun k => ((.ok k.1, .ok k.2) : Except Fault String × Except Fault String)) = ms.map (·.key pool) := by
    rw [List.map_map]
    exact forall₂_map_eq (h.imp fun a m ⟨hname, hdescriptor⟩ => by simp [MemberInfo.key, hname, hdescriptor])
  rw [← hkeys]
  refine has.map fun k l hkl => ?_
  simp only [Prod.mk.injEq, Except.ok.injEq] at hkl
  exact Prod.ext hkl.1 hkl.2

section

variable {c : ClassText} {f : ClassFile} {pool : Pool} (h : ClassWritten pool c f) (hc : c.Regular)
  (hfits : pool.overflow = false) (hf : f.pool = pool.finished)
include h hc hfits hf

theorem ClassWritten.describes : Describes c f where
  major := h.major
  name := by
    rw [ClassFile.name, hf]
    exact Pool.className_finished hfits h.thisClass
  superName := by
    rw [ClassFile.superName, hf]
    rcases h.superClass with ⟨hnone, hzero⟩ | ⟨s, hs, hsuper⟩
    · rw [if_pos hzero, hnone]
    · have hname := Pool.className_finished hfits hsuper
      obtain ⟨_, hclass, -⟩ := hsuper
      rw [if_neg (hclass.ne_zero hfits), hname, hs]
      rfl
  access := h.access
  interfaces := by
    rw [ClassFile.interfaceNames, hf]
    exact forall₂_mapM (h.interfaces.imp fun _ _ hi => Pool.className_finished hfits hi)
  fields := hf ▸ h.fields.imp fun _ _ hi => hi.described hfits
  methods := by
    rw [hf]
    refine ((List.forall₂_and_left _ _).mpr ⟨hc.code, h.methods⟩).imp fun m i hi => ?_
    exact hi.2.described hfits fun statements hm d hd => (hi.1 statements hm d hd).2
  source := by
    rw [ClassFile.sourceFile?, hf]
    have hsource := h.attributes
    cases hfile : c.source with
    | none =>
      rw [hfile] at hsource
      rw [List.forall₂_nil_left_iff.mp hsource]
      rfl
    | some file =>
      rw [hfile] at hsource
      obtain ⟨_, ⟨name, index, -, hindex, rfl⟩, has⟩ := forall₂_singleton hsource
      rw [has]
      simp [NamedAttribute.body, Pool.utf8_finished hfits hindex, Except.toOption]

theorem ClassWritten.linked (hp : pool.WellMade) : f.Linked where
  constants i d hd := by
    rw [hf] at hd ⊢
    obtain ⟨hmem, hne⟩ := Pool.mem_of_get_finished hd
    exact Pool.constantLinked_finished hfits (hp.backs d hmem hne)
  references i d hd := by
    rw [hf] at hd ⊢
    obtain ⟨hmem, hne⟩ := Pool.mem_of_get_finished hd
    exact Pool.referenceLinked_finished hfits hd (hp.backs d hmem hne)
  thisClass := hf ▸ Pool.leads_classRef_finished hfits h.thisClass
  superClass hne := by
    rcases h.superClass with ⟨-, hzero⟩ | ⟨s, -, hsuper⟩
    · exact (hne hzero).elim
    · exact hf ▸ Pool.leads_classRef_finished hfits hsuper
  interfaces i hi := by
    obtain ⟨name, -, hname⟩ := mem_of_forall₂ h.interfaces i hi
    exact hf ▸ Pool.leads_classRef_finished hfits hname
  fields m hm := by
    obtain ⟨t, ht, hwritten⟩ := mem_of_forall₂ h.fields m hm
    exact hf ▸ hwritten.linked hfits (hc.fieldDescriptors t ht)
  distinctFields := by
    refine nodup_keys (h.fields.imp fun t m hm => ?_) hc.distinctFields
    exact hf ▸ ⟨Pool.utf8_finished hfits hm.name, Pool.utf8_finished hfits hm.descriptor⟩
  methods m hm := by
    obtain ⟨t, ht, hwritten⟩ := mem_of_forall₂ h.methods m hm
    exact hf ▸ hwritten.linked hfits (hc.methodDescriptors t ht)
  distinctMethods := by
    refine nodup_keys (h.methods.imp fun t m hm => ?_) hc.distinctMethods
    exact hf ▸ ⟨Pool.utf8_finished hfits hm.name, Pool.utf8_finished hfits hm.descriptor⟩
  attributes a ha := hf ▸ sources_linked hfits h.attributes a ha

/-- Attributes are nested at most twice: in members, and in the code of methods. -/
theorem ClassWritten.fit : f.Fit 2 where
  major := h.major ▸ hc.major
  interfaces := h.interfaces.length_eq ▸ hc.counts.1
  fields := by
    refine ⟨h.fields.length_eq ▸ hc.counts.2.1, fun m hm => ?_⟩
    obtain ⟨t, -, hwritten⟩ := mem_of_forall₂ h.fields m hm
    exact hf ▸ hwritten.fits hfits 1
  methods := by
    refine ⟨h.methods.length_eq ▸ hc.counts.2.2, fun m hm => ?_⟩
    obtain ⟨t, ht, hwritten⟩ := mem_of_forall₂ h.methods m hm
    exact hf ▸ hwritten.fits hfits 0 (hc.code t ht) (hc.tables t ht)
  attributes := hf ▸ sources_fit hfits h.attributes 1

end

/-- **What is assembled is read as it was described.** -/
theorem parse_assemble {c : ClassText} {bytes : List UInt8} (hc : c.Regular) (h : c.assemble = .ok bytes) :
    ∃ f, parse bytes = .ok f ∧ Describes c f := by
  obtain ⟨f, d, pool, hrun, hfits, rfl, hf, hasks, hwritten⟩ := written_of_assemble h
  have hp : pool.WellMade := Pool.wellMade_empty.asks (hasks.mono hc.entries)
  have hspelt : f.pool.Spelt pool.finished.bytes := hf ▸ Pool.spelt_finished hp (hc.pool d pool hrun)
  have hsize : f.pool.size ≤ 0x10000 := hspelt.1.trans (by norm_num)
  have hcheck : checkReferences f = .ok () :=
    (checkReferences_eq_ok_iff hsize fun _ _ => Spelt.kindValid hspelt).mpr (hwritten.linked hc hfits hf hp)
  exact ⟨f, parse_toBytes_eq_ok hcheck (hwritten.fit hc hfits hf) hspelt, hwritten.describes hc hfits hf⟩

/-- A class with a constant field, guarded code and a method without a body. -/
def guarded : ClassText where
  name := "A"
  superName := some objectName
  access := ⟨0x0421⟩
  major := 52
  source := some "A.java"
  interfaces := ["I"]
  constants := [.methodRef "A" "f" "()V"]
  fields := [⟨⟨0x0019⟩, "N", "I", some (.int 7)⟩]
  methods := [⟨⟨0x0009⟩, "f", "()V", some [.line 3, .label 0, .op 0x01, .op 0xBF, .label 1, .line 5, .op 0x57,
    .op 0xB1, .handler 0 1 1 (some "E")]⟩, ⟨⟨0x0401⟩, "g", "()V", none⟩]

theorem size_guarded {m : MethodText} (hm : m ∈ guarded.methods) {statements : List Statement}
    (hcode : statements ∈ m.code) {d : Draft} (hd : guarded.HasDraft m statements d) : d.size = 4 := by
  obtain ⟨_, _, _, pool, -, -, h⟩ := hd
  obtain ⟨type, -, h⟩ := except_bind_eq_ok.mp h
  simp only [guarded, List.mem_cons, List.not_mem_nil, or_false] at hm
  rcases hm with rfl | rfl
  · cases hcode
    cases h
    rfl
  · cases hcode

theorem regular_guarded : guarded.Regular where
  major := by decide
  entries := by decide +kernel
  fieldDescriptors := by decide +kernel
  methodDescriptors := by decide +kernel
  distinctFields := by decide
  distinctMethods := by decide
  counts := by decide
  tables := by
    simp only [guarded, List.forall_mem_cons, Option.mem_some_iff, forall_eq']
    decide
  code m hm statements hcode d hd := by
    rw [size_guarded hm hcode hd]
    decide
  pool d pool h := by
    have hsize :
        (Writer.calls guarded.name guarded.superName guarded.calls .empty).map (·.2.entries.size) = .ok 20 := by
      cbv
    rw [h] at hsize
    have hsize : pool.entries.size = 20 := Except.ok.inj hsize
    omega

theorem parse_guarded : guarded.Regular ∧ ∃ bytes, guarded.assemble = .ok bytes ∧
    ∃ f, parse bytes = .ok f ∧ Describes guarded f := by
  obtain ⟨bytes, hbytes⟩ : ∃ bytes, guarded.assemble = .ok bytes := isOk_iff.mp (by cbv)
  exact ⟨regular_guarded, bytes, hbytes, parse_assemble regular_guarded hbytes⟩

end Jvm.Assembly
