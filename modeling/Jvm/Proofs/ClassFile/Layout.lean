import Mathlib
import Jvm.Proofs.ClassFile.Readers
import Jvm.Proofs.Text.ModifiedUtf8
import Jvm.ClassFile.References

/-! # The layout of class files

The bytes of a class file, and which bytes are read as one (`parse_eq_ok_iff`). Each reader of a part takes
exactly the bytes of this part, where these fit into their counts; a text alone may be spelt in more than one
way. -/

namespace Jvm.ClassFile

open Assembly Reader Text

/-! ### Bytes of class files -/

/-- The bytes of a row of an exception table. -/
def HandlerRow.bytes (h : HandlerRow) : List UInt8 :=
  bytes2 h.start ++ bytes2 h.stop ++ bytes2 h.handler ++ bytes2 h.catchType

/-- The bytes of a row of a line number table. -/
def LineRow.bytes (r : LineRow) : List UInt8 := bytes2 r.start ++ bytes2 r.line

mutual

/-- The bytes of an attribute's body. -/
def Attribute.bytes : Attribute → List UInt8
  | .code maxStack maxLocals code handlers attributes =>
    bytes2 maxStack ++ bytes2 maxLocals ++ bytes4 code.length.toUInt32 ++ code
      ++ countedBytes HandlerRow.bytes handlers
      ++ (bytes2 attributes.length.toUInt16 ++ NamedAttribute.listBytes attributes)
  | .constantValue index | .sourceFile index => bytes2 index
  | .exceptions classes => countedBytes bytes2 classes
  | .lineNumbers rows => countedBytes LineRow.bytes rows
  | .other bytes => bytes

/-- The bytes of an attribute: its name, the length of its body, and the body. -/
def NamedAttribute.bytes : NamedAttribute → List UInt8
  | .mk name body => bytes2 name ++ bytes4 body.bytes.length.toUInt32 ++ body.bytes

/-- The bytes of attributes, one after the other. -/
def NamedAttribute.listBytes : List NamedAttribute → List UInt8
  | [] => []
  | a :: rest => a.bytes ++ NamedAttribute.listBytes rest

end

theorem NamedAttribute.listBytes_eq (attributes : List NamedAttribute) :
    NamedAttribute.listBytes attributes = attributes.flatMap NamedAttribute.bytes := by
  induction attributes with
  | nil => rfl
  | cons a rest ih => rw [NamedAttribute.listBytes, ih, List.flatMap_cons]

theorem length_handlerRows (rows : List HandlerRow) :
    (countedBytes HandlerRow.bytes rows).length = 2 + 8 * rows.length := by
  rw [length_countedBytes, List.length_flatMap]
  simp [HandlerRow.bytes, Nat.mul_comm]

theorem length_lineRows (rows : List LineRow) :
    (countedBytes LineRow.bytes rows).length = 2 + 4 * rows.length := by
  rw [length_countedBytes, List.length_flatMap]
  simp [LineRow.bytes, Nat.mul_comm]

/-- The bytes of a field or a method. -/
def MemberInfo.bytes (m : MemberInfo) : List UInt8 :=
  bytes2 m.access.bits ++ bytes2 m.name ++ bytes2 m.descriptor
    ++ countedBytes NamedAttribute.bytes m.attributes

/-- The bytes of a constant pool. -/
def ConstantPool.bytes (pool : ConstantPool) : List UInt8 :=
  bytes2 pool.size.toUInt16 ++ pool.entries.toList.flatMap constantBytes

end Jvm.ClassFile

namespace Jvm.ClassFile

open Assembly Reader Text

/-- The bytes of a class file in front of its constants. -/
def head (c : ClassFile) : List UInt8 := bytes4 magic ++ bytes2 c.minor ++ bytes2 c.major

/-- The bytes of a class file behind its constants. -/
def tail (c : ClassFile) : List UInt8 :=
  bytes2 c.access.bits ++ bytes2 c.thisClass ++ bytes2 c.superClass ++ countedBytes bytes2 c.interfaces
    ++ countedBytes MemberInfo.bytes c.fields ++ countedBytes MemberInfo.bytes c.methods
    ++ countedBytes NamedAttribute.bytes c.attributes

/-- The bytes of a class file. -/
def toBytes (c : ClassFile) : List UInt8 := c.head ++ c.pool.bytes ++ c.tail

/-! ### Constants -/

/-- Whether a record of a constant pool holds a constant. A text may be spelt in more than one way. -/
def Records (bs : List UInt8) : Constant → Prop
  | .unusable => False
  | .utf8 s => ∃ raw, (raw.length ≤ 0xFFFF ∧ ModifiedUtf8.decode raw = .ok s) ∧
    bs = (1 : UInt8) :: (bytes2 raw.length.toUInt16 ++ raw)
  | .methodHandle kind target => (1 ≤ kind ∧ kind ≤ 9) ∧ bs = constantBytes (.methodHandle kind target)
  | c => bs = constantBytes c

theorem takes_text (length : Nat) :
    Takes (readText length) fun bs s => bs.length = length ∧ ModifiedUtf8.decode bs = .ok s := by
  refine ((takes_bytes length).bind (T := fun raw bs s => ModifiedUtf8.decode raw = .ok s ∧ bs = [])
    fun raw => ?_).congr fun bs s => ?_
  · cases ModifiedUtf8.decode raw with
    | ok s => exact (takes_pure s).congr fun bs t => by rw [Except.ok.injEq, eq_comm]
    | error at_ => exact (takes_throw _).congr (by simp)
  constructor
  · rintro ⟨raw, _, _, ⟨rfl, hlength⟩, ⟨hraw, rfl⟩, rfl⟩
    rw [List.append_nil]
    exact ⟨hlength, hraw⟩
  · rintro ⟨hlength, hraw⟩
    exact ⟨bs, bs, [], ⟨rfl, hlength⟩, ⟨hraw, rfl⟩, (List.append_nil _).symm⟩

theorem takes_one (f : UInt16 → Constant) :
    Takes (do return f (← u2)) fun bs c => ∃ i, bs = bytes2 i ∧ c = f i := takes_u2.map f

theorem takes_two (f : UInt16 → UInt16 → Constant) :
    Takes (do return f (← u2) (← u2)) fun bs c => ∃ i j, bs = bytes2 i ++ bytes2 j ∧ c = f i j := by
  refine (takes_u2.bind fun i => takes_u2.map (f i)).congr fun bs c => ?_
  constructor
  · rintro ⟨i, _, _, rfl, ⟨j, rfl, rfl⟩, rfl⟩
    exact ⟨i, j, rfl, rfl⟩
  · rintro ⟨i, j, rfl, rfl⟩
    exact ⟨i, _, _, rfl, ⟨j, rfl, rfl⟩, rfl⟩

/-- The record of a constant begins with its tag. -/
theorem cons_of_records {bs : List UInt8} {c : Constant} (h : Records bs c) : ∃ rest, bs = c.tag :: rest := by
  cases c with
  | unusable => exact h.elim
  | utf8 s =>
    obtain ⟨raw, -, rfl⟩ := h
    exact ⟨_, rfl⟩
  | methodHandle kind target =>
    obtain ⟨-, rfl⟩ := h
    exact ⟨_, rfl⟩
  | _ => exact ⟨_, h⟩

theorem takes_constant (index : Nat) : Takes (readConstant index) Records := by
  refine (takes_u1.bind (T := fun tag bs c => Records (tag :: bs) c) fun tag => ?_).congr fun bs c => ?_
  · split
    case h_1 h =>
      obtain rfl : tag = 1 := UInt8.toNat_inj.mp h
      refine (takes_u2.bind fun length => (takes_text length.toNat).map Constant.utf8).congr fun bs c => ?_
      constructor
      · rintro ⟨length, _, raw, rfl, ⟨s, ⟨hlength, hraw⟩, rfl⟩, rfl⟩
        refine ⟨raw, ⟨hlength ▸ Nat.le_of_lt_succ length.toNat_lt, hraw⟩, ?_⟩
        rw [hlength, Nat.toUInt16_eq, UInt16.ofNat_toNat]
      · intro h
        obtain ⟨_, htag⟩ := cons_of_records h
        cases c <;> cases htag
        obtain ⟨raw, ⟨hlength, hraw⟩, heq⟩ := h
        exact ⟨_, _, raw, rfl, ⟨_, ⟨(toNat_toUInt16 hlength).symm, hraw⟩, rfl⟩, List.cons.inj heq |>.2⟩
    case h_2 h =>
      obtain rfl : tag = 3 := UInt8.toNat_inj.mp h
      refine (takes_i4.map Constant.integer).congr fun bs c => ?_
      cases c <;> simp [Records, constantBytes, Constant.tag]
    case h_3 h =>
      obtain rfl : tag = 4 := UInt8.toNat_inj.mp h
      refine (takes_u4.map Constant.float).congr fun bs c => ?_
      cases c <;> simp [Records, constantBytes, Constant.tag]
    case h_4 h =>
      obtain rfl : tag = 5 := UInt8.toNat_inj.mp h
      refine (takes_i8.map Constant.long).congr fun bs c => ?_
      cases c <;> simp [Records, constantBytes, Constant.tag]
    case h_5 h =>
      obtain rfl : tag = 6 := UInt8.toNat_inj.mp h
      refine (takes_u8.map Constant.double).congr fun bs c => ?_
      cases c <;> simp [Records, constantBytes, Constant.tag]
    case h_6 h =>
      obtain rfl : tag = 7 := UInt8.toNat_inj.mp h
      refine (takes_one Constant.classRef).congr fun bs c => ?_
      cases c <;> simp [Records, constantBytes, Constant.tag]
    case h_7 h =>
      obtain rfl : tag = 8 := UInt8.toNat_inj.mp h
      refine (takes_one Constant.string).congr fun bs c => ?_
      cases c <;> simp [Records, constantBytes, Constant.tag]
    case h_8 h =>
      obtain rfl : tag = 9 := UInt8.toNat_inj.mp h
      refine (takes_two Constant.fieldRef).congr fun bs c => ?_
      cases c <;> simp [Records, constantBytes, Constant.tag]
    case h_9 h =>
      obtain rfl : tag = 10 := UInt8.toNat_inj.mp h
      refine (takes_two Constant.methodRef).congr fun bs c => ?_
      cases c <;> simp [Records, constantBytes, Constant.tag]
    case h_10 h =>
      obtain rfl : tag = 11 := UInt8.toNat_inj.mp h
      refine (takes_two Constant.interfaceMethodRef).congr fun bs c => ?_
      cases c <;> simp [Records, constantBytes, Constant.tag]
    case h_11 h =>
      obtain rfl : tag = 12 := UInt8.toNat_inj.mp h
      refine (takes_two Constant.nameAndType).congr fun bs c => ?_
      cases c <;> simp [Records, constantBytes, Constant.tag]
    case h_12 h =>
      obtain rfl : tag = 15 := UInt8.toNat_inj.mp h
      refine (takes_u1.bind fun kind => takes_unless (takes_one (Constant.methodHandle kind))).congr
        fun bs c => ?_
      cases c <;> simp [Records, constantBytes, Constant.tag, UInt8.le_iff_toNat_le, UInt8.lt_iff_toNat_lt]
      omega
    case h_13 h =>
      obtain rfl : tag = 16 := UInt8.toNat_inj.mp h
      refine (takes_one Constant.methodType).congr fun bs c => ?_
      cases c <;> simp [Records, constantBytes, Constant.tag]
    case h_14 h =>
      obtain rfl : tag = 18 := UInt8.toNat_inj.mp h
      refine (takes_two Constant.invokeDynamic).congr fun bs c => ?_
      cases c <;> simp [Records, constantBytes, Constant.tag]
    case h_15 =>
      refine (takes_throw _).congr fun bs c => ⟨False.elim, fun h => ?_⟩
      obtain ⟨_, htag⟩ := cons_of_records h
      cases c <;> cases htag <;> first | exact h | simp_all [Constant.tag]
  · constructor
    · rintro ⟨tag, _, rest, rfl, h, rfl⟩
      exact h
    · intro h
      obtain ⟨rest, rfl⟩ := cons_of_records h
      exact ⟨_, _, rest, rfl, h, rfl⟩

/-- The entries that a constant takes. -/
def Constant.slots (c : Constant) : List Constant := if c.isWide then [c, .unusable] else [c]

theorem flatMap_slots (c : Constant) : c.slots.flatMap constantBytes = constantBytes c := by
  unfold Constant.slots
  split <;> simp [constantBytes]

/-- Whether bytes hold the entries of a pool from some index on, with one record for each constant. -/
inductive Pooled : List Constant → List UInt8 → Prop
  | nil : Pooled [] []
  | cons {c : Constant} {bs rest : List UInt8} {cs : List Constant} :
    Records bs c → Pooled cs rest → Pooled (c.slots ++ cs) (bs ++ rest)

theorem Pooled.append {cs : List Constant} {bs : List UInt8} {c : Constant} {record : List UInt8}
    (h : Pooled cs bs) (hc : Records record c) : Pooled (cs ++ c.slots) (bs ++ record) := by
  induction h with
  | nil =>
    have hone := Pooled.cons hc .nil
    rwa [List.append_nil, List.append_nil] at hone
  | cons hd _ ih =>
    rw [List.append_assoc, List.append_assoc]
    exact .cons hd ih

theorem pooled_nil_iff {bs : List UInt8} : Pooled [] bs ↔ bs = [] := by
  constructor
  · generalize hcs : ([] : List Constant) = cs
    rintro (_ | @⟨c, _, _, cs, _, _⟩)
    · rfl
    · unfold Constant.slots at hcs
      split at hcs <;> cases hcs
  · rintro rfl
    exact .nil

theorem takes_full {entries : Array Constant} {count : Nat} (h : entries.size = count) :
    Takes (pure entries) fun bs all =>
      all.size = count ∧ ∃ cs, all.toList = entries.toList ++ cs ∧ Pooled cs bs := by
  refine (takes_pure entries).congr fun bs all => ?_
  constructor
  · rintro ⟨rfl, rfl⟩
    exact ⟨h, [], (List.append_nil _).symm, .nil⟩
  · rintro ⟨hsize, cs, hall, hcs⟩
    have hlength := congrArg List.length hall
    rw [List.length_append, Array.length_toList, Array.length_toList, hsize, h,
      Nat.left_eq_add, List.length_eq_zero_iff] at hlength
    rw [hlength] at hall hcs
    exact ⟨Array.toList_inj.mp (hall.trans (List.append_nil _)), pooled_nil_iff.mp hcs⟩

/-- The entries that are read come behind those before, until the pool is full. -/
theorem takes_constants (count fuel : Nat) (entries : Array Constant) (hcount : entries.size ≤ count)
    (hfuel : count ≤ entries.size + fuel) : Takes (readConstants count entries fuel) fun bs all =>
      all.size = count ∧ ∃ cs, all.toList = entries.toList ++ cs ∧ Pooled cs bs := by
  induction fuel generalizing entries with
  | zero => exact takes_full (by omega)
  | succ fuel ih =>
    unfold readConstants
    split
    · next h => exact takes_full (by omega)
    next h =>
    refine ((takes_constant _).bind (T := fun c rest all => all.size = count ∧
      ∃ cs, all.toList = entries.toList ++ (c.slots ++ cs) ∧ Pooled cs rest) fun c => ?_).congr
      fun bs all => ?_
    · unfold Constant.slots
      split
      · dsimp only
        split
        · next hfull =>
          refine (takes_throw _).congr fun bs all => ⟨False.elim, ?_⟩
          rintro ⟨hsize, cs, hall, -⟩
          have hlength := congrArg List.length hall
          simp only [Array.length_toList, List.length_append, List.length_cons, Array.size_push] at hlength hfull
          omega
        · next hroom =>
          rw [Array.size_push] at hroom
          refine (ih _ ?_ ?_).congr fun bs all => ?_
          · simp only [Array.size_push]
            omega
          · simp only [Array.size_push]
            omega
          · simp only [Array.toList_push, List.append_assoc, List.cons_append, List.nil_append]
      · refine (ih _ ?_ ?_).congr fun bs all => ?_
        · simp only [Array.size_push]
          omega
        · simp only [Array.size_push]
          omega
        · simp only [Array.toList_push, List.append_assoc]
    · constructor
      · rintro ⟨c, first, rest, hc, ⟨hsize, cs, hall, hcs⟩, rfl⟩
        exact ⟨hsize, _, hall, .cons hc hcs⟩
      · rintro ⟨hsize, cs, hall, hcs⟩
        cases hcs with
        | nil =>
          rw [List.append_nil] at hall
          rw [← hsize, Array.toList_inj.mp hall] at h
          exact (h le_rfl).elim
        | cons hc hcs => exact ⟨_, _, _, hc, ⟨hsize, _, hall, hcs⟩, rfl⟩

/-- Whether bytes hold a pool: its size, and a record for each of its constants. -/
def ConstantPool.Spelt (pool : ConstantPool) (bs : List UInt8) : Prop :=
  pool.size ≤ 0xFFFF ∧ ∃ cs records, pool.entries.toList = .unusable :: cs ∧ Pooled cs records ∧
    bs = bytes2 pool.size.toUInt16 ++ records

theorem takes_pool : Takes readPool fun bs pool => pool.Spelt bs := by
  refine (takes_u2.bind (T := fun n bs pool => pool.size = n.toNat ∧
    ∃ cs, pool.entries.toList = .unusable :: cs ∧ Pooled cs bs) fun n => ?_).congr fun bs pool => ?_
  · dsimp only
    split
    · next hzero =>
      refine (takes_throw _).congr fun bs pool => ⟨False.elim, ?_⟩
      rintro ⟨hsize, cs, hpool, -⟩
      rw [hzero, ConstantPool.size, ← Array.length_toList, hpool] at hsize
      cases hsize
    · next hpos =>
      refine ((takes_constants n.toNat n.toNat #[.unusable] ?_ ?_).map ConstantPool.mk).congr
        fun bs pool => ?_
      · exact Nat.pos_of_ne_zero hpos
      · simp
      · constructor
        · rintro ⟨all, hall, rfl⟩
          exact hall
        · rintro hpool
          exact ⟨_, hpool, rfl⟩
  · constructor
    · rintro ⟨n, _, records, rfl, ⟨hsize, cs, hpool, hcs⟩, rfl⟩
      refine ⟨hsize ▸ Nat.le_of_lt_succ n.toNat_lt, cs, records, hpool, hcs, ?_⟩
      rw [hsize, Nat.toUInt16_eq, UInt16.ofNat_toNat]
    · rintro ⟨hsize, cs, records, hpool, hcs, rfl⟩
      exact ⟨_, _, records, rfl, ⟨(toNat_toUInt16 hsize).symm, cs, hpool, hcs⟩, rfl⟩

/-! ### Attributes -/

/-- The names of the attributes that are read as more than bytes. -/
def knownNames : List String :=
  ["Code", "ConstantValue", "Exceptions", "SourceFile", "LineNumberTable"]

/-- Whether a body is one that an attribute of some name can have, where `Nested` says what attributes
there may be inside. -/
def FitsBody (Nested : List NamedAttribute → Prop) (name : String) : Attribute → Prop
  | .code _ _ code handlers attributes => name = "Code" ∧ 0 < code.length ∧ code.length ≤ 0xFFFF ∧
    handlers.length ≤ 0xFFFF ∧ Nested attributes
  | .constantValue _ => name = "ConstantValue"
  | .exceptions classes => name = "Exceptions" ∧ classes.length ≤ 0xFFFF
  | .sourceFile _ => name = "SourceFile"
  | .lineNumbers rows => name = "LineNumberTable" ∧ rows.length ≤ 0xFFFF
  | .other _ => name ∉ knownNames

/-- Whether attributes can be read where code attributes are nested up to some depth. -/
def Fits (pool : ConstantPool) : Nat → List NamedAttribute → Prop
  | 0, _ => False
  | depth + 1, attributes => attributes.length ≤ 0xFFFF ∧ ∀ a ∈ attributes,
    a.body.bytes.length < 2 ^ 32 ∧
      ∃ name, pool.utf8 a.name = .ok name ∧ FitsBody (Fits pool depth) name a.body

theorem takes_handler : Takes readHandler fun bs h => True ∧ bs = h.bytes := by
  refine (takes_u2.bind fun start => takes_u2.bind fun stop => takes_u2.bind fun handler =>
    takes_u2.map (HandlerRow.mk start stop handler)).congr fun bs h => ?_
  constructor
  · rintro ⟨start, _, _, rfl, ⟨stop, _, _, rfl, ⟨handler, _, _, rfl, ⟨catchType, rfl, rfl⟩, rfl⟩, rfl⟩, rfl⟩
    exact ⟨trivial, rfl⟩
  · rintro ⟨-, rfl⟩
    exact ⟨h.start, _, _, rfl, ⟨h.stop, _, _, rfl, ⟨h.handler, _, _, rfl, ⟨h.catchType, rfl, rfl⟩, rfl⟩, rfl⟩, rfl⟩

theorem takes_line : Takes readLine fun bs r => True ∧ bs = r.bytes := by
  refine (takes_u2.bind fun start => takes_u2.map (LineRow.mk start)).congr fun bs r => ?_
  constructor
  · rintro ⟨start, _, _, rfl, ⟨line, rfl, rfl⟩, rfl⟩
    exact ⟨trivial, rfl⟩
  · rintro ⟨-, rfl⟩
    exact ⟨r.start, _, _, rfl, ⟨r.line, rfl, rfl⟩, rfl⟩

section

variable {nested : Reader (List NamedAttribute)} {Nested : List NamedAttribute → Prop}

theorem takes_code (hnested : Takes nested fun bs as => Nested as ∧ bs = countedBytes NamedAttribute.bytes as)
    (length : Nat) : Takes (readBody nested "Code" length) fun bs body =>
      FitsBody Nested "Code" body ∧ bs = body.bytes := by
  refine (takes_u2.bind fun maxStack => takes_u2.bind fun maxLocals => takes_u4.bind fun length =>
    takes_unless ((takes_bytes length.toNat).bind fun code => (takes_counted takes_handler).bind fun handlers =>
      hnested.map (Attribute.code maxStack maxLocals code handlers))).congr fun bs body => ?_
  have hlength (length : UInt32) : ¬ (decide (length = 0) || decide (0xFFFF < length)) = true ↔
      0 < length.toNat ∧ length.toNat ≤ 0xFFFF := by
    simp only [Bool.or_eq_true, decide_eq_true_eq, not_or, UInt32.not_lt, UInt32.le_iff_toNat_le,
      ← UInt32.toNat_inj, Nat.pos_iff_ne_zero]
    rfl
  constructor
  · rintro ⟨maxStack, _, _, rfl, ⟨maxLocals, _, _, rfl, ⟨length, _, _, rfl, ⟨hfits, code, _, _, ⟨rfl, hcode⟩,
      ⟨handlers, _, _, ⟨⟨hhandlers, -⟩, rfl⟩, ⟨as, ⟨has, rfl⟩, rfl⟩, rfl⟩, rfl⟩, rfl⟩, rfl⟩, rfl⟩
    rw [hlength, ← hcode] at hfits
    refine ⟨⟨rfl, hfits.1, hfits.2, hhandlers, has⟩, ?_⟩
    rw [Attribute.bytes, hcode, Nat.toUInt32_eq, UInt32.ofNat_toNat, NamedAttribute.listBytes_eq]
    simp only [countedBytes, List.append_assoc]
  · rintro ⟨hbody, rfl⟩
    cases body with
    | code maxStack maxLocals code handlers as =>
      obtain ⟨-, hpos, hle, hhandlers, has⟩ := hbody
      have htoNat : code.length.toUInt32.toNat = code.length := by
        rw [Nat.toUInt32_eq, UInt32.toNat_ofNat']
        omega
      refine ⟨maxStack, _, _, rfl, ⟨maxLocals, _, _, rfl, ⟨_, _, _, rfl, ⟨?_, code, _, _, ⟨rfl, htoNat.symm⟩,
        ⟨handlers, _, _, ⟨⟨hhandlers, fun _ _ => trivial⟩, rfl⟩, ⟨as, ⟨has, rfl⟩, rfl⟩, rfl⟩, rfl⟩, rfl⟩, rfl⟩, ?_⟩
      · rw [hlength, htoNat]
        exact ⟨hpos, hle⟩
      · rw [Attribute.bytes, NamedAttribute.listBytes_eq]
        simp only [countedBytes, List.append_assoc]
    | other => simp [FitsBody, knownNames] at hbody
    | constantValue | exceptions | sourceFile | lineNumbers => simp [FitsBody] at hbody

/-- A body that is made of what was read, and no list of bytes. -/
theorem takes_made {β : Type} {x : Reader β} {P : β → Prop} {spell : β → List UInt8} {name : String}
    (make : β → Attribute) (hx : Takes x fun bs b => P b ∧ bs = spell b)
    (hfits : ∀ body, FitsBody Nested name body ↔ ∃ b, P b ∧ body = make b)
    (hspell : ∀ b, (make b).bytes = spell b) (hother : ∀ b raw, make b ≠ .other raw) (length : Nat) :
    Takes (do return make (← x)) fun bs body =>
      (FitsBody Nested name body ∧ ∀ raw, body = .other raw → raw.length = length) ∧ bs = body.bytes := by
  refine (hx.map make).congr fun bs body => ?_
  rw [hfits]
  constructor
  · rintro ⟨b, ⟨hb, rfl⟩, rfl⟩
    exact ⟨⟨⟨b, hb, rfl⟩, fun raw hraw => (hother b raw hraw).elim⟩, (hspell b).symm⟩
  · rintro ⟨⟨⟨b, hb, rfl⟩, -⟩, rfl⟩
    exact ⟨b, ⟨hb, hspell b⟩, rfl⟩

theorem takes_body (hnested : Takes nested fun bs as => Nested as ∧ bs = countedBytes NamedAttribute.bytes as)
    (name : String) (length : Nat) : Takes (readBody nested name length) fun bs body =>
      (FitsBody Nested name body ∧ ∀ raw, body = .other raw → raw.length = length) ∧ bs = body.bytes := by
  have hu2 : Takes u2 fun bs i => True ∧ bs = bytes2 i := takes_u2.congr fun _ _ => (true_and _).symm.to_iff
  unfold readBody
  split
  · refine (takes_code hnested length).congr fun bs body => ?_
    have hnot (hbody : FitsBody Nested "Code" body) (raw : List UInt8) : body ≠ .other raw := by
      rintro rfl
      exact hbody (by decide)
    exact ⟨fun h => ⟨⟨h.1, fun raw hraw => (hnot h.1 raw hraw).elim⟩, h.2⟩, fun h => ⟨h.1.1, h.2⟩⟩
  · refine takes_made .constantValue hu2 (fun body => ?_) (fun _ => rfl) (by simp) length
    cases body <;> simp [FitsBody, knownNames]
  · refine takes_made .exceptions (takes_counted hu2) (fun body => ?_) (fun _ => rfl) (by simp) length
    cases body <;> simp [FitsBody, knownNames]
  · refine takes_made .sourceFile hu2 (fun body => ?_) (fun _ => rfl) (by simp) length
    cases body <;> simp [FitsBody, knownNames]
  · refine takes_made .lineNumbers (takes_counted takes_line) (fun body => ?_) (fun _ => rfl) (by simp) length
    cases body <;> simp [FitsBody, knownNames]
  · next h₁ h₂ h₃ h₄ h₅ =>
    refine ((takes_bytes length).map Attribute.other).congr fun bs body => ?_
    have hname : name ∉ knownNames := by
      simp only [knownNames, List.mem_cons, List.not_mem_nil, or_false, not_or]
      exact ⟨h₁, h₂, h₃, h₄, h₅⟩
    constructor
    · rintro ⟨raw, ⟨rfl, hlength⟩, rfl⟩
      refine ⟨⟨hname, ?_⟩, rfl⟩
      rintro raw hraw
      cases hraw
      exact hlength
    · rintro ⟨⟨hbody, hlength⟩, rfl⟩
      cases body with
      | other raw => exact ⟨raw, ⟨rfl, hlength raw rfl⟩, rfl⟩
      | constantValue | exceptions | sourceFile | lineNumbers | code => simp_all [FitsBody]

end

theorem takes_attributes (pool : ConstantPool) (depth : Nat) : Takes (readAttributes pool depth)
    fun bs as => Fits pool depth as ∧ bs = countedBytes NamedAttribute.bytes as := by
  induction depth with
  | zero => exact (takes_throw _).congr fun bs as => by simp [Fits]
  | succ depth ih =>
    refine takes_counted (P := fun a : NamedAttribute => a.body.bytes.length < 2 ^ 32 ∧
      ∃ name, pool.utf8 a.name = .ok name ∧ FitsBody (Fits pool depth) name a.body) ?_
    refine (takes_u2.bind fun nameIndex => takes_u4.bind fun length =>
      (takes_ofExcept (pool.utf8 nameIndex)).bind fun name => takes_sub
        (T := fun inner rest a => rest = [] ∧ FitsBody (Fits pool depth) name a.body ∧ a.name = nameIndex ∧
          inner = a.body.bytes ∧ (∀ raw, a.body = .other raw → raw.length = length.toNat))
      fun inner => ?_).congr fun bs a => ?_
    · refine ((takes_within (takes_body ih name length.toNat) inner).bind fun p =>
        takes_unless (takes_pure (NamedAttribute.mk nameIndex p.1))).congr fun bs a => ?_
      constructor
      · rintro ⟨⟨body, left⟩, _, _, ⟨rfl, _, ⟨⟨hbody, hother⟩, rfl⟩, rfl, -⟩, ⟨hend, rfl, rfl⟩, rfl⟩
        have hleft : left.rest = [] := by simpa [Cursor.atEnd] using hend
        refine ⟨rfl, hbody, rfl, ?_, hother⟩
        rw [hleft, List.append_nil]
        rfl
      · rintro ⟨rfl, hbody, rfl, rfl, hother⟩
        exact ⟨⟨a.body, ⟨a.body.bytes.length, []⟩⟩, [], [], ⟨rfl, _, ⟨⟨hbody, hother⟩, rfl⟩,
          (List.append_nil _).symm, rfl⟩, ⟨by simp [Cursor.atEnd], by cases a; rfl, rfl⟩, rfl⟩
    · constructor
      · rintro ⟨_, _, _, rfl, ⟨length, _, _, rfl, ⟨name, _, _, ⟨hname, rfl⟩,
          ⟨_, _, hlength, ⟨rfl, hbody, rfl, rfl, -⟩, rfl⟩, rfl⟩, rfl⟩, rfl⟩
        refine ⟨⟨hlength ▸ length.toNat_lt, name, hname, hbody⟩, ?_⟩
        cases a with
        | mk nameIndex body =>
          change _ = bytes2 nameIndex ++ bytes4 body.bytes.length.toUInt32 ++ body.bytes
          change body.bytes.length = _ at hlength
          rw [hlength, Nat.toUInt32_eq, UInt32.ofNat_toNat, List.append_nil, List.append_assoc]
          rfl
      · rintro ⟨⟨hlength, name, hname, hbody⟩, rfl⟩
        have htoNat : a.body.bytes.length.toUInt32.toNat = a.body.bytes.length := by
          rw [Nat.toUInt32_eq, UInt32.toNat_ofNat', Nat.mod_eq_of_lt hlength]
        refine ⟨a.name, _, _, rfl, ⟨a.body.bytes.length.toUInt32, _, _, rfl, ⟨name, [], _, ⟨hname, rfl⟩,
          ⟨a.body.bytes, [], htoNat.symm, ⟨rfl, hbody, rfl, rfl, ?_⟩, rfl⟩, rfl⟩, rfl⟩, ?_⟩
        · intro raw hraw
          rw [htoNat, hraw]
          rfl
        · cases a
          simp [NamedAttribute.bytes, NamedAttribute.name, NamedAttribute.body]

/-! ### Members and classes -/

theorem takes_member (pool : ConstantPool) (depth : Nat) :
    Takes (readMember pool depth) fun bs m => Fits pool depth m.attributes ∧ bs = m.bytes := by
  refine (takes_u2.bind fun access => takes_u2.bind fun name => takes_u2.bind fun descriptor =>
    (takes_attributes pool depth).map (MemberInfo.mk ⟨access⟩ name descriptor)).congr fun bs m => ?_
  constructor
  · rintro ⟨access, _, _, rfl, ⟨name, _, _, rfl, ⟨descriptor, _, _, rfl, ⟨as, ⟨has, rfl⟩, rfl⟩, rfl⟩, rfl⟩, rfl⟩
    exact ⟨has, by simp [MemberInfo.bytes]⟩
  · rintro ⟨hm, rfl⟩
    exact ⟨m.access.bits, _, _, rfl, ⟨m.name, _, _, rfl, ⟨m.descriptor, _, _, rfl,
      ⟨m.attributes, ⟨hm, rfl⟩, rfl⟩, rfl⟩, rfl⟩, by simp [MemberInfo.bytes]⟩

/-- Whether a class file can be laid out, with code attributes nested up to some depth. -/
structure Fit (depth : Nat) (c : ClassFile) : Prop where
  major : minMajor ≤ c.major ∧ c.major ≤ maxMajor
  interfaces : c.interfaces.length ≤ 0xFFFF
  fields : c.fields.length ≤ 0xFFFF ∧ ∀ m ∈ c.fields, Fits c.pool depth m.attributes
  methods : c.methods.length ≤ 0xFFFF ∧ ∀ m ∈ c.methods, Fits c.pool depth m.attributes
  attributes : Fits c.pool depth c.attributes

/-- Reading what is behind the constants. -/
theorem takesAll_behind (minor major : UInt16) (pool : ConstantPool) (depth : Nat) : TakesAll (do
      let access : Access := ⟨← u2⟩
      let thisClass ← u2
      let superClass ← u2
      let interfaces ← counted u2
      let fields ← counted (readMember pool depth)
      let methods ← counted (readMember pool depth)
      let attributes ← readAttributes pool depth
      let left ← get
      if !left.atEnd then
        malformed (toString left.remaining ++ " trailing bytes after class attributes")
      return {
        minor, major, pool, access, thisClass, superClass, interfaces, fields, methods, attributes } :
        Reader ClassFile)
    fun bs c => (c.minor = minor ∧ c.major = major ∧ c.pool = pool) ∧ c.interfaces.length ≤ 0xFFFF ∧
      (c.fields.length ≤ 0xFFFF ∧ ∀ m ∈ c.fields, Fits pool depth m.attributes) ∧
      (c.methods.length ≤ 0xFFFF ∧ ∀ m ∈ c.methods, Fits pool depth m.attributes) ∧
      Fits pool depth c.attributes ∧ bs = c.tail := by
  have hu2 : Takes u2 fun bs i => True ∧ bs = bytes2 i := takes_u2.congr fun _ _ => (true_and _).symm.to_iff
  refine (takes_u2.bindAll fun access => takes_u2.bindAll fun thisClass => takes_u2.bindAll fun superClass =>
    (takes_counted hu2).bindAll fun interfaces =>
    (takes_counted (takes_member pool depth)).bindAll fun fields =>
    (takes_counted (takes_member pool depth)).bindAll fun methods =>
    (takes_attributes pool depth).bindAll fun attributes =>
    takesAll_atEnd (ClassFile.mk minor major pool ⟨access⟩ thisClass superClass interfaces fields methods
      attributes)).congr fun bs c => ?_
  constructor
  · rintro ⟨access, _, _, rfl, ⟨thisClass, _, _, rfl, ⟨superClass, _, _, rfl,
      ⟨interfaces, _, _, ⟨⟨hinterfaces, -⟩, rfl⟩, ⟨fields, _, _, ⟨hfields, rfl⟩, ⟨methods, _, _, ⟨hmethods, rfl⟩,
      ⟨attributes, _, _, ⟨hattributes, rfl⟩, ⟨rfl, rfl⟩, rfl⟩, rfl⟩, rfl⟩, rfl⟩, rfl⟩, rfl⟩, rfl⟩
    refine ⟨⟨rfl, rfl, rfl⟩, hinterfaces, hfields, hmethods, hattributes, ?_⟩
    simp only [tail, List.append_assoc, List.append_nil]
  · rintro ⟨⟨rfl, rfl, rfl⟩, hinterfaces, hfields, hmethods, hattributes, rfl⟩
    refine ⟨c.access.bits, _, _, rfl, ⟨c.thisClass, _, _, rfl, ⟨c.superClass, _, _, rfl,
      ⟨c.interfaces, _, _, ⟨⟨hinterfaces, fun _ _ => trivial⟩, rfl⟩, ⟨c.fields, _, _, ⟨hfields, rfl⟩,
      ⟨c.methods, _, _, ⟨hmethods, rfl⟩, ⟨c.attributes, _, _, ⟨hattributes, rfl⟩, ⟨rfl, rfl⟩, rfl⟩, rfl⟩, rfl⟩,
      rfl⟩, rfl⟩, rfl⟩, ?_⟩
    simp only [tail, List.append_assoc, List.append_nil]

theorem takesAll_class (depth : Nat) : TakesAll (readClass depth) fun bs c =>
    c.Fit depth ∧ ∃ spelling, c.pool.Spelt spelling ∧ bs = c.head ++ spelling ++ c.tail := by
  refine (takes_u4.bindAll fun found => takesAll_unless <| takes_u2.bindAll fun minor =>
    takes_u2.bindAll fun major => takesAll_unless <| takes_pool.bindAll fun pool =>
    takesAll_behind minor major pool depth).congr fun bs c => ?_
  constructor
  · rintro ⟨found, _, _, rfl, ⟨hmagic, _, _, _, rfl, ⟨_, _, _, rfl, ⟨hmajor, _, spelling, _, hpool,
      ⟨⟨rfl, rfl, rfl⟩, hinterfaces, hfields, hmethods, hattributes, rfl⟩, rfl⟩, rfl⟩, rfl⟩, rfl⟩
    rw [bne_iff_ne, ne_eq, not_not] at hmagic
    simp only [Bool.or_eq_true, decide_eq_true_eq, not_or, UInt16.not_lt] at hmajor
    refine ⟨⟨hmajor, hinterfaces, hfields, hmethods, hattributes⟩, spelling, hpool, ?_⟩
    simp only [hmagic, head, List.append_assoc]
  · rintro ⟨hfit, spelling, hpool, rfl⟩
    refine ⟨magic, _, _, rfl, ⟨by simp, c.minor, _, _, rfl, ⟨c.major, _, _, rfl, ⟨?_, c.pool, spelling, _, hpool,
      ⟨⟨rfl, rfl, rfl⟩, hfit.interfaces, hfit.fields, hfit.methods, hfit.attributes, rfl⟩, rfl⟩, rfl⟩, rfl⟩, ?_⟩
    · simp only [Bool.or_eq_true, decide_eq_true_eq, not_or, UInt16.not_lt]
      exact hfit.major
    · simp only [head, List.append_assoc]

/-- **Which bytes hold a class file.** They spell it from front to back, with its texts in whatever way
is read as them. -/
theorem parse_eq_ok_iff {bytes : List UInt8} {c : ClassFile} : parse bytes = .ok c ↔
    checkReferences c = .ok () ∧ c.Fit (bytes.length + 1) ∧
      ∃ spelling, c.pool.Spelt spelling ∧ bytes = c.head ++ spelling ++ c.tail := by
  have hparse : parse bytes = .ok c ↔ checkReferences c = .ok () ∧
      ∃ left, readClass (bytes.length + 1) (Cursor.ofBytes bytes) = .ok c left := by
    unfold parse
    rcases readClass (bytes.length + 1) (Cursor.ofBytes bytes) with ⟨c', left⟩ | ⟨e, left⟩
    · simp only [EStateM.Result.ok.injEq, exists_and_left, exists_eq', and_true]
      rcases hcheck : checkReferences c' with e | _
      · refine ⟨fun h => (by cases h), ?_⟩
        rintro ⟨hc, rfl⟩
        rw [hcheck] at hc
        cases hc
      · constructor
        · rintro ⟨⟩
          exact ⟨hcheck, rfl⟩
        · rintro ⟨-, rfl⟩
          rfl
    · simp
  have hread (left : Cursor) := takesAll_class (bytes.length + 1) 0 bytes c left
  simp only [hparse, Cursor.ofBytes, hread, exists_and_left, exists_eq, and_true]

end Jvm.ClassFile
