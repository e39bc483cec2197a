import Mathlib
import Jvm.Proofs.Assembly.Emission
import Jvm.Proofs.Bytecode.Encoding

/-! # Instructions read back

The statements of assembly code one by one, with all their spellings: the bytes that a statement adds to a
draft are read as one operation, and it is what the statement denotes (`emits_add`). -/

namespace Jvm.Assembly

open ClassFile Bytecode

/-! ### Numbers cut down to their size -/

theorem byte_of_int {v : Int32} (hlow : -128 ≤ v) (hhigh : v ≤ 127) :
    v.toUInt32.toUInt8.toInt8.toInt32 = v := by
  have hlow' : -128 ≤ v.toInt := Int32.le_iff_toInt_le.mp hlow
  have hhigh' : v.toInt ≤ 127 := Int32.le_iff_toInt_le.mp hhigh
  have hcut : v.toUInt32.toUInt8.toInt8 = v.toInt8 := by
    rw [← Int8.toBitVec_inj]
    simp [BitVec.signExtend_eq_setWidth_of_le]
  rw [hcut, ← Int32.toInt_inj, Int8.toInt_toInt32, Int32.toInt_toInt8,
    Int.bmod_eq_of_le (by omega) (by omega)]

theorem short_of_int {v : Int32} (hlow : -32768 ≤ v) (hhigh : v ≤ 32767) :
    v.toUInt32.toUInt16.toInt16.toInt32 = v := by
  have hlow' : -32768 ≤ v.toInt := Int32.le_iff_toInt_le.mp hlow
  have hhigh' : v.toInt ≤ 32767 := Int32.le_iff_toInt_le.mp hhigh
  have hcut : v.toUInt32.toUInt16.toInt16 = v.toInt16 := by
    rw [← Int16.toBitVec_inj]
    simp [BitVec.signExtend_eq_setWidth_of_le]
  rw [hcut, ← Int32.toInt_inj, Int16.toInt_toInt32, Int32.toInt_toInt16,
    Int.bmod_eq_of_le (by omega) (by omega)]

theorem byte_of_short {v : Int16} (hlow : -128 ≤ v) (hhigh : v ≤ 127) :
    v.toUInt16.toUInt8.toInt8.toInt16 = v := by
  have hlow' : -128 ≤ v.toInt := Int16.le_iff_toInt_le.mp hlow
  have hhigh' : v.toInt ≤ 127 := Int16.le_iff_toInt_le.mp hhigh
  have hcut : v.toUInt16.toUInt8.toInt8 = v.toInt8 := by
    rw [← Int8.toBitVec_inj]
    simp [BitVec.signExtend_eq_setWidth_of_le]
  rw [hcut, ← Int16.toInt_inj, Int8.toInt_toInt16, Int16.toInt_toInt8,
    Int.bmod_eq_of_le (by omega) (by omega)]

theorem byte_of_index {i : UInt16} (h : i ≤ 0xFF) : i.toUInt8.toUInt16 = i := by
  have h' : i.toNat ≤ 255 := UInt16.le_iff_toNat_le.mp h
  rw [← UInt16.toNat_inj, UInt8.toNat_toUInt16, UInt16.toNat_toUInt8]
  omega

/-! ### Opcodes -/

theorem form_smallInt {v : Int32} (hlow : -1 ≤ v) (hhigh : v ≤ 5) :
    InstructionSet.form? (3 + v).toUInt32.toUInt8 = some (.plain (.pushInt v)) := by
  have hlow' : -1 ≤ v.toInt := Int32.le_iff_toInt_le.mp hlow
  have hhigh' : v.toInt ≤ 5 := Int32.le_iff_toInt_le.mp hhigh
  obtain h | h | h | h | h | h | h : v = -1 ∨ v = 0 ∨ v = 1 ∨ v = 2 ∨ v = 3 ∨ v = 4 ∨ v = 5 := by
    simp [← Int32.toInt_inj]
    omega
  all_goals
    subst h
    cbv

theorem eq_of_le_three {i : UInt16} (h : i ≤ 3) : i = 0 ∨ i = 1 ∨ i = 2 ∨ i = 3 := by
  have h' : i.toNat ≤ 3 := UInt16.le_iff_toNat_le.mp h
  simp only [← UInt16.toNat_inj, UInt16.reduceToNat]
  omega

theorem form_load (kind : LocalKind) :
    InstructionSet.form? (0x15 + kindOffset kind) = some (.load kind) := by
  cases kind <;> cbv

theorem form_store (kind : LocalKind) :
    InstructionSet.form? (0x36 + kindOffset kind) = some (.store kind) := by
  cases kind <;> cbv

theorem form_shortLoad (kind : LocalKind) {i : UInt16} (h : i ≤ 3) :
    InstructionSet.form? (0x1A + 4 * kindOffset kind + i.toUInt8) =
      some (.plain (.load kind i)) := by
  obtain rfl | rfl | rfl | rfl := eq_of_le_three h
  all_goals cases kind <;> cbv

theorem form_shortStore (kind : LocalKind) {i : UInt16} (h : i ≤ 3) :
    InstructionSet.form? (0x3B + 4 * kindOffset kind + i.toUInt8) =
      some (.plain (.store kind i)) := by
  obtain rfl | rfl | rfl | rfl := eq_of_le_three h
  all_goals cases kind <;> cbv

theorem form_use (use : PoolUse) : InstructionSet.form? (useOpcode use) = some (.pooled use) := by
  cases use <;> cbv

/-! ### Spellings -/

/-- Whether bytes at an offset of code are read as one instruction, which is what a statement denotes; a
switch takes the number that is offered to it. -/
def Means (f : Draft) (length o : Nat) (st : Statement) (bs : List UInt8) : Prop :=
  ∀ k, ∃ op table, Yields o (Site.instruction ⟨o, length⟩ k) bs (op, table) ∧
    op.table? = table.map (fun _ => k) ∧ Denotes f.pool (f.labels.lookup ·) st op table

/-- Whether a statement that leads from one draft to another one adds bytes that mean it, in every draft
that is built on: where code is no longer than that of a method, and the labels of the statement lie in it. -/
def Emits (d d' : Draft) (st : Statement) : Prop :=
  ∃ ps, ps ≠ [] ∧ Writes d d' ps ∧ ∀ (f : Draft) (length : Nat) (bs : List UInt8),
    d'.pool.Extends f.pool → Spells f ps bs → d.size + bs.length ≤ length → length ≤ 65535 →
    (∀ l ∈ st.targets, ∀ t, f.labels.lookup l = some t → t < length) →
    Means f length d.size st bs

section

variable {d d' : Draft} {st : Statement} {a : Operation}

/-- A statement that adds bytes without distances. -/
theorem emits_bytes {opcode : UInt8} {r : List UInt8}
    (hwrites : Writes d d' ((opcode :: r).map .byte)) (htable : a.table? = none)
    (hread : ∀ (s : Site) (o k : Nat), Yields o (s.instruction k) (opcode :: r) (a, none))
    (hmeans : ∀ f : Draft, d'.pool.Extends f.pool →
      Denotes f.pool (f.labels.lookup ·) st a none) : Emits d d' st := by
  refine ⟨_, by simp, hwrites, fun f length bs' hext hspells _ _ _ => ?_⟩
  rw [hspells.bytes_inv]
  exact fun k => ⟨a, none, hread _ _ k, htable, hmeans f hext⟩

/-- A statement whose opcode says it all. -/
theorem emits_plain {opcode : UInt8} (hform : InstructionSet.form? opcode = some (.plain a))
    (hwrites : Writes d d' ([opcode].map .byte))
    (hmeans : ∀ f : Draft, d'.pool.Extends f.pool →
      Denotes f.pool (f.labels.lookup ·) st a none) : Emits d d' st :=
  emits_bytes hwrites (InstructionSet.plain_of_form? hform).2
    (fun _ o _ => yields_instruction o hform (yields_pure _ _)) hmeans

/-- A statement with an entry of the pool. -/
theorem emits_pooled {opcode : UInt8} {e : Entry} (hd : d.pool.Sound)
    (htable : a.table? = none)
    (hread : ∀ (s : Site) (o k : Nat),
      Yields o (s.instruction k) (opcode :: bytes2 (d.entry e).1) (a, none))
    (hmeans : ∀ pool : Pool, pool.Names (d.entry e).1 e → ∀ at?, Denotes pool at? st a none) :
    Emits d (d.pooled opcode e) st :=
  emits_bytes (writes_pooled d opcode e) htable hread
    fun _ hext => hmeans _ (hext.names (names_pooled hd opcode e)) _

theorem emits_ldc {e : Entry} (hd : d.pool.Sound)
    (hmeans : ∀ (pool : Pool) (i : UInt16), pool.Names i e → ∀ at?, Denotes pool at? st (.ldc i) none) :
    Emits d (d.ldc e) st := by
  have hnames := names_entry hd e
  unfold Draft.ldc
  change Emits d (if (d.entry e).1 ≤ 0xFF then (d.entry e).2.bytes [0x12, (d.entry e).1.toUInt8]
    else (d.entry e).2.bytes (0x13 :: bytes2 (d.entry e).1)) st
  split
  · next hsmall =>
    refine emits_bytes ((writes_entry d e).trans (writes_bytes _ _)) rfl (fun s o k => ?_)
      fun f hext => hmeans _ _ (hext.names ((writes_bytes _ _).grows.names hnames)) _
    have hread : Yields (o + 1) (s.operands k .ldc) [(d.entry e).1.toUInt8]
        (.ldc (d.entry e).1.toUInt8.toUInt16, none) := (yields_u1 s _ _).map _
    rw [byte_of_index hsmall] at hread
    exact yields_instruction o (by cbv) hread
  · exact emits_pooled (a := .ldc (d.entry e).1) hd rfl
      (fun s o k => yields_instruction o (f := .ldcWide) (by cbv)
        ((yields_u2 s _ _).map _))
      fun pool h _ => hmeans pool _ h _

/-- An access to a local, where the operation is `m` of the index. -/
theorem emits_local {short long : UInt8} {index : UInt16} {slots : Nat} {form : Form}
    {m : UInt16 → Operation} (htable : ∀ i, (m i).table? = none)
    (hshort : index ≤ 3 →
      InstructionSet.form? (short + index.toUInt8) = some (.plain (m index)))
    (hlong : InstructionSet.form? long = some form)
    (hread : ∀ (s : Site) (o k : Nat) (b : UInt8),
      Yields o (s.operands k form) [b] (m b.toUInt16, none))
    (hwide : ∀ (s : Site) (o : Nat), Yields o s.widened (long :: bytes2 index) (m index))
    (hmeans : ∀ pool at?, Denotes pool at? st (m index) none) :
    Emits d (d.local_ short long index slots) st := by
  have huse := writes_useLocals d (index + slots.toUInt16)
  unfold Draft.local_
  dsimp only
  split
  · next h => exact emits_plain (hshort h) (huse.trans (writes_bytes _ _)) fun _ _ => hmeans _ _
  · split
    · next h =>
      refine emits_bytes (huse.trans (writes_bytes _ _)) (htable index) (fun s o k => ?_)
        fun _ _ => hmeans _ _
      have hbyte := hread s (o + 1) k index.toUInt8
      rw [byte_of_index h] at hbyte
      exact yields_instruction o hlong hbyte
    · exact emits_bytes (huse.trans (writes_bytes _ _)) (htable index)
        (fun s o k => yields_wide o (hwide s _)) fun _ _ => hmeans _ _

/-! ### Statements -/

theorem emits_pushInt {v : Int32} (hd : d.pool.Sound) (hadd : d.add (.pushInt v) = .ok d') :
    Emits d d' (.pushInt v) := by
  cases hadd
  split
  · next h =>
    simp only [Bool.and_eq_true, decide_eq_true_eq] at h
    exact emits_plain (form_smallInt h.1 h.2) (writes_bytes _ _) fun _ _ => .pushInt
  split
  · next h =>
    simp only [Bool.and_eq_true, decide_eq_true_eq] at h
    refine emits_bytes (a := .pushInt v) (writes_bytes _ _) rfl (fun s o k => ?_)
      fun _ _ => .pushInt
    have hread : Yields (o + 1) (s.operands k .pushByte) [v.toUInt32.toUInt8]
        (.pushInt v.toUInt32.toUInt8.toInt8.toInt32, none) := (yields_i1 s _ _).map _
    rw [byte_of_int h.1 h.2] at hread
    exact yields_instruction o (by cbv) hread
  split
  · next h =>
    simp only [Bool.and_eq_true, decide_eq_true_eq] at h
    refine emits_bytes (a := .pushInt v) (writes_bytes _ _) rfl (fun s o k => ?_)
      fun _ _ => .pushInt
    have hread : Yields (o + 1) (s.operands k .pushShort) (bytes2 v.toUInt32.toUInt16)
        (.pushInt v.toUInt32.toUInt16.toInt16.toInt32, none) := (yields_i2 s _ _).map _
    rw [short_of_int h.1 h.2] at hread
    exact yields_instruction o (by cbv) hread
  · exact emits_ldc hd fun _ _ h _ => .pushIntConstant h

/-- The spelling of a two-word constant in the pool. -/
theorem emits_ldc2 {e : Entry} (hd : d.pool.Sound)
    (hmeans : ∀ (pool : Pool) (i : UInt16), pool.Names i e → ∀ at?, Denotes pool at? st (.ldc2 i) none) :
    Emits d (d.pooled 0x14 e) st :=
  emits_pooled (a := .ldc2 (d.entry e).1) hd rfl
    (fun s o k => yields_instruction o (f := .ldc2) (by cbv) ((yields_u2 s _ _).map _))
    fun pool h _ => hmeans pool _ h _

theorem emits_pushLong {v : Int64} (hd : d.pool.Sound) (hadd : d.add (.pushLong v) = .ok d') :
    Emits d d' (.pushLong v) := by
  cases hadd
  split
  · next h =>
    subst h
    exact emits_plain (by cbv) (writes_bytes _ _) fun _ _ => .pushLong
  split
  · next h =>
    subst h
    exact emits_plain (by cbv) (writes_bytes _ _) fun _ _ => .pushLong
  · exact emits_ldc2 hd fun _ _ h _ => .pushLongConstant h

theorem emits_pushFloat {bits : UInt32} (hd : d.pool.Sound)
    (hadd : d.add (.pushFloat bits) = .ok d') : Emits d d' (.pushFloat bits) := by
  cases hadd
  split
  · next h =>
    subst h
    exact emits_plain (by cbv) (writes_bytes _ _) fun _ _ => .pushFloat
  split
  · next h =>
    subst h
    exact emits_plain (by cbv) (writes_bytes _ _) fun _ _ => .pushFloat
  split
  · next h =>
    subst h
    exact emits_plain (by cbv) (writes_bytes _ _) fun _ _ => .pushFloat
  · exact emits_ldc hd fun _ _ h _ => .pushFloatConstant h

theorem emits_pushDouble {bits : UInt64} (hd : d.pool.Sound)
    (hadd : d.add (.pushDouble bits) = .ok d') : Emits d d' (.pushDouble bits) := by
  cases hadd
  split
  · next h =>
    subst h
    exact emits_plain (by cbv) (writes_bytes _ _) fun _ _ => .pushDouble
  split
  · next h =>
    subst h
    exact emits_plain (by cbv) (writes_bytes _ _) fun _ _ => .pushDouble
  · exact emits_ldc2 hd fun _ _ h _ => .pushDoubleConstant h

theorem emits_load {kind : LocalKind} {index : UInt16} (hadd : d.add (.load kind index) = .ok d') :
    Emits d d' (.load kind index) := by
  cases hadd
  refine emits_local (m := .load kind) (fun _ => rfl)
    (form_shortLoad kind) (form_load kind)
    (fun s o k b => (yields_u1 s _ b).map _) (fun s o => ?_) fun _ _ => .load
  unfold Site.widened
  refine yields_byte s o ?_
  rw [form_load]
  exact (yields_u2 s _ index).map _

theorem emits_store {kind : LocalKind} {index : UInt16} (hadd : d.add (.store kind index) = .ok d') :
    Emits d d' (.store kind index) := by
  cases hadd
  refine emits_local (m := .store kind) (fun _ => rfl)
    (form_shortStore kind) (form_store kind)
    (fun s o k b => (yields_u1 s _ b).map _) (fun s o => ?_) fun _ _ => .store
  unfold Site.widened
  refine yields_byte s o ?_
  rw [form_store]
  exact (yields_u2 s _ index).map _

theorem emits_iinc {index : UInt16} {delta : Int16} (hadd : d.add (.iinc index delta) = .ok d') :
    Emits d d' (.iinc index delta) := by
  cases hadd
  have huse := writes_useLocals d (index + 1)
  have hform : InstructionSet.form? 0x84 = some .iinc := by cbv
  dsimp only
  split
  · next h =>
    simp only [Bool.and_eq_true, decide_eq_true_eq] at h
    refine emits_bytes (a := .iinc index delta) (huse.trans (writes_bytes _ _)) rfl
      (fun s o k => yields_instruction o hform ?_) fun _ _ => .iinc
    have hread : Yields (o + 1) (s.operands k .iinc)
        ([index.toUInt8] ++ [delta.toUInt16.toUInt8])
        (.iinc index.toUInt8.toUInt16 delta.toUInt16.toUInt8.toInt8.toInt16, none) :=
      (yields_u1 s _ _).bind rfl ((yields_i1 s _ _).map _)
    rw [byte_of_index h.1.1, byte_of_short h.1.2 h.2] at hread
    exact hread
  · refine emits_bytes (a := .iinc index delta) (huse.trans (writes_bytes _ _)) rfl
      (fun s o k => yields_wide o ?_) fun _ _ => .iinc
    unfold Site.widened
    refine yields_byte s _ ?_
    rw [hform]
    have hread := (yields_i2 s (o + 1 + 1 + 2) delta.toUInt16).map (Operation.iinc index)
    rw [Int16.toInt16_toUInt16] at hread
    exact (yields_u2 s _ index).bind rfl hread

theorem emits_member {use : PoolUse} {owner name descriptor : String} (hd : d.pool.Sound)
    (hadd : d.add (.member use owner name descriptor) = .ok d') :
    Emits d d' (.member use owner name descriptor) := by
  cases hadd
  exact emits_pooled (a := .pooled use _) hd rfl
    (fun s o k => yields_instruction o (form_use use) ((yields_u2 s _ _).map _))
    fun _ h _ => .member h

theorem emits_onClass {use : PoolUse} {name : String} (hd : d.pool.Sound)
    (hadd : d.add (.onClass use name) = .ok d') : Emits d d' (.onClass use name) := by
  cases hadd
  exact emits_pooled (a := .pooled use _) hd rfl
    (fun s o k => yields_instruction o (form_use use) ((yields_u2 s _ _).map _))
    fun _ h _ => .onClass h

theorem emits_invokeInterface {owner name descriptor : String} {type : MethodType}
    (hd : d.pool.Sound) (htype : MethodType.parse descriptor = .ok type)
    (hslots : type.argSlots ≤ 254) (hadd : d.add (.invokeInterface owner name descriptor) = .ok d') :
    Emits d d' (.invokeInterface owner name descriptor) := by
  change (MethodType.parse descriptor).bind _ = _ at hadd
  rw [htype] at hadd
  cases hadd
  have hcount : (type.argSlots + 1).toUInt8 ≠ 0 := by
    rw [Ne, ← UInt8.toNat_inj, Nat.toUInt8_eq, UInt8.toNat_ofNat']
    simp only [UInt8.reduceToNat]
    omega
  have hnames := names_pooled hd 0xB9 (.interfaceMethodRef owner name descriptor)
  refine emits_bytes (r := bytes2 (d.entry _).1 ++ [(type.argSlots + 1).toUInt8, 0])
    (a := .invokeInterface (d.entry (.interfaceMethodRef owner name descriptor)).1
      (type.argSlots + 1).toUInt8)
    ((writes_pooled d 0xB9 _).trans (writes_bytes _ _)) rfl
    (fun s o k => yields_instruction o (f := .invokeInterface) (by cbv) ?_)
    fun f hext => .invokeInterface htype (hext.names ((writes_bytes _ _).grows.names hnames))
  exact (yields_u2 s _ _).bind rfl
    (yields_byte s _ (yields_byte s _ (yields_else hcount (yields_pure _ _))))

theorem emits_newArray {code : UInt8} {element : Primitive}
    (hcode : Primitive.ofCode? code = some element) (hadd : d.add (.newArray code) = .ok d') :
    Emits d d' (.newArray code) := by
  cases hadd
  refine emits_bytes (a := .newArray element) (writes_bytes _ _) rfl
    (fun s o k => yields_instruction o (f := .newArray) (by cbv) ?_)
    fun _ _ => .newArray hcode
  refine yields_byte s _ ?_
  rw [hcode]
  exact yields_pure _ _

theorem emits_newMultiArray {name : String} {dimensions : UInt8} (hd : d.pool.Sound)
    (hdimensions : dimensions ≠ 0) (hadd : d.add (.newMultiArray name dimensions) = .ok d') :
    Emits d d' (.newMultiArray name dimensions) := by
  cases hadd
  have hnames := names_pooled hd 0xC5 (.classRef name)
  refine emits_bytes (r := bytes2 (d.entry _).1 ++ [dimensions])
    (a := .newMultiArray (d.entry (.classRef name)).1 dimensions)
    ((writes_pooled d 0xC5 _).trans (writes_bytes _ _)) rfl
    (fun s o k => yields_instruction o (f := .newMultiArray) (by cbv) ?_)
    fun f hext => .newMultiArray (hext.names ((writes_bytes _ _).grows.names hnames))
  exact (yields_u2 s _ _).bind rfl (yields_byte s _ (yields_else hdimensions (yields_pure _ _)))

theorem emits_jump {opcode : UInt8} {jump : Jump} {l : Label}
    (hform : InstructionSet.form? opcode = some (.jump jump))
    (hadd : d.add (.jump opcode l) = .ok d') : Emits d d' (.jump opcode l) := by
  cases hadd
  refine ⟨_, by simp, (writes_bytes d [opcode]).trans (writes_piece _ (.near d.size l)),
    fun f length bs hext hspells hfits hsmall htargets => ?_⟩
  cases hspells with
  | byte hspells =>
    cases hspells with
    | @near _ t _ _ _ ht hlow hhigh hspells =>
      cases hspells
      have hlt := htargets l List.mem_cons_self t ht
      refine fun k => ⟨.jump jump t, none, ?_, rfl, .jump hform ht⟩
      rw [List.append_nil]
      exact yields_instruction _ hform
        ((yields_near (s := ⟨d.size, length⟩) _ hlt hlow hhigh).map _)

theorem emits_farJump {opcode : UInt8} {jump : Jump} {l : Label}
    (hform : InstructionSet.form? opcode = some (.farJump jump))
    (hadd : d.add (.farJump opcode l) = .ok d') : Emits d d' (.farJump opcode l) := by
  cases hadd
  refine ⟨_, by simp, (writes_bytes d [opcode]).trans (writes_piece _ (.far d.size l)),
    fun f length bs hext hspells hfits hsmall htargets => ?_⟩
  cases hspells with
  | byte hspells =>
    obtain ⟨t, ht, rfl⟩ := hspells.far_inv
    have hlt := htargets l List.mem_cons_self t ht
    have hpc : d.size ≤ length := by omega
    refine fun k => ⟨.jump jump t, none, ?_, rfl, .farJump hform ht⟩
    exact yields_instruction _ hform
      ((yields_far (s := ⟨d.size, length⟩) _ hlt hsmall hpc).map _)

/-- The greatest key of a run of keys that does not overflow. -/
theorem toInt_high {low : Int32} {n : Nat} (hpos : 0 < n) (h : low.toInt + n ≤ 2 ^ 31) :
    (low + Int32.ofInt ((n : Int) - 1)).toInt = low.toInt + n - 1 := by
  have hlow := low.le_toInt
  rw [Int32.toInt_add, Int32.toInt_ofInt, Int.add_bmod_bmod, Int.bmod_eq_of_le]
  all_goals norm_num at *
  all_goals omega

theorem mem_of_forall₂ {α β : Type} {R : α → β → Prop} {l : List α} {l' : List β}
    (h : List.Forall₂ R l l') : ∀ b ∈ l', ∃ a ∈ l, R a b := by
  induction h with
  | nil => simp
  | cons hab _ ih =>
    rintro c (_ | ⟨_, hc⟩)
    · exact ⟨_, List.mem_cons_self, hab⟩
    · obtain ⟨a, ha, hac⟩ := ih c hc
      exact ⟨a, List.mem_cons_of_mem _ ha, hac⟩

/-- The pieces in front of the keys of a switch. -/
def switchHead (base : Nat) (opcode : UInt8) (l : Label) : List Piece :=
  [opcode].map .byte ++ (List.replicate ((4 - (base + 1) % 4) % 4) 0).map .byte ++ [.far base l]

theorem writes_switchHead (d : Draft) (opcode : UInt8) (l : Label) :
    Writes d ((d.bytes [opcode]).pad.piece (.far d.size l)) (switchHead d.size opcode l) :=
  ((writes_bytes d [opcode]).trans (writes_pad _)).trans (writes_piece _ _)

theorem Spells.switchHead_inv {f : Draft} {base : Nat} {opcode : UInt8} {l : Label}
    {bs : List UInt8} (h : Spells f (switchHead base opcode l) bs) :
    ∃ t, f.labels.lookup l = some t ∧
      bs = opcode :: (List.replicate ((4 - (base + 1) % 4) % 4) 0 ++ farBytes base t) := by
  obtain ⟨bs, far, rfl, hspells, hfar⟩ := h.append_inv
  obtain ⟨code, padding, rfl, hcode, hpadding⟩ := hspells.append_inv
  obtain ⟨t, ht, rfl⟩ := hfar.far_inv
  have hopcode : code = [opcode] := hcode.bytes_inv
  rw [hopcode, hpadding.bytes_inv]
  exact ⟨t, ht, rfl⟩

theorem emits_tableSwitch {low : Int32} {l : Label} {labels : List Label} (hne : labels ≠ [])
    (hrange : low.toInt + labels.length ≤ 2 ^ 31)
    (hadd : d.add (.tableSwitch low l labels) = .ok d') :
    Emits d d' (.tableSwitch low l labels) := by
  cases hadd
  refine ⟨_, by simp [switchHead], ((writes_switchHead d 0xAA l).trans (writes_bytes _ _)).trans
    (writes_farList _ d.size labels), fun f length bs hext hspells hfits hsmall htargets => ?_⟩
  obtain ⟨bs, ends, rfl, hspells, hends⟩ := hspells.append_inv
  obtain ⟨bs, keys, rfl, hhead, hkeys⟩ := hspells.append_inv
  obtain ⟨t, ht, rfl⟩ := hhead.switchHead_inv
  obtain ⟨ts, hts, rfl⟩ := hends.farList_inv
  rw [hkeys.bytes_inv] at hfits ⊢
  have hcount : ts.length = labels.length := hts.length_eq.symm
  have hpos : 0 < labels.length := List.length_pos_iff.mpr hne
  have hhigh : (low + Int32.ofInt ((labels.length : Int) - 1)).toInt = low.toInt + ts.length - 1 := by
    rw [hcount]
    exact toInt_high hpos hrange
  have htable : ∀ t ∈ ts, t < length := by
    intro t hmem
    obtain ⟨a, ha, hat⟩ := mem_of_forall₂ hts t hmem
    exact htargets a (List.mem_cons_of_mem _ ha) t hat
  have hpc : d.size ≤ length := by omega
  have hread := yields_rangeTable (s := ⟨d.size, length⟩) (d.size + 1)
    (htargets l List.mem_cons_self t ht) htable hhigh (List.length_pos_iff.mp (hcount ▸ hpos))
    hsmall hpc
  refine fun k => ⟨.tableSwitch k, some ⟨t, .range low ts⟩, ?_, rfl, .tableSwitch ht hts⟩
  simp only [List.cons_append, List.append_assoc]
  exact yields_instruction d.size (f := .tableSwitch) (by cbv)
    (hread.map fun table => (Operation.tableSwitch k, some table))

theorem sorted_sortPairs {pairs : List (Int32 × Label)} (hkeys : (pairs.map (·.1)).Nodup) :
    (sortPairs pairs).Pairwise fun a b => a.1 < b.1 := by
  have hperm : (sortPairs pairs).Perm pairs := List.mergeSort_perm _ _
  have hsorted : (sortPairs pairs).Pairwise fun a b => a.1 ≤ b.1 := by
    refine (List.pairwise_mergeSort ?_ ?_ pairs).imp of_decide_eq_true
    · intro a b c hab hbc
      simp only [decide_eq_true_eq] at *
      exact Int32.le_trans hab hbc
    · intro a b
      simp only [Bool.or_eq_true, decide_eq_true_eq]
      exact Int32.le_total _ _
  have hapart : (sortPairs pairs).Pairwise fun a b => a.1 ≠ b.1 :=
    List.pairwise_map.mp ((hperm.map Prod.fst).nodup_iff.mpr hkeys)
  exact (hsorted.and hapart).imp fun h => Int32.lt_iff_le_and_ne.mpr h

theorem emits_lookupSwitch {l : Label} {pairs : List (Int32 × Label)}
    (hkeys : (pairs.map (·.1)).Nodup) (hadd : d.add (.lookupSwitch l pairs) = .ok d') :
    Emits d d' (.lookupSwitch l pairs) := by
  cases hadd
  refine ⟨_, by simp [switchHead], ((writes_switchHead d 0xAB l).trans (writes_bytes _ _)).trans
    (writes_pairList _ d.size (sortPairs pairs)),
    fun f length bs hext hspells hfits hsmall htargets => ?_⟩
  obtain ⟨bs, ends, rfl, hspells, hends⟩ := hspells.append_inv
  obtain ⟨bs, count, rfl, hhead, hcount⟩ := hspells.append_inv
  obtain ⟨t, ht, rfl⟩ := hhead.switchHead_inv
  obtain ⟨ts, hts, rfl⟩ := hends.pairList_inv
  have hperm : (sortPairs pairs).Perm pairs := List.mergeSort_perm _ _
  have hlength : ts.length = pairs.length := hts.length_eq.symm.trans hperm.length_eq
  have hcases : ts.length ≤ 65535 := by
    simp [List.length_flatMap, length_farBytes, bytes4] at hfits
    omega
  rw [hcount.bytes_inv, ← hlength] at hfits ⊢
  have hsorted : ts.Pairwise fun a b => a.1 < b.1 := by
    have hsame : (sortPairs pairs).map (·.1) = ts.map (·.1) := by
      rw [← List.forall₂_eq_eq_eq, List.forall₂_map_left_iff, List.forall₂_map_right_iff]
      exact hts.imp fun p q h => h.1.symm
    rw [← List.pairwise_map (f := fun p : Int32 × Nat => p.1) (R := (· < ·)), ← hsame,
      List.pairwise_map]
    exact sorted_sortPairs hkeys
  have htable : ∀ q ∈ ts, q.2 < length := by
    intro q hmem
    obtain ⟨p, hp, -, hat⟩ := mem_of_forall₂ hts q hmem
    exact htargets p.2 (List.mem_cons_of_mem _ (List.mem_map_of_mem (hperm.mem_iff.mp hp))) q.2 hat
  have hpc : d.size ≤ length := by omega
  have hread := yields_pairTable (s := ⟨d.size, length⟩) (d.size + 1)
    (htargets l List.mem_cons_self t ht) htable hsorted hcases hsmall hpc
  refine fun k => ⟨.lookupSwitch k, some ⟨t, .pairs ts.toArray⟩, ?_, rfl,
    .lookupSwitch ht hperm hsorted hts⟩
  simp only [List.cons_append, List.append_assoc]
  exact yields_instruction d.size (f := .lookupSwitch) (by cbv)
    (hread.map fun table => (Operation.lookupSwitch k, some table))

/-- **What a valid instruction adds to a draft is read back as what it denotes.** -/
theorem emits_add (hd : d.pool.Sound) (hvalid : st.Valid) (hinsn : st.isInstruction = true)
    (hadd : d.add st = .ok d') : Emits d d' st := by
  cases st with
  | raw | pooled => exact hvalid.elim
  | op opcode =>
    obtain ⟨op, hform⟩ := hvalid
    cases hadd
    exact emits_plain hform (writes_bytes _ _) fun _ _ => .op hform
  | pushInt => exact emits_pushInt hd hadd
  | pushLong => exact emits_pushLong hd hadd
  | pushFloat => exact emits_pushFloat hd hadd
  | pushDouble => exact emits_pushDouble hd hadd
  | pushString =>
    cases hadd
    exact emits_ldc hd fun _ _ h _ => .pushString h
  | pushClass =>
    cases hadd
    exact emits_ldc hd fun _ _ h _ => .pushClass h
  | load => exact emits_load hadd
  | store => exact emits_store hadd
  | iinc => exact emits_iinc hadd
  | member => exact emits_member hd hadd
  | invokeInterface =>
    obtain ⟨type, htype, hslots⟩ := hvalid
    exact emits_invokeInterface hd htype hslots hadd
  | onClass => exact emits_onClass hd hadd
  | newArray =>
    obtain ⟨element, hcode⟩ := hvalid
    exact emits_newArray hcode hadd
  | newMultiArray => exact emits_newMultiArray hd hvalid hadd
  | jump =>
    obtain ⟨jump, hform⟩ := hvalid
    exact emits_jump hform hadd
  | farJump =>
    obtain ⟨jump, hform⟩ := hvalid
    exact emits_farJump hform hadd
  | tableSwitch => exact emits_tableSwitch hvalid.1 hvalid.2 hadd
  | lookupSwitch => exact emits_lookupSwitch hvalid hadd
  | label | handler | line | maxStack | maxLocals => cases hinsn

end

end Jvm.Assembly
