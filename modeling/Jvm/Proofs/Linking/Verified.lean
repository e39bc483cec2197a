import Jvm.Linking.Verification
import Jvm.Proofs.Bytecode.Decoding
import Jvm.Proofs.Bytecode.Switches

/-! # What verification guarantees

Code that passes verification is closed under control flow: wherever control can go from an instruction
that is not `ret`, there is an instruction (`Code.Successor`). Its locals, constants, returns and handlers
are in order too; `WellFormed` lists it all, and `wellFormed_of_verifyMethod` is the main statement. -/

namespace Jvm.Bytecode

open ClassFile

/-! ### Decoded code is closed -/

/-- Every position in a jump or a table is the index of an instruction, and every switch has a table. -/
structure Body.Closed (b : Body) : Prop where
  target : ∀ i op t, b.operation? i = some op → op.target? = some t → t < b.size
  table : ∀ i op n, b.operation? i = some op → op.table? = some n →
    ∃ t, b.tables[n]? = some t ∧ ∀ j ∈ t.allTargets, j < b.size
  ends : ∃ op, b.operation? (b.size - 1) = some op ∧ op.endsBlock = true

theorem Body.operation?_lt {b : Body} {i : Nat} {op : Operation} (hop : b.operation? i = some op) :
    i < b.size := by
  obtain ⟨insn, hinsn, -⟩ := Option.map_eq_some_iff.mp hop
  exact (Array.getElem?_eq_some_iff.mp hinsn).1

theorem Body.exists_operation? {b : Body} {i : Nat} (hi : i < b.size) :
    ∃ op, b.operation? i = some op :=
  ⟨_, by rw [Body.operation?, Array.getElem?_eq_getElem hi]; rfl⟩

theorem starts_lt : ∀ (is : List Instruction) (k : Nat) (starts : Array (Option Nat)),
    (∀ (pc i : Nat), starts[pc]?.join = some i → i < k) → ∀ (pc i : Nat), ((is.zipIdx k).foldl
      (fun starts (insn, i) => starts.setIfInBounds insn.pc.toNat (some i)) starts)[pc]?.join =
        some i → i < k + is.length
  | [], k, starts, hstarts, pc, i, hget => hstarts pc i hget
  | insn :: is, k, starts, hstarts, pc, i, hget => by
    have hnext : ∀ (pc i : Nat),
        (starts.setIfInBounds insn.pc.toNat (some k))[pc]?.join = some i → i < k + 1 := by
      intro pc i h
      rw [Array.getElem?_setIfInBounds] at h
      split at h
      · split at h
        · cases h
          omega
        · cases h
      · have := hstarts pc i h
        omega
    have := starts_lt is (k + 1) _ hnext pc i hget
    rw [List.length_cons]
    omega

theorem startTable_lt {length : Nat} {instructions : Array Instruction} {pc i : Nat}
    (hget : (startTable length instructions)[pc]?.join = some i) : i < instructions.size := by
  have := starts_lt instructions.toList 0 (Array.replicate length none) (fun pc i h => by
    rw [Array.getElem?_replicate] at h
    split at h <;> cases h) pc i hget
  simpa using this

/-- Positions that take the place of offsets are indices. -/
theorem lt_of_forall₂ {starts : Array (Option Nat)} {size : Nat}
    (hstarts : ∀ (t i : Nat), starts[t]?.join = some i → i < size) {l l' : List Nat}
    (h : List.Forall₂ (fun t i => starts[t]?.join = some i) l l') : ∀ i ∈ l', i < size := by
  induction h with
  | nil => simp
  | cons hti _ ih =>
    rintro i (_ | ⟨_, hi⟩)
    · exact hstarts _ _ hti
    · exact ih i hi

/-- **Decoded code is closed**, however long it is. -/
theorem closed_of_decode {code : List UInt8} {body : Body} (hdecode : decode code = .ok body) :
    body.Closed ∧ ∀ pc i, body.indexOf? pc = some i → i < body.size := by
  obtain ⟨instructions, tables, c, hread, hstarts, hlink, last, hlast, hends⟩ :=
    decode_eq_ok hdecode
  have hrun := run_of_readInstructions hread
  have hnodup : (instructions.toList.filterMap (·.operation.table?)).Nodup := by
    rw [hrun.numbers]
    exact List.nodup_range'
  obtain ⟨new, hnew, hsize, hlinked, -⟩ := linked_of_linkInstructions hnodup hlink
  obtain rfl : body.instructions.toList = new := hnew
  have hlength : body.size = instructions.size := by
    rw [Body.size, ← Array.length_toList, ← hlinked.length_eq, Array.length_toList]
  have hlt : ∀ (pc i : Nat), body.starts[pc]?.join = some i → i < body.size := by
    intro pc i h
    rw [hstarts] at h
    rw [hlength]
    exact startTable_lt h
  have hold : ∀ i op, body.operation? i = some op → ∃ old new,
      instructions.toList[i]? = some old ∧ new.operation = op ∧
        Linked body.starts tables body.tables old new := by
    intro i op hop
    obtain ⟨new, hnew, rfl⟩ := Option.map_eq_some_iff.mp hop
    obtain ⟨old, hold, h⟩ := exists_of_forall₂ hlinked (by rwa [Array.getElem?_toList])
    exact ⟨old, new, hold, rfl, h⟩
  refine ⟨⟨fun i op t hop htarget => ?_, fun i op n hop htable => ?_, last.operation, ?_, hends⟩,
    hlt⟩
  · obtain ⟨old, new, -, rfl, h⟩ := hold i op hop
    exact lt_of_forall₂ hlt h.target t (by simp [htarget])
  · obtain ⟨old, new, hget, rfl, h⟩ := hold i op hop
    have hn : old.operation.table? = some n := h.table ▸ htable
    have hmem : n ∈ List.range' 0 tables.toList.length := by
      rw [← hrun.numbers]
      exact List.mem_filterMap.mpr ⟨old, List.mem_of_getElem? hget, hn⟩
    have hbound : n < tables.size := by simpa using hmem
    obtain ⟨t', ht', htargets, -⟩ := h.targets n hn _ (Array.getElem?_eq_getElem hbound)
    exact ⟨t', ht', lt_of_forall₂ hlt htargets⟩
  · rw [Array.back?_eq_getElem?] at hlast
    rw [Body.operation?, Body.size, hlast]
    rfl

end Jvm.Bytecode

namespace Jvm.Linking

open ClassFile Bytecode

/-! ### What verified code promises -/

/-- Where control can go from an instruction that is not `ret`. -/
inductive Code.Successor (c : Code) : Nat → Nat → Prop
  | next {i : Nat} {op : Operation} (hop : c.body.operation? i = some op)
    (hgoes : op.endsBlock = false) : c.Successor i (i + 1)
  | jump {i t : Nat} {op : Operation} (hop : c.body.operation? i = some op)
    (htarget : op.target? = some t) : c.Successor i t
  | return_ {i t : Nat} (hop : c.body.operation? i = some (.jump .subroutine t)) :
    c.Successor i (i + 1)
  | switch {i n : Nat} {op : Operation} {t : SwitchTable} (hop : c.body.operation? i = some op)
    (htable : op.table? = some n) (ht : c.body.tables[n]? = some t) (key : Int32) :
    c.Successor i (t.target key)
  | handler {i : Nat} {op : Operation} {h : Handler} (hop : c.body.operation? i = some op)
    (hmem : h ∈ c.handlers) (hcovers : h.covers i = true) : c.Successor i h.handler

/-- Whether an operation can use a constant. -/
def admits : Operation → Constant → Bool
  | .ldc _, .integer _ | .ldc _, .float _ | .ldc _, .classRef _ | .ldc _, .string _
  | .ldc _, .methodHandle _ _ | .ldc _, .methodType _ => true
  | .ldc2 _, .long _ | .ldc2 _, .double _ => true
  | .pooled .getStatic _, .fieldRef _ _ | .pooled .putStatic _, .fieldRef _ _
  | .pooled .getField _, .fieldRef _ _ | .pooled .putField _, .fieldRef _ _ => true
  | .pooled .invokeVirtual _, .methodRef _ _ => true
  | .pooled .invokeStatic _, .methodRef _ _ | .pooled .invokeStatic _, .interfaceMethodRef _ _
  | .pooled .invokeSpecial _, .methodRef _ _ | .pooled .invokeSpecial _, .interfaceMethodRef _ _ =>
    true
  | .pooled .new _, .classRef _ | .pooled .newReferenceArray _, .classRef _
  | .pooled .checkCast _, .classRef _ | .pooled .instanceOf _, .classRef _
  | .newMultiArray _ _, .classRef _ => true
  | .invokeInterface _ _, .interfaceMethodRef _ _ => true
  | .invokeDynamic _, .invokeDynamic _ _ => true
  | _, _ => false

/-- **What verified code of a method of a type promises**, where the receiver takes `receiver` slots. -/
structure Code.WellFormed (c : Code) (pool : ConstantPool) (type : MethodType) (receiver : Nat) :
    Prop where
  starts : 0 < c.body.size
  closed : ∀ i j, c.Successor i j → j < c.body.size
  table : ∀ i op n, c.body.operation? i = some op → op.table? = some n →
    (c.body.tables[n]?).isSome = true
  handlers : ∀ h ∈ c.handlers, h.start < h.stop ∧ h.stop ≤ c.body.size ∧ h.handler < c.body.size
  locals : ∀ i op index slots, c.body.operation? i = some op →
    op.localAccess? = some (index, slots) → index.toNat + slots ≤ c.maxLocals
  arguments : type.argSlots + receiver ≤ c.maxLocals
  constants : ∀ i op index, c.body.operation? i = some op → op.poolIndex? = some index →
    ∃ constant, pool.get? index = some constant ∧ admits op constant = true
  returns : ∀ i kind, c.body.operation? i = some (.leave kind) →
    kind = Verification.returnKind type.result

namespace Verification

/-! ### The checks -/

theorem exists_of_bind {α β ε : Type} {x : Except ε α} {f : α → Except ε β} {b : β}
    (h : (x >>= f) = .ok b) : ∃ a, x = .ok a ∧ f a = .ok b := by
  rcases x with e | a
  · cases h
  · exact ⟨a, rfl, h⟩

/-- A check passes over a condition that is not met. -/
theorem of_unless {α ε : Type} {p : Prop} [Decidable p] {e : ε} {f : PUnit → Except ε α} {a : α}
    (h : (if p then (throw e : Except ε PUnit) >>= f else f ⟨⟩) = .ok a) :
    ¬ p ∧ f ⟨⟩ = .ok a := by
  split at h
  · cases h
  · exact ⟨‹_›, h⟩

theorem of_forM {α ε : Type} {f : α → Except ε Unit} :
    ∀ {l : List α}, l.forM f = .ok () → ∀ a ∈ l, f a = .ok ()
  | [], _, a, ha => by cases ha
  | b :: l, h, a, ha => by
    change (f b >>= fun _ => l.forM f) = .ok () at h
    obtain ⟨_, hb, hl⟩ := exists_of_bind h
    rcases ha with _ | ⟨_, ha⟩
    · exact hb
    · exact of_forM hl a ha

theorem ofFault_eq_ok {α : Type} {x : Except Fault α} {a : α} (h : ofFault x = .ok a) :
    x = .ok a := by
  rcases x with e | b
  · cases h
  · cases h
    rfl

theorem exists_of_expectTags {pool : ConstantPool} {index : UInt16} {allowed : List UInt8}
    {what : String} (h : expectTags pool index allowed what = .ok ()) :
    ∃ c, pool.get? index = some c ∧ c.tag ∈ allowed := by
  unfold expectTags at h
  obtain ⟨c, hget, h⟩ := exists_of_bind h
  refine ⟨c, by rw [ConstantPool.get?, ofFault_eq_ok hget]; rfl, ?_⟩
  by_contra hnot
  rw [if_pos (by simpa using hnot)] at h
  cases h

/-- The constant of an operation that passes the check can be used by it. -/
theorem exists_of_checkUse {pool : ConstantPool} {index : UInt16} {use : PoolUse}
    (h : checkUse pool index use = .ok ()) :
    ∃ c, pool.get? index = some c ∧ admits (.pooled use index) c = true := by
  have htags : ∃ allowed what, expectTags pool index allowed what = .ok () ∧
      ∀ c : Constant, c.tag ∈ allowed → admits (.pooled use index) c = true := by
    cases use with
    | getStatic | putStatic | getField | putField | new | newReferenceArray | checkCast
    | instanceOf =>
      refine ⟨_, _, h, fun c hc => ?_⟩
      cases c <;> first | rfl | exact absurd hc (by simp [Constant.tag, Tags.fieldRef, Tags.classRef])
    | invokeVirtual | invokeStatic | invokeSpecial =>
      obtain ⟨_, htags, -⟩ := exists_of_bind h
      refine ⟨_, _, htags, fun c hc => ?_⟩
      cases c <;> first
        | rfl
        | exact absurd hc (by simp [Constant.tag, Tags.methodRef, Tags.interfaceMethodRef])
  obtain ⟨allowed, what, htags, hadmits⟩ := htags
  obtain ⟨c, hget, hc⟩ := exists_of_expectTags htags
  exact ⟨c, hget, hadmits c hc⟩

/-- The constant of every operation that passes the check can be used by it. -/
theorem exists_of_checkConstantUse {pool : ConstantPool} {op : Operation} {index : UInt16}
    (h : checkConstantUse pool op = .ok ()) (hindex : op.poolIndex? = some index) :
    ∃ c, pool.get? index = some c ∧ admits op c = true := by
  have ofTags {allowed : List UInt8} {what : String}
      (htags : expectTags pool index allowed what = .ok ())
      (hadmits : ∀ c : Constant, c.tag ∈ allowed → admits op c = true) :
      ∃ c, pool.get? index = some c ∧ admits op c = true := by
    obtain ⟨c, hget, hc⟩ := exists_of_expectTags htags
    exact ⟨c, hget, hadmits c hc⟩
  cases op with
  | ldc i =>
    obtain rfl : i = index := Option.some.inj hindex
    obtain ⟨c, hget, h⟩ := exists_of_bind h
    refine ⟨c, by rw [ConstantPool.get?, ofFault_eq_ok hget]; rfl, ?_⟩
    cases c <;> first | rfl | cases h
  | ldc2 i =>
    obtain rfl : i = index := Option.some.inj hindex
    exact ofTags h fun c hc => by
      cases c <;> first | rfl | exact absurd hc (by simp [Constant.tag, longTag, doubleTag])
  | pooled use i =>
    obtain rfl : i = index := Option.some.inj hindex
    exact exists_of_checkUse h
  | invokeInterface i count =>
    obtain rfl : i = index := Option.some.inj hindex
    obtain ⟨_, htags, -⟩ := exists_of_bind h
    exact ofTags htags fun c hc => by
      cases c <;> first | rfl | exact absurd hc (by simp [Constant.tag, Tags.interfaceMethodRef])
  | invokeDynamic i =>
    obtain rfl : i = index := Option.some.inj hindex
    exact ofTags h fun c hc => by
      cases c <;> first | rfl | exact absurd hc (by simp [Constant.tag, invokeDynamicTag])
  | newMultiArray i dimensions =>
    obtain rfl : i = index := Option.some.inj hindex
    obtain ⟨_, htags, -⟩ := exists_of_bind h
    exact ofTags htags fun c hc => by
      cases c <;> first | rfl | exact absurd hc (by simp [Constant.tag, Tags.classRef])
  | _ => cases hindex

theorem of_checkInstruction {pool : ConstantPool} {maxLocals : Nat} {expected : Option LocalKind}
    {insn : Instruction} (h : checkInstruction pool maxLocals expected insn = .ok ()) :
    (∀ index slots, insn.operation.localAccess? = some (index, slots) →
      index.toNat + slots ≤ maxLocals) ∧
    (∀ kind, insn.operation = .leave kind → kind = expected) ∧
    checkConstantUse pool insn.operation = .ok () := by
  unfold checkInstruction at h
  obtain ⟨_, hlocals, h⟩ := exists_of_bind h
  obtain ⟨_, hreturn, h⟩ := exists_of_bind h
  refine ⟨fun index slots haccess => ?_, fun kind hop => ?_, ?_⟩
  · rw [checkLocals, haccess] at hlocals
    by_contra hnot
    simp only [if_pos (Nat.lt_of_not_le hnot)] at hlocals
    cases hlocals
  · rw [checkReturn, hop] at hreturn
    by_contra hnot
    simp only [if_pos (bne_iff_ne.mpr hnot)] at hreturn
    cases hreturn
  · rcases hconstant : checkConstantUse pool insn.operation with e | _
    · rw [hconstant] at h
      cases h
    · rfl

theorem of_handler {body : Body} {row : HandlerRow} {h : Handler}
    (hindex : ∀ pc i, body.indexOf? pc = some i → i < body.size)
    (hrow : handler body row = .ok h) :
    h.start < h.stop ∧ h.stop ≤ body.size ∧ h.handler < body.size := by
  unfold handler at hrow
  dsimp only at hrow
  split at hrow
  · next start stop handler hstart hstop hhandler =>
    split at hrow
    · next hlt =>
      cases hrow
      refine ⟨hlt, ?_, hindex _ _ hhandler⟩
      unfold Body.boundary? at hstop
      split at hstop
      · cases hstop
        exact Nat.le_refl _
      · exact Nat.le_of_lt (hindex _ _ hstop)
    · cases hrow
  · cases hrow

theorem mem_of_mapM {α β ε : Type} {f : α → Except ε β} {l : List α} {l' : List β}
    (h : l.mapM f = .ok l') {b : β} (hb : b ∈ l') : ∃ a ∈ l, f a = .ok b := by
  obtain ⟨i, hi⟩ := List.mem_iff_getElem?.mp hb
  obtain ⟨a, ha, hab⟩ := exists_of_forall₂ (forall₂_of_mapM h) hi
  exact ⟨a, List.mem_of_getElem? ha, hab⟩

theorem wellFormed_of_code {pool : ConstantPool} {access : Access} {type : MethodType}
    {source : CodeAttribute} {c : Code} (h : code pool access type source = .ok c) :
    c.WellFormed pool type (if access.isStatic then 0 else 1) := by
  unfold code at h
  dsimp only at h
  split at h
  swap
  · cases h
  next body hdecode =>
  obtain ⟨_, hpure, h⟩ := exists_of_bind h
  cases hpure
  obtain ⟨hslots, h⟩ := of_unless h
  obtain ⟨_, hchecks, h⟩ := exists_of_bind h
  obtain ⟨handlers, hhandlers, h⟩ := exists_of_bind h
  cases h
  obtain ⟨hclosed, hindex⟩ := closed_of_decode hdecode
  have hcheck : ∀ i op, body.operation? i = some op → ∃ insn, insn.operation = op ∧
      checkInstruction pool source.maxLocals.toNat (returnKind type.result) insn = .ok () := by
    intro i op hop
    obtain ⟨insn, hinsn, rfl⟩ := Option.map_eq_some_iff.mp hop
    exact ⟨insn, rfl, of_forM hchecks insn
      (Array.mem_toList_iff.mpr (Array.mem_of_getElem? hinsn))⟩
  have hrows : ∀ h ∈ handlers, h.start < h.stop ∧ h.stop ≤ body.size ∧ h.handler < body.size := by
    intro h hmem
    obtain ⟨row, -, hrow⟩ := mem_of_mapM hhandlers hmem
    exact of_handler hindex hrow
  refine ⟨?_, fun i j hij => ?_, fun i op n hop htable => ?_, hrows,
    fun i op index slots hop haccess => ?_, Nat.le_of_not_lt hslots,
    fun i op index hop hpool => ?_, fun i kind hop => ?_⟩
  · obtain ⟨last, hlast, -⟩ := hclosed.ends
    exact Nat.zero_lt_of_lt (Body.operation?_lt hlast)
  · have hnext {i : Nat} {op : Operation} (hop : body.operation? i = some op)
        (hgoes : op.endsBlock = false) : i + 1 < body.size := by
      obtain ⟨last, hlast, hends⟩ := hclosed.ends
      have hi := Body.operation?_lt hop
      rcases Nat.lt_or_eq_of_le (Nat.succ_le_of_lt hi) with hlt | heq
      · exact hlt
      · obtain rfl : body.size - 1 = i := by omega
        rw [hop] at hlast
        cases hlast
        rw [hgoes] at hends
        cases hends
    cases hij with
    | next hop hgoes => exact hnext hop hgoes
    | jump hop htarget => exact hclosed.target _ _ _ hop htarget
    | return_ hop => exact hnext hop rfl
    | switch hop htable ht key =>
      obtain ⟨t, ht', hlt⟩ := hclosed.table _ _ _ hop htable
      obtain rfl := Option.some.inj (ht'.symm.trans ht)
      exact hlt _ (t.target_mem key)
    | handler _ hmem _ => exact (hrows _ hmem).2.2
  · obtain ⟨t, ht, -⟩ := hclosed.table i op n hop htable
    rw [ht]
    rfl
  · obtain ⟨insn, rfl, hinsn⟩ := hcheck i op hop
    exact (of_checkInstruction hinsn).1 index slots haccess
  · obtain ⟨insn, rfl, hinsn⟩ := hcheck i op hop
    exact exists_of_checkConstantUse (of_checkInstruction hinsn).2.2 hpool
  · obtain ⟨insn, heq, hinsn⟩ := hcheck i _ hop
    exact (of_checkInstruction hinsn).2.1 kind heq

theorem code_of_methodCode {pool : ConstantPool} {inInterface : Bool} {name : String}
    {type : MethodType} {m : MemberInfo} {c : Code}
    (h : methodCode pool inInterface name type m = .ok (some c)) :
    ∃ source, m.code? = some source ∧ code pool m.access type source = .ok c := by
  unfold methodCode at h
  obtain ⟨-, h⟩ := of_unless h
  obtain ⟨-, h⟩ := of_unless h
  obtain ⟨-, h⟩ := of_unless h
  obtain ⟨-, h⟩ := of_unless h
  split at h
  · cases h
  · cases h
  · cases h
  · next source hsource _ =>
    obtain ⟨c', hc, h⟩ := exists_of_bind h
    cases h
    exact ⟨source, hsource, hc⟩

end Verification

/-- **Verified code keeps what it promises.** -/
theorem wellFormed_of_verifyMethod {pool : ConstantPool} {className : String} {inInterface : Bool}
    {m : MemberInfo} {v : VerifiedMethod} {c : Code}
    (hverify : verifyMethod pool className inInterface m = .ok v) (hcode : v.code = some c) :
    c.WellFormed pool v.type (if v.access.isStatic then 0 else 1) := by
  unfold verifyMethod at hverify
  obtain ⟨name, -, hverify⟩ := Verification.exists_of_bind hverify
  obtain ⟨descriptor, -, hverify⟩ := Verification.exists_of_bind hverify
  obtain ⟨type, -, hverify⟩ := Verification.exists_of_bind hverify
  split at hverify
  · next code hmethod =>
    cases hverify
    cases hcode
    obtain ⟨source, -, hsource⟩ := Verification.code_of_methodCode hmethod
    exact Verification.wellFormed_of_code hsource
  · cases hverify

end Jvm.Linking
