import Mathlib
import Jvm.Execution.Instructions
import Jvm.Execution.Throwing
import Jvm.Proofs.Execution.Calculation
import Jvm.Proofs.Linking.Computations
import Jvm.Proofs.Linking.Verified

/-! # Instructions of verified code

Where the instruction at hand leads (`leads_of_calculate`), where a handler begins, and which checks of an
instruction do not look at values: they are passed in every frame that has the locals that its code asks for
(`Frame.inBounds`). -/

namespace Jvm.Execution

open Bytecode Linking ClassFile

/-- The operation of the instruction at hand. -/
def Frame.operation? (f : Frame) : Option Operation := f.code.body.operation? f.pc

theorem fetch_eq_ok {f : Frame} {op : Operation} (hop : f.operation? = some op) :
    VM.fetch f = .ok op f := by
  unfold Frame.operation? at hop
  simp only [VM.fetch, bind, EStateM.bind, get, getThe, MonadStateOf.get, EStateM.get, hop, pure,
    EStateM.pure]

theorem fetch_eq_error {f : Frame} (hop : f.operation? = none) :
    VM.fetch f = Frame.refuse "execution fell off the end of the code" f := by
  unfold Frame.operation? at hop
  simp only [VM.fetch, bind, EStateM.bind, get, getThe, MonadStateOf.get, EStateM.get, hop]

/-! ### Where an instruction leads -/

theorem Frame.advance_eq_ok {x : OnFrame Target} {f f' : Frame}
    (h : Frame.advance x f = .ok () f') :
    ∃ target g, x f = .ok target g ∧ f' = { g with pc := target.getD (g.pc + 1) } := by
  change EStateM.bind x _ f = _ at h
  unfold EStateM.bind at h
  rcases hx : x f with ⟨target, g⟩ | ⟨e, g⟩
  · rw [hx] at h
    cases h
    exact ⟨target, g, rfl, rfl⟩
  · rw [hx] at h
    cases h

theorem Frame.advance_eq_error {x : OnFrame Target} {f f' : Frame} {e : Abrupt}
    (h : Frame.advance x f = .error e f') : x f = .error e f' := by
  change EStateM.bind x _ f = _ at h
  unfold EStateM.bind at h
  rcases hx : x f with ⟨target, g⟩ | ⟨e, g⟩
  · rw [hx] at h
    cases h
  · rw [hx] at h
    cases h
    rfl

/-- A computation that safely ends well. -/
theorem OnFrame.Safe.same {α : Type} {x : OnFrame α} {Q : α → Prop}
    (hx : x.Safe (fun _ => True) Q) {f f' : Frame} {a : α} (h : x f = .ok a f') :
    f.Same f' ∧ Q a := by
  have := hx f f.all_true
  rw [h] at this
  exact ⟨this.1, this.2.2⟩

theorem OnFrame.Safe.same_of_error {α : Type} {x : OnFrame α} {Q : α → Prop}
    (hx : x.Safe (fun _ => True) Q) {f f' : Frame} {e : Abrupt} (h : x f = .error e f') : f.Same f' := by
  have := hx f f.all_true
  rw [h] at this
  exact this.1

/-- Where a calculation leads from an instruction of some code: on, unless the instruction ends its
block, or to a target of it. -/
inductive Leads (body : Body) (op : Operation) : Target → Prop
  | next (hgoes : op.endsBlock = false) : Leads body op none
  | jump {t : Nat} (htarget : op.target? = some t) : Leads body op (some t)
  | switch {n : Nat} {t : SwitchTable} (htable : op.table? = some n)
    (ht : body.tables[n]? = some t) (key : Int32) : Leads body op (some (t.target key))
  | ret {index : UInt16} {t : Nat} (hop : op = .ret index) : Leads body op (some t)

theorem leads_of_next {body : Body} {op : Operation} {x : OnFrame Unit} {y : OnFrame Target}
    (hy : calculate?.next x = some y) (hgoes : op.endsBlock = false) {f f' : Frame}
    {target : Target} (h : y f = .ok target f') : Leads body op target := by
  cases hy
  change EStateM.bind x _ f = _ at h
  unfold EStateM.bind at h
  rcases hx : x f with ⟨u, g⟩ | ⟨e, g⟩
  · rw [hx] at h
    cases h
    exact .next hgoes
  · rw [hx] at h
    cases h

/-- A jump goes to its target or on. -/
theorem safe_jump_target (t : Nat) (jump : Jump) :
    (Calculation.jump t jump).Safe (fun _ => True) fun target =>
      target = some t ∨ target = none ∧ jump ≠ .always := by
  have hif (condition : Bool) (hne : jump ≠ .always) :
      Calculation.jumpIf condition t = some t ∨
        Calculation.jumpIf condition t = none ∧ jump ≠ .always := by
    cases condition
    exacts [.inr ⟨rfl, hne⟩, .inl rfl]
  cases jump with
  | ifInt c => exact Frame.safe_popInt.bind fun _ _ => OnFrame.safe_pure (hif _ (by simp))
  | ifInts c =>
    exact Frame.safe_popInt.bind fun _ _ => Frame.safe_popInt.bind fun _ _ =>
      OnFrame.safe_pure (hif _ (by simp))
  | ifRefs equal =>
    exact Frame.safe_popReference.bind fun _ _ => Frame.safe_popReference.bind fun _ _ =>
      OnFrame.safe_pure (hif _ (by simp))
  | ifNull isNull =>
    exact Frame.safe_popReference.bind fun _ _ => OnFrame.safe_pure (hif _ (by simp))
  | always => exact OnFrame.safe_pure (.inl rfl)
  | subroutine =>
    exact OnFrame.safe_get.bind fun _ _ => (Calculation.safe_pushPlain (by simp)).bind
      fun _ _ => OnFrame.safe_pure (.inl rfl)

theorem safe_returnThrough_target (index : UInt16) :
    (Calculation.returnThrough index).Safe (fun _ => True) fun target => ∃ t, target = some t := by
  refine (Frame.safe_load index).bind fun v _ => ?_
  split
  · exact OnFrame.safe_pure ⟨_, rfl⟩
  · exact Frame.safe_refuse _

/-- A switch pops a key and goes where its table says. -/
theorem switch_eq {f : Frame} {n : Nat} {t : SwitchTable} (ht : f.code.body.tables[n]? = some t) :
    Calculation.switch n f = (do return some (t.target (← Frame.popInt)) : OnFrame Target) f := by
  change EStateM.bind Frame.popInt _ f = EStateM.bind Frame.popInt _ f
  unfold EStateM.bind
  rcases hpop : Frame.popInt f with ⟨key, g⟩ | ⟨e, g⟩
  · have hcode := (Frame.safe_popInt.same hpop).1.code
    simp only [bind, EStateM.bind, get, getThe, MonadStateOf.get, EStateM.get, hcode, ht]
  · rfl

theorem leads_of_switch {op : Operation} {n : Nat} (htable : op.table? = some n) {f f' : Frame}
    (hn : (f.code.body.tables[n]?).isSome = true) {target : Target}
    (h : Calculation.switch n f = .ok target f') : Leads f.code.body op target := by
  obtain ⟨t, ht⟩ := Option.isSome_iff_exists.mp hn
  rw [switch_eq ht] at h
  change EStateM.bind Frame.popInt _ f = _ at h
  unfold EStateM.bind at h
  rcases hpop : Frame.popInt f with ⟨key, g⟩ | ⟨e, g⟩
  · rw [hpop] at h
    cases h
    exact .switch htable ht key
  · rw [hpop] at h
    cases h

/-- A calculation leads where its instruction says. -/
theorem leads_of_calculate {op : Operation} {x : OnFrame Target} (hx : calculate? op = some x)
    {f f' : Frame} (htables : ∀ n, op.table? = some n → (f.code.body.tables[n]?).isSome = true)
    {target : Target} (h : x f = .ok target f') : Leads f.code.body op target := by
  cases op with
  | nop => cases hx; cases h; exact .next rfl
  | jump jump t =>
    cases hx
    rcases (safe_jump_target _ _).same h with ⟨-, rfl | ⟨rfl, hne⟩⟩
    · exact .jump rfl
    · refine .next ?_
      cases jump <;> first | rfl | exact absurd rfl hne
  | ret index =>
    cases hx
    obtain ⟨t, rfl⟩ := ((safe_returnThrough_target index).same h).2
    exact .ret rfl
  | tableSwitch | lookupSwitch => cases hx; exact leads_of_switch rfl (htables _ rfl) h
  | ldc | ldc2 | arrayLoad | arrayStore | leave | pooled | invokeInterface | invokeDynamic
  | newArray | newMultiArray | arrayLength | throw_ | monitorEnter | monitorExit => cases hx
  | _ => exact leads_of_next hx rfl h

theorem Frame.beginHandler_of_room {f : Frame} (exception : Ref) (handler : Nat) (h : 0 < f.code.maxStack) :
    Frame.beginHandler exception handler f =
      .ok () { f with stack := Stack.empty.push (.ref exception), pc := handler } := by
  have hpush := push_of_room (f := { f with stack := .empty }) (.ref exception) h
  exact bind_of_ok (x := Frame.push (.ref exception)) hpush

/-- A frame that has no room for an exception stays where it is, its operand stack emptied. -/
theorem Frame.beginHandler_of_full {f : Frame} (exception : Ref) (handler : Nat) (h : f.code.maxStack = 0) :
    Frame.beginHandler exception handler f =
      .error (f.fault "operand stack overflow") { f with stack := .empty } := by
  have hpush := push_of_full (f := { f with stack := .empty }) (.ref exception) h.le
  exact bind_of_error (x := Frame.push (.ref exception)) hpush

theorem Frame.beginHandler_eq_ok {exception : Ref} {handler : Nat} {f f' : Frame}
    (h : Frame.beginHandler exception handler f = .ok () f') :
    f' = { f with stack := Stack.empty.push (.ref exception), pc := handler } := by
  rcases Nat.eq_zero_or_pos f.code.maxStack with hfull | hroom
  · rw [beginHandler_of_full exception handler hfull] at h
    cases h
  · rw [beginHandler_of_room exception handler hroom] at h
    cases h
    rfl

theorem Frame.same_of_beginHandler {exception : Ref} {handler : Nat} {f f' : Frame} {e : Abrupt}
    (h : Frame.beginHandler exception handler f = .error e f') : f.Same f' := by
  rcases Nat.eq_zero_or_pos f.code.maxStack with hfull | hroom
  · rw [beginHandler_of_full exception handler hfull] at h
    cases h
    exact ⟨rfl, rfl, rfl, rfl, rfl, rfl⟩
  · rw [beginHandler_of_room exception handler hroom] at h
    cases h

/-! ### Frames that stay in bounds -/

/-- The checks of the instruction at hand that do not look at values. -/
structure Frame.InBounds (f : Frame) : Prop where
  load : ∀ op index slots, f.operation? = some op → op.localAccess? = some (index, slots) →
    ∃ v, Frame.load index f = .ok v f
  store : ∀ op index slots, f.operation? = some op → op.localAccess? = some (index, slots) →
    ∀ v : Value, v.words ≤ slots →
      Frame.store index v f = .ok () { f with locals := Frame.assign f.locals index.toNat v }
  switch : ∀ op n, f.operation? = some op → op.table? = some n →
    ∃ t : SwitchTable, f.code.body.tables[n]? = some t ∧
      Calculation.switch n f = (do return some (t.target (← Frame.popInt)) : OnFrame Target) f

/-- The frames of verified code pass these checks. -/
theorem Frame.inBounds {f : Frame} {pool : ConstantPool} {type : MethodType} {receiver : Nat}
    (hc : f.code.WellFormed pool type receiver) (hlocals : f.code.maxLocals ≤ f.locals.size) : f.InBounds := by
  have hroom {op : Operation} {index : UInt16} {slots : Nat} (hop : f.operation? = some op)
      (haccess : op.localAccess? = some (index, slots)) :
      index.toNat + slots ≤ f.locals.size :=
    Nat.le_trans (hc.locals f.pc op index slots hop haccess) hlocals
  constructor
  · intro op index slots hop haccess
    have hslots : 0 < slots := by
      cases op <;> cases haccess <;> first | exact Nat.one_pos | (rename_i kind; cases kind <;> decide)
    have hlt : index.toNat < f.locals.size := by
      have := hroom hop haccess
      omega
    refine ⟨f.locals[index.toNat], ?_⟩
    simp only [Frame.load, bind, EStateM.bind, get, getThe, MonadStateOf.get, EStateM.get,
      Array.getElem?_eq_getElem hlt, pure, EStateM.pure]
  · intro op index slots hop haccess v hv
    exact store_of_le (Nat.le_trans (Nat.add_le_add_left hv _) (hroom hop haccess))
  · intro op n hop htable
    obtain ⟨t, ht⟩ := Option.isSome_iff_exists.mp (hc.table f.pc op n hop htable)
    exact ⟨t, ht, switch_eq ht⟩

end Jvm.Execution
