import Mathlib
import Jvm.Execution.Instructions
import Jvm.Execution.Throwing
import Jvm.Proofs.Execution.Calculation
import Jvm.Proofs.Heap.Contents
import Jvm.Proofs.Linking.Computations

/-! # Frames that fit their code

A frame fits its code if its operand stack has the room that the code asks for and holds values of their own,
and if its locals have this room and every wide one among them is followed by its second half
(`Frame.Fits`). Nothing that a calculation does breaks this, whatever the code is (`fitting_calculate`): the
operand stack is only pushed to within its room, and an assignment to either half of a wide local unsets the
other half (`wide_assign`). -/

namespace Jvm.Execution

open Bytecode Linking

/-! ## Wide locals -/

/-- Whether every wide local is followed by its second half. -/
def Paired (locals : Array Value) : Prop :=
  ∀ (i : Nat) v, locals[i]? = some v → v.isWide = true → locals[i + 1]? = some .top

theorem paired_spread {rest : List Value} (hrest : Paired rest.toArray) (v : Value) :
    Paired (spread v ++ rest).toArray := by
  intro i w hi hw
  cases hv : v.isWide with
  | true =>
    rw [show spread v ++ rest = v :: .top :: rest by simp [spread, hv]] at hi ⊢
    match i with
    | 0 => rfl
    | 1 => cases hi; cases hw
    | i + 2 => simpa using hrest i w (by simpa using hi) hw
  | false =>
    rw [show spread v ++ rest = v :: rest by simp [spread, hv]] at hi ⊢
    match i with
    | 0 =>
      obtain rfl : v = w := by simpa using hi
      rw [hv] at hw
      cases hw
    | i + 1 => simpa using hrest i w (by simpa using hi) hw

/-- Arguments that are spread over the first locals, with unset ones behind them. -/
theorem paired_arguments (args : List Value) (n : Nat) :
    Paired (args.flatMap spread ++ List.replicate n Value.top).toArray := by
  induction args with
  | nil =>
    intro i v hi hv
    rw [List.flatMap_nil, List.nil_append, List.getElem?_toArray] at hi
    obtain rfl : v = .top := (List.mem_replicate.1 (List.mem_of_getElem? hi)).2
    cases hv
  | cons v args ih =>
    rw [List.flatMap_cons, List.append_assoc]
    exact paired_spread ih v

/-- Second halves that are not assigned to stay. -/
theorem top_assign {locals : Array Value} {i j : Nat} {v : Value} (h : locals[j]? = some .top) (hj : j ≠ i) :
    (Frame.assign locals i v)[j]? = some .top := by
  unfold Frame.assign
  grind

theorem second_assign {locals : Array Value} {i : Nat} {v : Value} (hv : v.isWide = true)
    (hi : i + 1 < locals.size) : (Frame.assign locals i v)[i + 1]? = some .top := by
  unfold Frame.assign
  grind

/-- A wide local after an assignment is the one assigned to, or it was there before and its second half is not
assigned to: the first half goes with the second one. -/
theorem wide_assign {locals : Array Value} {i k : Nat} {v w : Value}
    (hk : (Frame.assign locals i v)[k]? = some w) (hw : w.isWide = true) :
    k = i ∧ w = v ∨ locals[k]? = some w ∧ k + 1 ≠ i := by
  have htop : Value.top.isWide = false := rfl
  unfold Frame.assign at hk
  grind

/-- An assignment keeps wide locals together. -/
theorem paired_assign {locals : Array Value} (h : Paired locals) {i : Nat} {v : Value}
    (hroom : i + v.words ≤ locals.size) : Paired (Frame.assign locals i v) := by
  intro k w hk hw
  rcases wide_assign hk hw with ⟨rfl, rfl⟩ | ⟨hkept, hsecond⟩
  · rw [Value.words, if_pos hw] at hroom
    exact second_assign hw hroom
  · exact top_assign (h k w hkept hw) hsecond

/-! ## Frames -/

/-- Whether a frame keeps to the room of its code. -/
structure Frame.Fits (f : Frame) : Prop where
  stack : f.stack.list.length ≤ f.code.maxStack
  proper : ∀ v ∈ f.stack.list, v.Proper
  locals : f.code.maxLocals ≤ f.locals.size
  halves : Paired f.locals

/-- A method begins in a frame that fits, whatever its arguments are. -/
theorem Frame.fits_enter (method : Method) (code : Code) (args : List Value) (monitor : Option Ref) :
    (Frame.enter method code args monitor).Fits where
  stack := Nat.zero_le _
  proper v hv := by cases hv
  locals := by
    simp only [enter, List.size_toArray, List.length_append, List.length_replicate]
    omega
  halves := paired_arguments args _

theorem Frame.Fits.setPc {f : Frame} (hf : f.Fits) (pc : Nat) : Frame.Fits { f with pc } :=
  ⟨hf.stack, hf.proper, hf.locals, hf.halves⟩

/-- A computation on a frame that fits leaves one that does, and its result is as `Q` says. -/
def OnFrame.Fitting {α : Type} (x : OnFrame α) (Q : α → Prop) : Prop :=
  ∀ f : Frame, f.Fits → match x f with
    | .ok a f' => f'.Fits ∧ Q a
    | .error _ f' => f'.Fits

namespace OnFrame

variable {α β : Type} {x : OnFrame α} {Q : α → Prop}

theorem Fitting.fits (hx : x.Fitting Q) {f f' : Frame} (hf : f.Fits) {a : α} (h : x f = .ok a f') : f'.Fits := by
  have hx := hx f hf
  rw [h] at hx
  exact hx.1

theorem Fitting.fits_of_error (hx : x.Fitting Q) {f f' : Frame} (hf : f.Fits) {e : Abrupt}
    (h : x f = .error e f') : f'.Fits := by
  have hx := hx f hf
  rwa [h] at hx

theorem fitting_pure {a : α} (ha : Q a) : (pure a : OnFrame α).Fitting Q := fun _ hf => ⟨hf, ha⟩

theorem fitting_throw (e : Abrupt) : (throw e : OnFrame α).Fitting Q := fun _ hf => hf

theorem Fitting.bind {g : α → OnFrame β} {S : β → Prop} (hx : x.Fitting Q)
    (hg : ∀ a, Q a → (g a).Fitting S) : (x >>= g).Fitting S := by
  intro f hf
  have hxf := hx f hf
  rcases h : x f with ⟨a, f'⟩ | ⟨e, f'⟩
  · rw [h] at hxf
    rw [bind_of_ok h]
    exact hg a hxf.2 f' hxf.1
  · rw [h] at hxf
    rw [bind_of_error h]
    exact hxf

theorem exists_of_bind {g : α → OnFrame β} {b : β} {f f' : Frame} (h : (x >>= g) f = .ok b f') :
    ∃ a f₁, x f = .ok a f₁ ∧ g a f₁ = .ok b f' := by
  rcases hx : x f with ⟨a, f₁⟩ | ⟨e, f₁⟩
  · exact ⟨a, f₁, rfl, (bind_of_ok hx).symm.trans h⟩
  · cases (bind_of_error hx).symm.trans h

theorem fitting_get : (get : OnFrame Frame).Fitting Frame.Fits := fun _ hf => ⟨hf, hf⟩

/-- A computation that looks at the frame first. -/
theorem fitting_reading {g : Frame → OnFrame α} (h : ∀ f, f.Fits → match g f f with
    | .ok a f' => f'.Fits ∧ Q a
    | .error _ f' => f'.Fits) : (get >>= g : OnFrame α).Fitting Q :=
  fun f hf => h f hf

theorem fitting_ite {p : Prop} [Decidable p] {y : OnFrame α} (hx : p → x.Fitting Q)
    (hy : ¬ p → y.Fitting Q) : (if p then x else y).Fitting Q := by
  split
  · exact hx ‹_›
  · exact hy ‹_›

/-- A computation behind a check. -/
theorem fitting_guard {p : Prop} [Decidable p] {y : OnFrame Unit} {z : Unit → OnFrame α}
    (hy : p → y.Fitting fun _ => False) (hz : ¬ p → (z ()).Fitting Q) :
    (if p then y >>= z else z ()).Fitting Q :=
  fitting_ite (fun hp => (hy hp).bind fun _ h => h.elim) hz

/-- A jump leaves the values as they are. -/
theorem fitting_goto (g : Frame → Nat) :
    (modify fun f => { f with pc := g f } : OnFrame Unit).Fitting fun _ => True :=
  fun _ hf => ⟨hf.setPc _, trivial⟩

end OnFrame

namespace Frame

open OnFrame

theorem fitting_refuse {α : Type} {Q : α → Prop} (what : String) : (refuse what : OnFrame α).Fitting Q :=
  fun _ hf => hf

/-! ### The operand stack -/

/-- A push fails for want of room. -/
theorem fitting_push {v : Value} (hv : v.Proper) : (push v).Fitting fun _ => True := by
  refine fitting_reading fun f hf => ?_
  by_cases hfull : f.code.maxStack ≤ f.stack.size
  · rw [if_pos hfull]
    exact hf
  · rw [if_neg hfull]
    refine ⟨⟨?_, ?_, hf.locals, hf.halves⟩, trivial⟩
    · rw [f.stack.size_eq] at hfull
      exact Nat.lt_of_not_le hfull
    · rintro w (_ | ⟨_, hw⟩)
      exacts [hv, hf.proper w hw]

theorem of_push {v : Value} {f f' : Frame} (h : push v f = .ok () f') :
    f' = { f with stack := f.stack.push v } := by
  rcases Nat.lt_or_ge f.stack.size f.code.maxStack with hroom | hfull
  · rw [push_of_room v hroom] at h
    cases h
    rfl
  · rw [push_of_full v hfull] at h
    cases h

theorem fitting_pop : pop.Fitting Value.Proper := by
  refine fitting_reading fun f hf => ?_
  rcases htop : f.stack.top? with _ | v
  · exact hf
  · have hlist : f.stack.list = v :: f.stack.list.tail := List.eq_cons_of_mem_head? htop
    refine ⟨⟨?_, fun w hw => ?_, hf.locals, hf.halves⟩, hf.proper v (hlist ▸ List.mem_cons_self)⟩
    · exact (List.tail_sublist _).length_le.trans hf.stack
    · exact hf.proper w (List.mem_of_mem_tail hw)

theorem fitting_peek (depth : Nat) : (peek depth).Fitting Value.Proper := by
  refine fitting_get.bind fun f hf => ?_
  split
  · next v hv => exact fitting_pure (hf.proper v (List.mem_of_getElem? hv))
  · exact fitting_refuse _

theorem fitting_popInt : popInt.Fitting fun _ => True := by
  refine fitting_pop.bind fun v _ => ?_
  split
  · exact fitting_pure trivial
  · exact fitting_refuse _

theorem fitting_popLong : popLong.Fitting fun _ => True := by
  refine fitting_pop.bind fun v _ => ?_
  split
  · exact fitting_pure trivial
  · exact fitting_refuse _

theorem fitting_popFloat : popFloat.Fitting fun _ => True := by
  refine fitting_pop.bind fun v _ => ?_
  split
  · exact fitting_pure trivial
  · exact fitting_refuse _

theorem fitting_popDouble : popDouble.Fitting fun _ => True := by
  refine fitting_pop.bind fun v _ => ?_
  split
  · exact fitting_pure trivial
  · exact fitting_refuse _

theorem fitting_popReference : popReference.Fitting fun _ => True := by
  refine fitting_pop.bind fun v _ => ?_
  split
  · exact fitting_pure trivial
  · exact fitting_pure trivial
  · exact fitting_refuse _

theorem fitting_popObject : popObject.Fitting fun _ => True := by
  refine fitting_popReference.bind fun o _ => ?_
  split
  · exact fitting_pure trivial
  · exact fitting_throw _

theorem fitting_popArgs (n : Nat) : (popArgs n).Fitting fun _ => True := by
  refine fitting_reading fun f hf => ?_
  by_cases hfew : f.stack.size < n
  · rw [if_pos hfew]
    exact hf
  · rw [if_neg hfew]
    refine ⟨⟨?_, fun v hv => hf.proper v (List.mem_of_mem_drop hv), hf.locals, hf.halves⟩, trivial⟩
    exact (List.drop_sublist _ _).length_le.trans hf.stack

theorem fitting_popWords (n : Nat) : (popWords n).Fitting fun vs => ∀ v ∈ vs, v.Proper := by
  have append {vs : List Value} {v : Value} (hvs : ∀ w ∈ vs, w.Proper) (hv : v.Proper) :
      ∀ w ∈ vs ++ [v], w.Proper := by
    simpa [or_imp, forall_and, hv] using hvs
  -- a wide value counts for two words
  induction n using Nat.strongRecOn with
  | ind n ih =>
    rcases n with _ | n
    · exact fitting_pure (by simp)
    rw [popWords]
    refine fitting_pop.bind fun v hv => fitting_ite (fun _ => ?_) fun _ =>
      (ih n n.lt_succ_self).bind fun vs hvs => fitting_pure (append hvs hv)
    rcases n with _ | n
    · exact fitting_refuse _
    · exact (ih n (by omega)).bind fun vs hvs => fitting_pure (append hvs hv)

theorem fitting_pushAll {vs : List Value} (hvs : ∀ v ∈ vs, v.Proper) :
    (pushAll vs).Fitting fun _ => True := by
  induction vs with
  | nil => exact fitting_pure trivial
  | cons v vs ih =>
    change (push v >>= fun _ => pushAll vs).Fitting _
    exact (fitting_push (hvs v List.mem_cons_self)).bind fun _ _ =>
      ih fun w hw => hvs w (List.mem_cons_of_mem _ hw)

theorem fitting_dup (copied skipped : Nat) : (dup copied skipped).Fitting fun _ => True := by
  refine (fitting_popWords copied).bind fun top htop => (fitting_popWords skipped).bind fun below hbelow =>
    fitting_pushAll fun v hv => ?_
  simp only [List.mem_append] at hv
  rcases hv with (hv | hv) | hv
  exacts [htop v hv, hbelow v hv, htop v hv]

/-! ### Locals -/

theorem fitting_load (index : UInt16) : (load index).Fitting fun _ => True := by
  refine fitting_get.bind fun f _ => ?_
  split
  · exact fitting_pure trivial
  · exact fitting_refuse _

theorem of_load {index : UInt16} {v : Value} {f f' : Frame} (h : load index f = .ok v f') :
    f.locals[index.toNat]? = some v ∧ f' = f := by
  obtain ⟨g, f₁, hget, h⟩ := OnFrame.exists_of_bind h
  cases hget
  cases hlocal : f.locals[index.toNat]? with
  | none =>
    rw [hlocal] at h
    cases h
  | some w =>
    rw [hlocal] at h
    cases h
    exact ⟨rfl, rfl⟩

theorem fitting_store (index : UInt16) (v : Value) : (store index v).Fitting fun _ => True := by
  refine fitting_reading fun f hf => ?_
  by_cases hout : f.locals.size < index.toNat + v.words
  · rw [if_pos hout]
    exact hf
  · rw [if_neg hout]
    refine ⟨⟨hf.stack, hf.proper, ?_, paired_assign hf.halves (Nat.le_of_not_lt hout)⟩, trivial⟩
    exact (assign_size f.locals index.toNat v).symm ▸ hf.locals

theorem fitting_beginHandler (exception : Ref) (handler : Nat) :
    (beginHandler exception handler).Fitting fun _ => True := by
  have hempty : (modify fun f => { f with stack := .empty } : OnFrame Unit).Fitting fun _ => True :=
    fun _ hf => ⟨⟨Nat.zero_le _, (fun v hv => by cases hv), hf.locals, hf.halves⟩, trivial⟩
  exact hempty.bind fun _ _ => (fitting_push (by nofun)).bind fun _ _ => fitting_goto _

end Frame

/-! ## Calculations -/

namespace Calculation

open Jvm.Execution.Frame OnFrame

theorem proper_of_loads {kind : LocalKind} {v : Value} (h : loads kind v = true) : v.Proper := by
  rintro rfl
  cases kind <;> cases h

theorem fitting_loadLocal (kind : LocalKind) (index : UInt16) :
    (loadLocal kind index).Fitting fun _ => True := by
  refine (fitting_load index).bind fun v _ => fitting_guard (fun _ => fitting_refuse _) fun h => ?_
  exact fitting_push (proper_of_loads (by simpa using h))

/-- A load pushes the local as it is. -/
theorem of_loadLocal {kind : LocalKind} {index : UInt16} {f f' : Frame} (h : loadLocal kind index f = .ok () f') :
    ∃ v, f.locals[index.toNat]? = some v ∧ f' = { f with stack := f.stack.push v } := by
  obtain ⟨v, f₁, hload, hpush⟩ := OnFrame.exists_of_bind h
  obtain ⟨hv, rfl⟩ := Frame.of_load hload
  cases hkind : loads kind v with
  | true =>
    rw [hkind] at hpush
    exact ⟨v, hv, Frame.of_push hpush⟩
  | false =>
    rw [hkind] at hpush
    cases hpush

theorem fitting_storeLocal (kind : LocalKind) (index : UInt16) :
    (storeLocal kind index).Fitting fun _ => True :=
  fitting_pop.bind fun v _ => fitting_guard (fun _ => fitting_refuse _) fun _ => fitting_store index v

theorem fitting_drop : drop.Fitting fun _ => True :=
  fitting_pop.bind fun _ _ => fitting_ite (fun _ => fitting_refuse _) fun _ => fitting_pure trivial

theorem fitting_drop2 : drop2.Fitting fun _ => True :=
  (fitting_popWords 2).bind fun _ _ => fitting_pure trivial

theorem fitting_exchange : exchange.Fitting fun _ => True :=
  fitting_pop.bind fun _ ha => fitting_pop.bind fun _ hb =>
    fitting_guard (fun _ => fitting_refuse _) fun _ => (fitting_push ha).bind fun _ _ => fitting_push hb

theorem fitting_unlessZero {α : Type} (o : Option α) : (unlessZero o).Fitting fun _ => True := by
  cases o
  exacts [fitting_throw _, fitting_pure trivial]

theorem fitting_onInts (op : ArithOp) (a b : Int32) : (onInts op a b).Fitting fun _ => True := by
  cases op
  exacts [fitting_pure trivial, fitting_pure trivial, fitting_pure trivial, fitting_unlessZero _,
    fitting_unlessZero _]

theorem fitting_onLongs (op : ArithOp) (a b : Int64) : (onLongs op a b).Fitting fun _ => True := by
  cases op
  exacts [fitting_pure trivial, fitting_pure trivial, fitting_pure trivial, fitting_unlessZero _,
    fitting_unlessZero _]

theorem fitting_arith (op : ArithOp) (kind : NumKind) : (arith op kind).Fitting fun _ => True := by
  cases kind with
  | int =>
    exact fitting_popInt.bind fun b _ => fitting_popInt.bind fun a _ => (fitting_onInts op a b).bind
      fun _ _ => fitting_push (by nofun)
  | long =>
    exact fitting_popLong.bind fun b _ => fitting_popLong.bind fun a _ => (fitting_onLongs op a b).bind
      fun _ _ => fitting_push (by nofun)
  | float => exact fitting_popFloat.bind fun _ _ => fitting_popFloat.bind fun _ _ => fitting_push (by nofun)
  | double =>
    exact fitting_popDouble.bind fun _ _ => fitting_popDouble.bind fun _ _ => fitting_push (by nofun)

theorem fitting_negate (kind : NumKind) : (negate kind).Fitting fun _ => True := by
  cases kind with
  | int => exact fitting_popInt.bind fun _ _ => fitting_push (by nofun)
  | long => exact fitting_popLong.bind fun _ _ => fitting_push (by nofun)
  | float => exact fitting_popFloat.bind fun _ _ => fitting_push (by nofun)
  | double => exact fitting_popDouble.bind fun _ _ => fitting_push (by nofun)

theorem fitting_shift (op : ShiftOp) (kind : IntKind) : (shift op kind).Fitting fun _ => True := by
  refine fitting_popInt.bind fun _ _ => ?_
  cases kind with
  | int => exact fitting_popInt.bind fun _ _ => fitting_push (by nofun)
  | long => exact fitting_popLong.bind fun _ _ => fitting_push (by nofun)

theorem fitting_bits (op : BitOp) (kind : IntKind) : (bits op kind).Fitting fun _ => True := by
  cases kind with
  | int => exact fitting_popInt.bind fun _ _ => fitting_popInt.bind fun _ _ => fitting_push (by nofun)
  | long => exact fitting_popLong.bind fun _ _ => fitting_popLong.bind fun _ _ => fitting_push (by nofun)

theorem fitting_increment (index : UInt16) (delta : Int16) :
    (increment index delta).Fitting fun _ => True := by
  refine (fitting_load index).bind fun v _ => ?_
  split
  · exact fitting_store index _
  · exact fitting_refuse _

theorem proper_of_convert? {source target : NumKind} {v converted : Value}
    (h : convert? source target v = some converted) : converted.Proper := by
  unfold convert? at h
  split at h <;> cases h <;> nofun

theorem fitting_convert (source target : NumKind) : (convert source target).Fitting fun _ => True := by
  refine fitting_pop.bind fun v _ => ?_
  split
  · next converted h => exact fitting_push (proper_of_convert? h)
  · exact fitting_refuse _

theorem fitting_jump (target : Nat) (jump : Jump) :
    (Calculation.jump target jump).Fitting fun _ => True := by
  cases jump with
  | ifInt c => exact fitting_popInt.bind fun _ _ => fitting_pure trivial
  | ifInts c => exact fitting_popInt.bind fun _ _ => fitting_popInt.bind fun _ _ => fitting_pure trivial
  | ifRefs equal =>
    exact fitting_popReference.bind fun _ _ => fitting_popReference.bind fun _ _ => fitting_pure trivial
  | ifNull isNull => exact fitting_popReference.bind fun _ _ => fitting_pure trivial
  | always => exact fitting_pure trivial
  | subroutine =>
    exact fitting_get.bind fun _ _ => (fitting_push (by nofun)).bind fun _ _ => fitting_pure trivial

theorem fitting_returnThrough (index : UInt16) : (returnThrough index).Fitting fun _ => True := by
  refine (fitting_load index).bind fun v _ => ?_
  split
  · exact fitting_pure trivial
  · exact fitting_refuse _

theorem fitting_switch (table : Nat) : (switch table).Fitting fun _ => True := by
  refine fitting_popInt.bind fun _ _ => fitting_get.bind fun f _ => ?_
  split
  · exact fitting_pure trivial
  · exact fitting_refuse _

/-- What a return gives back is a value of its own. -/
theorem fitting_popResult (kind : Option LocalKind) :
    (popResult kind).Fitting fun o => ∀ v ∈ o, v.Proper := by
  rcases kind with _ | kind
  · exact fitting_pure (by nofun)
  · cases kind with
    | int => exact fitting_popInt.bind fun _ _ => fitting_pure (by rintro _ ⟨⟩; nofun)
    | long => exact fitting_popLong.bind fun _ _ => fitting_pure (by rintro _ ⟨⟩; nofun)
    | float => exact fitting_popFloat.bind fun _ _ => fitting_pure (by rintro _ ⟨⟩; nofun)
    | double => exact fitting_popDouble.bind fun _ _ => fitting_pure (by rintro _ ⟨⟩; nofun)
    | reference =>
      exact fitting_popReference.bind fun o _ =>
        fitting_pure (by rintro _ ⟨⟩; exact Value.proper_ofObject o)

end Calculation

open Jvm.Execution.Frame OnFrame Calculation

theorem fitting_next {x : OnFrame Unit} (hx : x.Fitting fun _ => True) {y : OnFrame Target}
    (hy : calculate?.next x = some y) : y.Fitting fun _ => True := by
  cases hy
  exact hx.bind fun _ _ => fitting_pure trivial

/-- **Calculations leave frames that fit their code.** -/
theorem fitting_calculate {op : Operation} {x : OnFrame Target} (hx : calculate? op = some x) :
    x.Fitting fun _ => True := by
  cases op with
  | nop => cases hx; exact fitting_pure trivial
  | load => exact fitting_next (fitting_loadLocal _ _) hx
  | store => exact fitting_next (fitting_storeLocal _ _) hx
  | pop => exact fitting_next fitting_drop hx
  | pop2 => exact fitting_next fitting_drop2 hx
  | dup => exact fitting_next (fitting_dup _ _) hx
  | swap => exact fitting_next fitting_exchange hx
  | arith => exact fitting_next (fitting_arith _ _) hx
  | neg => exact fitting_next (fitting_negate _) hx
  | shift => exact fitting_next (fitting_shift _ _) hx
  | bits => exact fitting_next (fitting_bits _ _) hx
  | iinc => exact fitting_next (fitting_increment _ _) hx
  | convert => exact fitting_next (fitting_convert _ _) hx
  | narrow => exact fitting_next (fitting_popInt.bind fun _ _ => fitting_push (by nofun)) hx
  | lcmp =>
    exact fitting_next (fitting_popLong.bind fun _ _ => fitting_popLong.bind fun _ _ =>
      fitting_push (by nofun)) hx
  | fcmp =>
    exact fitting_next (fitting_popFloat.bind fun _ _ => fitting_popFloat.bind fun _ _ =>
      fitting_push (by nofun)) hx
  | dcmp =>
    exact fitting_next (fitting_popDouble.bind fun _ _ => fitting_popDouble.bind fun _ _ =>
      fitting_push (by nofun)) hx
  | jump => cases hx; exact fitting_jump _ _
  | ret => cases hx; exact fitting_returnThrough _
  | tableSwitch | lookupSwitch => cases hx; exact fitting_switch _
  | pushNull | pushInt | pushLong | pushFloat | pushDouble => exact fitting_next (fitting_push (by nofun)) hx
  | _ => cases hx

/-- An instruction that is done leads on. -/
theorem fitting_advance {x : OnFrame Target} (hx : x.Fitting fun _ => True) :
    (Frame.advance x).Fitting fun _ => True :=
  hx.bind fun _ _ => fitting_goto _

end Jvm.Execution
