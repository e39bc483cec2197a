import Mathlib
import Jvm.Execution.Calculation

/-! # What calculations do to a frame

A calculation moves values about in a frame. It keeps all but the values of the locals and the operand
stack (`Frame.Same`), and every object in the frame afterwards, or in the result, was there before
(`OnFrame.Safe`, for any property of objects). The main statement, `safe_calculate`, says so of every
instruction that needs nothing but the frame. -/

namespace Jvm

/-- Whether a value, if it is an object, has a property. -/
def Value.All (P : Ref → Prop) (v : Value) : Prop := ∀ r, v = .ref r → P r

@[simp] theorem Value.all_ref {P : Ref → Prop} {r : Ref} : (Value.ref r).All P ↔ P r :=
  ⟨fun h => h r rfl, fun h _ hr => by cases hr; exact h⟩

theorem Value.all_of_ne_ref {P : Ref → Prop} {v : Value} (hv : ∀ r, v ≠ .ref r) : v.All P :=
  fun r hr => (hv r hr).elim

@[simp] theorem Value.all_ofObject {P : Ref → Prop} {o : Option Ref} :
    (Value.ofObject o).All P ↔ ∀ r ∈ o, P r := by
  cases o <;> simp [Value.ofObject, Value.All]

theorem Value.all_iff_object? {P : Ref → Prop} {v : Value} :
    v.All P ↔ ∀ r ∈ v.object?, P r := by
  cases v <;> simp [Value.All, Value.object?]

theorem Value.all_filterMap {P : Ref → Prop} {vs : List Value} :
    (∀ r ∈ vs.filterMap Value.object?, P r) ↔ ∀ v ∈ vs, v.All P := by
  simp only [List.mem_filterMap, Value.all_iff_object?, Option.mem_def]
  exact ⟨fun h v hv r hr => h r ⟨v, hv, hr⟩, fun h r ⟨v, hv, hr⟩ => h v hv r hr⟩

namespace Execution

open Bytecode Linking

namespace Frame

/-- Whether two frames differ in the values of locals and operand stack only. -/
structure Same (f f' : Frame) : Prop where
  method : f'.method = f.method
  cls : f'.cls = f.cls
  code : f'.code = f.code
  pc : f'.pc = f.pc
  locals : f'.locals.size = f.locals.size
  monitor : f'.monitor = f.monitor

theorem Same.refl (f : Frame) : f.Same f := ⟨rfl, rfl, rfl, rfl, rfl, rfl⟩

theorem Same.trans {f g h : Frame} (hfg : f.Same g) (hgh : g.Same h) : f.Same h :=
  ⟨hgh.method.trans hfg.method, hgh.cls.trans hfg.cls, hgh.code.trans hfg.code,
    hgh.pc.trans hfg.pc, hgh.locals.trans hfg.locals, hgh.monitor.trans hfg.monitor⟩

/-- Whether all objects in a frame have a property. -/
structure All (P : Ref → Prop) (f : Frame) : Prop where
  locals : ∀ v ∈ f.locals, v.All P
  stack : ∀ v ∈ f.stack.list, v.All P
  monitor : ∀ r ∈ f.monitor, P r

theorem all_true (f : Frame) : f.All fun _ => True :=
  ⟨fun _ _ _ _ => trivial, fun _ _ _ _ => trivial, fun _ _ => trivial⟩

theorem all_iff_roots {P : Ref → Prop} {f : Frame} : f.All P ↔ ∀ r ∈ f.roots, P r := by
  simp only [roots, List.mem_append, or_imp, forall_and, Value.all_filterMap, List.mem_reverse,
    Array.mem_toList_iff, Option.mem_toList]
  exact ⟨fun h => ⟨⟨h.locals, h.stack⟩, h.monitor⟩, fun h => ⟨h.1.1, h.1.2, h.2⟩⟩

end Frame

/-! ### Safe computations on frames -/

/-- What ended a computation is a failed check or a fault: no object is thrown, and nothing waits. -/
def Abrupt.isCheck : Abrupt → Bool
  | .raised _ _ | .fault _ => true
  | .thrown _ | .stuck => false

/-- A computation on a frame with objects of a property keeps the frame the same but for values, all
objects in it have the property afterwards, and a result is as `Q` says. -/
def OnFrame.Safe {α : Type} (P : Ref → Prop) (x : OnFrame α) (Q : α → Prop) : Prop :=
  ∀ f : Frame, f.All P → match x f with
    | .ok a f' => f.Same f' ∧ f'.All P ∧ Q a
    | .error e f' => f.Same f' ∧ f'.All P ∧ e.isCheck = true

namespace OnFrame

variable {α β : Type} {P : Ref → Prop} {x : OnFrame α} {Q : α → Prop}

theorem safe_pure {a : α} (ha : Q a) : (pure a : OnFrame α).Safe P Q :=
  fun f hf => ⟨.refl f, hf, ha⟩

theorem safe_throw {e : Abrupt} (he : e.isCheck = true) : (throw e : OnFrame α).Safe P Q :=
  fun f hf => ⟨.refl f, hf, he⟩

theorem Safe.bind {g : α → OnFrame β} {S : β → Prop} (hx : x.Safe P Q)
    (hg : ∀ a, Q a → (g a).Safe P S) : (x >>= g).Safe P S := by
  intro f hf
  have hxf := hx f hf
  change match EStateM.bind x g f with
    | .ok a f' => f.Same f' ∧ f'.All P ∧ S a
    | .error e f' => f.Same f' ∧ f'.All P ∧ e.isCheck = true
  unfold EStateM.bind
  rcases hres : x f with ⟨a, f'⟩ | ⟨e, f'⟩
  · rw [hres] at hxf
    obtain ⟨hsame, hall, ha⟩ := hxf
    have hgf := hg a ha f' hall
    dsimp only
    rcases hres' : g a f' with ⟨b, f''⟩ | ⟨e, f''⟩
    · rw [hres'] at hgf
      exact ⟨hsame.trans hgf.1, hgf.2⟩
    · rw [hres'] at hgf
      exact ⟨hsame.trans hgf.1, hgf.2⟩
  · rw [hres] at hxf
    exact hxf

theorem safe_get : (get : OnFrame Frame).Safe P fun f => f.All P :=
  fun f hf => ⟨.refl f, hf, hf⟩

/-- A computation that looks at the frame and sets another one. -/
theorem safe_modify {g : Frame → OnFrame α} (h : ∀ f, f.All P → match g f f with
    | .ok a f' => f.Same f' ∧ f'.All P ∧ Q a
    | .error e f' => f.Same f' ∧ f'.All P ∧ e.isCheck = true) :
    (get >>= g : OnFrame α).Safe P Q :=
  fun f hf => h f hf

theorem safe_ite {p : Prop} [Decidable p] {y : OnFrame α} (hx : p → x.Safe P Q)
    (hy : ¬ p → y.Safe P Q) : (if p then x else y).Safe P Q := by
  split
  · exact hx ‹_›
  · exact hy ‹_›

end OnFrame

namespace Frame

open OnFrame

variable {P : Ref → Prop}

theorem safe_refuse {α : Type} {Q : α → Prop} (what : String) :
    (refuse what : OnFrame α).Safe P Q :=
  fun f hf => ⟨.refl f, hf, rfl⟩

/-! ### The operand stack -/

theorem push_of_room {f : Frame} (v : Value) (h : f.stack.size < f.code.maxStack) :
    push v f = .ok () { f with stack := f.stack.push v } := by
  simp [push, get, getThe, MonadStateOf.get, EStateM.get, bind, EStateM.bind, Nat.not_le.2 h, set, EStateM.set]

theorem push_of_full {f : Frame} (v : Value) (h : f.code.maxStack ≤ f.stack.size) :
    push v f = .error (f.fault "operand stack overflow") f := by
  simp [push, get, getThe, MonadStateOf.get, EStateM.get, bind, EStateM.bind, h, refuse, throw, throwThe,
    MonadExceptOf.throw, EStateM.throw]

theorem safe_push {v : Value} (hv : v.All P) : (push v).Safe P fun _ => True := by
  intro f hf
  rcases Nat.lt_or_ge f.stack.size f.code.maxStack with hroom | hfull
  · rw [push_of_room v hroom]
    refine ⟨⟨rfl, rfl, rfl, rfl, rfl, rfl⟩, ⟨hf.locals, ?_, hf.monitor⟩, trivial⟩
    rintro w (_ | ⟨_, hw⟩)
    exacts [hv, hf.stack w hw]
  · rw [push_of_full v hfull]
    exact ⟨.refl f, hf, rfl⟩

theorem safe_pop : pop.Safe P (Value.All P) := by
  refine safe_modify fun f hf => ?_
  rcases htop : f.stack.top? with _ | v
  · exact ⟨.refl f, hf, rfl⟩
  · have hlist : f.stack.list = v :: f.stack.list.tail :=
      List.eq_cons_of_mem_head? htop
    refine ⟨⟨rfl, rfl, rfl, rfl, rfl, rfl⟩, ⟨hf.locals, fun w hw => ?_, hf.monitor⟩, ?_⟩
    · exact hf.stack w (hlist ▸ List.mem_cons_of_mem _ hw)
    · exact hf.stack v (hlist ▸ List.mem_cons_self)

theorem safe_peek (depth : Nat) : (peek depth).Safe P (Value.All P) := by
  refine safe_get.bind fun f hf => ?_
  split
  · next v hv => exact safe_pure (hf.stack v (List.mem_of_getElem? hv))
  · exact safe_refuse _

theorem safe_mismatch {α : Type} {Q : α → Prop} (expected : String) (found : Value) :
    (mismatch expected found : OnFrame α).Safe P Q :=
  safe_refuse _

theorem safe_popInt : popInt.Safe P fun _ => True := by
  refine safe_pop.bind fun v _ => ?_
  split
  · exact safe_pure trivial
  · exact safe_mismatch _ _

theorem safe_popLong : popLong.Safe P fun _ => True := by
  refine safe_pop.bind fun v _ => ?_
  split
  · exact safe_pure trivial
  · exact safe_mismatch _ _

theorem safe_popFloat : popFloat.Safe P fun _ => True := by
  refine safe_pop.bind fun v _ => ?_
  split
  · exact safe_pure trivial
  · exact safe_mismatch _ _

theorem safe_popDouble : popDouble.Safe P fun _ => True := by
  refine safe_pop.bind fun v _ => ?_
  split
  · exact safe_pure trivial
  · exact safe_mismatch _ _

theorem safe_popReference : popReference.Safe P fun o => ∀ r ∈ o, P r := by
  refine safe_pop.bind fun v hv => ?_
  split
  · exact safe_pure (by simp)
  · exact safe_pure (by simpa using hv)
  · exact safe_mismatch _ _

theorem safe_popObject : popObject.Safe P P := by
  refine safe_popReference.bind fun o ho => ?_
  split
  · exact safe_pure (ho _ rfl)
  · exact safe_throw rfl

theorem popArgs_of_le {f : Frame} {n : Nat} (h : n ≤ f.stack.size) :
    popArgs n f = .ok (f.stack.list.take n).reverse { f with stack := f.stack.drop n } := by
  simp [popArgs, get, getThe, MonadStateOf.get, EStateM.get, bind, EStateM.bind, Nat.not_lt.2 h, set, EStateM.set,
    pure, EStateM.pure]

theorem popArgs_of_lt {f : Frame} {n : Nat} (h : f.stack.size < n) :
    popArgs n f = .error (f.fault "operand stack underflow") f := by
  simp [popArgs, get, getThe, MonadStateOf.get, EStateM.get, bind, EStateM.bind, h, refuse, throw, throwThe,
    MonadExceptOf.throw, EStateM.throw]

theorem safe_popArgs (n : Nat) : (popArgs n).Safe P fun vs => ∀ v ∈ vs, v.All P := by
  intro f hf
  rcases Nat.lt_or_ge f.stack.size n with hfew | hmany
  · rw [popArgs_of_lt hfew]
    exact ⟨.refl f, hf, rfl⟩
  · rw [popArgs_of_le hmany]
    refine ⟨⟨rfl, rfl, rfl, rfl, rfl, rfl⟩, ⟨hf.locals, fun v hv => ?_, hf.monitor⟩, fun v hv => ?_⟩
    · exact hf.stack v (List.mem_of_mem_drop hv)
    · exact hf.stack v (List.mem_of_mem_take (List.mem_reverse.mp hv))

theorem safe_popWords (n : Nat) : (popWords n).Safe P fun vs => ∀ v ∈ vs, v.All P := by
  have append {vs : List Value} {v : Value} (hvs : ∀ w ∈ vs, w.All P) (hv : v.All P) :
      ∀ w ∈ vs ++ [v], w.All P := by
    simpa [or_imp, forall_and, hv] using hvs
  induction n using Nat.strongRecOn with
  | ind n ih =>
    rcases n with _ | n
    · exact safe_pure (by simp)
    rw [popWords]
    refine safe_pop.bind fun v hv => safe_ite (fun _ => ?_) fun _ =>
      (ih n n.lt_succ_self).bind fun vs hvs => safe_pure (append hvs hv)
    rcases n with _ | n
    · exact safe_refuse _
    · exact (ih n (by omega)).bind fun vs hvs => safe_pure (append hvs hv)

theorem safe_pushAll {vs : List Value} (hvs : ∀ v ∈ vs, v.All P) :
    (pushAll vs).Safe P fun _ => True := by
  induction vs with
  | nil => exact safe_pure trivial
  | cons v vs ih =>
    change (push v >>= fun _ => pushAll vs).Safe P _
    exact (safe_push (hvs v List.mem_cons_self)).bind fun _ _ =>
      ih fun w hw => hvs w (List.mem_cons_of_mem _ hw)

theorem safe_dup (copied skipped : Nat) : (dup copied skipped).Safe P fun _ => True := by
  refine (safe_popWords copied).bind fun top htop => (safe_popWords skipped).bind fun below hbelow =>
    safe_pushAll fun v hv => ?_
  simp only [List.mem_append] at hv
  rcases hv with (hv | hv) | hv
  exacts [htop v hv, hbelow v hv, htop v hv]

/-! ### Locals -/

theorem safe_load (index : UInt16) : (load index).Safe P (Value.All P) := by
  refine safe_get.bind fun f hf => ?_
  split
  · next v hv => exact safe_pure (hf.locals v (Array.mem_of_getElem? hv))
  · exact safe_refuse _

theorem assign_size (locals : Array Value) (i : Nat) (v : Value) :
    (assign locals i v).size = locals.size := by
  unfold assign
  dsimp only
  split <;> split <;> simp

theorem mem_assign {locals : Array Value} {i : Nat} {v w : Value} (hw : w ∈ assign locals i v) :
    w ∈ locals ∨ w = v ∨ w = .top := by
  have hset {a : Array Value} {k : Nat} {x : Value} (h : w ∈ a.setIfInBounds k x) :
      w ∈ a ∨ w = x :=
    Array.mem_or_eq_of_mem_setIfInBounds h
  have hfirst (h : w ∈ locals.setIfInBounds i v) : w ∈ locals ∨ w = v ∨ w = .top :=
    (hset h).imp_right .inl
  have hsecond (h : w ∈ (locals.setIfInBounds i v).setIfInBounds (i + 1) .top) :
      w ∈ locals ∨ w = v ∨ w = .top :=
    (hset h).elim hfirst (.inr ∘ .inr)
  unfold assign at hw
  dsimp only at hw
  split at hw <;> split at hw
  · exact (hset hw).elim hsecond (.inr ∘ .inr)
  · exact hsecond hw
  · exact (hset hw).elim hfirst (.inr ∘ .inr)
  · exact hfirst hw

theorem store_of_le {f : Frame} {index : UInt16} {v : Value} (h : index.toNat + v.words ≤ f.locals.size) :
    store index v f = .ok () { f with locals := assign f.locals index.toNat v } := by
  simp [store, get, getThe, MonadStateOf.get, EStateM.get, bind, EStateM.bind, Nat.not_lt.2 h, set, EStateM.set]

theorem store_of_lt {f : Frame} {index : UInt16} {v : Value} (h : f.locals.size < index.toNat + v.words) :
    store index v f = .error (f.fault "local index out of range") f := by
  simp [store, get, getThe, MonadStateOf.get, EStateM.get, bind, EStateM.bind, h, refuse, throw, throwThe,
    MonadExceptOf.throw, EStateM.throw]

theorem safe_store (index : UInt16) {v : Value} (hv : v.All P) :
    (store index v).Safe P fun _ => True := by
  intro f hf
  rcases Nat.lt_or_ge f.locals.size (index.toNat + v.words) with hout | hin
  · rw [store_of_lt hout]
    exact ⟨.refl f, hf, rfl⟩
  · rw [store_of_le hin]
    refine ⟨⟨rfl, rfl, rfl, rfl, assign_size _ _ _, rfl⟩, ⟨fun w hw => ?_, hf.stack, hf.monitor⟩,
      trivial⟩
    rcases mem_assign hw with h | rfl | rfl
    exacts [hf.locals w h, hv, Value.all_of_ne_ref (by simp)]

end Frame

/-! ### Instructions -/

namespace Calculation

open Jvm.Execution.Frame OnFrame

variable {P : Ref → Prop}

theorem safe_loadLocal (kind : LocalKind) (index : UInt16) :
    (loadLocal kind index).Safe P fun _ => True := by
  refine (safe_load index).bind fun v hv => safe_ite (fun _ => ?_) fun _ => safe_push hv
  exact (safe_refuse (Q := fun _ => True) _).bind fun _ _ => safe_push hv

theorem safe_storeLocal (kind : LocalKind) (index : UInt16) :
    (storeLocal kind index).Safe P fun _ => True := by
  refine safe_pop.bind fun v hv => safe_ite (fun _ => ?_) fun _ => safe_store index hv
  exact (safe_refuse (Q := fun _ => True) _).bind fun _ _ => safe_store index hv

theorem safe_drop : drop.Safe P fun _ => True :=
  safe_pop.bind fun _ _ => safe_ite (fun _ => safe_refuse _) fun _ => safe_pure trivial

theorem safe_drop2 : drop2.Safe P fun _ => True :=
  (safe_popWords 2).bind fun _ _ => safe_pure trivial

theorem safe_exchange : exchange.Safe P fun _ => True := by
  have hpush {a b : Value} (ha : a.All P) (hb : b.All P) :
      (push a >>= fun _ => push b).Safe P fun _ => True :=
    (safe_push ha).bind fun _ _ => safe_push hb
  refine safe_pop.bind fun a ha => safe_pop.bind fun b hb =>
    safe_ite (fun _ => ?_) fun _ => hpush ha hb
  exact (safe_refuse (Q := fun _ => True) _).bind fun _ _ => hpush ha hb

theorem safe_unlessZero {α : Type} (o : Option α) :
    (unlessZero o).Safe P fun _ => True := by
  cases o
  exacts [safe_throw rfl, safe_pure trivial]

theorem safe_onInts (op : ArithOp) (a b : Int32) : (onInts op a b).Safe P fun _ => True := by
  cases op
  exacts [safe_pure trivial, safe_pure trivial, safe_pure trivial, safe_unlessZero _,
    safe_unlessZero _]

theorem safe_onLongs (op : ArithOp) (a b : Int64) : (onLongs op a b).Safe P fun _ => True := by
  cases op
  exacts [safe_pure trivial, safe_pure trivial, safe_pure trivial, safe_unlessZero _,
    safe_unlessZero _]

/-- Pushing a value that is no object. -/
theorem safe_pushPlain {v : Value} (hv : ∀ r, v ≠ .ref r) : (push v).Safe P fun _ => True :=
  safe_push (Value.all_of_ne_ref hv)

theorem safe_arith (op : ArithOp) (kind : NumKind) : (arith op kind).Safe P fun _ => True := by
  cases kind with
  | int =>
    exact safe_popInt.bind fun b _ => safe_popInt.bind fun a _ => (safe_onInts op a b).bind
      fun _ _ => safe_pushPlain (by simp)
  | long =>
    exact safe_popLong.bind fun b _ => safe_popLong.bind fun a _ => (safe_onLongs op a b).bind
      fun _ _ => safe_pushPlain (by simp)
  | float => exact safe_popFloat.bind fun b _ => safe_popFloat.bind fun a _ => safe_pushPlain (by simp)
  | double =>
    exact safe_popDouble.bind fun b _ => safe_popDouble.bind fun a _ => safe_pushPlain (by simp)

theorem safe_negate (kind : NumKind) : (negate kind).Safe P fun _ => True := by
  cases kind with
  | int => exact safe_popInt.bind fun _ _ => safe_pushPlain (by simp)
  | long => exact safe_popLong.bind fun _ _ => safe_pushPlain (by simp)
  | float => exact safe_popFloat.bind fun _ _ => safe_pushPlain (by simp)
  | double => exact safe_popDouble.bind fun _ _ => safe_pushPlain (by simp)

theorem safe_shift (op : ShiftOp) (kind : IntKind) : (shift op kind).Safe P fun _ => True := by
  refine safe_popInt.bind fun _ _ => ?_
  cases kind with
  | int => exact safe_popInt.bind fun _ _ => safe_pushPlain (by simp)
  | long => exact safe_popLong.bind fun _ _ => safe_pushPlain (by simp)

theorem safe_bits (op : BitOp) (kind : IntKind) : (bits op kind).Safe P fun _ => True := by
  cases kind with
  | int => exact safe_popInt.bind fun _ _ => safe_popInt.bind fun _ _ => safe_pushPlain (by simp)
  | long => exact safe_popLong.bind fun _ _ => safe_popLong.bind fun _ _ => safe_pushPlain (by simp)

theorem safe_increment (index : UInt16) (delta : Int16) :
    (increment index delta).Safe P fun _ => True := by
  refine (safe_load index).bind fun v _ => ?_
  split
  · exact safe_store index (Value.all_of_ne_ref (by simp))
  · exact safe_refuse _

theorem convert?_ne_ref {source target : NumKind} {v converted : Value}
    (h : convert? source target v = some converted) : ∀ r, converted ≠ .ref r := by
  unfold convert? at h
  split at h <;> cases h <;> simp

theorem safe_convert (source target : NumKind) : (convert source target).Safe P fun _ => True := by
  refine safe_pop.bind fun v _ => ?_
  split
  · next converted h => exact safe_pushPlain (convert?_ne_ref h)
  · exact safe_refuse _

theorem safe_jump (target : Nat) (jump : Jump) :
    (Calculation.jump target jump).Safe P fun _ => True := by
  cases jump with
  | ifInt c => exact safe_popInt.bind fun _ _ => safe_pure trivial
  | ifInts c => exact safe_popInt.bind fun _ _ => safe_popInt.bind fun _ _ => safe_pure trivial
  | ifRefs equal =>
    exact safe_popReference.bind fun _ _ => safe_popReference.bind fun _ _ => safe_pure trivial
  | ifNull isNull => exact safe_popReference.bind fun _ _ => safe_pure trivial
  | always => exact safe_pure trivial
  | subroutine =>
    exact safe_get.bind fun _ _ => (safe_pushPlain (by simp)).bind fun _ _ => safe_pure trivial

theorem safe_returnThrough (index : UInt16) : (returnThrough index).Safe P fun _ => True := by
  refine (safe_load index).bind fun v _ => ?_
  split
  · exact safe_pure trivial
  · exact safe_refuse _

theorem safe_switch (table : Nat) : (switch table).Safe P fun _ => True := by
  refine safe_popInt.bind fun _ _ => safe_get.bind fun f _ => ?_
  split
  · exact safe_pure trivial
  · exact safe_refuse _

theorem safe_popResult (kind : Option LocalKind) :
    (popResult kind).Safe P fun o => ∀ v ∈ o, v.All P := by
  rcases kind with _ | kind
  · exact safe_pure (by simp)
  · cases kind with
    | int => exact safe_popInt.bind fun _ _ => safe_pure (by simp [Value.All])
    | long => exact safe_popLong.bind fun _ _ => safe_pure (by simp [Value.All])
    | float => exact safe_popFloat.bind fun _ _ => safe_pure (by simp [Value.All])
    | double => exact safe_popDouble.bind fun _ _ => safe_pure (by simp [Value.All])
    | reference => exact safe_popReference.bind fun o ho => safe_pure (by simpa using ho)

end Calculation

open Jvm.Execution.Frame OnFrame Calculation

variable {P : Ref → Prop}

theorem safe_next {x : OnFrame Unit} (hx : x.Safe P fun _ => True) {y : OnFrame Target}
    (hy : calculate?.next x = some y) : y.Safe P fun _ => True := by
  cases hy
  exact hx.bind fun _ _ => safe_pure trivial

/-- **A calculation only moves values about.** -/
theorem safe_calculate {op : Operation} {x : OnFrame Target} (hx : calculate? op = some x) :
    x.Safe P fun _ => True := by
  cases op with
  | nop => cases hx; exact safe_pure trivial
  | load => exact safe_next (safe_loadLocal _ _) hx
  | store => exact safe_next (safe_storeLocal _ _) hx
  | pop => exact safe_next safe_drop hx
  | pop2 => exact safe_next safe_drop2 hx
  | dup => exact safe_next (safe_dup _ _) hx
  | swap => exact safe_next safe_exchange hx
  | arith => exact safe_next (safe_arith _ _) hx
  | neg => exact safe_next (safe_negate _) hx
  | shift => exact safe_next (safe_shift _ _) hx
  | bits => exact safe_next (safe_bits _ _) hx
  | iinc => exact safe_next (safe_increment _ _) hx
  | convert => exact safe_next (safe_convert _ _) hx
  | narrow => exact safe_next (safe_popInt.bind fun _ _ => safe_pushPlain (by simp)) hx
  | lcmp =>
    exact safe_next (safe_popLong.bind fun _ _ => safe_popLong.bind fun _ _ =>
      safe_pushPlain (by simp)) hx
  | fcmp =>
    exact safe_next (safe_popFloat.bind fun _ _ => safe_popFloat.bind fun _ _ =>
      safe_pushPlain (by simp)) hx
  | dcmp =>
    exact safe_next (safe_popDouble.bind fun _ _ => safe_popDouble.bind fun _ _ =>
      safe_pushPlain (by simp)) hx
  | jump => cases hx; exact safe_jump _ _
  | ret => cases hx; exact safe_returnThrough _
  | tableSwitch => cases hx; exact safe_switch _
  | lookupSwitch => cases hx; exact safe_switch _
  | pushNull | pushInt | pushLong | pushFloat | pushDouble =>
    exact safe_next (safe_pushPlain (by simp)) hx
  | _ => cases hx

end Execution

end Jvm
