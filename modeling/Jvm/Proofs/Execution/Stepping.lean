import Mathlib
import Jvm.Proofs.Execution.Bounded
import Jvm.Proofs.Execution.Instructions

/-! # Calls and instructions keep frames in bounds

A call looks for room before it pushes a frame, and what it does in between pushes none. An instruction pushes
what it has popped before, or reads from objects and static fields, which hold values of their own, or gets
from a native method, whose result is checked. So an instruction that neither leaves a frame nor enters one keeps
to every regime that does not look at values (`takes_execute`). -/

namespace Jvm.Execution

open Linking ClassFile Bytecode

/-- A result that fits the type of a method is a value of its own. -/
theorem proper_of_fitsResult {type : Option FieldType} {result : Option Value}
    (h : fitsResult type result = true) : ∀ v ∈ result, v.Proper := by
  rintro v ⟨⟩ rfl
  rcases type with _ | type
  · cases h
  · cases type <;> cases h

namespace Regime

/-- What frames are like when something has been done that leads from those of a regime to those of a property. -/
def leads (d : Regime) (M : Stack Frame → Prop) : Except Abrupt Unit → Stack Frame → Prop
  | .ok () => M
  | .error e => d.ended e

/-- What frames are like when an instruction has been run that does not leave its frame: one that has entered
another one leads to frames of a property. -/
def flows (d : Regime) (M : Stack Frame → Prop) : Except Abrupt Flow → Stack Frame → Prop
  | .ok .next => d.runs
  | .ok .moved => M
  | .ok (.done _) => fun _ => False
  | .error e => d.ended e

theorem flows_of_runs {d : Regime} {M : Stack Frame → Prop} {s : Stack Frame} (hs : d.runs s) (e : Abrupt) :
    d.flows M (.error e) s :=
  ended_of_runs hs

/-- Whether a call leads from the frames of a regime to those of a property, as long as there are fewer than `n`. -/
def Pushes (d : Regime) (n : Nat) (M : Stack Frame → Prop) : Prop :=
  ∀ s method code args monitor, d.runs s → s.size < n → M (s.push (.enter method code args monitor))

theorem pushes_bounded (n : Nat) : (steady (Bounded n)).Pushes n (Bounded n) :=
  fun _ method code args monitor hs hroom => hs.push hroom (Frame.fits_enter method code args monitor)

end Regime

namespace VM

variable {α : Type} {d : Regime} {n : Nat} {M : Stack Frame → Prop} {Q : α → Prop} {c : Context}
  {method : Method} {args : List Value}

/-! ### Calls -/

theorem keeps_receiver (method : Method) (args : List Value) : Stays d (receiver method args) c := by
  unfold receiver
  split
  · exact keeps_pure trivial
  · exact keeps_throw _
  · exact keeps_fail _

theorem keeps_enterCallMonitor (method : Method) (args : List Value) :
    Stays d (enterCallMonitor method args) c := by
  refine keeps_ite (fun _ => keeps_pure trivial) fun _ => ?_
  extract_lets lock
  have hlock : ∀ object, Stays d (lock object) c := fun object =>
    (keeps_enterMonitor object).bind fun _ _ => (keeps_note _).bind fun _ _ => keeps_pure trivial
  exact keeps_ite (fun _ => ((keeps_classObjectOf _).pinning _).bind fun object _ => hlock object) fun _ =>
    (keeps_receiver method args).bind fun object _ => hlock object

/-- There is still room for a frame when it is pushed: the monitor of the call is entered in between, and
this leaves the frames as they are. -/
theorem takes_pushFrame (hM : d.Pushes c.env.maxFrames M) (method : Method) (args : List Value) :
    Takes d.runs (pushFrame method args) (d.leads M) c := by
  refine keeps_read.thenTakes ?_ fun _ _ => id
  rintro _ rfl
  refine takes_of_each fun s hs => ?_
  have hended : ∀ e t, t = s → d.leads M (.error e) t := by
    rintro e _ rfl
    exact Regime.ended_of_runs hs
  -- the frames are known exactly until one is pushed, so there is as much room as before
  have hdepth : Takes (· = s) depth (fun o t => t = s ∧ ∀ k, o = .ok k → k = s.size) c := by
    intro m hm
    refine ⟨⟨hm.frames, ?_⟩, hm.heap, hm.registry⟩
    rintro _ ⟨⟩
    rw [hm.frames]
  refine hdepth.bind (fun k => ?_) fun e t ht => hended e t ht.1
  by_cases hfull : c.env.maxFrames ≤ k
  · rw [if_pos hfull]
    exact takes_throw fun t ht => hended _ t ht.1
  rw [if_neg hfull]
  dsimp only
  cases method.code with
  | none => exact takes_throw fun t ht => hended _ t ht.1
  | some code =>
    refine takes_of_each fun t ht => ?_
    obtain ⟨rfl, hk⟩ := ht
    have henter : Stays (.steady (· = t)) (enterCallMonitor method args) c := keeps_enterCallMonitor method args
    refine henter.thenTakes (fun monitor _ => ?_) fun e u hu => hended e u (by simpa using hu)
    rintro m ⟨hframes, hheap, hregistry⟩
    refine ⟨?_, hheap, hregistry⟩
    have hroom : t.size < c.env.maxFrames := hk k rfl ▸ Nat.lt_of_not_le hfull
    have hpush := hM t method code args monitor hs hroom
    rwa [← show m.frames = t from hframes] at hpush

theorem bounds_pushFrame (method : Method) (args : List Value) : Bounds (pushFrame method args) c :=
  (takes_pushFrame (Regime.pushes_bounded _) method args).keeps (fun _ _ hs => ⟨hs, trivial⟩) fun _ _ => id

theorem keeps_checkResult (method : Method) (result : Option Value) :
    Keeps d (checkResult method result) (fun _ => ∀ v ∈ result, v.Proper) c :=
  keeps_ite (fun _ => keeps_fail _) fun h => keeps_pure (proper_of_fitsResult (by simpa using h))

section

variable (hc : c.Serves d)

include hc

/-- What has failed in a native method is thrown once its monitor has been left. -/
theorem keeps_runNative (native : Native) (method : Method) (args : List Value) :
    Stays d (runNative native method args) c := by
  refine (keeps_enterCallMonitor method args).bind fun monitor _ => ?_
  have hfinish {d : Regime} (result : Except Abrupt (Option Value)) (released : Except Abrupt Unit) : Keeps d
      (do let value ← MonadExcept.ofExcept result; MonadExcept.ofExcept released; return value : VM (Option Value))
      (fun a => result = .ok a) c :=
    (keeps_except result).bind fun _ ha => (keeps_except released).bind fun _ _ => keeps_pure ha
  have hnative := keeps_native hc args native
  cases monitor with
  | none =>
    exact hnative.attempt_failing (fun value _ => (keeps_pure_bind (hfinish (.ok value) _)).stays) fun e =>
      (keeps_pure_bind (hfinish (.error e) _)).mono fun _ h => by cases h
  | some r =>
    have hleave {d : Regime} (result : Except Abrupt (Option Value)) : Keeps d (attempt (leaveCallMonitor r) >>= fun
        released => do let value ← MonadExcept.ofExcept result; MonadExcept.ofExcept released; return value)
        (fun a => result = .ok a) c := (keeps_leaveCallMonitor r).attempt.bind fun released _ => hfinish result released
    exact hnative.attempt_failing (fun value _ => (hleave (.ok value)).stays) fun e =>
      (hleave (.error e)).mono fun _ h => by cases h

/-- What a native method gives back is checked, so it is a value of its own. -/
theorem keeps_callNative (method : Method) (args : List Value) :
    Keeps d (callNative method args) (fun o => ∀ v ∈ o, v.Proper) c := by
  refine keeps_read.bind fun _ _ => ?_
  split
  · exact keeps_fail _
  · refine ((keeps_runNative hc _ method args).pinning _).bind fun result _ => ?_
    exact (keeps_checkResult method result).bind fun _ hresult => keeps_pure hresult

end

theorem takes_andNext {x : VM Unit} (hx : Stays d x c) : Takes d.runs (usePooled.andNext x) (d.flows M) c :=
  hx.thenTakes (fun _ _ => takes_pure fun _ => id) fun _ _ => id

section

variable (hd : d.Blind) (hc : c.Serves d) (hM : d.Pushes c.env.maxFrames M)

include hd hc hM

theorem takes_enter (method : Method) (args : List Value) : Takes d.runs (enter method args) (d.flows M) c := by
  unfold enter
  split
  · refine (keeps_callNative hc method args).thenTakes (fun result hresult => ?_) fun _ _ => id
    split
    · exact takes_andNext (keeps_push hd (hresult _ rfl))
    · exact takes_pure fun _ => id
  · exact (takes_pushFrame hM method args).bind (fun _ => takes_pure fun _ => id) fun _ _ => id

theorem takes_enterSelected (method : Method) (args : List Value) :
    Takes d.runs (enterSelected method args) (d.flows M) c := by
  unfold enterSelected
  split
  · exact takes_throw fun _ hs => Regime.flows_of_runs hs _
  · exact takes_enter hd hc hM method args

end

/-! ### Selection -/

theorem keeps_methodAt (index : UInt16) : Stays d (methodAt index) c :=
  keeps_currentClass.bind fun current _ => keeps_resolveMethod current index

theorem keeps_instanceMethodAt (index : UInt16) : Stays d (instanceMethodAt index) c :=
  (keeps_methodAt index).bind fun _ _ => keeps_guard (fun _ => keeps_fail _) fun _ => keeps_pure trivial

theorem keeps_popArgsOf (hd : d.Blind) (method : Method) : Stays d (popArgsOf method) c :=
  keeps_onFrame hd (Frame.fitting_popArgs _) (Frame.safe_popArgs _)

theorem keeps_selectSpecial (method : Method) : Stays d (selectSpecial method) c := by
  refine keeps_ite (fun _ => keeps_pure trivial) fun _ => keeps_currentClass.bind fun current _ => ?_
  refine (keeps_getClass current).bind fun _ _ => keeps_table.bind fun _ _ => ?_
  refine (keeps_getClass method.owner).bind fun _ _ => ?_
  exact keeps_ite (fun _ => keeps_pure trivial) fun _ => keeps_pure trivial

theorem keeps_selectInterface (id : ClassId) (method : Method) : Stays d (selectInterface id method) c := by
  refine (keeps_getClass id).bind fun _ _ => (keeps_getClass method.owner).bind fun _ _ => ?_
  refine keeps_table.bind fun _ _ => keeps_guard (fun _ => keeps_fail _) fun _ => ?_
  split
  · exact keeps_pure trivial
  · exact keeps_fail _

/-! ### Calling instructions -/

section

variable (hd : d.Blind) (hc : c.Serves d) (hM : d.Pushes c.env.maxFrames M)

include hd hc hM

theorem takes_invokeStatic (index : UInt16) : Takes d.runs (invokeStatic index) (d.flows M) c := by
  refine (keeps_methodAt index).thenTakes (fun method _ => ?_) fun _ _ => id
  split
  · exact takes_throw fun _ hs => Regime.flows_of_runs hs _
  · refine (keeps_ensureInitialized hc _).thenTakes (fun _ _ => ?_) fun _ _ => id
    exact (keeps_popArgsOf hd method).thenTakes (fun args _ => takes_enter hd hc hM method args) fun _ _ => id

theorem takes_invokeSpecial (index : UInt16) : Takes d.runs (invokeSpecial index) (d.flows M) c := by
  refine (keeps_instanceMethodAt index).thenTakes (fun method _ => ?_) fun _ _ => id
  refine (keeps_selectSpecial method).thenTakes (fun selected _ => ?_) fun _ _ => id
  refine (keeps_popArgsOf hd method).thenTakes (fun args _ => ?_) fun _ _ => id
  exact (keeps_receiver method args).thenTakes (fun _ _ => takes_enterSelected hd hc hM selected args) fun _ _ => id

theorem takes_invokeVirtual (index : UInt16) : Takes d.runs (invokeVirtual index) (d.flows M) c := by
  refine (keeps_instanceMethodAt index).thenTakes (fun method _ => ?_) fun _ _ => id
  refine (keeps_popArgsOf hd method).thenTakes (fun args _ => ?_) fun _ _ => id
  refine (keeps_receiver method args).thenTakes (fun this _ => ?_) fun _ _ => id
  split
  · exact takes_enterSelected hd hc hM method args
  · refine (keeps_classOf this).thenTakes (fun cls _ => ?_) fun _ _ => id
    refine (keeps_getClass cls).thenTakes (fun cl _ => ?_) fun _ _ => id
    split
    · exact takes_enterSelected hd hc hM _ args
    · exact takes_throw fun _ hs => Regime.flows_of_runs hs _

theorem takes_invokeInterface (index : UInt16) : Takes d.runs (invokeInterface index) (d.flows M) c := by
  refine (keeps_instanceMethodAt index).thenTakes (fun method _ => ?_) fun _ _ => id
  refine (keeps_popArgsOf hd method).thenTakes (fun args _ => ?_) fun _ _ => id
  refine (keeps_receiver method args).thenTakes (fun this _ => ?_) fun _ _ => id
  split
  · exact takes_enterSelected hd hc hM method args
  · refine (keeps_classOf this).thenTakes (fun cls _ => ?_) fun _ _ => id
    refine (keeps_selectInterface cls method).thenTakes (fun selected _ => ?_) fun _ _ => id
    exact takes_enterSelected hd hc hM selected args

end

/-! ### Creation -/

theorem keeps_classAt (index : UInt16) : Stays d (classAt index) c :=
  keeps_currentClass.bind fun current _ => keeps_resolveClass current index

theorem keeps_newArrayOf (id : ClassId) (length : Int32) : Stays d (newArrayOf id length) c := by
  refine (keeps_getClass id).bind fun cl _ => ?_
  split
  · exact keeps_fail _
  · next component _ =>
    by_cases hlength : length < 0
    · rw [Heap.Request.array, if_pos hlength]
      exact keeps_throw _
    · rw [Heap.Request.array, if_neg hlength]
      exact keeps_allocate_zeros id _ _

theorem keeps_storeEach {array : Ref} {make : VM Ref} (hmake : Stays d make c) (i n : Nat) :
    Stays d (storeEach array make i n) c := by
  induction n generalizing i with
  | zero => exact keeps_pure trivial
  | succ n ih => exact hmake.bind fun r _ => (keeps_storeElement array i _).bind fun _ _ => ih (i + 1)

theorem keeps_newNested (id : ClassId) (lengths : List Int32) : Stays d (newNested id lengths) c := by
  induction lengths generalizing id with
  | nil => exact keeps_fail _
  | cons length rest ih =>
    cases rest with
    | nil => exact keeps_newArrayOf id length
    | cons inner rest =>
      rw [newNested]
      refine (keeps_newArrayOf id length).bind fun array _ => (keeps_getClass id).bind fun cl _ => ?_
      split
      · next component _ =>
        exact ((keeps_storeEach (ih component) 0 _).pinning [array]).bind fun _ _ => keeps_pure trivial
      · exact keeps_fail _

theorem fitting_lengthsOf (vs : List Value) : (lengthsOf vs).Fitting fun _ => True := by
  induction vs with
  | nil => exact OnFrame.fitting_pure trivial
  | cons v vs ih =>
    cases v with
    | int n => exact ih.bind fun _ _ => OnFrame.fitting_pure trivial
    | _ => exact Frame.fitting_refuse _

section

variable (hd : d.Blind)

include hd

theorem keeps_popInt : Stays d (onFrame Frame.popInt) c :=
  keeps_onFrame hd Frame.fitting_popInt Frame.safe_popInt

theorem keeps_popObject : Stays d (onFrame Frame.popObject) c :=
  keeps_onFrame hd Frame.fitting_popObject Frame.safe_popObject

theorem keeps_newObject (hc : c.Serves d) (index : UInt16) : Stays d (newObject index) c := by
  refine (keeps_classAt index).bind fun id _ => (keeps_getClass id).bind fun cl _ => ?_
  refine keeps_guard (fun _ => keeps_fail _) fun _ => (keeps_ensureInitialized hc id).bind fun _ _ => ?_
  exact (keeps_newInstance id).bind fun object _ => keeps_push hd (by nofun)

theorem keeps_pushArray (id : ClassId) (length : Int32) :
    Stays d (newArrayOf id length >>= fun r => push (.ref r)) c :=
  (keeps_newArrayOf id length).bind fun _ _ => keeps_push hd (by nofun)

theorem keeps_newPrimitiveArray (element : Primitive) : Stays d (newPrimitiveArray element) c :=
  (keeps_popInt hd).bind fun length _ => (keeps_primitiveArrayClass element).bind fun id _ =>
    keeps_pushArray hd id length

theorem keeps_newReferenceArray (index : UInt16) : Stays d (newReferenceArray index) c :=
  (keeps_popInt hd).bind fun length _ => (keeps_classAt index).bind fun component _ =>
    (keeps_arrayClassOf component).bind fun id _ => keeps_pushArray hd id length

theorem keeps_newMultiArray (index : UInt16) (dimensions : UInt8) : Stays d (newMultiArray index dimensions) c := by
  refine (keeps_classAt index).bind fun id _ => ?_
  refine (keeps_onFrame hd ((Frame.fitting_popArgs _).bind fun vs _ => fitting_lengthsOf vs)
    ((Frame.safe_popArgs _).bind fun vs _ => safe_lengthsOf vs)).bind fun lengths _ => ?_
  split
  · exact keeps_throw_bind _
  · exact (keeps_newNested id lengths).bind fun _ _ => keeps_push hd (by nofun)

end

/-! ### Elements -/

theorem keeps_accessed (access : ElementAccess) (what : String) (array : Ref) :
    Keeps d (accessed access what array) Elements.Proper c := by
  refine (keeps_elements array).bind fun e he => ?_
  extract_lets finish
  refine keeps_ite (fun _ => ?_) fun _ => keeps_pure he
  refine keeps_table.bind fun _ _ => (keeps_classOf array).bind fun _ _ => ?_
  exact keeps_throw_bind _

theorem keeps_checkIndex (index : Int32) (length : Nat) : Stays d (checkIndex index length) c :=
  keeps_ite (fun _ => keeps_throw _) fun _ => keeps_pure trivial

theorem keeps_keptElement (o : Option Component) (v : Value) : Stays d (keptElement o v) c := by
  unfold keptElement
  split
  · refine (keeps_classOf _).bind fun _ _ => keeps_table.bind fun _ _ => ?_
    extract_lets finish
    refine keeps_ite (fun _ => ?_) fun _ => keeps_pure trivial
    exact (keeps_dottedName _).bind fun _ _ => keeps_throw_bind _
  · exact keeps_pure trivial
  · exact keeps_pure trivial

section

variable (hd : d.Blind)

include hd

theorem keeps_loadElement (access : ElementAccess) : Stays d (loadElement access) c := by
  refine (keeps_popInt hd).bind fun index _ => (keeps_popObject hd).bind fun array _ => ?_
  refine (keeps_accessed access _ array).bind fun e he => (keeps_checkIndex index _).bind fun _ _ => ?_
  split
  · next v hv => exact keeps_push hd (he.load? hv)
  · exact keeps_throw _

theorem keeps_assignElement (access : ElementAccess) : Stays d (assignElement access) c := by
  refine (keeps_onFrame hd Frame.fitting_pop Frame.safe_pop).bind fun v _ => (keeps_popInt hd).bind fun index _ => ?_
  refine (keeps_popObject hd).bind fun array _ => (keeps_classOf array).bind fun id _ => ?_
  refine (keeps_accessed access _ array).bind fun e _ => (keeps_checkIndex index _).bind fun _ _ => ?_
  refine keeps_table.bind fun _ _ => (keeps_keptElement _ v).bind fun w _ => ?_
  exact (keeps_storeElement array _ w).bind fun _ _ => keeps_ite (fun _ => keeps_fail _) fun _ => keeps_pure trivial

theorem keeps_arrayLength : Stays d arrayLength c :=
  (keeps_popObject hd).bind fun array _ => (keeps_elements array).bind fun _ _ => keeps_push hd (by nofun)

end

/-! ### Classes of objects -/

theorem keeps_castClasses (r : Ref) (index : UInt16) : Stays d (castClasses r index) c :=
  (keeps_classAt index).bind fun _ _ => (keeps_classOf r).bind fun _ _ => keeps_pure trivial

section

variable (hd : d.Blind)

include hd

theorem keeps_checkCast (index : UInt16) : Stays d (checkCast index) c := by
  refine (keeps_onFrame hd (Frame.fitting_peek 0) (Frame.safe_peek 0)).bind fun v _ => ?_
  split
  · exact keeps_pure trivial
  · refine (keeps_castClasses _ index).bind fun _ _ => keeps_table.bind fun _ _ => ?_
    refine keeps_ite (fun _ => ?_) fun _ => keeps_pure trivial
    exact (keeps_dottedName _).bind fun _ _ => (keeps_dottedName _).bind fun _ _ => keeps_throw _
  · exact keeps_onFrame hd (Frame.fitting_refuse _) (Frame.safe_refuse (Q := fun _ => True) _)

theorem keeps_instanceOf (index : UInt16) : Stays d (instanceOf index) c := by
  refine (keeps_onFrame hd Frame.fitting_popReference Frame.safe_popReference).bind fun o _ => ?_
  split
  · exact keeps_push hd (by nofun)
  · exact (keeps_castClasses _ index).bind fun _ _ => keeps_table.bind fun _ _ => keeps_push hd (by nofun)

end

/-! ### Fields -/

theorem keeps_fieldAt (index : UInt16) (isStatic : Bool) : Stays d (fieldAt index isStatic) c := by
  refine keeps_currentClass.bind fun current _ => (keeps_resolveField current index).bind fun f _ => ?_
  extract_lets finish
  refine keeps_ite (fun _ => ?_) fun _ => keeps_pure trivial
  refine (keeps_getClass current).bind fun _ _ => (keeps_ofExcept _).bind fun _ _ => ?_
  exact keeps_throw_bind _

theorem fitting_popKept (instruction : String) (type : FieldType) :
    (popKept instruction type).Fitting Value.Proper := by
  refine Frame.fitting_pop.bind fun v _ => ?_
  split
  · next kept hkept => exact OnFrame.fitting_pure (proper_of_keptIn hkept)
  · exact Frame.fitting_refuse _

theorem keeps_noStaticSlot (f : ClassTable.ResolvedField) : Stays d (noStaticSlot f) c :=
  keeps_table.bind fun _ _ => keeps_pure trivial

section

variable (hd : d.Blind)

include hd

theorem keeps_popKept (instruction : String) (type : FieldType) :
    Keeps d (onFrame (popKept instruction type)) Value.Proper c :=
  keeps_onFrame hd (fitting_popKept _ _) (safe_popKept _ _)

theorem keeps_getStatic (hc : c.Serves d) (index : UInt16) : Stays d (getStatic index) c := by
  refine (keeps_fieldAt index true).bind fun f _ => (keeps_ensureInitialized hc _).bind fun _ _ => ?_
  refine keeps_getRegistry.bind fun r hr => ?_
  split
  · next v hv => exact keeps_push hd (hr.getStatic? hv)
  · exact (keeps_noStaticSlot f).bind fun _ _ => keeps_fail _

theorem keeps_putStatic (hc : c.Serves d) (index : UInt16) : Stays d (putStatic index) c := by
  refine (keeps_fieldAt index true).bind fun f _ => (keeps_ensureInitialized hc _).bind fun _ _ => ?_
  refine (keeps_popKept hd _ _).bind fun v hv => keeps_getRegistry.bind fun r hr => ?_
  split
  · next r' hset => exact fun m hm => ⟨⟨hm.frames, hm.heap, hr.setStatic? hv hset⟩, trivial⟩
  · exact (keeps_noStaticSlot f).bind fun _ _ => keeps_fail _

theorem keeps_getInstanceField (index : UInt16) : Stays d (getInstanceField index) c :=
  (keeps_fieldAt index false).bind fun f _ => (keeps_popObject hd).bind fun object _ =>
    (keeps_getField object f.slot).bind fun _ hv => keeps_push hd hv

theorem keeps_putInstanceField (index : UInt16) : Stays d (putInstanceField index) c :=
  (keeps_fieldAt index false).bind fun f _ => (keeps_popKept hd _ _).bind fun _ hv =>
    (keeps_popObject hd).bind fun object _ => keeps_setField object f.slot hv

end

/-! ### Running an instruction -/

theorem keeps_constantValue (index : UInt16) (wide : Bool) :
    Keeps d (constantValue index wide) Value.Proper c := by
  refine keeps_currentClass.bind fun id _ => (keeps_getClass id).bind fun cl _ => ?_
  split
  · exact keeps_pure (by nofun)
  · exact keeps_pure (by nofun)
  · exact (keeps_stringConstant id index).bind fun _ _ => keeps_pure (by nofun)
  · exact (keeps_classAt index).bind fun cls _ => (keeps_classObjectOf cls).bind fun _ _ => keeps_pure (by nofun)
  · exact keeps_pure (by nofun)
  · exact keeps_pure (by nofun)
  · exact keeps_fail _
  · exact keeps_fail _

section

variable (hd : d.Blind) (hc : c.Serves d) (hM : d.Pushes c.env.maxFrames M)

include hd hc hM

theorem takes_usePooled (index : UInt16) (use : PoolUse) : Takes d.runs (usePooled index use) (d.flows M) c := by
  cases use with
  | getStatic => exact takes_andNext (keeps_getStatic hd hc index)
  | putStatic => exact takes_andNext (keeps_putStatic hd hc index)
  | getField => exact takes_andNext (keeps_getInstanceField hd index)
  | putField => exact takes_andNext (keeps_putInstanceField hd index)
  | invokeVirtual => exact takes_invokeVirtual hd hc hM index
  | invokeSpecial => exact takes_invokeSpecial hd hc hM index
  | invokeStatic => exact takes_invokeStatic hd hc hM index
  | new => exact takes_andNext (keeps_newObject hd hc index)
  | newReferenceArray => exact takes_andNext (keeps_newReferenceArray hd index)
  | checkCast => exact takes_andNext (keeps_checkCast hd index)
  | instanceOf => exact takes_andNext (keeps_instanceOf hd index)

end

theorem keeps_lock (r : Ref) : Stays d (lock r) c :=
  (keeps_enterMonitor r).bind fun _ _ => keeps_note _

/-- An instruction that does not leave its frame either has been run to its end, or has entered another frame. -/
theorem takes_execute (hd : d.Blind) (hc : c.Serves d) (hM : d.Pushes c.env.maxFrames M) (base : Nat)
    {op : Operation} (hop : ∀ kind, op ≠ .leave kind) : Takes d.runs (execute base op) (d.flows M) c := by
  have hpush {index : UInt16} {wide : Bool} :
      Takes d.runs (constantValue index wide >>= fun v => push v >>= fun _ => pure Flow.next) (d.flows M) c :=
    (keeps_constantValue index wide).thenTakes (fun _ hv => takes_andNext (keeps_push hd hv)) fun _ _ => id
  have hobject {x : Ref → VM Unit} (hx : ∀ r, Stays d (x r) c) :
      Takes d.runs (onFrame Frame.popObject >>= fun r => x r >>= fun _ => pure Flow.next) (d.flows M) c :=
    (keeps_popObject hd).thenTakes (fun r _ => takes_andNext (hx r)) fun _ _ => id
  cases op with
  | ldc index => exact hpush
  | ldc2 index => exact hpush
  | arrayLoad access => exact takes_andNext (keeps_loadElement hd access)
  | arrayStore access => exact takes_andNext (keeps_assignElement hd access)
  | leave kind => exact absurd rfl (hop kind)
  | pooled use index => exact takes_usePooled hd hc hM index use
  | invokeInterface index count => exact takes_invokeInterface hd hc hM index
  | invokeDynamic index => exact takes_andNext (keeps_fail _)
  | newArray element => exact takes_andNext (keeps_newPrimitiveArray hd element)
  | newMultiArray index dimensions => exact takes_andNext (keeps_newMultiArray hd index dimensions)
  | arrayLength => exact takes_andNext (keeps_arrayLength hd)
  | throw_ => exact hobject fun _ => keeps_throw _
  | monitorEnter => exact hobject keeps_lock
  | monitorExit => exact hobject keeps_exitMonitor
  -- a step carries out calculations itself
  | _ => exact takes_pure fun _ => id

/-! ### Leaving a frame -/

/-- A frame goes on behind a call with the result of the call. -/
theorem fitting_resume {result : Option Value} (hresult : ∀ v ∈ result, v.Proper) :
    OnFrame.Fitting (do
      modify fun f : Frame => { f with pc := f.pc + 1 }
      if let some v := result then Frame.push v) fun _ => True := by
  refine (OnFrame.fitting_goto _).bind fun _ _ => ?_
  cases result with
  | none => exact OnFrame.fitting_pure trivial
  | some v => exact Frame.fitting_push (hresult v rfl)

/-- The frame below gets the result. -/
theorem bounds_returnFrom (base : Nat) {result : Option Value} (hresult : ∀ v ∈ result, v.Proper) :
    Stays (.steady (Bounded n)) (returnFrom base result) c := by
  refine keeps_get.bind fun m _ => ?_
  split
  · exact keeps_fail _
  · refine bounds_popFrame.bind fun _ _ => ?_
    extract_lets finish
    have hfinish : Stays (.steady (Bounded n)) (finish ()) c := by
      refine keeps_depth.bind fun _ _ => keeps_ite (fun _ => keeps_pure trivial) fun _ => ?_
      exact (bounds_onFrame (fitting_resume hresult)).bind fun _ _ => keeps_pure trivial
    split
    · exact (keeps_leaveCallMonitor _).bind fun _ _ => hfinish
    · exact hfinish

/-! ### A step -/

theorem fitting_fetch : fetch.Fitting fun _ => True := by
  refine OnFrame.fitting_get.bind fun f _ => ?_
  split
  · exact OnFrame.fitting_pure trivial
  · exact Frame.fitting_refuse _

/-- **A step keeps frames in bounds.** -/
theorem bounds_step (hc : c.Bounds) (base : Nat) : Bounds (step base) c := by
  refine keeps_tick.bind fun _ _ => (bounds_onFrame fitting_fetch).bind fun op _ => ?_
  have hadvance {x : OnFrame Target} (hx : x.Fitting fun _ => True) :
      Bounds (onFrame (Frame.advance x) >>= fun _ => pure none : VM (Option (Option Value))) c :=
    (bounds_onFrame (fitting_advance hx)).bind fun _ _ => keeps_pure trivial
  have hexecute : Bounds (execute base op) c := by
    by_cases hop : ∃ kind, op = .leave kind
    · obtain ⟨kind, rfl⟩ := hop
      exact (bounds_onFrame (Calculation.fitting_popResult kind)).bind fun _ hresult => bounds_returnFrom base hresult
    · have htakes := takes_execute (Regime.blind_bounded _) hc.call (Regime.pushes_bounded _) base
        fun kind (h : op = .leave kind) => hop ⟨kind, h⟩
      refine htakes.keeps (fun flow s hs => ⟨?_, trivial⟩) fun _ _ => id
      cases flow with
      | next => exact hs
      | moved => exact hs
      | done => exact hs.elim
  split
  · next x hx => exact hadvance (fitting_calculate hx)
  · refine hexecute.bind fun flow _ => ?_
    split
    · exact hadvance (OnFrame.fitting_pure trivial)
    · exact keeps_pure trivial
    · exact keeps_pure trivial

end VM

end Jvm.Execution
