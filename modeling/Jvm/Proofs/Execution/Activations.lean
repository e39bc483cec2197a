import Mathlib
import Jvm.Proofs.Execution.Instructions
import Jvm.Proofs.Execution.Settling

/-! # The frames that a run leaves

A run is about the frames above the lowest ones, as many as given: it ends when the last of them is left. What a
machine does to these frames while the others stay as they are is `Machine.Turns`: calls put frames on top, and
returns and exceptions take them away with their monitors. So a run leaves every frame that it is about, and a
call leaves none behind (`Context.leaving_ofTasks`). -/

namespace Jvm.Execution

open Linking ClassFile Bytecode

/-- The monitors that the calls of some frames hold. -/
abbrev monitorsOf (frames : List Frame) : List (Option Ref) := frames.map (·.monitor)

namespace Machine

variable {m m₁ m' : Machine} {base : Nat} {k : Prop} {P P' Q Q' R : List Frame → Prop}

/-- How a machine with the frames `above` on top of `below` goes on that notes `new`: other frames are on top,
and the accounts are right. -/
structure Turned (k : Prop) (above below above' : List Frame) (m : Machine) (new : List Note) (m' : Machine) :
    Prop where
  frames : m'.frames.list = above' ++ below
  accounts : m.Accounts (monitorsOf above) new (monitorsOf above') m'
  pinned : k → m'.pinned = m.pinned

/-- Whether a machine goes on that way from frames with the property `P`, on top of `base` others, to frames with
the property `Q`, unless a frame has refused an exception. -/
def Turns (base : Nat) (k : Prop) (P Q : List Frame → Prop) (m m' : Machine) : Prop :=
  m.Adds (fun new => ∀ above below, m.frames.list = above ++ below → below.length = base → P above →
    ∃ above', Q above' ∧ m.Turned k above below above' new m') m'

theorem Turns.trans (h₁ : m.Turns base k P Q m₁) (h₂ : m₁.Turns base k Q R m') : m.Turns base k P R m' := by
  refine Adds.trans h₁ h₂ fun new₁ new₂ h₁ h₂ above below hframes hbase hP => ?_
  obtain ⟨above₁, hQ, h₁⟩ := h₁ above below hframes hbase hP
  obtain ⟨above', hR, h₂⟩ := h₂ above₁ below h₁.frames hbase hQ
  exact ⟨above', hR, h₂.frames, h₁.accounts.trans h₂.accounts, fun hk => (h₂.pinned hk).trans (h₁.pinned hk)⟩

theorem Turns.mono (h : m.Turns base k P Q m')
    (hP : ∀ above below, m.frames.list = above ++ below → below.length = base → P' above → P above)
    (hQ : ∀ above below, m'.frames.list = above ++ below → below.length = base → Q above → Q' above) :
    m.Turns base k P' Q' m' :=
  Adds.mono h fun _ h above below hframes hbase hP' => by
    obtain ⟨above', hQ'', h⟩ := h above below hframes hbase (hP above below hframes hbase hP')
    exact ⟨above', hQ above' below h.frames hbase hQ'', h⟩

/-- The frames may stay as they are. -/
theorem Settles.turns (h : m.Settles 0 k m') : m.Turns base k P P m' := by
  refine Adds.mono h fun new h above below hframes hbase hP => ⟨above, hP, ?_, ?_, h.pinned⟩
  · exact (show m'.frames.list = m.frames.list from h.below).trans hframes
  · simpa using h.accounts.beside (monitorsOf above)

/-- The topmost frame may change, but for its monitor. -/
theorem Settles.turns_top (h : m.Settles 1 k m') : m.Turns base k (· ≠ []) (· ≠ []) m' := by
  refine Adds.mono h fun new h above below hframes hbase hP => ?_
  obtain ⟨f, rest, rfl⟩ := List.exists_cons_of_ne_nil hP
  have hmonitors := h.monitors
  have hbelow := h.below
  rw [hframes] at hmonitors hbelow
  cases hlist : m'.frames.list with
  | nil => rw [hlist] at hmonitors; cases hmonitors
  | cons f' rest' =>
    rw [hlist] at hmonitors hbelow
    obtain rfl : rest' = rest ++ below := hbelow
    have hmonitor : f'.monitor = f.monitor := (List.cons.inj hmonitors).1
    refine ⟨f' :: rest, List.cons_ne_nil f' rest, hlist, ?_, h.pinned⟩
    have hsame : monitorsOf (f' :: rest) = monitorsOf (f :: rest) := by
      rw [monitorsOf, List.map_cons, hmonitor, monitorsOf, List.map_cons]
    rw [hsame]
    simpa using h.accounts.beside (monitorsOf (f :: rest))

/-- A call has been entered, and its frame is put on top. -/
theorem Passes.turns_push {f : Frame} (h : m.Passes 0 k [] [f.monitor] m') :
    m.Turns base k P (fun above => above ≠ [] ∧ P above.tail) { m' with frames := m'.frames.push f } := by
  refine Adds.mono h fun new h above below hframes hbase hP => ⟨f :: above, ⟨List.cons_ne_nil f above, hP⟩, ?_⟩
  have hsame : m'.frames.list = above ++ below := (show m'.frames.list = m.frames.list from h.below).trans hframes
  have haccounts := h.accounts.beside (monitorsOf above)
  exact ⟨by rw [Stack.list_push, hsame]; rfl, ⟨haccounts.thread, haccounts.entered, haccounts.held⟩, h.pinned⟩

/-- The topmost frame has been taken away, and its call is left. -/
theorem Passes.turns_pop {f : Frame} (htop : m.frames.top? = some f)
    (h : Machine.Passes 0 k [f.monitor] [] { m with frames := m.frames.pop } m') :
    m.Turns base k (fun above => above ≠ [] ∧ P above.tail) P m' := by
  refine Adds.mono h fun new h above below hframes hbase hP => ?_
  obtain ⟨f', rest, rfl⟩ := List.exists_cons_of_ne_nil hP.1
  obtain rfl : f' = f := by simpa [Stack.top?, hframes] using htop
  have haccounts := h.accounts.beside (monitorsOf rest)
  refine ⟨rest, hP.2, ?_, ⟨haccounts.thread, haccounts.entered, haccounts.held⟩, h.pinned⟩
  rw [show m'.frames.list = m.frames.pop.list from h.below, Stack.list_pop, hframes]
  rfl

/-- The frames of a call with no other one around it come and go. -/
theorem Turns.settles (h : m.Turns m.frames.size k (· = []) (· = []) m') : m.Settles 0 k m' := by
  refine Adds.mono h fun new h => ?_
  obtain ⟨_, rfl, h⟩ := h [] m.frames.list rfl m.frames.size_eq.symm rfl
  exact ⟨h.accounts, h.frames, congrArg monitorsOf h.frames, h.pinned⟩

theorem Turns.of_refused {S : List Note → Prop} (h : m.Adds S m') {n : Note} (hn : Refused [n]) :
    m.Turns base k P Q { m' with notes := n :: m'.notes } := by
  obtain ⟨new, hnotes, -⟩ := h
  exact ⟨n :: new, by rw [hnotes]; rfl, .inl (Refused.append_right hn)⟩

end Machine

namespace VM

variable {α β : Type} {base : Nat} {k : Prop} {P P' : List Frame → Prop} {x : VM α} {g : α → VM β}
  {Q Q' : Except Abrupt α → List Frame → Prop} {R : Except Abrupt β → List Frame → Prop} {c : Context}

/-- How a computation changes the frames on top of `base` others: from frames with the property `P` it comes to
frames with a property that depends on its outcome. -/
def Turns (base : Nat) (k : Prop) (P : List Frame → Prop) (x : VM α) (Q : Except Abrupt α → List Frame → Prop)
    (c : Context) : Prop :=
  ∀ m : Machine, Ends (fun o m' => m.Turns base k P (Q o) m') (x c m)

theorem Turns.mono (hx : Turns base k P x Q c) (hP : ∀ above, P' above → P above)
    (hQ : ∀ o above, Q o above → Q' o above) : Turns base k P' x Q' c :=
  fun m => (hx m).mono fun o _ h => h.mono (fun above _ _ _ => hP above) fun above _ _ _ => hQ o above

theorem Turns.bind (hx : Turns base k P x Q c) (hg : ∀ a, Turns base k (Q (.ok a)) (g a) R c)
    (herror : ∀ e above, Q (.error e) above → R (.error e) above) : Turns base k P (x >>= g) R c :=
  fun m => (hx m).bind (fun a m₁ h₁ => (hg a m₁).mono fun _ _ => h₁.trans) fun e _ h =>
    h.mono (fun _ _ _ _ => id) fun above _ _ _ => herror e above

theorem Settles.turns (hx : Settles 0 k x c) : Turns base k P x (fun _ => P) c :=
  fun m => (hx m).mono fun _ _ h => h.turns

theorem Settles.turns_top (hx : Settles 1 k x c) : Turns base k (· ≠ []) x (fun _ => (· ≠ [])) c :=
  fun m => (hx m).mono fun _ _ h => h.turns_top

/-- A computation that leaves the frames as they are, and then another one. -/
theorem Settles.thenTurns (hx : Settles 0 k x c) (hg : ∀ a, Turns base k P (g a) R c)
    (herror : ∀ e above, P above → R (.error e) above) : Turns base k P (x >>= g) R c :=
  hx.turns.bind hg herror

/-- What is left of the frames above the others after an instruction: none if it leaves the last one, and one at
least if another instruction is due. -/
def leftBy : Except Abrupt Flow → List Frame → Prop
  | .ok (.done _), above => above = []
  | .ok .next, above | .ok .moved, above => above ≠ []
  | .error _, _ => True

/-- Whether a computation leaves the frames above the others as an instruction does. -/
abbrev Steps (base : Nat) (k : Prop) (x : VM Flow) (c : Context) : Prop := Turns base k (· ≠ []) x leftBy c

/-- A computation on the current frame, or one that leaves the frames as they are, and then a step. -/
theorem Settles.thenSteps {g : α → VM Flow} (hx : Settles 1 k x c) (hg : ∀ a, Steps base k (g a) c) :
    Steps base k (x >>= g) c :=
  hx.turns_top.bind hg fun _ _ _ => trivial

theorem steps_ite {p : Prop} [Decidable p] {x y : VM Flow} (hx : Steps base k x c) (hy : Steps base k y c) :
    Steps base k (if p then x else y) c := by
  split
  · exact hx
  · exact hy

theorem steps_next : Steps base k (pure .next) c :=
  fun m => (Machine.Settles.refl 1 k m).turns_top

theorem steps_fail (e : Fault) : Steps base k (fail e) c :=
  fun m => (Machine.Settles.refl 1 k m).turns_top.mono (fun _ _ _ _ => id) fun _ _ _ _ _ => trivial

/-! ### Calls -/

theorem settles_depth : Settles 0 k depth c := settles_get.bind fun _ => settles_pure _

/-- The frames on top after a call: there is one more, unless the call fails before. -/
def putBy (P : List Frame → Prop) : Except Abrupt Unit → List Frame → Prop
  | .ok (), above => above ≠ [] ∧ P above.tail
  | .error _, above => P above

theorem turns_pushFrame (method : Method) (args : List Value) :
    Turns base k P (pushFrame method args) (putBy P) c := by
  refine settles_read.thenTurns (fun _ => settles_depth.thenTurns (fun _ => ?_) fun _ _ => id) fun _ _ => id
  extract_lets begin
  have hbegin : Turns base k P (begin ()) (putBy P) c := by
    dsimp only [begin]
    split
    · intro m
      refine (ends_enterCallMonitor (n := 0) (k := k) method args).bind (fun monitor m₁ h => ?_) fun e m₁ h => ?_
      · exact Machine.Passes.turns_push (f := .enter method _ args monitor) h
      · exact Machine.Settles.turns h
    · exact fun m => Machine.Settles.turns (.refl 0 k m)
  split
  · exact fun m => Machine.Settles.turns (.refl 0 k m)
  · exact hbegin

/-- The frames above the others that are left to run: none if something abrupt goes on to whoever began them. -/
def leftToRun : Except Abrupt Unit → List Frame → Prop
  | .ok (), above => above ≠ []
  | .error _, above => above = []

/-- The frame of a call with no other one around it. -/
theorem turns_pushFirst (method : Method) (args : List Value) :
    Turns base k (· = []) (pushFrame method args) leftToRun c :=
  (turns_pushFrame method args).mono (fun _ => id) fun o above h => by
    cases o with
    | ok => exact h.1
    | error => exact h

section

variable (hc : c.Settling)

include hc

theorem steps_enter (method : Method) (args : List Value) : Steps base k (enter method args) c := by
  refine steps_ite ((settles_callNative hc method args).thenSteps fun result => ?_) ?_
  · split
    · exact (settles_onFrame (Frame.keepsMonitor_push _)).thenSteps fun _ => steps_next
    · exact steps_next
  · refine (turns_pushFrame method args).bind (fun _ m => ?_) fun _ _ _ => trivial
    exact (Machine.Settles.refl 0 k m).turns.mono (fun _ _ _ _ => id) fun _ _ _ _ h => h.1

theorem steps_enterSelected (method : Method) (args : List Value) :
    Steps base k (enterSelected method args) c :=
  steps_ite ((settles_fail _).thenSteps fun _ => steps_enter hc method args) (steps_enter hc method args)

end

/-! ### Selection -/

theorem settles_currentClass : Settles 1 k currentClass c := settles_currentFrame.bind fun _ => settles_pure _

theorem settles_methodAt (index : UInt16) : Settles 1 k (methodAt index) c :=
  settles_currentClass.bind fun _ => settles_link _

theorem settles_instanceMethodAt (index : UInt16) : Settles 1 k (instanceMethodAt index) c :=
  (settles_methodAt index).bind fun _ => settles_ite ((settles_fail _).bind fun _ => settles_pure _) (settles_pure _)

/-- What is popped or pushed leaves the monitor of the call as it is. -/
theorem settles_popped {x : OnFrame α} {S : α → Prop} (hx : x.Safe (fun _ => True) S) : Settles 1 k (onFrame x) c :=
  settles_onFrame hx.keepsMonitor

theorem settles_push (v : Value) : Settles 1 k (push v) c := settles_onFrame (Frame.keepsMonitor_push v)

theorem settles_popArgsOf (method : Method) : Settles 1 k (popArgsOf method) c :=
  settles_popped (Frame.safe_popArgs _)

theorem settles_selectSpecial (method : Method) : Settles 1 k (selectSpecial method) c := by
  refine settles_ite (settles_pure _) (settles_currentClass.bind fun current => ?_)
  refine (settles_link _).bind fun _ => settles_table.bind fun _ => (settles_link _).bind fun _ => ?_
  exact settles_ite (settles_pure _) (settles_pure _)

theorem settles_selectInterface (id : ClassId) (method : Method) : Settles 1 k (selectInterface id method) c := by
  refine (settles_link _).bind fun _ => (settles_link _).bind fun _ => settles_table.bind fun _ => ?_
  refine settles_ite (settles_throw_bind _) ?_
  split
  · exact settles_pure _
  · exact settles_fail _

section

variable (hc : c.Settling)

include hc

/-! ### Calling instructions -/

theorem steps_invokeStatic (index : UInt16) : Steps base k (invokeStatic index) c := by
  refine (settles_methodAt index).thenSteps fun method => ?_
  have hrest : Steps base k (ensureInitialized method.owner >>= fun _ =>
      popArgsOf method >>= fun args => enter method args) c :=
    (settles_ensureInitialized hc _).thenSteps fun _ => (settles_popArgsOf method).thenSteps fun args =>
      steps_enter hc method args
  exact steps_ite ((settles_fail _).thenSteps fun _ => hrest) hrest

theorem steps_invokeSpecial (index : UInt16) : Steps base k (invokeSpecial index) c := by
  refine (settles_instanceMethodAt index).thenSteps fun method => ?_
  refine (settles_selectSpecial method).thenSteps fun selected => ?_
  refine (settles_popArgsOf method).thenSteps fun args => (settles_receiver method args).thenSteps fun _ => ?_
  exact steps_enterSelected hc selected args

theorem steps_invokeVirtual (index : UInt16) : Steps base k (invokeVirtual index) c := by
  refine (settles_instanceMethodAt index).thenSteps fun method => ?_
  refine (settles_popArgsOf method).thenSteps fun args => (settles_receiver method args).thenSteps fun this => ?_
  refine steps_ite (steps_enterSelected hc method args) ?_
  refine (settles_readObject _ this).thenSteps fun cls => (settles_link _).thenSteps fun cl => ?_
  split
  · exact steps_enterSelected hc _ args
  · exact steps_fail _

theorem steps_invokeInterface (index : UInt16) : Steps base k (invokeInterface index) c := by
  refine (settles_instanceMethodAt index).thenSteps fun method => ?_
  refine (settles_popArgsOf method).thenSteps fun args => (settles_receiver method args).thenSteps fun this => ?_
  refine steps_ite (steps_enterSelected hc method args) ?_
  refine (settles_readObject _ this).thenSteps fun cls => ?_
  exact (settles_selectInterface cls method).thenSteps fun selected => steps_enterSelected hc selected args

end

/-! ### Creation -/

theorem settles_classAt (index : UInt16) : Settles 1 k (classAt index) c :=
  settles_currentClass.bind fun _ => settles_link _

theorem settles_newObject (hc : c.Settling) (index : UInt16) : Settles 1 k (newObject index) c := by
  refine (settles_classAt index).bind fun id => (settles_link _).bind fun cl => ?_
  have hcreate : Settles 1 k (ensureInitialized id >>= fun _ => newInstance id >>= fun r => push (.ref r)) c :=
    (settles_ensureInitialized hc id).bind fun _ => (settles_newInstance id).bind fun _ => settles_push _
  exact settles_ite (settles_throw_bind _) hcreate

theorem settles_newArrayOf (id : ClassId) (length : Int32) : Settles 1 k (newArrayOf id length) c := by
  refine (settles_link _).bind fun cl => ?_
  split
  · exact settles_fail _
  · split
    · exact settles_allocate _
    · exact settles_throw _

theorem settles_newPrimitiveArray (element : Primitive) : Settles 1 k (newPrimitiveArray element) c :=
  (settles_popped Frame.safe_popInt).bind fun length => (settles_link _).bind fun id =>
    (settles_newArrayOf id length).bind fun _ => settles_push _

theorem settles_newReferenceArray (index : UInt16) : Settles 1 k (newReferenceArray index) c :=
  (settles_popped Frame.safe_popInt).bind fun length => (settles_classAt index).bind fun _ =>
    (settles_link _).bind fun id => (settles_newArrayOf id length).bind fun _ => settles_push _

theorem settles_storeEach {array : Ref} {make : VM Ref} (hmake : Settles 1 k make c) (i count : Nat) :
    Settles 1 k (storeEach array make i count) c := by
  induction count generalizing i with
  | zero => exact settles_pure _
  | succ count ih => exact hmake.bind fun r => (settles_storeElement array i _).bind fun _ => ih (i + 1)

theorem settles_newNested (id : ClassId) (lengths : List Int32) : Settles 1 k (newNested id lengths) c := by
  induction lengths generalizing id with
  | nil => exact settles_fail _
  | cons length rest ih =>
    cases rest with
    | nil => exact settles_newArrayOf id length
    | cons inner rest =>
      rw [newNested]
      refine (settles_newArrayOf id length).bind fun array => (settles_link _).bind fun cl => ?_
      split
      · exact ((settles_storeEach (ih _) 0 _).pinning [array]).bind fun _ => settles_pure _
      · exact settles_fail _

theorem settles_newMultiArray (index : UInt16) (dimensions : UInt8) :
    Settles 1 k (newMultiArray index dimensions) c := by
  refine (settles_classAt index).bind fun id => ?_
  refine (settles_popped ((Frame.safe_popArgs _).bind fun vs _ => safe_lengthsOf vs)).bind fun lengths => ?_
  split
  · exact settles_throw_bind _
  · exact (settles_newNested id lengths).bind fun _ => settles_push _

/-! ### Elements -/

theorem settles_accessed (access : ElementAccess) (what : String) (array : Ref) :
    Settles 1 k (accessed access what array) c := by
  refine (settles_readObject _ array).bind fun e => settles_ite ?_ (settles_pure _)
  exact settles_table.bind fun _ => (settles_readObject _ array).bind fun _ => settles_throw_bind _

theorem settles_checkIndex (index : Int32) (length : Nat) : Settles 1 k (checkIndex index length) c :=
  settles_ite (settles_throw _) (settles_pure _)

theorem settles_loadElement (access : ElementAccess) : Settles 1 k (loadElement access) c := by
  refine (settles_popped Frame.safe_popInt).bind fun index => (settles_popped Frame.safe_popObject).bind fun array => ?_
  refine (settles_accessed access _ array).bind fun e => (settles_checkIndex index _).bind fun _ => ?_
  split
  · exact settles_push _
  · exact settles_throw _

theorem settles_keptElement (o : Option Component) (v : Value) : Settles 1 k (keptElement o v) c := by
  unfold keptElement
  split
  · refine (settles_readObject _ _).bind fun _ => settles_table.bind fun _ => settles_ite ?_ (settles_pure _)
    exact (settles_dottedName _).bind fun _ => settles_throw_bind _
  · exact settles_pure _
  · exact settles_pure _

theorem settles_assignElement (access : ElementAccess) : Settles 1 k (assignElement access) c := by
  refine (settles_popped Frame.safe_pop).bind fun v => (settles_popped Frame.safe_popInt).bind fun index => ?_
  refine (settles_popped Frame.safe_popObject).bind fun array => (settles_readObject _ array).bind fun id => ?_
  refine (settles_accessed access _ array).bind fun e => (settles_checkIndex index _).bind fun _ => ?_
  refine settles_table.bind fun _ => (settles_keptElement _ v).bind fun w => ?_
  exact (settles_storeElement array _ w).bind fun _ => settles_ite (settles_fail _) (settles_pure _)

theorem settles_arrayLength : Settles 1 k arrayLength c :=
  (settles_popped Frame.safe_popObject).bind fun array => (settles_readObject _ array).bind fun _ => settles_push _

/-! ### Classes of objects -/

theorem settles_castClasses (r : Ref) (index : UInt16) : Settles 1 k (castClasses r index) c :=
  (settles_classAt index).bind fun _ => (settles_readObject _ r).bind fun _ => settles_pure _

theorem settles_checkCast (index : UInt16) : Settles 1 k (checkCast index) c := by
  refine (settles_popped (Frame.safe_peek 0)).bind fun v => ?_
  split
  · exact settles_pure _
  · refine (settles_castClasses _ index).bind fun _ => settles_table.bind fun _ => settles_ite ?_ (settles_pure _)
    exact (settles_dottedName _).bind fun _ => (settles_dottedName _).bind fun _ => settles_throw _
  · exact settles_popped (S := fun _ => True) (Frame.safe_refuse _)

theorem settles_instanceOf (index : UInt16) : Settles 1 k (instanceOf index) c := by
  refine (settles_popped Frame.safe_popReference).bind fun o => ?_
  split
  · exact settles_push _
  · exact (settles_castClasses _ index).bind fun _ => settles_table.bind fun _ => settles_push _

/-! ### Fields -/

theorem settles_fieldAt (index : UInt16) (isStatic : Bool) : Settles 1 k (fieldAt index isStatic) c := by
  refine settles_currentClass.bind fun current => (settles_link _).bind fun f => settles_ite ?_ (settles_pure _)
  exact (settles_link _).bind fun _ => (settles_ofExcept _).bind fun _ => settles_throw_bind _

theorem settles_noStaticSlot (f : ClassTable.ResolvedField) : Settles 1 k (noStaticSlot f) c :=
  settles_table.bind fun _ => settles_pure _

theorem settles_getStatic (hc : c.Settling) (index : UInt16) : Settles 1 k (getStatic index) c := by
  refine (settles_fieldAt index true).bind fun f => (settles_ensureInitialized hc _).bind fun _ => ?_
  refine settles_getRegistry.bind fun r => ?_
  split
  · exact settles_push _
  · exact (settles_noStaticSlot f).bind fun _ => settles_fail _

theorem settles_putStatic (hc : c.Settling) (index : UInt16) : Settles 1 k (putStatic index) c := by
  refine (settles_fieldAt index true).bind fun f => (settles_ensureInitialized hc _).bind fun _ => ?_
  refine (settles_popped (safe_popKept _ _)).bind fun v => settles_getRegistry.bind fun r => ?_
  split
  · exact settles_setRegistry _
  · exact (settles_noStaticSlot f).bind fun _ => settles_fail _

theorem settles_getInstanceField (index : UInt16) : Settles 1 k (getInstanceField index) c :=
  (settles_fieldAt index false).bind fun _ => (settles_popped Frame.safe_popObject).bind fun object =>
    (settles_readObject _ object).bind fun _ => settles_push _

theorem settles_putInstanceField (index : UInt16) : Settles 1 k (putInstanceField index) c :=
  (settles_fieldAt index false).bind fun f => (settles_popped (safe_popKept _ _)).bind fun _ =>
    (settles_popped Frame.safe_popObject).bind fun object => settles_setField object f.slot _

/-! ### Instructions -/

theorem settles_constantValue (index : UInt16) (wide : Bool) : Settles 1 k (constantValue index wide) c := by
  refine settles_currentClass.bind fun id => (settles_link _).bind fun cl => ?_
  split
  · exact settles_pure _
  · exact settles_pure _
  · exact (settles_stringConstant id index).bind fun _ => settles_pure _
  · exact (settles_classAt index).bind fun cls => (settles_classObjectOf cls).bind fun _ => settles_pure _
  · exact settles_pure _
  · exact settles_pure _
  · exact settles_fail _
  · exact settles_fail _

theorem steps_andNext {x : VM Unit} (hx : Settles 1 k x c) : Steps base k (usePooled.andNext x) c :=
  hx.thenSteps fun _ => steps_next

theorem steps_usePooled (hc : c.Settling) (index : UInt16) (use : PoolUse) :
    Steps base k (usePooled index use) c := by
  cases use with
  | getStatic => exact steps_andNext (settles_getStatic hc index)
  | putStatic => exact steps_andNext (settles_putStatic hc index)
  | getField => exact steps_andNext (settles_getInstanceField index)
  | putField => exact steps_andNext (settles_putInstanceField index)
  | invokeVirtual => exact steps_invokeVirtual hc index
  | invokeSpecial => exact steps_invokeSpecial hc index
  | invokeStatic => exact steps_invokeStatic hc index
  | new => exact steps_andNext (settles_newObject hc index)
  | newReferenceArray => exact steps_andNext (settles_newReferenceArray index)
  | checkCast => exact steps_andNext (settles_checkCast index)
  | instanceOf => exact steps_andNext (settles_instanceOf index)

/-! ### Returns -/

/-- The frame below goes on behind the call, if it is not the last one to be left. -/
theorem turns_goOn (base : Nat) (result : Option Value) : Turns base k (fun _ => True) (do
    if (← depth) == base then return .done result
    onFrame do
      modify fun f => { f with pc := f.pc + 1 }
      if let some v := result then Frame.push v
    return .moved) leftBy c := by
  intro m
  have hdepth : depth c m = .ok m.frames.size m := rfl
  rw [bind_of_ok hdepth]
  by_cases hsize : m.frames.size = base
  · rw [if_pos (by simpa using hsize)]
    refine (Machine.Settles.refl 0 k m).turns.mono (fun _ _ _ _ => id) fun above below hframes hbase _ => ?_
    rw [m.frames.size_eq, hframes, List.length_append] at hsize
    exact List.length_eq_zero_iff.1 (by omega)
  · rw [if_neg (by simpa using hsize)]
    have hresume : Turns base k (· ≠ []) (onFrame _ >>= fun _ => pure Flow.moved) leftBy c :=
      (settles_onFrame (Frame.keepsMonitor_resume result)).turns_top.bind
        (fun _ m => (Machine.Settles.refl 0 k m).turns) fun _ _ _ => trivial
    refine (hresume m).mono fun _ _ h => h.mono (fun above below hframes hbase _ habove => hsize ?_) fun _ _ _ _ => id
    rw [m.frames.size_eq, hframes, habove, List.nil_append, hbase]

theorem steps_returnFrom (base : Nat) (result : Option Value) : Steps base k (returnFrom base result) c := by
  intro m
  unfold returnFrom
  rw [bind_of_ok (getMachine c m)]
  cases htop : m.frames.top? with
  | none => exact (Machine.Settles.refl 0 k m).turns.mono (fun _ _ _ _ _ => trivial) fun _ _ _ _ h => h
  | some f =>
    have hpop : (modifyThe Machine fun m => { m with frames := m.frames.pop } : VM Unit) c m =
        .ok () { m with frames := m.frames.pop } := rfl
    dsimp only
    rw [bind_of_ok hpop]
    -- once the monitor of the call has been left, the frame is gone with it
    have hleft {m₂ : Machine} (h : Machine.Passes 0 k [f.monitor] [] { m with frames := m.frames.pop } m₂) :
        m.Turns base k (· ≠ []) (fun _ => True) m₂ :=
      (Machine.Passes.turns_pop (P := fun _ => True) htop h).mono (fun _ _ _ _ h => ⟨h, trivial⟩) fun _ _ _ _ => id
    have hfinish {m₂ : Machine} (h : m.Turns base k (· ≠ []) (fun _ => True) m₂) :=
      (turns_goOn (k := k) (c := c) base result m₂).mono fun _ _ => h.trans
    cases hmonitor : f.monitor with
    | none =>
      refine hfinish (hleft ?_)
      rw [hmonitor]
      exact Machine.Passes.of_releases rfl rfl rfl (fun _ => rfl) (.refl _ _) fun r => by simp
    | some r =>
      rw [hmonitor] at hleft
      exact (ends_leaveCallMonitor r).bind (fun _ m₂ h₂ => hfinish (hleft h₂)) fun _ m₂ h₂ => hleft h₂

/-! ### Instructions that are due -/

/-- Every instruction that does more than calculate. -/
theorem steps_execute (hc : c.Settling) (base : Nat) (op : Operation) : Steps base k (execute base op) c := by
  have hpush {index : UInt16} {wide : Bool} :
      Steps base k (constantValue index wide >>= fun v => push v >>= fun _ => pure Flow.next) c :=
    (settles_constantValue index wide).thenSteps fun v => steps_andNext (settles_push v)
  have hobject {x : Ref → VM Unit} (hx : ∀ r, Settles 1 k (x r) c) :
      Steps base k (onFrame Frame.popObject >>= fun r => x r >>= fun _ => pure Flow.next) c :=
    (settles_popped Frame.safe_popObject).thenSteps fun r => steps_andNext (hx r)
  cases op with
  | ldc index => exact hpush
  | ldc2 index => exact hpush
  | arrayLoad access => exact steps_andNext (settles_loadElement access)
  | arrayStore access => exact steps_andNext (settles_assignElement access)
  | leave kind =>
    exact (settles_popped (Calculation.safe_popResult kind)).thenSteps fun result => steps_returnFrom base result
  | pooled use index => exact steps_usePooled hc index use
  | invokeInterface index count => exact steps_invokeInterface hc index
  | invokeDynamic index => exact steps_andNext (settles_fail _)
  | newArray element => exact steps_andNext (settles_newPrimitiveArray element)
  | newMultiArray index dimensions => exact steps_andNext (settles_newMultiArray index dimensions)
  | arrayLength => exact steps_andNext settles_arrayLength
  | throw_ => exact hobject fun _ => settles_throw _
  | monitorEnter => exact hobject settles_lock
  | monitorExit => exact hobject settles_exitMonitor
  -- a step carries out calculations itself
  | _ => exact steps_next

/-- What is left of the frames above the others after a step. -/
def leftByStep : Except Abrupt (Option (Option Value)) → List Frame → Prop
  | .ok (some _), above => above = []
  | .ok none, above => above ≠ []
  | .error _, _ => True

theorem turns_step (hc : c.Settling) (base : Nat) : Turns base k (· ≠ []) (step base) leftByStep c := by
  have hadvance {x : OnFrame Target} (hx : x.Safe (fun _ => True) fun _ => True) :
      Turns base k (· ≠ []) (onFrame (Frame.advance x) >>= fun _ => pure none) leftByStep c :=
    (settles_onFrame (Frame.keepsMonitor_advance hx.keepsMonitor)).turns_top.bind
      (fun _ m => (Machine.Settles.refl 1 k m).turns_top) fun _ _ _ => trivial
  refine settles_tick.turns.bind (fun _ => ?_) fun _ _ _ => trivial
  refine (settles_popped safe_fetch).turns_top.bind (fun op => ?_) fun _ _ _ => trivial
  split
  · next x hx => exact hadvance (safe_calculate hx)
  · refine (steps_execute hc base op).bind (fun flow => ?_) fun _ _ _ => trivial
    cases flow with
    | next => exact hadvance (OnFrame.safe_pure trivial)
    | moved => exact fun m => (Machine.Settles.refl 0 k m).turns
    | done result => exact fun m => (Machine.Settles.refl 0 k m).turns

/-! ### Exceptions -/

/-- The frames above the others have a property after a computation that does not fail. -/
def succeeding (P : List Frame → Prop) : Except Abrupt Unit → List Frame → Prop
  | .ok (), above => P above
  | .error _, _ => False

/-- The current frame is left with its monitor. -/
theorem turns_leaveFrame : Turns base k (fun above => above ≠ [] ∧ P above.tail) leaveFrame (succeeding P) c := by
  intro m
  unfold leaveFrame
  rw [bind_of_ok (getMachine c m)]
  cases htop : m.frames.top? with
  | none =>
    refine (Machine.Settles.refl 0 k m).turns.mono (fun above below hframes _ h => ?_) fun _ _ _ _ => id
    rw [Stack.top?, List.head?_eq_none_iff, hframes, List.append_eq_nil_iff] at htop
    exact absurd htop.1 h.1
  | some f =>
    have hpop : (modifyThe Machine fun m => { m with frames := m.frames.pop } : VM Unit) c m =
        .ok () { m with frames := m.frames.pop } := rfl
    have hleft {m' : Machine} (h : Machine.Passes 0 k [f.monitor] [] { m with frames := m.frames.pop } m') :
        Ends (fun o m' => m.Turns base k (fun above => above ≠ [] ∧ P above.tail) (succeeding P o) m') (.ok () m') :=
      h.turns_pop htop
    dsimp only
    rw [bind_of_ok hpop]
    cases hmonitor : f.monitor with
    | none =>
      rw [hmonitor] at hleft
      exact hleft (Machine.Passes.of_releases rfl rfl rfl (fun _ => rfl) (.refl _ _) fun r => by simp)
    | some r =>
      rw [hmonitor] at hleft
      exact (ends_leaveCallMonitor r).attempt_bind fun _ _ h => hleft h

/-- One frame is left for each entry of a list. -/
theorem turns_leaveFrames {α : Type} (entries : List α) : Turns base k (fun above => above.length = entries.length)
    (forIn entries PUnit.unit fun _ _ => do
      leaveFrame
      return ForInStep.yield PUnit.unit) (fun _ => (· = [])) c := by
  induction entries with
  | nil => exact (settles_pure _).turns.mono (fun _ h => List.length_eq_zero_iff.1 h) fun _ _ => id
  | cons entry entries ih =>
    rw [List.forIn_cons]
    have hleave : Turns base k (fun above => above.length = (entry :: entries).length) leaveFrame
        (succeeding (·.length = entries.length)) c := by
      refine turns_leaveFrame.mono (fun above h => ?_) fun _ _ => id
      rw [List.length_cons] at h
      exact ⟨List.ne_nil_of_length_eq_add_one h, by rw [List.length_tail, h]; rfl⟩
    simp only [bind_assoc, pure_bind]
    exact hleave.bind (fun _ => ih) fun _ _ => False.elim

/-- All frames above the others are left. -/
theorem turns_unwindTo (base : Nat) : Turns base k (fun _ => True) (unwindTo base) (fun _ => (· = [])) c := by
  intro m
  have hdepth : depth c m = .ok m.frames.size m := rfl
  unfold unwindTo
  rw [bind_of_ok hdepth]
  have hleave : Turns base k (fun above => above.length = (List.range (m.frames.size - base)).length)
      (forIn (List.range (m.frames.size - base)) PUnit.unit (fun _ _ => do
        leaveFrame
        return ForInStep.yield PUnit.unit) >>= fun _ => pure ()) (fun _ => (· = [])) c :=
    (turns_leaveFrames _).bind (fun _ => (settles_pure ()).turns) fun _ _ => id
  refine (hleave m).mono fun _ _ h => h.mono (fun above below hframes hbase _ => ?_) fun _ _ _ _ => id
  rw [List.length_range, m.frames.size_eq, hframes, List.length_append]
  omega

/-- A failure that is noted as the refusal of an exception. -/
theorem Settles.notingFailure {n : Note} (hn : Refused [n]) {j : Nat} {x : VM α} (hx : Settles j k x c) {m : Machine}
    (hok : ∀ a m', m.Settles j k m' → m.Turns base k P (Q (.ok a)) m') :
    Ends (fun o m' => m.Turns base k P (Q o) m') (VM.notingFailure n x c m) := by
  have hxm := hx m
  unfold VM.notingFailure
  rcases h : x c m with ⟨a, m'⟩ | ⟨e, m'⟩ <;> rw [h] at hxm
  · exact hok a m' hxm
  · exact ends_error fun he => Machine.Turns.of_refused (hxm.of_error he) hn

theorem settles_findHandler (exception : Ref) : Settles 0 k (findHandler exception) c := by
  have hcatches (cls thrown : ClassId) (h : Handler) : Settles 0 k (catches cls thrown h) c := by
    unfold catches
    split
    · exact settles_pure _
    · refine (settles_link _).attempt.bind fun o => ?_
      split
      · exact settles_table.bind fun _ => settles_pure _
      · exact settles_pure _
  have hfirst (cls thrown : ClassId) (pc : Nat) (rows : List Handler) :
      Settles 0 k (firstHandler cls thrown pc rows) c := by
    induction rows with
    | nil => exact settles_pure _
    | cons h rest ih =>
      rw [firstHandler]
      exact settles_ite ((hcatches cls thrown h).bind fun _ => settles_ite (settles_pure _) ih) ih
  exact settles_currentFrame.bind fun f => (settles_readObject _ exception).bind fun cls => hfirst _ _ _ _

/-- The frames above the others, `count` below the topmost one at most, when a handler has been looked for. -/
def leftBySearch (count : Nat) : Except Abrupt (Option Nat) → List Frame → Prop
  | .ok _, above => above ≠ [] ∧ above.length ≤ count + 1
  | .error _, above => above = []

theorem turns_dispatch (exception : Ref) (base count : Nat) :
    Turns base k (fun above => above.length ≤ count) (dispatch exception base count) leftToRun c := by
  induction count with
  | zero =>
    intro m
    exact (Machine.Settles.refl 0 k m).turns.mono (fun _ _ _ _ h => List.length_eq_zero_iff.1 (Nat.le_zero.1 h))
      fun _ _ _ _ => id
  | succ count ih =>
    intro m
    have hdepth : depth c m = .ok m.frames.size m := rfl
    rw [dispatch, bind_of_ok hdepth]
    split
    · next hsize =>
      refine (Machine.Settles.refl 0 k m).turns.mono (fun above below hframes hbase _ => ?_) fun _ _ _ _ => id
      rw [m.frames.size_eq, hframes, List.length_append] at hsize
      exact List.length_eq_zero_iff.1 (by omega)
    · next hsize =>
      have habove {above below : List Frame} (hframes : m.frames.list = above ++ below)
          (hbase : below.length = base) : above ≠ [] := by
        rintro rfl
        rw [m.frames.size_eq, hframes, List.nil_append] at hsize
        omega
      have hfind : Ends (fun o m₁ => m.Turns base k (fun above => above.length ≤ count + 1) (leftBySearch count o) m₁)
          (notingFailure (.unreadable exception) (findHandler exception) c m) := by
        refine (settles_findHandler (k := k) exception).notingFailure ⟨exception, .inl (List.mem_singleton.2 rfl)⟩
          fun _ m₁ h₁ => ?_
        exact h₁.turns.mono (fun above below hframes hbase h => ⟨habove hframes hbase, h⟩) fun _ _ _ _ => id
      refine hfind.bind (fun target m₁ h₁ => ?_) fun _ _ => id
      · cases target with
        | some handler =>
          have hbegin : Ends (fun o m' => m₁.Turns base k (· ≠ []) (leftToRun o) m')
              (notingFailure (.unhandled exception) (onFrame (Frame.beginHandler exception handler)) c m₁) :=
            (settles_onFrame (Frame.keepsMonitor_beginHandler exception handler)).notingFailure
              ⟨exception, .inr (List.mem_singleton.2 rfl)⟩ fun _ _ h => h.turns_top
          exact hbegin.mono fun _ _ h => h₁.trans (h.mono (fun _ _ _ _ h => h.1) fun _ _ _ _ => id)
        | none =>
          have hleave : Turns base k (fun above => above ≠ [] ∧ above.length ≤ count + 1) leaveFrame
              (succeeding (·.length ≤ count)) c :=
            turns_leaveFrame.mono (fun above h => ⟨h.1, by rw [List.length_tail]; omega⟩) fun _ _ => id
          have hrest := hleave.bind (fun _ => ih) fun _ _ => False.elim
          exact (hrest m₁).mono fun _ _ h => h₁.trans h

/-- Either a frame above the others goes on in a handler, or all of them are left. -/
theorem turns_handle (hc : c.Settling) (e : Abrupt) (base : Nat) :
    Turns base k (fun _ => True) (handle e base) leftToRun c := by
  intro m
  refine (settles_materialize (n := 0) (k := k) hc e m).attempt_bind fun o m₁ h₁ => ?_
  cases o with
  | ok exception =>
    have hdepth : depth c m₁ = .ok m₁.frames.size m₁ := rfl
    dsimp only
    rw [bind_of_ok hdepth]
    refine (turns_dispatch (k := k) exception base m₁.frames.size m₁).mono fun _ _ h => h₁.turns.trans ?_
    refine h.mono (fun above below hframes _ _ => ?_) fun _ _ _ _ => id
    rw [m₁.frames.size_eq, hframes, List.length_append]
    omega
  | error fatal =>
    refine (turns_unwindTo (k := k) base m₁).bind (fun _ m₂ h₂ => ends_error fun _ => ?_) fun _ _ h₂ => ?_
    · exact h₁.turns.trans h₂
    · exact h₁.turns.trans h₂

end VM

/-! ### Tasks -/

/-- Whether calls leave no frame behind, and runs leave all frames that they are about. -/
structure Context.Leaving (c : Context) : Prop where
  settling : c.Settling
  run : ∀ base k, VM.Turns base k (· ≠ []) (fun c m => c.run base m) (fun _ => (· = [])) c

namespace VM

variable {α : Type} {base : Nat} {k : Prop} {P : List Frame → Prop} {c : Context} {env : Environment} {budget : Nat}

/-- A run after a computation that leaves a frame to run, unless it fails. -/
theorem Turns.thenRun {x : VM Unit} (hc : c.Leaving) (hx : Turns base k P x leftToRun c) :
    Turns base k P (fun c s => match x c s with
      | .ok () s => c.run base s
      | .error e s => .error e s) (fun _ => (· = [])) c := by
  intro m
  have hxm := hx m
  rcases h : x c m with ⟨_, m₁⟩ | ⟨e, m₁⟩ <;> simp only [h] <;> rw [h] at hxm
  · exact (hc.run base k m₁).mono fun _ _ hrun => Machine.Turns.trans hxm hrun
  · exact ends_error fun he => hxm.of_error he

variable (hc : (Context.ofTasks env (perform env budget)).Leaving)

include hc

/-- Every frame that the machine puts on top for a call is gone at the end of it. -/
theorem settles_performCall (n : Nat) (k : Prop) (method : Method) (args : List Value) :
    Settles n k (call method args) (.ofTasks env (perform env (budget + 1))) := by
  intro m
  -- the outer context first, since the one inside stays as it is
  simp only [call, Context.ofTasks]
  simp only [perform]
  split_ifs
  · exact settles_callNative hc.settling method args m
  · have hpush : Turns m.frames.size True (· = []) (pushFrame method args) leftToRun
        (.ofTasks env (perform env budget)) := turns_pushFirst method args
    have hrun := hpush.thenRun hc
    exact (hrun m).mono fun _ _ h => Machine.Settles.mono (Machine.Turns.settles h) fun _ => trivial

theorem turns_performFrames (base : Nat) (k : Prop) : Turns base k (· ≠ []) (fun c m => c.run base m)
    (fun _ => (· = [])) (.ofTasks env (perform env (budget + 1))) := by
  intro m
  simp only [Context.ofTasks]
  simp only [perform]
  have hstep := turns_step (k := k) hc.settling base m
  rcases h : step base (.ofTasks env (perform env budget)) m with ⟨_ | result, m'⟩ | ⟨e, m'⟩ <;> rw [h] at hstep
  · exact (hc.run base k m').mono fun _ _ hrun => Machine.Turns.trans hstep hrun
  · exact hstep
  · have hhandle := Turns.thenRun hc (turns_handle (k := k) hc.settling e base)
    cases e with
    | stuck => trivial
    | thrown | raised | fault => exact (hhandle m').mono fun _ _ h => Machine.Turns.trans hstep h

end VM

/-- **Tasks leave every frame that they are about.** The induction is on the budget. -/
theorem Context.leaving_ofTasks (env : Environment) (budget : Nat) :
    (Context.ofTasks env (perform env budget)).Leaving := by
  induction budget with
  | zero => exact ⟨fun _ _ _ _ _ => trivial, fun _ _ _ => trivial⟩
  | succ budget ih => exact ⟨VM.settles_performCall ih, VM.turns_performFrames ih⟩

end Jvm.Execution
