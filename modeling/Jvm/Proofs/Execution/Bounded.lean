import Mathlib
import Jvm.Proofs.Execution.Fitting
import Jvm.Proofs.Execution.Proper

/-! # Frames stay in bounds

There are no more frames than a thread may have, and each fits its code (`Bounded`). A call of a method looks
for room before its frame is pushed, and what it does in between pushes none. Every instruction keeps frames in
bounds, as does all that is done between instructions, as long as calls from within do
(`Context.Bounds`). -/

namespace Jvm.Execution

open Linking ClassFile Bytecode

/-- Whether there are at most `n` frames, and each fits its code. -/
structure Bounded (n : Nat) (s : Stack Frame) : Prop where
  depth : s.size ≤ n
  fits : ∀ f ∈ s.list, f.Fits

section

variable {n : Nat} {s : Stack Frame} {f : Frame}

theorem bounded_empty (n : Nat) : Bounded n .empty := ⟨Nat.zero_le n, by simp⟩

theorem Bounded.push (hs : Bounded n s) (hroom : s.size < n) (hf : f.Fits) : Bounded n (s.push f) where
  depth := hroom
  fits g hg := by
    rcases List.mem_cons.1 hg with rfl | hg
    exacts [hf, hs.fits g hg]

theorem Bounded.pop (hs : Bounded n s) : Bounded n s.pop where
  depth := (Nat.sub_le _ _).trans hs.depth
  fits g hg := hs.fits g (List.mem_of_mem_tail hg)

theorem Bounded.fits_top (hs : Bounded n s) (h : s.top? = some f) : f.Fits :=
  hs.fits f (List.mem_of_mem_head? h)

theorem Bounded.setTop (hs : Bounded n s) (hf : f.Fits) : Bounded n (s.setTop f) := by
  rcases s with ⟨_ | ⟨g, below⟩, size, hsize⟩
  · exact hs
  · refine ⟨hs.depth, fun k hk => ?_⟩
    rcases List.mem_cons.1 hk with rfl | hk
    exacts [hf, hs.fits k (List.mem_cons_of_mem g hk)]

end

namespace Regime

variable {d : Regime}

/-- Whether it does not matter to a regime which values the topmost frame holds, as long as the frame fits its
code. -/
structure Blind (d : Regime) : Prop where
  fits : ∀ s f, d.runs s → s.top? = some f → f.Fits
  setTop : ∀ s f f', d.runs s → s.top? = some f → f.Same f' → f'.Fits → d.runs (s.setTop f')

/-- What frames are like when a computation has had an outcome of its own: as long as it is a good one, it may go
on. -/
def reports (d : Regime) : Except Abrupt (Except Fault Unit) → Stack Frame → Prop
  | .ok (.ok ()) => d.runs
  | .ok (.error _) => d.failed
  | .error e => d.ended e

theorem blind_bounded (n : Nat) : (steady (Bounded n)).Blind :=
  ⟨fun _ _ hs h => hs.fits_top h, fun _ _ _ hs _ _ hf => hs.setTop hf⟩

end Regime

/-- Whether a computation keeps frames in the bounds of its context. -/
abbrev VM.Bounds {α : Type} (x : VM α) (c : Context) : Prop := Stays (.steady (Bounded c.env.maxFrames)) x c

/-- Whether calls keep to a regime. -/
def Context.Serves (c : Context) (d : Regime) : Prop := ∀ method args, VM.Stays d (VM.call method args) c

/-- Whether calls and runs keep frames in bounds. -/
structure Context.Bounds (c : Context) : Prop where
  call : c.Serves (.steady (Bounded c.env.maxFrames))
  run : ∀ base, VM.Bounds (fun c m => c.run base m) c

namespace VM

variable {α β : Type} {d : Regime} {n : Nat} {Q R : α → Prop} {c : Context}

/-! ### Frames -/

/-- A computation on the current frame that stays at its instruction. -/
theorem keeps_onFrame (hd : d.Blind) {x : OnFrame α} (hx : x.Fitting Q) (hsafe : x.Safe (fun _ => True) R) :
    Keeps d (onFrame x) Q c := by
  intro m hm
  unfold onFrame
  rcases hf : m.frames.top? with _ | f
  · exact hm.mono fun _ => Regime.ended_of_runs
  · have hfx := hx f (hd.fits _ f hm.frames hf)
    have hsame := hsafe f f.all_true
    dsimp only
    rcases h : x f with ⟨a, f'⟩ | ⟨e, f'⟩ <;> rw [h] at hfx hsame
    · exact ⟨⟨hd.setTop _ f f' hm.frames hf hsame.1 hfx.1, hm.heap, hm.registry⟩, hfx.2⟩
    · exact ⟨Regime.ended_of_runs (hd.setTop _ f f' hm.frames hf hsame.1 hfx), hm.heap, hm.registry⟩

/-- One that goes to another instruction may do so within bounds. -/
theorem bounds_onFrame {x : OnFrame α} (hx : x.Fitting Q) : Keeps (.steady (Bounded n)) (onFrame x) Q c := by
  intro m hm
  unfold onFrame
  rcases hf : m.frames.top? with _ | f
  · exact hm
  · have hfx := hx f (hm.frames.fits_top hf)
    dsimp only
    rcases h : x f with ⟨a, f'⟩ | ⟨e, f'⟩ <;> rw [h] at hfx
    · exact ⟨⟨hm.frames.setTop hfx.1, hm.heap, hm.registry⟩, hfx.2⟩
    · exact ⟨Regime.ended_of_runs (hm.frames.setTop hfx), hm.heap, hm.registry⟩

theorem keeps_push (hd : d.Blind) {v : Value} (hv : v.Proper) : Stays d (push v) c :=
  keeps_onFrame hd (Frame.fitting_push hv) (Frame.safe_push fun _ _ => trivial)

theorem keeps_currentFrame : Stays d currentFrame c := by
  refine keeps_get.bind fun m _ => ?_
  split
  · exact keeps_pure trivial
  · exact keeps_fail _

theorem keeps_currentClass : Stays d currentClass c :=
  keeps_currentFrame.bind fun _ _ => keeps_pure trivial

theorem keeps_depth : Stays d depth c := keeps_get.bind fun _ _ => keeps_pure trivial

theorem bounds_popFrame :
    Stays (.steady (Bounded n)) (modifyThe Machine fun m => { m with frames := m.frames.pop }) c :=
  keeps_modify fun _ hm => ⟨hm.frames.pop, hm.heap, hm.registry⟩

/-! ### Initialization -/

theorem keeps_installConstants (id : ClassId) : Stays d (installConstants id) c := by
  refine (keeps_getClass id).bind fun cl _ => Keeps.bind (keeps_forIn (fun f s => ?_) _ _) fun _ _ =>
    keeps_pure trivial
  refine keeps_ite (fun _ => ?_) fun _ => keeps_pure trivial
  split
  · next index hindex =>
    refine keeps_ite (fun _ => ?_) fun _ => keeps_pure trivial
    refine (keeps_stringConstant id index).bind fun string _ => ?_
    refine Keeps.bind (keeps_modifyRegistry fun r hr => ?_) fun _ _ => keeps_pure trivial
    cases hset : r.setStatic? id f.slot (.ref string) with
    | none => exact hr
    | some r' => exact hr.setStatic? (by nofun) hset
  · exact keeps_pure trivial

theorem Keeps.thenTakes {x : VM α} {g : α → VM β} {T : Except Abrupt β → Stack Frame → Prop} (hx : Keeps d x Q c)
    (hg : ∀ a, Q a → Takes d.runs (g a) T c) (herror : ∀ e s, d.ended e s → T (.error e) s) :
    Takes d.runs (x >>= g) T c := by
  intro m hm
  rcases h : x c m with ⟨a, m'⟩ | ⟨e, m'⟩
  · obtain ⟨hm', ha⟩ := hx.of_eq_ok hm h
    rw [bind_of_ok h]
    exact hg a ha m' hm'
  · rw [bind_of_error h]
    exact (hx.of_eq_error hm h).mono (herror e)

/-- What a step of initialization reports. -/
theorem Keeps.outcome {x : VM Unit} {Q : Unit → Prop} (className : String) (hx : Keeps d x Q c) :
    Takes d.runs (outcome className x) d.reports c := by
  have htakes : Takes d.runs x (fun o => d.reports (o.map .ok)) c := hx.takes (fun _ _ hs _ => hs) fun _ _ => id
  refine htakes.attempt_bind (fun o ho => ?_) fun _ => id
  rcases o with e | _
  · cases e with
    | stuck => exact absurd rfl ho
    | fault e => exact takes_pure fun _ => id
    | raised check message => exact takes_pure fun _ => id
    | thrown exception =>
      have hdescribe : Stays d.afterwards (describe exception) c := keeps_describe exception
      refine hdescribe.thenTakes (fun _ _ => takes_pure fun _ => id) fun e s hs => ?_
      rwa [Regime.ended_afterwards] at hs
  · exact takes_pure fun _ => id

theorem keeps_setInitState (id : ClassId) (state : InitState) : Stays d (setInitState id state) c :=
  keeps_modifyRegistry fun _ hr => hr.modifyState id fun _ hs => hs

section

variable (hc : c.Serves d)

include hc

/-- Superclasses first: the induction is on the class. What has failed once is reported as a failure by all that
follows, so no call is made any more. -/
theorem takes_initializeClass (id : ClassId) : Takes d.runs (initializeClass initializer id) d.reports c := by
  induction id using Nat.strongRecOn with
  | ind id ih =>
    rw [initializeClass]
    refine keeps_getRegistry.thenTakes (fun r _ => ?_) fun _ _ h => h
    split
    · exact takes_pure fun _ h => h
    · exact takes_pure fun _ h => h
    · exact takes_pure d.fails
    · refine (keeps_setInitState id _).thenTakes (fun _ _ => ?_) fun _ _ h => h
      -- what follows the initializer, the constants and the superclass
      extract_lets finish afterConstants afterAbove
      have hfinish : ∀ outcome, Takes (d.reports (.ok outcome)) (finish outcome) d.reports c := by
        rintro (e | _)
        · have hset (state : InitState) : Stays d.afterwards (setInitState id state) c := keeps_setInitState id state
          refine (hset _).thenTakes (fun _ _ => takes_pure fun _ h => h) fun e s hs => ?_
          rwa [Regime.ended_afterwards] at hs
        · exact (keeps_setInitState id _).thenTakes (fun _ _ => takes_pure fun _ h => h) fun _ _ h => h
      have hconstants : ∀ constants, Takes (d.reports (.ok constants)) (afterConstants constants) d.reports c := by
        intro constants
        dsimp only [afterConstants]
        split
        · next clinit _ =>
          refine Takes.bind (T := d.reports) ?_ hfinish fun _ _ h => h
          refine keeps_table.thenTakes (fun _ _ => Keeps.outcome _ (Q := fun _ => True) ?_) fun _ _ h => h
          exact (hc clinit []).bind fun _ _ => keeps_pure trivial
        · exact hfinish _
      have habove : ∀ above, Takes (d.reports (.ok above)) (afterAbove above) d.reports c := by
        rintro (e | _)
        · exact hconstants (.error e)
        · refine Takes.bind (T := d.reports) ?_ hconstants fun _ _ h => h
          exact keeps_table.thenTakes (fun _ _ => (keeps_installConstants id).outcome _) fun _ _ h => h
      split
      · next s hs => exact (ih s (initializedBefore?_lt hs)).bind habove fun _ _ h => h
      · exact habove (.ok ())

theorem keeps_ensureInitialized (id : ClassId) : Stays d (ensureInitialized id) c := by
  have htakes : Takes d.runs (ensureInitialized id) (fun o => d.reports (o.map .ok)) c := by
    refine (takes_initializeClass hc id).bind (fun o => ?_) fun _ _ h => h
    rcases o with e | _
    · exact takes_throw fun _ h => h
    · exact takes_pure fun _ h => h
  exact htakes.keeps (fun _ _ hs => ⟨hs, trivial⟩) fun _ _ h => h

/-! ### Throwing and catching -/

theorem keeps_newThrowable (className : String) (message : Option String) :
    Stays d (newThrowable className message) c := by
  refine (keeps_coreClass className).bind fun id _ => (keeps_ensureInitialized hc id).bind fun _ _ => ?_
  refine (keeps_newInstance id).bind fun exception _ => ?_
  refine Stays.andThen (Keeps.pinning [exception] ?_) fun _ => keeps_pure trivial
  split
  · refine (keeps_coreField _ _ _).bind fun slot _ => (keeps_newString _).bind fun string _ => ?_
    exact (keeps_setField exception slot (by nofun)).bind fun _ _ => keeps_fillInStackTrace exception false
  · exact keeps_fillInStackTrace exception false

theorem keeps_throwNew (className : String) (message : Option String) :
    Keeps d (throwNew className message) Q c :=
  (keeps_newThrowable hc className message).bind fun _ _ => keeps_throw _

theorem keeps_materialize (e : Abrupt) : Stays d (materialize e) c := by
  unfold materialize
  split
  · exact keeps_pure trivial
  · exact keeps_newThrowable hc _ _
  · split
    · exact keeps_newThrowable hc _ _
    · exact keeps_throw _
  · exact keeps_throw _

end

theorem bounds_leaveFrame : Stays (.steady (Bounded n)) leaveFrame c := by
  refine keeps_get.bind fun m _ => ?_
  split
  · exact keeps_pure trivial
  · refine bounds_popFrame.bind fun _ _ => ?_
    split
    · exact (keeps_leaveCallMonitor _).attempt.bind fun _ _ => keeps_pure trivial
    · exact keeps_pure trivial

theorem bounds_unwindTo (base : Nat) : Stays (.steady (Bounded n)) (unwindTo base) c :=
  keeps_depth.bind fun _ _ => Keeps.bind (keeps_forIn (fun _ _ =>
    bounds_leaveFrame.bind fun _ _ => keeps_pure trivial) _ _) fun _ _ => keeps_pure trivial

theorem keeps_catches (cls thrown : ClassId) (h : Handler) : Stays d (catches cls thrown h) c := by
  unfold catches
  split
  · exact keeps_pure trivial
  · refine (keeps_resolveClass cls _).attempt.bind fun o _ => ?_
    split
    · exact keeps_table.bind fun _ _ => keeps_pure trivial
    · exact keeps_pure trivial

theorem keeps_firstHandler (cls thrown : ClassId) (pc : Nat) (rows : List Handler) :
    Keeps d (firstHandler cls thrown pc rows) (fun o => ∀ target ∈ o, ∃ row ∈ rows, row.handler = target) c := by
  induction rows with
  | nil => exact keeps_pure nofun
  | cons h rest ih =>
    have hrest : Keeps d (firstHandler cls thrown pc rest)
        (fun o => ∀ target ∈ o, ∃ row ∈ h :: rest, row.handler = target) c :=
      ih.mono fun o ho target ht => (ho target ht).imp fun _ => And.imp_left (List.mem_cons_of_mem h)
    rw [firstHandler]
    refine keeps_ite (fun _ => (keeps_catches cls thrown h).bind fun _ _ => ?_) fun _ => hrest
    refine keeps_ite (fun _ => keeps_pure ?_) fun _ => hrest
    rintro _ ⟨⟩
    exact ⟨h, List.mem_cons_self, rfl⟩

theorem keeps_findHandler (r : Ref) : Stays d (findHandler r) c :=
  keeps_currentFrame.bind fun _ _ => (keeps_classOf r).bind fun _ _ => (keeps_firstHandler _ _ _ _).stays

theorem bounds_dispatch (r : Ref) (base count : Nat) : Stays (.steady (Bounded n)) (dispatch r base count) c := by
  induction count with
  | zero => exact keeps_throw _
  | succ count ih =>
    rw [dispatch]
    refine keeps_depth.bind fun _ _ => keeps_guard (fun _ => keeps_throw _) fun _ => ?_
    refine ((keeps_findHandler r).notingFailure _).bind fun target _ => ?_
    split
    · next handler => exact (bounds_onFrame (Frame.fitting_beginHandler r handler)).notingFailure _
    · exact bounds_leaveFrame.bind fun _ _ => ih

theorem bounds_handle (hc : c.Bounds) (e : Abrupt) (base : Nat) :
    Bounds (handle e base) c := by
  refine (keeps_materialize hc.call e).attempt.bind fun o _ => ?_
  split
  · exact keeps_depth.bind fun _ _ => bounds_dispatch _ base _
  · exact (bounds_unwindTo base).bind fun _ _ => keeps_throw _

end VM

/-! ## Native methods -/

section

variable {α : Type} {d : Regime} {Q : α → Prop} {c : Context} {args : List Value}

open VM

theorem keeps_nativeReceiver (args : List Value) : Stays d (nativeReceiver args) c := by
  unfold nativeReceiver
  split
  · exact keeps_pure trivial
  · exact keeps_throw _

namespace VM

theorem keeps_allocateHeld {request : Heap.Request ClassId} (hrequest : request.contents.Proper) :
    Stays d (allocateHeld request) c :=
  (keeps_allocate hrequest).bind fun r _ => (keeps_pin r).bind fun _ _ => keeps_pure trivial

theorem keeps_newStringOfUnitsHeld (units : List UInt16) : Stays d (newStringOfUnitsHeld units) c :=
  (keeps_newStringOfUnits units).bind fun r _ => (keeps_pin r).bind fun _ _ => keeps_pure trivial

theorem keeps_newStringHeld (text : String) : Stays d (newStringHeld text) c :=
  keeps_newStringOfUnitsHeld _

theorem keeps_internString (r : Ref) : Stays d (internString r) c := by
  refine (keeps_readChars r).bind fun units _ => keeps_getRegistry.bind fun _ _ => ?_
  split
  · exact keeps_handOut units _
  · exact (keeps_modifyRegistry fun r hr => hr.intern _ _).bind fun _ _ => keeps_handOut units r

theorem keeps_isString (r : Ref) : Stays d (isString r) c :=
  keeps_table.bind fun _ _ => (keeps_classOf r).bind fun _ _ => keeps_pure trivial

theorem keeps_implementation (cls : ClassId) (name descriptor : String) :
    Stays d (implementation cls name descriptor) c := by
  refine (keeps_getClass cls).bind fun cl _ => ?_
  split
  · exact keeps_fail _
  · exact keeps_guard (fun _ => keeps_fail _) fun _ => keeps_pure trivial

theorem keeps_write (toError : Bool) (text : String) : Stays d (write toError text) c :=
  keeps_modify fun _ hm => by split <;> exact ⟨hm.frames, hm.heap, hm.registry⟩

theorem keeps_callVirtual (hc : c.Serves d) (r : Ref) (name descriptor : String) (args : List Value) :
    Stays d (callVirtual r name descriptor args) c :=
  (keeps_classOf r).bind fun cls _ => (keeps_implementation cls name descriptor).bind fun method _ =>
    hc method _

theorem keeps_displayText (hc : c.Serves d) (v : Value) : Stays d (displayText v) c := by
  unfold displayText
  split
  · exact keeps_pure trivial
  · next object =>
    refine (keeps_isString object).bind fun _ _ => keeps_ite (fun _ => keeps_readString object) fun _ => ?_
    refine (keeps_callVirtual hc object _ _ _).bind fun result _ => ?_
    split
    · exact keeps_readString _
    · exact keeps_pure trivial
  · exact keeps_fail _

end VM

namespace ObjectNatives

theorem keeps_identityHash (r : Ref) : Stays d (identityHash r) c := keeps_readObject fun _ _ _ _ => trivial

theorem keeps_hashCode (args : List Value) : Stays d (hashCode args) c :=
  (keeps_nativeReceiver args).bind fun this _ => (keeps_identityHash this).bind fun _ _ => keeps_pure trivial

theorem keeps_identityHashCode (args : List Value) : Stays d (identityHashCode args) c := by
  unfold identityHashCode
  split
  · exact (keeps_identityHash _).bind fun _ _ => keeps_pure trivial
  · exact keeps_pure trivial

theorem keeps_getClass (args : List Value) : Stays d (getClass args) c :=
  (keeps_nativeReceiver args).bind fun this _ => (keeps_classOf this).bind fun cls _ =>
    (keeps_classObjectOf cls).bind fun _ _ => keeps_pure trivial

theorem keeps_objectToString (hc : c.Serves d) (args : List Value) :
    Stays d (objectToString args) c := by
  refine (keeps_nativeReceiver args).bind fun this _ => (keeps_classOf this).bind fun cls _ => ?_
  refine (keeps_dottedName cls).bind fun name _ => (keeps_callVirtual hc this _ _ _).bind fun result _ => ?_
  have htext (hash : Int32) : Stays d
      (do return resultRef (← newStringHeld (name ++ "@" ++ Text.Hex.digits hash.toUInt32.toNat))) c :=
    (keeps_newStringHeld _).bind fun _ _ => keeps_pure trivial
  split
  · exact keeps_pure_bind (htext _)
  · exact (keeps_identityHash this).bind fun hash _ => htext hash

/-- A copy holds what the receiver holds. -/
theorem keeps_clone (hc : c.Serves d) (args : List Value) : Stays d (clone args) c := by
  refine (keeps_nativeReceiver args).bind fun this _ => (keeps_classOf this).bind fun id _ => ?_
  refine (VM.keeps_getClass id).bind fun cl _ => ?_
  extract_lets copy
  have hcopy : Stays d (copy ()) c := by
    have hread : Keeps d (readObject Heap.object this) (fun o => o.contents.Proper) c := by
      refine keeps_readObject fun h o hh ho => hh this o ?_
      unfold Heap.object at ho
      split at ho <;> cases ho
      assumption
    refine hread.bind fun o ho => Keeps.bind (keeps_allocateHeld ?_) fun _ _ => keeps_pure trivial
    exact ho
  refine keeps_ite (fun _ => ?_) fun _ => hcopy
  refine (keeps_coreClass _).bind fun cloneable _ => keeps_table.bind fun _ _ => ?_
  exact keeps_guard (fun _ => keeps_throwNew hc _ _) fun _ => hcopy

end ObjectNatives

namespace StringNatives

theorem keeps_intern (args : List Value) : Stays d (intern args) c :=
  (keeps_nativeReceiver args).bind fun this _ => (keeps_internString this).bind fun _ _ => keeps_pure trivial

theorem keeps_hashCode (args : List Value) : Stays d (hashCode args) c :=
  (keeps_nativeReceiver args).bind fun this _ => (keeps_readChars this).bind fun _ _ => keeps_pure trivial

theorem keeps_sameText (this : Ref) (v : Value) : Stays d (sameText this v) c := by
  unfold sameText
  split
  · next other =>
    refine keeps_ite (fun _ => keeps_pure trivial) fun _ => (keeps_isString other).bind fun _ _ => ?_
    refine keeps_ite (fun _ => ?_) fun _ => keeps_pure trivial
    exact (keeps_readChars this).bind fun _ _ => (keeps_readChars other).bind fun _ _ => keeps_pure trivial
  · exact keeps_pure trivial

theorem keeps_equals (args : List Value) : Stays d (equals args) c :=
  (keeps_nativeReceiver args).bind fun this _ => (keeps_sameText this _).bind fun _ _ => keeps_pure trivial

theorem keeps_concat (args : List Value) : Stays d (concat args) c := by
  refine (keeps_nativeReceiver args).bind fun this _ => ?_
  split
  · next other _ =>
    refine (keeps_readChars other).bind fun tail _ => keeps_ite (fun _ => keeps_pure trivial) fun _ => ?_
    refine (keeps_readChars this).bind fun units _ => ?_
    exact (keeps_newStringOfUnitsHeld _).bind fun _ _ => keeps_pure trivial
  · exact keeps_throw _

theorem keeps_valueOf (hc : c.Serves d) (args : List Value) :
    Stays d (valueOf args) c := by
  unfold valueOf
  extract_lets create
  have hcreate : ∀ text, Stays d (create text) c := fun text =>
    (keeps_newStringHeld text).bind fun _ _ => keeps_pure trivial
  split
  · exact keeps_pure_bind (hcreate _)
  · exact keeps_pure_bind (hcreate _)
  · exact (keeps_displayText hc _).bind fun text _ => hcreate text
  · exact keeps_throw_bind _

end StringNatives

namespace Printing

theorem keeps_printed (hc : c.Serves d) (descriptor : String) (v : Value) :
    Stays d (printed descriptor v) c := by
  unfold printed
  split
  all_goals first
    | exact keeps_pure trivial
    | exact keeps_fail _
    | exact keeps_displayText hc _

theorem keeps_print (hc : c.Serves d) (descriptor : String) (newline : Bool) (args : List Value) :
    Stays d (print descriptor newline args) c := by
  refine (keeps_nativeReceiver args).bind fun this _ => (keeps_coreField _ _ _).bind fun slot _ => ?_
  refine (keeps_getField this slot).bind fun file _ => ?_
  extract_lets output
  have houtput : ∀ text, Stays d (output text) c := fun text =>
    (keeps_write _ _).bind fun _ _ => keeps_pure trivial
  split
  · exact (keeps_printed hc descriptor _).bind fun text _ => houtput text
  · exact keeps_pure_bind (houtput _)

theorem keeps_printStackTrace (hc : c.Serves d) (args : List Value) :
    Stays d (printStackTrace args) c :=
  (keeps_nativeReceiver args).bind fun this _ => (keeps_displayText hc _).bind fun _ _ =>
    (keeps_storedTrace this).bind fun _ _ => (keeps_write _ _).bind fun _ _ => keeps_pure trivial

theorem keeps_fillInStackTrace (args : List Value) : Stays d (fillInStackTrace args) c :=
  (keeps_nativeReceiver args).bind fun this _ => (VM.keeps_fillInStackTrace this true).bind fun _ _ =>
    keeps_pure trivial

theorem keeps_throwableToString (args : List Value) : Stays d (throwableToString args) c :=
  (keeps_nativeReceiver args).bind fun this _ => (keeps_describe this).bind fun text _ =>
    (keeps_newStringHeld text).bind fun _ _ => keeps_pure trivial

end Printing

namespace ArrayCopy

theorem keeps_copyChecked (source target : Ref) (element : ClassId) (names : String × String) (i j n : Nat) :
    Stays d (copyChecked source target element names i j n) c := by
  induction n generalizing i j with
  | zero => exact keeps_pure trivial
  | succ n ih =>
    rw [copyChecked]
    refine (keeps_elements source).bind fun e _ => ?_
    split
    · exact keeps_throw _
    · next v _ =>
      extract_lets rest
      have hrest : Stays d (rest ()) c := (keeps_storeElement target j v).bind fun _ _ => ih (i + 1) (j + 1)
      split
      · refine keeps_table.bind fun _ _ => (keeps_classOf _).bind fun _ _ => ?_
        exact keeps_guard (fun _ => keeps_throw _) fun _ => hrest
      · exact hrest

theorem keeps_copyWhole (source target : Ref) (names : String × String) (i j n : Nat) :
    Stays d (copyWhole source target names i j n) c := by
  have hread : Keeps d (readHeap (·.copied source i target j n)) (fun o => ∀ e ∈ o, e.Proper) c := by
    refine keeps_readHeap fun h o hh ho e he => ?_
    cases he
    exact hh.copied ho
  refine hread.bind fun o ho => ?_
  split
  · next copied =>
    exact keeps_modifyHeap fun h hh => hh.modifyContents target fun _ _ => ho copied rfl
  · exact keeps_fail _

theorem keeps_copy (source target : Ref) (i j n : Int) : Stays d (copy source target i j n) c := by
  refine (keeps_classOf source).bind fun sourceId _ => (keeps_classOf target).bind fun targetId _ => ?_
  refine (VM.keeps_getClass sourceId).bind fun _ _ => (VM.keeps_getClass targetId).bind fun _ _ => ?_
  refine keeps_table.bind fun t _ => ?_
  split
  · exact keeps_throw _
  · refine (keeps_elements source).bind fun _ _ => (keeps_elements target).bind fun _ _ => ?_
    extract_lets targetLength go
    have hgo : Stays d (go ()) c := by
      dsimp only [go]
      split
      · exact keeps_copyWhole _ _ _ _ _ _
      · exact keeps_copyChecked _ _ _ _ _ _ _
    split
    · exact keeps_throw_bind _
    · exact hgo

theorem keeps_arraycopy (args : List Value) : Stays d (arraycopy args) c := by
  unfold arraycopy
  split
  · split
    · exact (keeps_copy _ _ _ _ _).bind fun _ _ => keeps_pure trivial
    · exact keeps_throw _
  · exact keeps_fail _

end ArrayCopy

theorem HostAction.keeps_newText (text : String) : Stays d (newText text) c :=
  (keeps_newStringHeld text).bind fun _ _ => keeps_pure trivial

theorem HostAction.keeps_newStrings (last : Option Value) (i n : Nat) : Stays d (newStrings last i n) c := by
  induction n generalizing last i with
  | zero => exact keeps_pure trivial
  | succ n ih => exact (keeps_newStringHeld _).bind fun _ _ => ih _ (i + 1)

/-- The actions of a host keep to a regime, whatever they are. -/
theorem keeps_hostAction (hc : c.Serves d) (args : List Value) (action : HostAction) :
    Stays d (action.run args) c := by
  have hreceiver := keeps_nativeReceiver (d := d) (c := c) args
  cases action with
  | nothing | value | argument | sum => exact keeps_pure trivial
  | raise => exact keeps_throw _
  | exception => exact keeps_throwNew hc _ _
  | fault => exact keeps_fail _
  | throwArgument => exact hreceiver.bind fun _ _ => keeps_throw _
  | string text => exact HostAction.keeps_newText text
  | chars units => exact (keeps_newStringOfUnitsHeld units).bind fun _ _ => keeps_pure trivial
  | strings n => exact HostAction.keeps_newStrings none 0 n
  | read => exact hreceiver.bind fun this _ => (keeps_readString this).bind fun _ _ => HostAction.keeps_newText _
  | intern => exact StringNatives.keeps_intern args
  | threadName => exact keeps_get.bind fun _ _ => HostAction.keeps_newText _
  | describe => exact hreceiver.bind fun this _ => (keeps_describe this).bind fun _ _ => HostAction.keeps_newText _
  | trace => exact hreceiver.bind fun this _ => (keeps_storedTrace this).bind fun _ _ => HostAction.keeps_newText _
  | className =>
    exact hreceiver.bind fun this _ => (keeps_classOf this).bind fun cls _ => (keeps_dottedName cls).bind fun _ _ =>
      HostAction.keeps_newText _
  | classObject => exact ObjectNatives.keeps_getClass args
  | hash => exact ObjectNatives.keeps_hashCode args
  | call name descriptor => exact hreceiver.bind fun this _ => keeps_callVirtual hc this _ _ _
  | fill => exact hreceiver.bind fun this _ => (keeps_fillInStackTrace this true).bind fun _ _ => keeps_pure trivial
  | gc => exact keeps_collect.bind fun _ _ => keeps_pure trivial
  | usedBytes | objectCount => exact keeps_get.bind fun _ _ => keeps_pure trivial
  | write toError text => exact (keeps_write toError text).bind fun _ _ => keeps_pure trivial

theorem keeps_coreNative (hc : c.Serves d) (args : List Value) (method : CoreNative) :
    Stays d (method.run args) c := by
  cases method with
  | hashCode => exact ObjectNatives.keeps_hashCode args
  | getClass => exact ObjectNatives.keeps_getClass args
  | objectToString => exact ObjectNatives.keeps_objectToString hc args
  | clone => exact ObjectNatives.keeps_clone hc args
  | intern => exact StringNatives.keeps_intern args
  | stringEquals => exact StringNatives.keeps_equals args
  | stringHashCode => exact StringNatives.keeps_hashCode args
  | concat => exact StringNatives.keeps_concat args
  | valueOf => exact StringNatives.keeps_valueOf hc args
  | arraycopy => exact ArrayCopy.keeps_arraycopy args
  | identityHashCode => exact ObjectNatives.keeps_identityHashCode args
  | gc => exact keeps_hostAction hc args .gc
  | nanoTime | currentTimeMillis => exact keeps_read.bind fun _ _ => keeps_pure trivial
  | print descriptor newline => exact Printing.keeps_print hc descriptor newline args
  | fillInStackTrace => exact Printing.keeps_fillInStackTrace args
  | throwableToString => exact Printing.keeps_throwableToString args
  | printStackTrace => exact Printing.keeps_printStackTrace hc args

theorem keeps_native (hc : c.Serves d) (args : List Value) (native : Native) :
    Stays d (native.run args) c := by
  cases native with
  | core method => exact keeps_coreNative hc args method
  | host action => exact keeps_hostAction hc args action

end

end Jvm.Execution
