import Mathlib
import Jvm.Proofs.Execution.Accounts

/-! # Computations that leave no call behind

What is done between instructions leaves the frames as they are, or calls methods, and what those enter they
leave (`Context.Settling`): strings and throwables are made, classes are initialized, and native methods run.
A native method may hold objects until it returns; its caller lets go of them. -/

namespace Jvm.Execution

open Linking

/-- Whether calls from within leave no call behind. -/
def Context.Settling (c : Context) : Prop :=
  ∀ (n : Nat) (k : Prop) method args, VM.Settles n k (VM.call method args) c

namespace VM

variable {α : Type} {n : Nat} {k : Prop} {c : Context}

theorem settles_receiver (method : Method) (args : List Value) : Settles n k (receiver method args) c := by
  unfold receiver
  split
  · exact settles_pure _
  · exact settles_throw _
  · exact settles_fail _

/-! ### Strings and class objects -/

theorem settles_coreField (className name descriptor : String) :
    Settles n k (coreField className name descriptor) c := by
  refine (settles_link _).bind fun id => settles_table.bind fun t => ?_
  split
  · exact settles_pure _
  · exact settles_table.bind fun _ => settles_fail _

theorem settles_dottedName (id : ClassId) : Settles n k (dottedName id) c :=
  settles_table.bind fun _ => settles_pure _

theorem settles_readChars (r : Ref) : Settles n k (readChars r) c := by
  refine settles_table.bind fun _ => (settles_readObject _ r).bind fun _ => ?_
  refine settles_ite (settles_throw_bind _) ((settles_readObject _ r).bind fun v => ?_)
  split
  · refine (settles_readObject _ _).bind fun e => ?_
    split
    · exact settles_pure _
    · exact settles_fail _
  · exact settles_pure _

theorem settles_readString (r : Ref) : Settles n k (readString r) c :=
  (settles_readChars r).bind fun _ => settles_pure _

theorem settles_newStringOfUnits (units : List UInt16) : Settles n k (newStringOfUnits units) c := by
  refine (settles_link _).bind fun charArray => (settles_link _).bind fun cls => ?_
  refine (settles_allocate _).bind fun chars => ?_
  refine ((settles_newInstance (k := k) cls).pinning [chars]).bind fun string => ?_
  exact (settles_setField string charsSlot _).bind fun _ => settles_pure _

theorem settles_newString (text : String) : Settles n k (newString text) c := settles_newStringOfUnits _

theorem settles_intern (text : String) : Settles n k (intern text) c := by
  refine settles_getRegistry.bind fun r => ?_
  split
  · exact settles_pure _
  · exact (settles_newString text).bind fun _ => (settles_modifyRegistry _).bind fun _ => settles_pure _

theorem settles_handOut (units : List UInt16) (r : Ref) : Settles n k (handOut units r) c :=
  fun _ => Machine.Settles.of_releases rfl rfl rfl (fun _ => rfl) (.refl _ _)

theorem settles_stringConstant (id : ClassId) (index : UInt16) : Settles n k (stringConstant id index) c := by
  refine settles_getRegistry.bind fun r => ?_
  split
  · exact settles_pure _
  · refine (settles_link _).bind fun cl => (settles_ofExcept _).bind fun constant => ?_
    split
    · refine (settles_ofExcept _).bind fun text => (settles_intern text).bind fun string => ?_
      exact (settles_modifyRegistry _).bind fun _ => settles_handOut _ string
    · exact settles_fail _

theorem settles_classObjectOf (id : ClassId) : Settles n k (classObjectOf id) c := by
  refine settles_getRegistry.bind fun r => ?_
  split
  · exact settles_pure _
  · refine (settles_link _).bind fun classClass => (settles_coreField _ _ _).bind fun slot => ?_
    refine (settles_dottedName id).bind fun text => (settles_intern text).bind fun name => ?_
    refine (settles_newInstance classClass).bind fun object => ?_
    exact (settles_setField object slot _).bind fun _ => (settles_modifyRegistry _).bind fun _ => settles_pure _

theorem settles_storeStrings (array : Ref) (texts : List String) (start : Nat) :
    Settles n k (storeStrings array start texts) c := by
  induction texts generalizing start with
  | nil => exact settles_pure _
  | cons text rest ih =>
    exact (settles_newString text).bind fun string => (settles_storeElement array start _).bind fun _ =>
      ih (start + 1)

theorem settles_stringArrayClass : Settles n k stringArrayClass c :=
  (settles_link _).bind fun _ => settles_link _

theorem settles_newStringArray (texts : List String) : Settles n k (newStringArray texts) c := by
  refine settles_stringArrayClass.bind fun cls => (settles_allocate _).bind fun array => ?_
  exact ((settles_storeStrings (k := k) array texts 0).pinning [array]).bind fun _ => settles_pure _

/-! ### Throwables -/

theorem settles_message? (r : Ref) : Settles n k (message? r) c := by
  refine Settles.bind (Settles.result? ?_) fun _ => settles_pure _
  refine (settles_coreField _ _ _).bind fun slot => (settles_readObject _ r).bind fun v => ?_
  split
  · exact (settles_readString _).bind fun _ => settles_pure _
  · exact settles_pure _

theorem settles_describe (r : Ref) : Settles n k (describe r) c := by
  refine (settles_readObject _ r).result?.bind fun o => ?_
  split
  · exact settles_pure _
  · exact (settles_dottedName _).bind fun _ => (settles_message? r).bind fun _ => settles_pure _

theorem settles_stringsIn (array : Ref) : Settles n k (stringsIn array) c := by
  refine (settles_readObject _ array).result?.bind fun o => ?_
  refine (settles_mapM (fun v => ?_) _).bind fun _ => settles_pure _
  split
  · exact (settles_readString _).result?
  · exact settles_pure _

theorem settles_storedTrace (r : Ref) : Settles n k (storedTrace r) c := by
  have hread : Settles n k (do getField r (← traceSlot)) c :=
    (settles_coreField _ _ _).bind fun slot => settles_readObject _ r
  refine hread.result?.bind fun o => ?_
  split
  · exact settles_stringsIn _
  · exact settles_pure _

theorem settles_traceLines (constructing : Option Ref) : Settles n k (traceLines constructing) c :=
  settles_get.bind fun _ => settles_mapM (fun _ => (settles_link _).bind fun _ => settles_pure _) _

theorem settles_fillInStackTrace (r : Ref) (skip : Bool) : Settles n k (fillInStackTrace r skip) c := by
  refine (settles_traceLines _).bind fun lines => settles_stringArrayClass.bind fun cls => ?_
  refine (settles_coreField _ _ _).bind fun slot => Settles.pinning (j := False) [r] ?_
  refine (settles_allocate _).bind fun trace => (settles_pin trace).bind fun _ => ?_
  exact (settles_storeStrings trace lines 0).bind fun _ => settles_setField r slot _

theorem settles_uncaught (r : Ref) : Settles n k (uncaught r) c := by
  refine (settles_readObject _ r).attempt.bind fun o => ?_
  split
  · exact settles_pure _
  · exact settles_pure _
  · refine settles_table.bind fun _ => (settles_message? r).bind fun _ => settles_get.bind fun _ => ?_
    exact (settles_storedTrace r).bind fun _ => settles_pure _

/-! ### Initialization -/

theorem settles_installConstants (id : ClassId) : Settles n k (installConstants id) c := by
  refine (settles_link _).bind fun cl => (settles_forIn (fun f s => ?_) _ _).bind fun _ => settles_pure _
  refine settles_ite ?_ (settles_pure _)
  split
  · refine settles_ite ?_ (settles_pure _)
    exact (settles_stringConstant id _).bind fun string => (settles_modifyRegistry _).bind fun _ => settles_pure _
  · exact settles_pure _

theorem Settles.outcome {x : VM Unit} (className : String) (hx : Settles n k x c) :
    Settles n k (outcome className x) c := by
  refine hx.attempt.bind fun o => ?_
  split
  · exact settles_pure _
  · exact settles_pure _
  · exact (settles_describe _).bind fun _ => settles_pure _
  · exact settles_pure _
  · exact settles_throw _

theorem settles_setInitState (id : ClassId) (state : InitState) : Settles n k (setInitState id state) c :=
  settles_modifyRegistry _

section

variable (hc : c.Settling)

include hc

/-- Superclasses first: the induction is on the class. -/
theorem settles_initializeClass (id : ClassId) : Settles n k (initializeClass initializer id) c := by
  induction id using Nat.strongRecOn with
  | ind id ih =>
    rw [initializeClass]
    refine settles_getRegistry.bind fun r => ?_
    split
    · exact settles_pure _
    · exact settles_pure _
    · exact settles_pure _
    · refine (settles_setInitState id _).bind fun _ => ?_
      -- what follows the initializer, the constants and the superclass
      extract_lets finish afterConstants afterAbove
      have hfinish : ∀ outcome, Settles n k (finish outcome) c := by
        intro outcome
        dsimp only [finish]
        split
        · exact (settles_setInitState id _).bind fun _ => settles_pure _
        · exact (settles_setInitState id _).bind fun _ => settles_pure _
      have hconstants : ∀ constants, Settles n k (afterConstants constants) c := by
        intro constants
        dsimp only [afterConstants]
        split
        · next clinit _ =>
          refine Settles.bind (settles_table.bind fun _ => Settles.outcome _ ?_) hfinish
          exact (hc n k clinit []).bind fun _ => settles_pure _
        · exact settles_pure_bind (hfinish _)
      have habove : ∀ above, Settles n k (afterAbove above) c := by
        intro above
        dsimp only [afterAbove]
        split
        · exact Settles.bind (settles_table.bind fun _ => (settles_installConstants id).outcome _) hconstants
        · exact settles_pure_bind (hconstants _)
      split
      · next s hs => exact (ih s (initializedBefore?_lt hs)).bind fun above => habove above
      · exact settles_pure_bind (habove (.ok ()))

theorem settles_ensureInitialized (id : ClassId) : Settles n k (ensureInitialized id) c :=
  (settles_initializeClass hc id).bind fun o => settles_ofExcept o

/-! ### Throwing -/

theorem settles_newThrowable (className : String) (message : Option String) :
    Settles n k (newThrowable className message) c := by
  refine (settles_link _).bind fun id => (settles_ensureInitialized hc id).bind fun _ => ?_
  refine (settles_newInstance id).bind fun exception => ?_
  refine Settles.bind (Settles.pinning (j := k) [exception] ?_) fun _ => settles_pure _
  split
  · refine (settles_coreField _ _ _).bind fun slot => (settles_newString _).bind fun string => ?_
    exact (settles_setField exception slot _).bind fun _ => settles_fillInStackTrace exception false
  · exact settles_fillInStackTrace exception false

theorem settles_throwNew (className : String) (message : Option String) :
    Settles n k (throwNew className message : VM α) c :=
  (settles_newThrowable hc className message).bind fun _ => settles_throw _

theorem settles_materialize (e : Abrupt) : Settles n k (materialize e) c := by
  unfold materialize
  split
  · exact settles_pure _
  · exact settles_newThrowable hc _ _
  · split
    · exact settles_newThrowable hc _ _
    · exact settles_throw _
  · exact settles_throw _

end

end VM

/-! ## Native methods -/

section

variable {α : Type} {n : Nat} {k : Prop} {c : Context} {args : List Value}

open VM

theorem settles_nativeReceiver (args : List Value) : Settles n k (nativeReceiver args) c := by
  unfold nativeReceiver
  split
  · exact settles_pure _
  · exact settles_throw _

namespace VM

theorem settles_allocateHeld (request : Heap.Request ClassId) : Settles n False (allocateHeld request) c :=
  (settles_allocate request).bind fun r => (settles_pin r).bind fun _ => settles_pure _

theorem settles_newStringOfUnitsHeld (units : List UInt16) : Settles n False (newStringOfUnitsHeld units) c :=
  (settles_newStringOfUnits units).bind fun r => (settles_pin r).bind fun _ => settles_pure _

theorem settles_newStringHeld (text : String) : Settles n False (newStringHeld text) c :=
  settles_newStringOfUnitsHeld _

theorem settles_internString (r : Ref) : Settles n k (internString r) c := by
  refine (settles_readChars r).bind fun units => settles_getRegistry.bind fun _ => ?_
  split
  · exact settles_handOut units _
  · exact (settles_modifyRegistry _).bind fun _ => settles_handOut units r

theorem settles_isString (r : Ref) : Settles n k (isString r) c :=
  settles_table.bind fun _ => (settles_readObject _ r).bind fun _ => settles_pure _

theorem settles_implementation (cls : ClassId) (name descriptor : String) :
    Settles n k (implementation cls name descriptor) c := by
  refine (settles_link _).bind fun cl => ?_
  split
  · exact settles_fail _
  · exact settles_ite (settles_throw_bind _) (settles_pure _)

theorem settles_write (toError : Bool) (text : String) : Settles n k (write toError text) c := by
  intro m
  cases toError <;> exact Machine.Settles.of_releases rfl rfl rfl (fun _ => rfl) (.refl _ _)

theorem settles_callVirtual (hc : c.Settling) (r : Ref) (name descriptor : String) (args : List Value) :
    Settles n k (callVirtual r name descriptor args) c :=
  (settles_readObject _ r).bind fun cls => (settles_implementation cls name descriptor).bind fun method =>
    hc n k method _

theorem settles_displayText (hc : c.Settling) (v : Value) : Settles n k (displayText v) c := by
  unfold displayText
  split
  · exact settles_pure _
  · next object =>
    refine (settles_isString object).bind fun _ => settles_ite (settles_readString object) ?_
    refine (settles_callVirtual hc object _ _ _).bind fun result => ?_
    split
    · exact settles_readString _
    · exact settles_pure _
  · exact settles_fail _

end VM

namespace ObjectNatives

theorem settles_hashCode (args : List Value) : Settles n k (hashCode args) c :=
  (settles_nativeReceiver args).bind fun this => (settles_readObject _ this).bind fun _ => settles_pure _

theorem settles_identityHashCode (args : List Value) : Settles n k (identityHashCode args) c := by
  unfold identityHashCode
  split
  · exact (settles_readObject _ _).bind fun _ => settles_pure _
  · exact settles_pure _

theorem settles_getClass (args : List Value) : Settles n k (getClass args) c :=
  (settles_nativeReceiver args).bind fun this => (settles_readObject _ this).bind fun cls =>
    (settles_classObjectOf cls).bind fun _ => settles_pure _

theorem settles_objectToString (hc : c.Settling) (args : List Value) :
    Settles n False (objectToString args) c := by
  refine (settles_nativeReceiver args).bind fun this => (settles_readObject _ this).bind fun cls => ?_
  refine (settles_dottedName cls).bind fun name => (settles_callVirtual hc this _ _ _).bind fun result => ?_
  have htext (hash : Int32) : Settles n False
      (do return resultRef (← newStringHeld (name ++ "@" ++ Text.Hex.digits hash.toUInt32.toNat))) c :=
    (settles_newStringHeld _).bind fun _ => settles_pure _
  split
  · exact settles_pure_bind (htext _)
  · exact (settles_readObject _ this).bind fun hash => htext hash

theorem settles_clone (hc : c.Settling) (args : List Value) : Settles n False (clone args) c := by
  refine (settles_nativeReceiver args).bind fun this => (settles_readObject _ this).bind fun id => ?_
  refine (settles_link _).bind fun cl => ?_
  extract_lets copy
  have hcopy : Settles n False (copy ()) c :=
    (settles_readObject _ this).bind fun o => (settles_allocateHeld _).bind fun _ => settles_pure _
  refine settles_ite ((settles_link _).bind fun cloneable => settles_table.bind fun _ => ?_) hcopy
  exact settles_ite ((settles_throwNew hc _ _).bind fun _ => hcopy) hcopy

end ObjectNatives

namespace StringNatives

theorem settles_intern (args : List Value) : Settles n k (intern args) c :=
  (settles_nativeReceiver args).bind fun this => (settles_internString this).bind fun _ => settles_pure _

theorem settles_hashCode (args : List Value) : Settles n k (hashCode args) c :=
  (settles_nativeReceiver args).bind fun this => (settles_readChars this).bind fun _ => settles_pure _

theorem settles_sameText (this : Ref) (v : Value) : Settles n k (sameText this v) c := by
  unfold sameText
  split
  · next other =>
    refine settles_ite (settles_pure _) ((settles_isString other).bind fun _ => settles_ite ?_ (settles_pure _))
    exact (settles_readChars this).bind fun _ => (settles_readChars other).bind fun _ => settles_pure _
  · exact settles_pure _

theorem settles_equals (args : List Value) : Settles n k (equals args) c :=
  (settles_nativeReceiver args).bind fun this => (settles_sameText this _).bind fun _ => settles_pure _

theorem settles_concat (args : List Value) : Settles n False (concat args) c := by
  refine (settles_nativeReceiver args).bind fun this => ?_
  split
  · next other _ =>
    refine (settles_readChars other).bind fun tail => settles_ite (settles_pure _) ?_
    refine (settles_readChars this).bind fun units => ?_
    exact (settles_newStringOfUnitsHeld _).bind fun _ => settles_pure _
  · exact settles_throw _

theorem settles_valueOf (hc : c.Settling) (args : List Value) : Settles n False (valueOf args) c := by
  unfold valueOf
  extract_lets create
  have hcreate : ∀ text, Settles n False (create text) c := fun text =>
    (settles_newStringHeld text).bind fun _ => settles_pure _
  split
  · exact settles_pure_bind (hcreate _)
  · exact settles_pure_bind (hcreate _)
  · exact (settles_displayText hc _).bind fun text => hcreate text
  · exact settles_throw_bind _

end StringNatives

namespace Printing

theorem settles_printed (hc : c.Settling) (descriptor : String) (v : Value) :
    Settles n k (printed descriptor v) c := by
  unfold printed
  split
  all_goals first
    | exact settles_pure _
    | exact settles_fail _
    | exact settles_displayText hc _

theorem settles_print (hc : c.Settling) (descriptor : String) (newline : Bool) (args : List Value) :
    Settles n k (print descriptor newline args) c := by
  refine (settles_nativeReceiver args).bind fun this => (settles_coreField _ _ _).bind fun slot => ?_
  refine (settles_readObject _ this).bind fun file => ?_
  extract_lets output
  have houtput : ∀ text, Settles n k (output text) c := fun text =>
    (settles_write _ _).bind fun _ => settles_pure _
  split
  · exact (settles_printed hc descriptor _).bind fun text => houtput text
  · exact settles_pure_bind (houtput _)

theorem settles_printStackTrace (hc : c.Settling) (args : List Value) : Settles n k (printStackTrace args) c :=
  (settles_nativeReceiver args).bind fun this => (settles_displayText hc _).bind fun _ =>
    (settles_storedTrace this).bind fun _ => (settles_write _ _).bind fun _ => settles_pure _

theorem settles_fillInStackTrace (args : List Value) : Settles n k (fillInStackTrace args) c :=
  (settles_nativeReceiver args).bind fun this => (VM.settles_fillInStackTrace this true).bind fun _ =>
    settles_pure _

theorem settles_throwableToString (args : List Value) : Settles n False (throwableToString args) c :=
  (settles_nativeReceiver args).bind fun this => (settles_describe this).bind fun text =>
    (settles_newStringHeld text).bind fun _ => settles_pure _

end Printing

namespace ArrayCopy

theorem settles_copyChecked (source target : Ref) (element : ClassId) (names : String × String) (i j count : Nat) :
    Settles n k (copyChecked source target element names i j count) c := by
  induction count generalizing i j with
  | zero => exact settles_pure _
  | succ count ih =>
    rw [copyChecked]
    refine (settles_readObject _ source).bind fun e => ?_
    split
    · exact settles_throw _
    · next v _ =>
      extract_lets rest
      have hrest : Settles n k (rest ()) c := (settles_storeElement target j v).bind fun _ => ih (i + 1) (j + 1)
      split
      · refine settles_table.bind fun _ => (settles_readObject _ _).bind fun _ => ?_
        exact settles_ite (settles_throw_bind _) hrest
      · exact hrest

theorem settles_copyWhole (source target : Ref) (names : String × String) (i j count : Nat) :
    Settles n k (copyWhole source target names i j count) c := by
  refine (settles_readHeap _).bind fun o => ?_
  split
  · exact settles_modifyHeap fun thread h => Heap.releases_modifyContents thread h target _
  · exact settles_fail _

theorem settles_copy (source target : Ref) (i j count : Int) : Settles n k (copy source target i j count) c := by
  refine (settles_readObject _ source).bind fun sourceId => (settles_readObject _ target).bind fun targetId => ?_
  refine (settles_link _).bind fun _ => (settles_link _).bind fun _ => settles_table.bind fun t => ?_
  split
  · exact settles_throw _
  · refine (settles_readObject _ source).bind fun _ => (settles_readObject _ target).bind fun _ => ?_
    extract_lets targetLength go
    have hgo : Settles n k (go ()) c := by
      dsimp only [go]
      split
      · exact settles_copyWhole _ _ _ _ _ _
      · exact settles_copyChecked _ _ _ _ _ _ _
    split
    · exact settles_throw_bind _
    · exact hgo

theorem settles_arraycopy (args : List Value) : Settles n k (arraycopy args) c := by
  unfold arraycopy
  split
  · split
    · exact (settles_copy _ _ _ _ _).bind fun _ => settles_pure _
    · exact settles_throw _
  · exact settles_fail _

end ArrayCopy

theorem HostAction.settles_newText (text : String) : Settles n False (newText text) c :=
  (settles_newStringHeld text).bind fun _ => settles_pure _

theorem HostAction.settles_newStrings (last : Option Value) (i count : Nat) :
    Settles n False (newStrings last i count) c := by
  induction count generalizing last i with
  | zero => exact settles_pure _
  | succ count ih => exact (settles_newStringHeld _).bind fun _ => ih _ (i + 1)

theorem settles_hostAction (hc : c.Settling) (args : List Value) (action : HostAction) :
    Settles n False (action.run args) c := by
  have hreceiver := settles_nativeReceiver (n := n) (k := False) (c := c) args
  cases action with
  | nothing | value | argument | sum => exact settles_pure _
  | raise => exact settles_throw _
  | exception => exact settles_throwNew hc _ _
  | fault => exact settles_fail _
  | throwArgument => exact hreceiver.bind fun _ => settles_throw _
  | string text => exact HostAction.settles_newText text
  | chars units => exact (settles_newStringOfUnitsHeld units).bind fun _ => settles_pure _
  | strings count => exact HostAction.settles_newStrings none 0 count
  | read => exact hreceiver.bind fun this => (settles_readString this).bind fun _ => HostAction.settles_newText _
  | intern => exact StringNatives.settles_intern args
  | threadName => exact settles_get.bind fun _ => HostAction.settles_newText _
  | describe => exact hreceiver.bind fun this => (settles_describe this).bind fun _ => HostAction.settles_newText _
  | trace => exact hreceiver.bind fun this => (settles_storedTrace this).bind fun _ => HostAction.settles_newText _
  | className =>
    exact hreceiver.bind fun this => (settles_readObject _ this).bind fun cls => (settles_dottedName cls).bind fun _ =>
      HostAction.settles_newText _
  | classObject => exact ObjectNatives.settles_getClass args
  | hash => exact ObjectNatives.settles_hashCode args
  | call name descriptor => exact hreceiver.bind fun this => settles_callVirtual hc this _ _ _
  | fill => exact hreceiver.bind fun this => (settles_fillInStackTrace this true).bind fun _ => settles_pure _
  | gc => exact settles_collect.bind fun _ => settles_pure _
  | usedBytes | objectCount => exact settles_get.bind fun _ => settles_pure _
  | write toError text => exact (settles_write toError text).bind fun _ => settles_pure _

theorem settles_coreNative (hc : c.Settling) (args : List Value) (method : CoreNative) :
    Settles n False (method.run args) c := by
  cases method with
  | hashCode => exact ObjectNatives.settles_hashCode args
  | getClass => exact ObjectNatives.settles_getClass args
  | objectToString => exact ObjectNatives.settles_objectToString hc args
  | clone => exact ObjectNatives.settles_clone hc args
  | intern => exact StringNatives.settles_intern args
  | stringEquals => exact StringNatives.settles_equals args
  | stringHashCode => exact StringNatives.settles_hashCode args
  | concat => exact StringNatives.settles_concat args
  | valueOf => exact StringNatives.settles_valueOf hc args
  | arraycopy => exact ArrayCopy.settles_arraycopy args
  | identityHashCode => exact ObjectNatives.settles_identityHashCode args
  | gc => exact settles_hostAction hc args .gc
  | nanoTime | currentTimeMillis => exact settles_read.bind fun _ => settles_pure _
  | print descriptor newline => exact Printing.settles_print hc descriptor newline args
  | fillInStackTrace => exact Printing.settles_fillInStackTrace args
  | throwableToString => exact Printing.settles_throwableToString args
  | printStackTrace => exact Printing.settles_printStackTrace hc args

/-- **Native methods leave no call behind**, whatever a host has bound. -/
theorem settles_native (hc : c.Settling) (args : List Value) (native : Native) :
    Settles n False (native.run args) c := by
  cases native with
  | core method => exact settles_coreNative hc args method
  | host action => exact settles_hostAction hc args action

end

/-! ## Monitors of calls -/

namespace VM

variable {n : Nat} {k : Prop} {c : Context} {m : Machine}

/-- A thread enters a monitor, or there is nothing to enter, or it waits. -/
theorem enterMonitor_cases (c : Context) (m : Machine) (r : Ref) :
    (∃ monitor monitor', m.heap.monitor r = .ok monitor ∧ monitor.enter? m.thread = some monitor' ∧
      enterMonitor r c m = .ok () { m with heap := m.heap.setMonitor r monitor' }) ∨
    ∃ e missing, (missing = [] ∨ missing = [.missing r]) ∧
      enterMonitor r c m = .error e { m with notes := missing ++ m.notes } := by
  unfold enterMonitor
  rw [bind_of_ok (getMachine c m)]
  cases hmonitor : m.heap.monitor r with
  | error e =>
    obtain ⟨missing, hmissing, hread⟩ := readObject_of_error (c := c) hmonitor
    exact .inr ⟨.fault e, missing, hmissing, bind_of_error hread⟩
  | ok monitor =>
    have hread : monitorOf r c m = .ok monitor m := readObject_of_ok hmonitor
    rw [bind_of_ok hread]
    cases henter : monitor.enter? m.thread with
    | none => exact .inr ⟨.stuck, [], .inl rfl, rfl⟩
    | some monitor' => exact .inl ⟨monitor, monitor', rfl, henter, rfl⟩

/-- An instruction may enter a monitor, which it notes. -/
theorem settles_lock (r : Ref) : Settles n k (lock r) c := by
  intro m
  unfold lock
  rcases enterMonitor_cases c m r with ⟨monitor, monitor', hmonitor, henter, h⟩ | ⟨e, missing, hmissing, h⟩
  · rw [bind_of_ok h]
    exact ⟨[.locked r], rfl, .inr ⟨Machine.accounts_locked hmonitor henter rfl rfl, rfl, rfl, fun _ => rfl⟩⟩
  · rw [bind_of_error h]
    exact ends_error fun _ => m.settles_missing r hmissing

/-- The monitor that a call has entered, if it has entered one, when it is about to go on. -/
def enteredBy : Except Abrupt (Option Ref) → List (Option Ref)
  | .ok monitor => [monitor]
  | .error _ => []

theorem ends_enterCallMonitor (method : Method) (args : List Value) :
    Ends (fun o m' => m.Passes n k [] (enteredBy o) m') (enterCallMonitor method args c m) := by
  unfold enterCallMonitor
  split
  · exact Machine.Passes.of_releases rfl rfl rfl (fun _ => rfl) (.refl _ _) fun r => by simp [enteredBy]
  · extract_lets enter
    have henter (object : Ref) (m : Machine) :
        Ends (fun o m' => m.Passes n k [] (enteredBy o) m') (enter object c m) := by
      dsimp only [enter]
      rcases enterMonitor_cases c m object with
        ⟨monitor, monitor', hmonitor, henter, h⟩ | ⟨e, missing, hmissing, h⟩
      · rw [bind_of_ok h]
        exact ⟨[.entered object], rfl,
          .inr ⟨Machine.accounts_entered hmonitor henter rfl rfl, rfl, rfl, fun _ => rfl⟩⟩
      · rw [bind_of_error h]
        exact ends_error fun _ => m.settles_missing object hmissing
    have hthen {x : VM Ref} (hx : Settles n k x c) :
        Ends (fun o m' => m.Passes n k [] (enteredBy o) m') ((x >>= enter) c m) :=
      (hx m).bind (fun object m₁ h₁ => (henter object m₁).mono fun _ _ => h₁.trans) fun _ _ => id
    split
    · exact hthen ((settles_classObjectOf (k := k) _).pinning _)
    · exact hthen (settles_receiver method args)

/-- A call leaves the monitor that it holds, or finds that the thread does not hold it any more. -/
theorem ends_leaveCallMonitor (r : Ref) :
    Ends (fun _ m' => m.Passes n k [some r] [] m') (leaveCallMonitor r c m) := by
  have hleave : leaveCallMonitor r c m = exitMonitor r c { m with notes := .left r :: m.notes } := rfl
  have hleft : m.Passes n k [some r] []
      { m with heap := leaveOnce m.thread m.heap r, notes := .left r :: m.notes } :=
    ⟨[.left r], rfl, .inr ⟨Machine.accounts_left r rfl rfl, rfl, rfl, fun _ => rfl⟩⟩
  rw [hleave]
  rcases exitMonitor_cases c { m with notes := .left r :: m.notes } r with h | ⟨e, missing, -, hmissing, h⟩
  · rw [h]
    exact hleft
  · rw [h]
    exact ends_error fun _ => hleft.trans (Machine.settles_missing _ r hmissing)

theorem settles_runNative (hc : c.Settling) (native : Native) (method : Method) (args : List Value) :
    Settles n False (runNative native method args) c := by
  intro m
  refine (ends_enterCallMonitor method args).bind (fun monitor m₁ h₁ => ?_) fun _ _ => id
  refine Ends.attempt_bind (settles_native (n := n) hc args native m₁) fun result m₂ h₂ => ?_
  have hcalled := Machine.Passes.trans h₁ (h₂.beside [monitor])
  have hfinish (released : Except Abrupt Unit) {m₃ : Machine} (h : m.Settles n False m₃) :
      Ends (fun _ m' => m.Settles n False m') ((do
        let value ← MonadExcept.ofExcept result
        MonadExcept.ofExcept released
        return value : VM (Option Value)) c m₃) :=
    (((settles_except result).bind fun _ => (settles_except released).bind fun _ => settles_pure _) m₃).mono
      fun _ _ => h.trans
  cases monitor with
  | none =>
    refine hfinish (.ok ()) (hcalled.trans ?_)
    exact Machine.Passes.of_releases rfl rfl rfl (fun _ => rfl) (.refl _ _) fun r => by simp
  | some r =>
    exact (ends_leaveCallMonitor r).attempt_bind fun released m₃ h₃ => hfinish released (hcalled.trans h₃)

theorem settles_callNative (hc : c.Settling) (method : Method) (args : List Value) :
    Settles n k (callNative method args) c := by
  refine settles_read.bind fun _ => ?_
  split
  · exact settles_fail _
  · refine ((settles_runNative hc _ method args).pinning _).bind fun result => ?_
    exact (settles_ite (settles_fail _) (settles_pure _)).bind fun _ => settles_pure _

end VM

end Jvm.Execution
