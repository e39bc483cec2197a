import Jvm.Execution.Natives.Basic

/-! # Copying array elements

Elements are copied in one piece between arrays of one type, and between arrays of objects when the
elements of the source always fit the target. Otherwise they are checked and copied one by one, and those
before the first that does not fit stay copied. -/

namespace Jvm.Execution

open Linking VM

namespace ArrayCopy

/-- The name of an array's elements in messages. -/
def elementName (t : ClassTable) (array : LinkedClass) : String :=
  match array.component? with
  | some (.reference c) => dotted (t.nameOf c)
  | some (.primitive p) => p.name.toLower
  | none => dotted array.name

/-- How the elements of an array go to another array. -/
inductive Route where
  | whole
  | checked (target : ClassId)
deriving DecidableEq, Inhabited, Repr

/-- How elements go from an array of one class to an array of another; a message if they never can. -/
def route (t : ClassTable) (source target : ClassId) (sourceClass targetClass : LinkedClass) :
    Except String Route :=
  match sourceClass.component?, targetClass.component? with
  | none, _ =>
    .error ("arraycopy: source type " ++ dotted sourceClass.name ++ " is not an array")
  | _, none =>
    .error ("arraycopy: destination type " ++ dotted targetClass.name ++ " is not an array")
  | some (.reference _), some (.reference element) =>
    .ok (if t.isAssignable source target then .whole else .checked element)
  | some a, some b =>
    if a = b then .ok .whole
    else .error ("arraycopy: type mismatch: can not copy " ++ elementName t sourceClass
      ++ "[] into " ++ elementName t targetClass ++ "[]")

/-- The complaint about a range that leaves an array; none if it does not. -/
def rangeFault? (side : String) (start count : Int) (length : Nat) : Option String :=
  if start < 0 ∨ length < start + count then
    some ("arraycopy: last " ++ side ++ " index " ++ toString (start + count)
      ++ " out of bounds for length " ++ toString length)
  else none

/-- The complaint about the ranges of a copy; none if there is nothing wrong with them. -/
def rangesFault? (sourceAt targetAt count : Int) (sourceLength targetLength : Nat) :
    Option String :=
  if count < 0 then some ("arraycopy: length " ++ toString count ++ " is negative")
  else (rangeFault? "source" sourceAt count sourceLength).or
    (rangeFault? "destination" targetAt count targetLength)

/-- Fails because an element does not fit its array. -/
def refuseStore {α : Type} (message : String) : VM α :=
  throw (Abrupt.raise .arrayStore message)

/-- Copies elements one by one, each checked for a class; `names` are the words for the element types in
the complaint. -/
def copyChecked (source target : Ref) (element : ClassId) (names : String × String)
    (sourceAt targetAt : Nat) : Nat → VM Unit
  | 0 => return
  | n + 1 => do
    let values ← elements source
    match values.load? sourceAt with
    | none => throw (Abrupt.indexOutOfBounds (Int32.ofNat sourceAt) values.size)
    | some v =>
      if let .ref r := v then
        if !(← table).isAssignable (← classOf r) element then
          refuseStore ("arraycopy: element type mismatch: can not cast one of the elements of "
            ++ names.1 ++ "[] to the type of the destination array, " ++ names.2)
      let _ ← storeElement target targetAt v
      copyChecked source target element names (sourceAt + 1) (targetAt + 1) n

/-- Copies elements in one piece. -/
def copyWhole (source target : Ref) (names : String × String) (sourceAt targetAt n : Nat) :
    VM Unit := do
  match ← readHeap (·.copied source sourceAt target targetAt n) with
  | some copied => modifyHeap (·.setElements target copied)
  | none => fail (.internal ("arraycopy between " ++ names.1 ++ " and " ++ names.2 ++ " failed"))

/-- Copies `count` elements between two arrays. -/
def copy (source target : Ref) (sourceAt targetAt count : Int) : VM Unit := do
  let sourceId ← classOf source
  let targetId ← classOf target
  let sourceClass ← getClass sourceId
  let targetClass ← getClass targetId
  let t ← table
  match route t sourceId targetId sourceClass targetClass with
  | .error message => refuseStore message
  | .ok way =>
    let sourceLength := (← elements source).size
    let targetLength := (← elements target).size
    if let some message := rangesFault? sourceAt targetAt count sourceLength targetLength then
      throw (Abrupt.raise .arrayIndexOutOfBounds message)
    match way with
    | .whole =>
      copyWhole source target (sourceClass.name, targetClass.name) sourceAt.toNat targetAt.toNat
        count.toNat
    | .checked element =>
      copyChecked source target element (elementName t sourceClass, dotted (t.nameOf element))
        sourceAt.toNat targetAt.toNat count.toNat

/-- Copies elements between the arrays among the arguments. -/
def arraycopy : List Value → VM (Option Value)
  | [source, .int sourceAt, target, .int targetAt, .int count] => do
    match source.object?, target.object? with
    | some source, some target =>
      copy source target sourceAt.toInt targetAt.toInt count.toInt
      return none
    | _, _ => throw Abrupt.nullPointer
  | args => fail (badArguments "System.arraycopy" args)

end ArrayCopy

end Jvm.Execution
