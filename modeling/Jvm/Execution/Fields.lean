import Jvm.Execution.Calls

/-! # Field instructions

A field reference has to name a field of the kind the instruction works on. Ints are cut down to the
width of the field they are assigned to; other values have to be of the field's type. -/

namespace Jvm.Execution

open Linking ClassFile

/-- What is kept of a value that is assigned to a field of a type; none if it is of another type. -/
def keptIn : FieldType → Value → Option Value
  | .boolean, .int v => some (.int (v &&& 1))
  | .byte, .int v => some (.int (Arithmetic.i2b v))
  | .char, .int v => some (.int (Arithmetic.i2c v))
  | .short, .int v => some (.int (Arithmetic.i2s v))
  | .int, .int v => some (.int v)
  | .long, .long v => some (.long v)
  | .float, .float bits => some (.float bits)
  | .double, .double bits => some (.double bits)
  | .object _, v | .array _, v => if v.isReference then some v else none
  | _, _ => none

namespace VM

/-- Resolves the field at a pool index of the current class, which has to be static or not. -/
def fieldAt (index : UInt16) (isStatic : Bool) : VM ClassTable.ResolvedField := do
  let current ← currentClass
  let f ← link (resolveField · current index)
  if f.isStatic != isStatic then
    let m ← ofExcept ((← getClass current).pool.member index)
    incompatible ("Expected " ++ (if isStatic then "static" else "non-static") ++ " field "
      ++ m.owner ++ "." ++ m.name)
  return f

/-- Pops a value for a field of a type; `instruction` names the instruction in complaints. -/
def popKept (instruction : String) (type : FieldType) : OnFrame Value := do
  let v ← Frame.pop
  match keptIn type v with
  | some kept => return kept
  | none => Frame.refuse (instruction ++ " of " ++ v.typeName ++ " into " ++ type.text)

/-- The complaint about a static field that a class does not have. -/
def noStaticSlot (f : ClassTable.ResolvedField) : VM Fault := do
  return .internal ("no static slot " ++ toString f.slot ++ " in " ++ (← table).nameOf f.owner)

/-- Pushes a static field. -/
def getStatic (index : UInt16) : VM Unit := do
  let f ← fieldAt index true
  ensureInitialized f.owner
  match (← getThe Registry).getStatic? f.owner f.slot with
  | some v => push v
  | none => fail (← noStaticSlot f)

/-- Pops into a static field. -/
def putStatic (index : UInt16) : VM Unit := do
  let f ← fieldAt index true
  ensureInitialized f.owner
  let v ← onFrame (popKept "putstatic" f.type)
  match (← getThe Registry).setStatic? f.owner f.slot v with
  | some r => set r
  | none => fail (← noStaticSlot f)

/-- Pushes a field of an object. -/
def getInstanceField (index : UInt16) : VM Unit := do
  let f ← fieldAt index false
  let object ← onFrame Frame.popObject
  push (← getField object f.slot)

/-- Pops into a field of an object. -/
def putInstanceField (index : UInt16) : VM Unit := do
  let f ← fieldAt index false
  let v ← onFrame (popKept "putfield" f.type)
  let object ← onFrame Frame.popObject
  setField object f.slot v

end VM

end Jvm.Execution
