import Jvm.Execution.Calls

/-! # Objects and arrays

The instructions that create objects and arrays, read and assign array elements, and ask for the class of
an object. An array of arrays is filled with new arrays, which the outer one keeps alive. -/

namespace Jvm.Execution

open Linking ClassFile

/-- The complaint about a negative array length. -/
def negativeLength (n : Int32) : Abrupt := Abrupt.raise .negativeArraySize (toString n.toInt)

namespace VM

/-- Resolves the class at a pool index of the current class. -/
def classAt (index : UInt16) : VM ClassId := do
  let current ← currentClass
  link (resolveClass · current index)

/-! ## Creation -/

/-- Creates an instance of the class at a pool index. -/
def newObject (index : UInt16) : VM Unit := do
  let id ← classAt index
  let c ← getClass id
  if c.isAbstract || c.isArray then
    fail (.incompatibleClassChange ("cannot instantiate " ++ dotted c.name))
  ensureInitialized id
  push (.ref (← newInstance id))

/-- Creates an array of an array class. -/
def newArrayOf (id : ClassId) (length : Int32) : VM Ref := do
  let c ← getClass id
  match c.component? with
  | none => fail (.internal (c.name ++ " is not an array class"))
  | some component =>
    match Heap.Request.array id component.elementKind length with
    | .ok request => allocate request
    | .error n => throw (negativeLength n)

/-- Creates an array of primitives whose length is on the operand stack. -/
def newPrimitiveArray (element : Primitive) : VM Unit := do
  let length ← onFrame Frame.popInt
  let id ← link (primitiveArrayClass · element)
  push (.ref (← newArrayOf id length))

/-- Creates an array of objects of the class at a pool index. -/
def newReferenceArray (index : UInt16) : VM Unit := do
  let length ← onFrame Frame.popInt
  let component ← classAt index
  let id ← link (arrayClassOf · component)
  push (.ref (← newArrayOf id length))

/-- Stores what is made for each of `n` elements from an index on. -/
def storeEach (array : Ref) (make : VM Ref) (i : Nat) : Nat → VM Unit
  | 0 => return
  | n + 1 => do
    let _ ← storeElement array i (.ref (← make))
    storeEach array make (i + 1) n

/-- Creates an array of arrays with the given lengths, the outermost first. -/
def newNested (id : ClassId) : List Int32 → VM Ref
  | [] => fail (.verify "multianewarray with no dimensions")
  | [length] => newArrayOf id length
  | length :: inner :: rest => do
    let array ← newArrayOf id length
    let c ← getClass id
    match c.component? with
    | some (.reference component) =>
      pinning [array] (storeEach array (newNested component (inner :: rest)) 0 length.toInt.toNat)
      return array
    | _ =>
      fail (.verify (c.name ++ " has fewer than " ++ toString (rest.length + 2) ++ " dimensions"))

/-- The ints that are popped as lengths. -/
def lengthsOf : List Value → OnFrame (List Int32)
  | [] => return []
  | .int n :: rest => do return n :: (← lengthsOf rest)
  | v :: _ => Frame.refuse ("multianewarray dimension of " ++ v.typeName)

/-- Creates an array of arrays of the class at a pool index. -/
def newMultiArray (index : UInt16) (dimensions : UInt8) : VM Unit := do
  let id ← classAt index
  let lengths ← onFrame do lengthsOf (← Frame.popArgs dimensions.toNat)
  if let some n := lengths.find? (· < 0) then throw (negativeLength n)
  push (.ref (← newNested id lengths))

/-! ## Elements -/

/-- The elements of an array that an instruction accesses; `what` names the access in complaints. -/
def accessed (access : ElementAccess) (what : String) (array : Ref) : VM Elements := do
  let e ← elements array
  if e.access != access then
    fail (.verify (access.name ++ what ++ (← table).nameOf (← classOf array)))
  return e

/-- Fails unless an index lies within an array of a length. -/
def checkIndex (index : Int32) (length : Nat) : VM Unit := do
  if index < 0 || (length : Int) ≤ index.toInt then throw (Abrupt.indexOutOfBounds index length)

/-- Pushes an element of the array beneath the index. -/
def loadElement (access : ElementAccess) : VM Unit := do
  let index ← onFrame Frame.popInt
  let array ← onFrame Frame.popObject
  let e ← accessed access " element load from " array
  checkIndex index e.size
  match e.load? index.toInt.toNat with
  | some v => push v
  | none => throw (Abrupt.indexOutOfBounds index e.size)

/-- What a store to an array with a component type keeps of a value, which has to fit. -/
def keptElement : Option Component → Value → VM Value
  | some (.reference component), .ref r => do
    let id ← classOf r
    if !(← table).isAssignable id component then
      throw (Abrupt.raise .arrayStore (← dottedName id))
    return .ref r
  | some (.primitive .boolean), .int v => return .int (v &&& 1)
  | _, v => return v

/-- Pops into an element of the array beneath value and index. -/
def assignElement (access : ElementAccess) : VM Unit := do
  let v ← onFrame Frame.pop
  let index ← onFrame Frame.popInt
  let array ← onFrame Frame.popObject
  let id ← classOf array
  let length := (← accessed access " element store into " array).size
  checkIndex index length
  let v ← keptElement ((← table).componentOf? id) v
  if !(← storeElement array index.toInt.toNat v) then
    fail (.verify (access.name ++ " element store of " ++ v.typeName))

/-- Replaces an array by its length. -/
def arrayLength : VM Unit := do
  let array ← onFrame Frame.popObject
  push (.int (Int32.ofNat (← elements array).size))

/-! ## Classes of objects -/

/-- The class of an object and the class at a pool index, which is resolved first. -/
def castClasses (object : Ref) (index : UInt16) : VM (ClassId × ClassId) := do
  let target ← classAt index
  return (← classOf object, target)

/-- Fails unless the object on top is of the class at a pool index; null is of every class. -/
def checkCast (index : UInt16) : VM Unit := do
  match ← onFrame (Frame.peek 0) with
  | .null => return
  | .ref object =>
    let (id, target) ← castClasses object index
    if !(← table).isAssignable id target then
      throw (Abrupt.raise .classCast ("class " ++ (← dottedName id) ++ " cannot be cast to class "
        ++ (← dottedName target)))
  | v => refuse ("checkcast of " ++ v.typeName)

/-- Replaces an object by whether it is of the class at a pool index; null is of none. -/
def instanceOf (index : UInt16) : VM Unit := do
  match ← onFrame Frame.popReference with
  | none => push (.int 0)
  | some object =>
    let (id, target) ← castClasses object index
    push (.int (if (← table).isAssignable id target then 1 else 0))

end VM

end Jvm.Execution
