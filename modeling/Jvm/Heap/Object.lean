import Jvm.Heap.Elements
import Jvm.Heap.Monitor

/-! # Objects

An object is a header and either the fields of an instance or the elements of an array. Its size in bytes
is an accounting rule: sixteen for the header, eight for each field, and for an array eight more and its
elements' widths. -/

namespace Jvm

/-- The contents of an object. -/
inductive Contents where
  | fields (values : Array Value)
  | array (elements : Elements)
deriving DecidableEq, Inhabited, Repr

/-- The bytes that an object's header counts for. -/
def headerBytes : Nat := 16

/-- The bytes that a field, or the length of an array, counts for. -/
def wordBytes : Nat := 8

/-- The bytes that an instance counts for. -/
def instanceBytes (fields : Nat) : Nat := headerBytes + fields * wordBytes

/-- The bytes that an array counts for. -/
def arrayBytes (kind : ElementKind) (length : Nat) : Nat :=
  length * kind.bytes + (headerBytes + wordBytes)

namespace Contents

/-- The bytes that an object with these contents counts for. -/
def bytes : Contents → Nat
  | fields values => instanceBytes values.size
  | array elements => arrayBytes elements.kind elements.size

/-- The objects that the contents refer to, in order. -/
def references : Contents → List Ref
  | fields values => values.toList.filterMap Value.object?
  | array elements =>
    if elements.kind = .reference then elements.values.toList.filterMap Value.object? else []

/-- The elements of an array. -/
def elements? : Contents → Option Elements
  | array elements => some elements
  | fields _ => none

/-- The fields of an instance. -/
def fields? : Contents → Option (Array Value)
  | fields values => some values
  | array _ => none

/-- The contents with another value in a field. -/
def putField (slot : Nat) (v : Value) : Contents → Contents
  | fields values => fields (values.setIfInBounds slot v)
  | array elements => array elements

/-- The contents with another value in an element. -/
def putElement (i : Nat) (v : Value) : Contents → Contents
  | fields values => fields values
  | array elements => array (elements.put i v)

/-- The contents with one more field. -/
def pushField (v : Value) : Contents → Contents
  | fields values => fields (values.push v)
  | array elements => array elements

end Contents

/-- An object; `κ` stands for classes. -/
structure Object (κ : Type) where
  cls : κ
  contents : Contents
  monitor : Monitor
  marked : Bool
  age : Nat
  hash : Int32
  size : Nat
  block : Nat
deriving DecidableEq, Inhabited, Repr

/-- The greatest age that is told apart. -/
def maxAge : Nat := 255

/-- An object that a collection has found. -/
def Object.mark {κ : Type} (o : Object κ) : Object κ := { o with marked := true }

/-- An object after a collection it survived. -/
def Object.aged {κ : Type} (o : Object κ) : Object κ :=
  { o with marked := false, age := min (o.age + 1) maxAge }

end Jvm
