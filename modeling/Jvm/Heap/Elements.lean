import Jvm.Arithmetic
import Jvm.Element
import Jvm.Value

/-! # Array elements

The elements of an array are values of one kind. A store keeps what fits the kind, with ints cut down to
its width, and refuses values of other kinds; a copy goes through a copy of the source, so the ranges may
overlap. -/

namespace Jvm

namespace ElementAccess

/-- What is kept of a value that is stored as an element; none if it is of another kind. -/
def keep? : ElementAccess → Value → Option Value
  | byte, .int v => some (.int (Arithmetic.i2b v))
  | char, .int v => some (.int (Arithmetic.i2c v))
  | short, .int v => some (.int (Arithmetic.i2s v))
  | int, .int v => some (.int v)
  | long, .long v => some (.long v)
  | float, .float bits => some (.float bits)
  | double, .double bits => some (.double bits)
  | reference, .null => some .null
  | reference, .ref r => some (.ref r)
  | _, _ => none

/-- The value of an element before any store. -/
def zero : ElementAccess → Value
  | byte | char | short | int => .int 0
  | long => .long 0
  | float => .float 0
  | double => .double 0
  | reference => .null

/-- The first value of an element is one that can be stored. -/
theorem keep?_zero (a : ElementAccess) : a.keep? a.zero = some a.zero := by
  cases a <;> rfl

end ElementAccess

/-- The elements of an array. -/
structure Elements where
  kind : ElementKind
  values : Array Value
deriving DecidableEq, Inhabited, Repr

namespace Elements

/-- `length` elements before any store. -/
def zeros (kind : ElementKind) (length : Nat) : Elements :=
  ⟨kind, Array.replicate length kind.access.zero⟩

/-- The number of elements. -/
def size (e : Elements) : Nat := e.values.size

/-- How the elements are accessed. -/
def access (e : Elements) : ElementAccess := e.kind.access

/-- An element. -/
def load? (e : Elements) (i : Nat) : Option Value := e.values[i]?

/-- What is kept of a value that is stored at an index; none if the index is out of range or the value of
another kind. -/
def kept? (e : Elements) (i : Nat) (v : Value) : Option Value :=
  if i < e.size then e.access.keep? v else none

/-- The elements with another value at an index. -/
def put (e : Elements) (i : Nat) (v : Value) : Elements :=
  { e with values := e.values.setIfInBounds i v }

/-- The elements after a store; none if the index is out of range or the value of another kind. -/
def store? (e : Elements) (i : Nat) (v : Value) : Option Elements := (e.kept? i v).map (e.put i)

/-- The `n` elements from an index on. -/
def slice? (e : Elements) (start n : Nat) : Option Elements :=
  if start + n ≤ e.size then some { e with values := e.values.extract start (start + n) } else none

/-- Overwrites elements one after the other. -/
def overwrite (values : Array Value) (start : Nat) : List Value → Array Value
  | [] => values
  | v :: rest => overwrite (values.setIfInBounds start v) (start + 1) rest

/-- The elements with those of `source` put over the ones from an index on; none if they do not fit or
are accessed in another way. -/
def writeSlice? (e : Elements) (start : Nat) (source : Elements) : Option Elements :=
  if e.access = source.access ∧ start + source.size ≤ e.size then
    some { e with values := overwrite e.values start source.values.toList }
  else none

/-- An array of as many elements as there are values, with those stored that fit. -/
def ofValues (kind : ElementKind) (values : List Value) : Elements :=
  values.zipIdx.foldl (fun e (v, i) => (e.store? i v).getD e) (zeros kind values.length)

/-- The code units of an array of chars. -/
def chars? (e : Elements) : Option (List UInt16) :=
  if e.access = .char then
    some (e.values.toList.map fun
      | .int v => v.toUInt32.toUInt16
      | _ => 0)
  else none

/-- An array of chars that holds the given code units. -/
def ofChars (units : List UInt16) : Elements :=
  ⟨.primitive .char, (units.map fun u => Value.int u.toUInt32.toInt32).toArray⟩

@[simp] theorem size_zeros (kind : ElementKind) (n : Nat) : (zeros kind n).size = n := by
  simp [zeros, size]

@[simp] theorem overwrite_size (values : Array Value) (start : Nat) (source : List Value) :
    (overwrite values start source).size = values.size := by
  induction source generalizing values start with
  | nil => rfl
  | cons v rest ih => simp [overwrite, ih]

@[simp] theorem size_put (e : Elements) (i : Nat) (v : Value) : (e.put i v).size = e.size := by
  simp [put, size]

end Elements

end Jvm
