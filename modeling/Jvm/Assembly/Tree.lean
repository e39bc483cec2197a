import Jvm.Fault
import Jvm.Text.Hex
import Jvm.Value

/-! # Trees

Class descriptions, values and faults are written as nested trees: words, numbers, lists and records.
A part that is missing or of another shape reads as the neutral value of what is asked for: the empty
text, zero, no items. -/

namespace Jvm.Assembly

/-- A nested tree. -/
inductive Tree where
  | blank
  | flag (b : Bool)
  | word (text : String)
  | number (n : Int)
  | list (items : List Tree)
  | record (members : List (String × Tree))
deriving Inhabited, Repr

namespace Tree

/-- The number that a text in base ten spells. -/
def readInt (s : String) : Int :=
  match s.toList with
  | '-' :: rest => -((String.ofList rest).toNat?.getD 0 : Nat)
  | _ => (s.toNat?.getD 0 : Nat)

/-- Whether a tree is nothing. -/
def isBlank : Tree → Bool
  | blank => true
  | _ => false

/-- The text of a word. -/
def text? : Tree → Option String
  | word s => some s
  | _ => none

/-- The text of a word. -/
def text (t : Tree) : String := t.text?.getD ""

/-- A number, which may be spelt as a word. -/
def int : Tree → Int
  | number n => n
  | word s => readInt s
  | _ => 0

/-- A number of times; below zero there are none. -/
def nat (t : Tree) : Nat := t.int.toNat

/-- A number in 8 bits. -/
def u1 (t : Tree) : UInt8 := UInt8.ofInt t.int

/-- A number in 16 bits. -/
def u2 (t : Tree) : UInt16 := UInt16.ofInt t.int

/-- A number in 32 bits. -/
def u4 (t : Tree) : UInt32 := UInt32.ofInt t.int

/-- A number in 64 bits. -/
def u8 (t : Tree) : UInt64 := UInt64.ofInt t.int

/-- A position, a size or the number of a thread, in 64 bits. -/
def size (t : Tree) : Nat := t.u8.toNat

/-- The reference to the heap slot of a number. -/
def ref (t : Tree) : Ref := .ofNumber t.u4

/-- A signed number in 32 bits. -/
def i4 (t : Tree) : Int32 := Int32.ofInt t.int

/-- A signed number in 64 bits. -/
def i8 (t : Tree) : Int64 := Int64.ofInt t.int

/-- The bits of a float, spelt in base sixteen. -/
def floatBits (t : Tree) : UInt32 := (Text.Hex.value t.text).toUInt32

/-- The bits of a double, spelt in base sixteen. -/
def doubleBits (t : Tree) : UInt64 := (Text.Hex.value t.text).toUInt64

/-- The trees of a list. -/
def items : Tree → List Tree
  | list ts => ts
  | _ => []

/-- A tree of a list. -/
def item (t : Tree) (i : Nat) : Tree := t.items[i]?.getD blank

/-- The first word of a list. -/
def head (t : Tree) : String := (t.item 0).text

/-- A member of a record, if there is one. -/
def part? (t : Tree) (name : String) : Option Tree :=
  match t with
  | record members => members.lookup name
  | _ => none

/-- A member of a record. -/
def part (t : Tree) (name : String) : Tree := (t.part? name).getD blank

/-- What a tree stands for, unless it is nothing. -/
def optional {α : Type} (read : Tree → α) (t : Tree) : Option α :=
  if t.isBlank then none else some (read t)

/-- The value that a tree names. -/
def value (t : Tree) : Value :=
  let x := t.item 1
  match t.head with
  | "int" => .int x.i4
  | "long" => .long x.i8
  | "float" => .float x.floatBits
  | "double" => .double x.doubleBits
  | "ref" => .ref x.ref
  | "ret" => .returnAddress x.size
  | "top" => .top
  | _ => .null

/-- The fault that a tree names. -/
def fault (t : Tree) : Fault :=
  let s := (t.item 1).text
  match t.head with
  | "ClassFormat" => .classFormat s
  | "Verify" => .verify s
  | "ClassNotFound" => .classNotFound s
  | "Linkage" => .linkage s
  | "ClassCircularity" => .classCircularity s
  | "IncompatibleClassChange" => .incompatibleClassChange s
  | "NoSuchMethod" => .noSuchMethod s
  | "NoSuchField" => .noSuchField s
  | "AbstractMethod" => .abstractMethod s
  | "UnsatisfiedLink" => .unsatisfiedLink s
  | "Initialization" => .initialization s (t.item 2).text
  | "OutOfMemory" => .outOfMemory s
  | "StackOverflow" => .stackOverflow
  | "UncaughtException" =>
    .uncaught s (t.item 2).text (t.item 3).text? ((t.item 4).items.map text)
  | _ => .internal s

end Tree

end Jvm.Assembly
