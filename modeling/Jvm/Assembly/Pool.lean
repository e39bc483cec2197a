import Jvm.ClassFile.Constant
import Jvm.ClassFile.Cursor
import Jvm.Text.ModifiedUtf8

/-! # Building constant pools

A pool under construction hands out an index for every constant asked for, the same index for the same
constant. Entries can also be added as they are, without a look at those already there. -/

namespace Jvm.Assembly

open ClassFile

/-- A constant pool under construction. -/
structure Pool where
  entries : Array Constant
  known : List (Constant × UInt16)
  overflow : Bool
deriving Inhabited, Repr

namespace Pool

/-- The pool without entries. -/
def empty : Pool := ⟨#[], [], false⟩

/-- The greatest index an entry may have. -/
def maxIndex : Nat := 65534

/-- Adds an entry as it is. A long or double takes the next index too. -/
def add (p : Pool) (c : Constant) : UInt16 × Pool :=
  let index := p.entries.size + 1
  let entries := p.entries.push c
  let entries := if c.isWide then entries.push .unusable else entries
  (index.toUInt16, { p with entries, overflow := p.overflow || maxIndex < index })

/-- The index of a constant, which is added unless it was asked for before. -/
def intern (p : Pool) (c : Constant) : UInt16 × Pool :=
  match p.known.lookup c with
  | some i => (i, p)
  | none =>
    let (i, p) := p.add c
    (i, { p with known := (c, i) :: p.known })

end Pool

/-- A constant to ask for, by content. -/
inductive Entry where
  | utf8 (text : String)
  | integer (v : Int32)
  | float (bits : UInt32)
  | long (v : Int64)
  | double (bits : UInt64)
  | classRef (name : String)
  | string (text : String)
  | nameAndType (name descriptor : String)
  | fieldRef (owner name descriptor : String)
  | methodRef (owner name descriptor : String)
  | interfaceMethodRef (owner name descriptor : String)
  | raw (c : Constant)
deriving DecidableEq, Inhabited, Repr

namespace Pool

/-- A computation on a pool. -/
abbrev Build := StateM Pool

/-- The index of a constant. -/
def index (c : Constant) : Build UInt16 := fun p => p.intern c

/-- The index of a text. -/
def utf8 (s : String) : Build UInt16 := index (.utf8 s)

/-- The index of a class. -/
def classRef (name : String) : Build UInt16 := do index (.classRef (← utf8 name))

/-- The index of a string literal. -/
def string (s : String) : Build UInt16 := do index (.string (← utf8 s))

/-- The index of a name and descriptor. -/
def nameAndType (name descriptor : String) : Build UInt16 := do
  let n ← utf8 name
  let d ← utf8 descriptor
  index (.nameAndType n d)

/-- The index of a member reference of the kind that `make` makes. -/
def member (make : UInt16 → UInt16 → Constant) (owner name descriptor : String) :
    Build UInt16 := do
  let c ← classRef owner
  let nt ← nameAndType name descriptor
  index (make c nt)

/-- The index of an entry, which is added with all it refers to where it is missing. -/
def entry : Entry → Build UInt16
  | .utf8 s => utf8 s
  | .integer v => index (.integer v)
  | .float bits => index (.float bits)
  | .long v => index (.long v)
  | .double bits => index (.double bits)
  | .classRef name => classRef name
  | .string s => string s
  | .nameAndType name descriptor => nameAndType name descriptor
  | .fieldRef owner name descriptor => member .fieldRef owner name descriptor
  | .methodRef owner name descriptor => member .methodRef owner name descriptor
  | .interfaceMethodRef owner name descriptor => member .interfaceMethodRef owner name descriptor
  | .raw c => fun p => p.add c

end Pool

/-- The two bytes of a 16-bit number. -/
def bytes2 (n : UInt16) : List UInt8 := [(n >>> 8).toUInt8, n.toUInt8]

/-- The four bytes of a 32-bit number. -/
def bytes4 (n : UInt32) : List UInt8 :=
  [(n >>> 24).toUInt8, (n >>> 16).toUInt8, (n >>> 8).toUInt8, n.toUInt8]

/-- The eight bytes of a 64-bit number. -/
def bytes8 (n : UInt64) : List UInt8 := bytes4 (n >>> 32).toUInt32 ++ bytes4 n.toUInt32

/-- The bytes of an entry in a class file. -/
def constantBytes (c : Constant) : List UInt8 :=
  match c with
  | .unusable => []
  | .utf8 s =>
    let bytes := Text.ModifiedUtf8.encode s
    c.tag :: (bytes2 bytes.length.toUInt16 ++ bytes)
  | .integer v => c.tag :: bytes4 v.toUInt32
  | .float bits => c.tag :: bytes4 bits
  | .long v => c.tag :: bytes8 v.toUInt64
  | .double bits => c.tag :: bytes8 bits
  | .classRef i | .string i | .methodType i => c.tag :: bytes2 i
  | .fieldRef a b | .methodRef a b | .interfaceMethodRef a b | .nameAndType a b
  | .invokeDynamic a b => c.tag :: (bytes2 a ++ bytes2 b)
  | .methodHandle kind target => c.tag :: kind :: bytes2 target

/-- The bytes of a pool in a class file: the count of indices and the entries. -/
def Pool.bytes (p : Pool) : List UInt8 :=
  bytes2 (p.entries.size + 1).toUInt16 ++ p.entries.toList.flatMap constantBytes

end Jvm.Assembly
