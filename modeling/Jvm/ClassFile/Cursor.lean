import Jvm.Fault

/-! # Reading bytes

A cursor over big-endian bytes. A reader takes bytes from the front or fails; a read past the end is
refused as a whole, so a failed read leaves the cursor where it was. -/

namespace Jvm.ClassFile

/-- A position in a run of bytes: how many are behind it, and those ahead. -/
structure Cursor where
  offset : Nat
  rest : List UInt8
deriving DecidableEq, Inhabited, Repr

namespace Cursor

/-- The cursor at the start of some bytes. -/
def ofBytes (bytes : List UInt8) : Cursor := ⟨0, bytes⟩

/-- The number of bytes ahead. -/
def remaining (c : Cursor) : Nat := c.rest.length

/-- Whether all bytes have been read. -/
def atEnd (c : Cursor) : Bool := c.rest.isEmpty

end Cursor

/-- A computation that reads from a cursor and may fail. -/
abbrev Reader := EStateM Fault Cursor

/-- The big-endian number that bytes spell. -/
def beNat (bytes : List UInt8) : Nat := bytes.foldl (fun n b => n * 256 + b.toNat) 0

/-- The `count` low bytes of a number, most significant first. -/
def beBytes : Nat → Nat → List UInt8
  | 0, _ => []
  | count + 1, n => (n / 256 ^ count).toUInt8 :: beBytes count n

/-- The first `n` bytes, moved in front of `taken` in reverse, and the rest; none if there are fewer. -/
def splitOnto (taken : List UInt8) : Nat → List UInt8 → Option (List UInt8 × List UInt8)
  | 0, rest => some (taken.reverse, rest)
  | _ + 1, [] => none
  | n + 1, b :: rest => splitOnto (b :: taken) n rest

namespace Reader

/-- Fails with a complaint about the file's format. -/
def malformed {α : Type} (detail : String) : Reader α := throw (.classFormat detail)

/-- A result computed without reading. -/
def ofExcept {α : Type} : Except Fault α → Reader α
  | .ok a => pure a
  | .error e => throw e

/-- The refusal of a read of `n` bytes. -/
def truncated (n : Nat) (c : Cursor) : Fault :=
  .classFormat ("truncated class file: need " ++ toString n ++ " bytes at offset "
    ++ toString c.offset ++ ", " ++ toString c.remaining ++ " available")

/-- Reads exactly `n` bytes. -/
def bytes (n : Nat) : Reader (List UInt8) := fun c =>
  match splitOnto [] n c.rest with
  | some (taken, rest) => .ok taken ⟨c.offset + n, rest⟩
  | none => .error (truncated n c) c

/-- Reads an unsigned byte. -/
def u1 : Reader UInt8 := fun c =>
  match c.rest with
  | a :: rest => .ok a ⟨c.offset + 1, rest⟩
  | _ => .error (truncated 1 c) c

/-- Reads an unsigned 16-bit number. -/
def u2 : Reader UInt16 := fun c =>
  match c.rest with
  | a :: b :: rest => .ok (a.toUInt16 <<< 8 ||| b.toUInt16) ⟨c.offset + 2, rest⟩
  | _ => .error (truncated 2 c) c

/-- Reads an unsigned 32-bit number. -/
def u4 : Reader UInt32 := do return (beNat (← bytes 4)).toUInt32

/-- Reads an unsigned 64-bit number. -/
def u8 : Reader UInt64 := do return (beNat (← bytes 8)).toUInt64

/-- Reads a signed 32-bit number. -/
def i4 : Reader Int32 := do return (← u4).toInt32

/-- Reads a signed 64-bit number. -/
def i8 : Reader Int64 := do return (← u8).toInt64

/-- Moves past the next `n` bytes and gives a cursor of their own to read them with. -/
def sub (n : Nat) : Reader Cursor := do return Cursor.ofBytes (← bytes n)

/-- Runs a reader on a cursor of its own. -/
def within {α : Type} (inner : Cursor) (r : Reader α) : Reader (α × Cursor) := fun c =>
  match r inner with
  | .ok a inner => .ok (a, inner) c
  | .error e _ => .error e c

/-- Reads `n` items after those in `read`, which holds them latest first. -/
def timesOnto {α : Type} (item : Reader α) (read : List α) : Nat → Reader (List α)
  | 0 => pure read.reverse
  | n + 1 => do timesOnto item ((← item) :: read) n

/-- Reads `n` items. -/
def times {α : Type} (n : Nat) (item : Reader α) : Reader (List α) := timesOnto item [] n

/-- Reads a 16-bit count and that many items. -/
def counted {α : Type} (item : Reader α) : Reader (List α) := do times (← u2).toNat item

end Reader

end Jvm.ClassFile
