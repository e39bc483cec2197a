import Jvm.Assembly.Pool
import Jvm.Bytecode.InstructionSet
import Jvm.ClassFile.Basic
import Jvm.ClassFile.Descriptor

/-! # Assembling code

A method's code is written as a list of statements: instructions with symbolic labels, labels, handlers
and line marks. Assembly picks the shortest spelling of constants and locals, lays the bytes out and
fills in the distances once all labels are known. -/

namespace Jvm.Assembly

open ClassFile Bytecode

/-- A label, by number. -/
abbrev Label := Nat

/-- A statement of assembly code. -/
inductive Statement where
  | raw (bytes : List UInt8)
  | op (opcode : UInt8)
  | pushInt (v : Int32)
  | pushLong (v : Int64)
  | pushFloat (bits : UInt32)
  | pushDouble (bits : UInt64)
  | pushString (s : String)
  | pushClass (name : String)
  | load (kind : LocalKind) (index : UInt16)
  | store (kind : LocalKind) (index : UInt16)
  | iinc (index : UInt16) (delta : Int16)
  | member (use : PoolUse) (owner name descriptor : String)
  | invokeInterface (owner name descriptor : String)
  | onClass (use : PoolUse) (name : String)
  | newArray (code : UInt8)
  | newMultiArray (name : String) (dimensions : UInt8)
  | pooled (opcode : UInt8) (entry : Entry) (bytes : List UInt8)
  | jump (opcode : UInt8) (target : Label)
  | farJump (opcode : UInt8) (target : Label)
  | tableSwitch (low : Int32) (default : Label) (targets : List Label)
  | lookupSwitch (default : Label) (pairs : List (Int32 × Label))
  | label (l : Label)
  | handler (start stop handler : Label) (catchType : Option String)
  | line (n : UInt16)
  | maxStack (n : UInt16)
  | maxLocals (n : UInt16)
deriving DecidableEq, Inhabited, Repr

/-- A piece of code: a byte, or a distance from an instruction to a label. -/
inductive Piece where
  | byte (b : UInt8)
  | near (base : Nat) (target : Label)
  | far (base : Nat) (target : Label)
deriving DecidableEq, Inhabited, Repr

/-- The number of bytes of a piece. -/
def Piece.size : Piece → Nat
  | byte _ => 1
  | near _ _ => 2
  | far _ _ => 4

/-- A handler between labels. -/
structure LabelledHandler where
  start : Label
  stop : Label
  handler : Label
  -- The pool index of the caught class; 0 catches everything.
  catchType : UInt16
deriving DecidableEq, Inhabited, Repr

/-- Code under assembly. -/
structure Draft where
  pool : Pool
  pieces : List Piece
  size : Nat
  labels : List (Label × Nat)
  handlers : List LabelledHandler
  lines : List LineRow
  maxStack : UInt16
  maxLocals : UInt16
deriving Inhabited, Repr

namespace Draft

/-- The bound of the operand stack unless one is set. -/
def defaultMaxStack : UInt16 := 16

/-- Empty code of a method whose arguments take `argSlots` slots. -/
def empty (pool : Pool) (argSlots : UInt16) : Draft :=
  ⟨pool, [], 0, [], [], [], defaultMaxStack, argSlots⟩

/-- Adds a piece. -/
def piece (d : Draft) (p : Piece) : Draft :=
  { d with pieces := p :: d.pieces, size := d.size + p.size }

/-- Adds bytes. -/
def bytes (d : Draft) (bs : List UInt8) : Draft := bs.foldl (fun d b => d.piece (.byte b)) d

/-- The index of an entry. -/
def entry (d : Draft) (e : Entry) : UInt16 × Draft :=
  let (i, pool) := Pool.entry e d.pool
  (i, { d with pool })

/-- Adds an opcode with the index of an entry. -/
def pooled (d : Draft) (opcode : UInt8) (e : Entry) : Draft :=
  let (i, d) := d.entry e
  d.bytes (opcode :: bytes2 i)

/-- Adds an `ldc` of an entry, with a byte-sized index where that is enough. -/
def ldc (d : Draft) (e : Entry) : Draft :=
  let (i, d) := d.entry e
  if i ≤ 0xFF then d.bytes [0x12, i.toUInt8] else d.bytes (0x13 :: bytes2 i)

/-- Raises the number of local slots. -/
def useLocals (d : Draft) (n : UInt16) : Draft := { d with maxLocals := max d.maxLocals n }

/-- Adds an access to a local: with the index in the opcode up to 3, in a byte up to 255, and else
behind `wide`. -/
def local_ (d : Draft) (short long : UInt8) (index : UInt16) (slots : Nat) : Draft :=
  let d := d.useLocals (index + slots.toUInt16)
  if index ≤ 3 then d.bytes [short + index.toUInt8]
  else if index ≤ 0xFF then d.bytes [long, index.toUInt8]
  else d.bytes (0xC4 :: long :: bytes2 index)

/-- Puts a label at the end of the code. -/
def putLabel (d : Draft) (l : Label) : Except Fault Draft :=
  match d.labels.lookup l with
  | some _ => .error (.internal ("label " ++ toString l ++ " bound twice"))
  | none => .ok { d with labels := (l, d.size) :: d.labels }

/-- Adds zeros up to the next multiple of four. -/
def pad (d : Draft) : Draft := d.bytes (List.replicate ((4 - d.size % 4) % 4) 0)

end Draft

/-- The place of a kind among the opcodes of one operation. -/
def kindOffset : LocalKind → UInt8
  | .int => 0
  | .long => 1
  | .float => 2
  | .double => 3
  | .reference => 4

/-- The opcode that uses a constant in some way. -/
def useOpcode : PoolUse → UInt8
  | .getStatic => 0xB2
  | .putStatic => 0xB3
  | .getField => 0xB4
  | .putField => 0xB5
  | .invokeVirtual => 0xB6
  | .invokeSpecial => 0xB7
  | .invokeStatic => 0xB8
  | .new => 0xBB
  | .newReferenceArray => 0xBD
  | .checkCast => 0xC0
  | .instanceOf => 0xC1

/-- The reference to a member that is used in some way. -/
def useEntry (use : PoolUse) (owner name descriptor : String) : Entry :=
  match use with
  | .getStatic | .putStatic | .getField | .putField => .fieldRef owner name descriptor
  | _ => .methodRef owner name descriptor

/-- Pairs in increasing order of their keys; equal keys stay in order. -/
def sortPairs (pairs : List (Int32 × Label)) : List (Int32 × Label) :=
  pairs.mergeSort fun a b => a.1 ≤ b.1

/-- Adds a statement to a draft. -/
def Draft.add (d : Draft) : Statement → Except Fault Draft
  | .raw bs => .ok (d.bytes bs)
  | .op opcode => .ok (d.bytes [opcode])
  | .pushInt v => .ok <|
    if -1 ≤ v && v ≤ 5 then d.bytes [(3 + v).toUInt32.toUInt8]
    else if -128 ≤ v && v ≤ 127 then d.bytes [0x10, v.toUInt32.toUInt8]
    else if -32768 ≤ v && v ≤ 32767 then d.bytes (0x11 :: bytes2 v.toUInt32.toUInt16)
    else d.ldc (.integer v)
  | .pushLong v => .ok <|
    if v = 0 then d.bytes [0x09]
    else if v = 1 then d.bytes [0x0A]
    else d.pooled 0x14 (.long v)
  | .pushFloat bits => .ok <|
    if bits = 0 then d.bytes [0x0B]
    else if bits = 0x3F800000 then d.bytes [0x0C]
    else if bits = 0x40000000 then d.bytes [0x0D]
    else d.ldc (.float bits)
  | .pushDouble bits => .ok <|
    if bits = 0 then d.bytes [0x0E]
    else if bits = 0x3FF0000000000000 then d.bytes [0x0F]
    else d.pooled 0x14 (.double bits)
  | .pushString s => .ok (d.ldc (.string s))
  | .pushClass name => .ok (d.ldc (.classRef name))
  | .load kind index =>
    .ok (d.local_ (0x1A + 4 * kindOffset kind) (0x15 + kindOffset kind) index kind.slots)
  | .store kind index =>
    .ok (d.local_ (0x3B + 4 * kindOffset kind) (0x36 + kindOffset kind) index kind.slots)
  | .iinc index delta => .ok <|
    let d := d.useLocals (index + 1)
    if index ≤ 0xFF && -128 ≤ delta && delta ≤ 127 then
      d.bytes [0x84, index.toUInt8, delta.toUInt16.toUInt8]
    else d.bytes (0xC4 :: 0x84 :: (bytes2 index ++ bytes2 delta.toUInt16))
  | .member use owner name descriptor =>
    .ok (d.pooled (useOpcode use) (useEntry use owner name descriptor))
  | .invokeInterface owner name descriptor => do
    let type ← MethodType.parse descriptor
    let d := d.pooled 0xB9 (.interfaceMethodRef owner name descriptor)
    return d.bytes [(type.argSlots + 1).toUInt8, 0]
  | .onClass use name => .ok (d.pooled (useOpcode use) (.classRef name))
  | .newArray code => .ok (d.bytes [0xBC, code])
  | .newMultiArray name dimensions =>
    .ok ((d.pooled 0xC5 (.classRef name)).bytes [dimensions])
  | .pooled opcode entry bs => .ok ((d.pooled opcode entry).bytes bs)
  | .jump opcode target => .ok ((d.bytes [opcode]).piece (.near d.size target))
  | .farJump opcode target => .ok ((d.bytes [opcode]).piece (.far d.size target))
  | .tableSwitch low default targets =>
    let base := d.size
    let d := (d.bytes [0xAA]).pad.piece (.far base default)
    let high := low + Int32.ofInt ((targets.length : Int) - 1)
    let d := d.bytes (bytes4 low.toUInt32 ++ bytes4 high.toUInt32)
    .ok (targets.foldl (fun d t => d.piece (.far base t)) d)
  | .lookupSwitch default pairs =>
    let base := d.size
    let d := (d.bytes [0xAB]).pad.piece (.far base default)
    let d := d.bytes (bytes4 pairs.length.toUInt32)
    .ok ((sortPairs pairs).foldl
      (fun d (k, t) => (d.bytes (bytes4 k.toUInt32)).piece (.far base t)) d)
  | .label l => d.putLabel l
  | .handler start stop handler catchType =>
    let (i, d) := match catchType with
      | some name => d.entry (.classRef name)
      | none => (0, d)
    .ok { d with handlers := ⟨start, stop, handler, i⟩ :: d.handlers }
  | .line n => .ok { d with lines := ⟨d.size.toUInt16, n⟩ :: d.lines }
  | .maxStack n => .ok { d with maxStack := n }
  | .maxLocals n => .ok (d.useLocals n)

namespace Draft

/-- The offset of a label. -/
def resolve (d : Draft) (l : Label) : Except Fault Nat :=
  match d.labels.lookup l with
  | some pc => .ok pc
  | none => .error (.internal ("label " ++ toString l ++ " was never bound"))

/-- The bytes of a piece, once all labels are put. -/
def pieceBytes (d : Draft) : Piece → Except Fault (List UInt8)
  | .byte b => .ok [b]
  | .near base target => do
    let distance : Int := (← d.resolve target) - base
    if distance < -32768 || 32767 < distance then
      throw (.internal ("branch offset " ++ toString distance ++ " exceeds 16 bits"))
    return bytes2 (Int16.ofInt distance).toUInt16
  | .far base target => do
    let distance : Int := (← d.resolve target) - base
    return bytes4 (Int32.ofInt distance).toUInt32

/-- The bytes of pieces, which come latest first, in front of `tail`; the first piece in the code that
has none decides the error. -/
def piecesBytes (d : Draft) : List Piece → Except Fault (List (List UInt8))
  | pieces => pieces.reverse.mapM d.pieceBytes

/-- The bytes of a handler row. -/
def handlerBytes (d : Draft) (h : LabelledHandler) : Except Fault (List UInt8) := do
  let start ← d.resolve h.start
  let stop ← d.resolve h.stop
  let handler ← d.resolve h.handler
  return bytes2 start.toUInt16 ++ bytes2 stop.toUInt16 ++ bytes2 handler.toUInt16
    ++ bytes2 h.catchType

/-- The bytes of the code attribute's body, and the pool with all it refers to. -/
def finish (d : Draft) : Except Fault (List UInt8 × Pool) := do
  let code := (← d.piecesBytes d.pieces).flatten
  let handlers ← d.handlers.reverse.mapM d.handlerBytes
  let head := bytes2 d.maxStack ++ bytes2 d.maxLocals ++ bytes4 code.length.toUInt32 ++ code
    ++ bytes2 handlers.length.toUInt16 ++ handlers.flatten
  if d.lines.isEmpty then return (head ++ bytes2 0, d.pool)
  let (name, pool) := Pool.utf8 "LineNumberTable" d.pool
  let rows := d.lines.reverse.flatMap fun r => bytes2 r.start ++ bytes2 r.line
  let count := d.lines.length
  return (head ++ bytes2 1 ++ bytes2 name ++ bytes4 (2 + 4 * count).toUInt32
    ++ bytes2 count.toUInt16 ++ rows, pool)

end Draft

/-- Assembles statements into the body of a code attribute. -/
def assemble (pool : Pool) (argSlots : UInt16) (statements : List Statement) :
    Except Fault (List UInt8 × Pool) := do
  (← statements.foldlM Draft.add (Draft.empty pool argSlots)).finish

end Jvm.Assembly
