import Jvm.Bytecode.InstructionSet
import Jvm.Bytecode.Switch
import Jvm.ClassFile.Cursor

/-! # Decoding instructions

A method's code, taken apart into instructions. The bytes are read from front to back into operations
whose jumps hold byte offsets; then each offset is replaced by the index of the instruction that begins
there, and an offset where none begins is refused. -/

namespace Jvm.Bytecode

open ClassFile

/-- Why some bytes are not code. -/
inductive DecodeFault where
  | empty
  | unknownOpcode (pc : Nat) (opcode : UInt8)
  | truncated (pc : Nat)
  | badTarget (pc : Nat) (target : Int)
  | invalidWide (pc : Nat) (opcode : UInt8)
  | invalidOperand (pc : Nat) (reason : String)
  | fallsOffEnd
deriving DecidableEq, Inhabited, Repr

/-- The name of a fault's kind. -/
def DecodeFault.kind : DecodeFault → String
  | empty => "Empty"
  | unknownOpcode _ _ => "UnknownOpcode"
  | truncated _ => "Truncated"
  | badTarget _ _ => "BadTarget"
  | invalidWide _ _ => "InvalidWide"
  | invalidOperand _ _ => "InvalidOperand"
  | fallsOffEnd => "FallsOffEnd"

/-- The text of a fault in code. -/
def DecodeFault.message : DecodeFault → String
  | empty => "empty code array"
  | unknownOpcode pc opcode => "unknown opcode 0x" ++ Text.Hex.ofBytes [opcode] ++ " at pc " ++ toString pc
  | truncated pc => "instruction at pc " ++ toString pc ++ " is truncated"
  | badTarget pc target =>
    "branch at pc " ++ toString pc ++ " targets " ++ toString target
      ++ ", which is not an instruction start"
  | invalidWide pc opcode => "wide at pc " ++ toString pc ++ " modifies opcode 0x" ++ Text.Hex.ofBytes [opcode]
  | invalidOperand pc reason => "invalid operand at pc " ++ toString pc ++ ": " ++ reason
  | fallsOffEnd => "control falls off the end of the code"

/-- A fault in code as a fault of the machine. -/
def DecodeFault.toFault (e : DecodeFault) : Fault := .verify e.message

/-- A decoded instruction. -/
structure Instruction where
  -- The byte offset where it begins. Offsets have 16 bits, which is enough for the code of a method;
  -- in longer code they start again at zero.
  pc : UInt16
  operation : Operation
deriving DecidableEq, Inhabited, Repr

/-- The decoded code of a method. -/
structure Body where
  instructions : Array Instruction
  tables : Array SwitchTable
  starts : Array (Option Nat)
deriving DecidableEq, Inhabited, Repr

namespace Body

/-- The number of instructions. -/
def size (b : Body) : Nat := b.instructions.size

/-- The number of code bytes. -/
def codeLength (b : Body) : Nat := b.starts.size

/-- The index of the instruction that begins at an offset. -/
def indexOf? (b : Body) (pc : Nat) : Option Nat := b.starts[pc]?.join

/-- The index of an offset as the end of a range, which may be the end of the code. -/
def boundary? (b : Body) (pc : Nat) : Option Nat :=
  if pc = b.codeLength then some b.size else b.indexOf? pc

/-- The offset of an instruction. -/
def pcOf? (b : Body) (index : Nat) : Option UInt16 := b.instructions[index]?.map (·.pc)

/-- The operation of an instruction. -/
def operation? (b : Body) (index : Nat) : Option Operation :=
  b.instructions[index]?.map (·.operation)

end Body

/-- The place an instruction is decoded at. -/
structure Site where
  pc : Nat
  length : Nat

/-- A computation that reads operands. -/
abbrev Operands := EStateM DecodeFault Cursor

namespace Site

/-- Reads a byte. -/
def u1 (s : Site) : Operands UInt8 := fun c =>
  match c.rest with
  | a :: rest => .ok a ⟨c.offset + 1, rest⟩
  | [] => .error (.truncated s.pc) c

/-- Reads a signed byte. -/
def i1 (s : Site) : Operands Int8 := do return (← s.u1).toInt8

/-- Reads an unsigned 16-bit number. -/
def u2 (s : Site) : Operands UInt16 := do
  let a ← s.u1
  let b ← s.u1
  return a.toUInt16 <<< 8 ||| b.toUInt16

/-- Reads a signed 16-bit number. -/
def i2 (s : Site) : Operands Int16 := do return (← s.u2).toInt16

/-- Reads a signed 32-bit number. -/
def i4 (s : Site) : Operands Int32 := do
  let a ← s.u2
  let b ← s.u2
  return (a.toUInt32 <<< 16 ||| b.toUInt32).toInt32

/-- The offset that lies a distance away from the instruction. -/
def at_ (s : Site) (distance : Int) : Operands Nat :=
  let target := s.pc + distance
  if target < 0 || s.length ≤ target then throw (.badTarget s.pc target) else pure target.toNat

/-- Reads a 16-bit distance. -/
def near (s : Site) : Operands Nat := do s.at_ (← s.i2).toInt

/-- Reads a 32-bit distance. -/
def far (s : Site) : Operands Nat := do s.at_ (← s.i4).toInt

/-- Refuses an operand. -/
def invalid {α : Type} (s : Site) (reason : String) : Operands α :=
  throw (.invalidOperand s.pc reason)

/-- Skips bytes up to the next offset that is a multiple of four. -/
def skipPadding (s : Site) : Operands Unit := do
  for _ in List.range ((4 - (← get).offset % 4) % 4) do
    let _ ← s.u1

/-- Fails unless `n` bytes are left. -/
def need (s : Site) (n : Nat) : Operands Unit := do
  if (← get).remaining < n then throw (.truncated s.pc)

/-- Reads `n` distances; `read` holds those before them, latest first. -/
def farList (s : Site) (read : List Nat) : Nat → Operands (List Nat)
  | 0 => pure read.reverse
  | n + 1 => do s.farList ((← s.far) :: read) n

/-- Reads `n` pairs whose keys increase. -/
def pairList (s : Site) (read : Array (Int32 × Nat)) : Nat → Operands (Array (Int32 × Nat))
  | 0 => pure read
  | n + 1 => do
    let key ← s.i4
    if let some (previous, _) := read.back? then
      if key ≤ previous then s.invalid "lookupswitch keys are not sorted"
    s.pairList (read.push (key, ← s.far)) n

/-- Reads the operands of a `tableswitch`. -/
def rangeTable (s : Site) : Operands SwitchTable := do
  s.skipPadding
  let default ← s.far
  let low ← s.i4
  let high ← s.i4
  if high < low then
    s.invalid ("tableswitch low " ++ toString low.toInt ++ " exceeds high "
      ++ toString high.toInt)
  let count := (high.toInt - low.toInt + 1).toNat
  s.need (count * 4)
  return ⟨default, .range low (← s.farList [] count)⟩

/-- Reads the operands of a `lookupswitch`. -/
def pairTable (s : Site) : Operands SwitchTable := do
  s.skipPadding
  let default ← s.far
  let count ← s.i4
  if count < 0 then s.invalid ("lookupswitch with " ++ toString count.toInt ++ " pairs")
  let count := count.toInt.toNat
  s.need (count * 8)
  return ⟨default, .pairs (← s.pairList #[] count)⟩

/-- Reads the instruction behind `wide`. -/
def widened (s : Site) : Operands Operation := do
  let opcode ← s.u1
  match InstructionSet.form? opcode with
  | some (.load kind) => return .load kind (← s.u2)
  | some (.store kind) => return .store kind (← s.u2)
  | some .ret => return .ret (← s.u2)
  | some .iinc => return .iinc (← s.u2) (← s.i2)
  | _ => throw (.invalidWide s.pc opcode)

/-- Reads the operands of a form. A switch gets the number `tables` and brings its table along. -/
def operands (s : Site) (tables : Nat) : Form → Operands (Operation × Option SwitchTable)
  | .plain op => return (op, none)
  | .pushByte => return (.pushInt (← s.i1).toInt32, none)
  | .pushShort => return (.pushInt (← s.i2).toInt32, none)
  | .ldc => return (.ldc (← s.u1).toUInt16, none)
  | .ldcWide => return (.ldc (← s.u2), none)
  | .ldc2 => return (.ldc2 (← s.u2), none)
  | .load kind => return (.load kind (← s.u1).toUInt16, none)
  | .store kind => return (.store kind (← s.u1).toUInt16, none)
  | .iinc => return (.iinc (← s.u1).toUInt16 (← s.i1).toInt16, none)
  | .ret => return (.ret (← s.u1).toUInt16, none)
  | .jump jump => return (.jump jump (← s.near), none)
  | .farJump jump => return (.jump jump (← s.far), none)
  | .tableSwitch => return (.tableSwitch tables, some (← s.rangeTable))
  | .lookupSwitch => return (.lookupSwitch tables, some (← s.pairTable))
  | .pooled use => return (.pooled use (← s.u2), none)
  | .invokeInterface => do
    let index ← s.u2
    let count ← s.u1
    let _ ← s.u1
    if count = 0 then s.invalid "invokeinterface count is zero"
    return (.invokeInterface index count, none)
  | .invokeDynamic => do
    let index ← s.u2
    let _ ← s.u2
    return (.invokeDynamic index, none)
  | .newArray => do
    let code ← s.u1
    match Primitive.ofCode? code with
    | some element => return (.newArray element, none)
    | none => s.invalid ("newarray type code " ++ toString code)
  | .newMultiArray => do
    let index ← s.u2
    let dimensions ← s.u1
    if dimensions = 0 then s.invalid "multianewarray with zero dimensions"
    return (.newMultiArray index dimensions, none)
  | .wide => return (← s.widened, none)

/-- Reads an instruction. -/
def instruction (s : Site) (tables : Nat) : Operands (Operation × Option SwitchTable) := do
  let opcode ← s.u1
  match InstructionSet.form? opcode with
  | some form => s.operands tables form
  | none => throw (.unknownOpcode s.pc opcode)

end Site

/-- Reads instructions until no bytes are left. Each takes at least a byte, so `fuel` for the number of
bytes is enough. -/
def readInstructions (length : Nat) (instructions : Array Instruction)
    (tables : Array SwitchTable) : Nat → Operands (Array Instruction × Array SwitchTable)
  | 0 => pure (instructions, tables)
  | fuel + 1 => do
    let c ← get
    if c.atEnd then return (instructions, tables)
    let site : Site := ⟨c.offset, length⟩
    let (operation, table) ← site.instruction tables.size
    let tables := match table with
      | some t => tables.push t
      | none => tables
    readInstructions length (instructions.push ⟨c.offset.toUInt16, operation⟩) tables fuel

/-- The start index of every offset. -/
def startTable (length : Nat) (instructions : Array Instruction) : Array (Option Nat) :=
  instructions.toList.zipIdx.foldl (fun starts (insn, i) => starts.setIfInBounds insn.pc.toNat (some i))
    (Array.replicate length none)

/-- Replaces the byte offset of a jump, or the offsets in the table of a switch, by indices. -/
def linkInstruction (starts : Array (Option Nat)) (tables : Array SwitchTable)
    (insn : Instruction) : Except DecodeFault (Instruction × Array SwitchTable) := do
  let index (target : Nat) : Except DecodeFault Nat :=
    match starts[target]?.join with
    | some i => .ok i
    | none => .error (.badTarget insn.pc.toNat target)
  match insn.operation with
  | .jump jump target => return (⟨insn.pc, .jump jump (← index target)⟩, tables)
  | .tableSwitch t | .lookupSwitch t =>
    match tables[t]? with
    | some table => return (insn, tables.setIfInBounds t (← table.mapM index))
    | none => return (insn, tables)
  | _ => return (insn, tables)

/-- Replaces offsets by indices in all instructions. -/
def linkInstructions (starts : Array (Option Nat)) :
    List Instruction → Array Instruction → Array SwitchTable →
      Except DecodeFault (Array Instruction × Array SwitchTable)
  | [], done, tables => .ok (done, tables)
  | insn :: rest, done, tables => do
    let (insn, tables) ← linkInstruction starts tables insn
    linkInstructions starts rest (done.push insn) tables

/-- Decodes the code of a method. -/
def decode (code : List UInt8) : Except DecodeFault Body := do
  let length := code.length
  if length = 0 then throw .empty
  match readInstructions length #[] #[] length (Cursor.ofBytes code) with
  | .error e _ => throw e
  | .ok (instructions, tables) _ =>
    let starts := startTable length instructions
    let (instructions, tables) ← linkInstructions starts instructions.toList #[] tables
    match instructions.back? with
    | some last =>
      if last.operation.endsBlock then return { instructions, tables, starts }
      else throw .fallsOffEnd
    | none => throw .fallsOffEnd

end Jvm.Bytecode
