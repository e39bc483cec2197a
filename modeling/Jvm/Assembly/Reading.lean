import Jvm.Assembly.Class
import Jvm.Assembly.Tree

/-! # Reading class descriptions

A class can be described by a tree: a record of its names, flags and members, whose code is a list of
instructions written as a mnemonic or as a list of a name and operands. Labels are names, numbered in
the order in which they are first mentioned. -/

namespace Jvm.Assembly

open ClassFile Bytecode

/-- The constant that a tree gives as it is, by its kind and its indices. -/
def Tree.constant? (t : Tree) : Option Constant :=
  let x := t.item 1
  let y := t.item 2
  match t.head with
  | "unusable" => some .unusable
  | "Utf8" => some (.utf8 x.text)
  | "Integer" => some (.integer x.i4)
  | "Float" => some (.float x.floatBits)
  | "Long" => some (.long x.i8)
  | "Double" => some (.double x.doubleBits)
  | "Class" => some (.classRef x.u2)
  | "String" => some (.string x.u2)
  | "Fieldref" => some (.fieldRef x.u2 y.u2)
  | "Methodref" => some (.methodRef x.u2 y.u2)
  | "InterfaceMethodref" => some (.interfaceMethodRef x.u2 y.u2)
  | "NameAndType" => some (.nameAndType x.u2 y.u2)
  | "MethodHandle" => some (.methodHandle x.u1 y.u2)
  | "MethodType" => some (.methodType x.u2)
  | "InvokeDynamic" => some (.invokeDynamic x.u2 y.u2)
  | _ => none

/-- The constant that a tree asks for, by content or as it is. -/
def Tree.entry (t : Tree) : Entry :=
  let x := t.item 1
  let y := (t.item 2).text
  let z := (t.item 3).text
  match t.head with
  | "utf8" => .utf8 x.text
  | "integer" => .integer x.i4
  | "float" => .float x.floatBits
  | "long" => .long x.i8
  | "double" => .double x.doubleBits
  | "class" => .classRef x.text
  | "string" => .string x.text
  | "name_and_type" => .nameAndType x.text y
  | "field_ref" => .fieldRef x.text y z
  | "method_ref" => .methodRef x.text y z
  | "interface_method_ref" => .interfaceMethodRef x.text y z
  | _ => .raw (t.constant?.getD .unusable)

/-- The trees that a tree stands for: `["repeat", n, t]` stands for `n` times what `t` stands for.
`depth` bounds how deep repetitions are nested. -/
def Tree.unrolled (t : Tree) : Nat → List Tree
  | 0 => [t]
  | depth + 1 =>
    if t.head = "repeat" then
      (List.replicate (t.item 1).nat ((t.item 2).unrolled depth)).flatten
    else [t]

/-- How deep repetitions may be nested. -/
def maxRepeatDepth : Nat := 64

/-- The trees of a list with its repetitions written out. -/
def Tree.sequence (t : Tree) : List Tree := t.items.flatMap (·.unrolled maxRepeatDepth)

/-- An opcode, by mnemonic or number. -/
def Tree.opcode : Tree → UInt8
  | word s => (InstructionSet.opcode? s).getD 0
  | t => t.u1

/-- A computation that numbers labels; the state holds their names, latest first. -/
abbrev Labelling := StateM (List String)

/-- The number of a label. -/
def Tree.label (t : Tree) : Labelling Label := do
  let name := t.text?.getD (toString t.int)
  let names ← get
  match names.findIdx? (· == name) with
  | some i => return names.length - 1 - i
  | none =>
    set (name :: names)
    return names.length

/-- The kind of local that an instruction such as `aload` works on. -/
def localKind (mnemonic : String) : LocalKind :=
  match mnemonic.toList.head? with
  | some 'l' => .long
  | some 'f' => .float
  | some 'd' => .double
  | some 'a' => .reference
  | _ => .int

/-- The use of a constant that a mnemonic stands for. -/
def poolUse (mnemonic : String) : PoolUse :=
  match mnemonic with
  | "getstatic" => .getStatic
  | "putstatic" => .putStatic
  | "getfield" => .getField
  | "putfield" => .putField
  | "invokestatic" => .invokeStatic
  | "invokevirtual" => .invokeVirtual
  | "invokespecial" => .invokeSpecial
  | "new" => .new
  | "anewarray" => .newReferenceArray
  | "checkcast" => .checkCast
  | _ => .instanceOf

/-- The statement that a list makes with the name `name`. -/
def Tree.statementNamed (t : Tree) (name : String) : Labelling Statement := do
  let x := t.item 1
  let y := t.item 2
  let z := t.item 3
  match name with
  | "u1" => return .raw [x.u1]
  | "u2" => return .raw (bytes2 x.u2)
  | "u4" => return .raw (bytes4 x.u4)
  | "op" => return .op x.opcode
  | "op_u2" => return .raw (x.opcode :: bytes2 y.u2)
  | "iconst" => return .pushInt x.i4
  | "lconst" => return .pushLong x.i8
  | "fconst" => return .pushFloat x.floatBits
  | "dconst" => return .pushDouble x.doubleBits
  | "ldc_string" => return .pushString x.text
  | "ldc_class" => return .pushClass x.text
  | "iload" | "lload" | "fload" | "dload" | "aload" => return .load (localKind name) x.u2
  | "istore" | "lstore" | "fstore" | "dstore" | "astore" => return .store (localKind name) x.u2
  | "iinc" => return .iinc x.u2 (Int16.ofInt y.int)
  | "getstatic" | "putstatic" | "getfield" | "putfield" | "invokestatic" | "invokevirtual"
  | "invokespecial" => return .member (poolUse name) x.text y.text z.text
  | "invokeinterface" => return .invokeInterface x.text y.text z.text
  | "new" | "anewarray" | "checkcast" | "instanceof" => return .onClass (poolUse name) x.text
  | "newarray" => return .newArray x.u1
  | "multianewarray" => return .newMultiArray x.text y.u1
  | "max_stack" => return .maxStack x.u2
  | "max_locals" => return .maxLocals x.u2
  | "line" => return .line x.u2
  | "branch" => return .jump x.opcode (← y.label)
  | "branch_wide" => return .farJump x.opcode (← y.label)
  | "goto" => return .jump 0xA7 (← x.label)
  | "tableswitch" =>
    let default ← y.label
    return .tableSwitch x.i4 default (← z.items.mapM label)
  | "lookupswitch" =>
    let default ← x.label
    return .lookupSwitch default
      (← y.items.mapM fun p => do return ((p.item 0).i4, ← (p.item 1).label))
  | "label" => return .label (← x.label)
  | "try" =>
    let start ← x.label
    let stop ← y.label
    return .handler start stop (← z.label) (t.item 4).text?
  | "pool_op" => return .pooled x.opcode y.entry (z.items.map u1)
  | _ => return .raw []

/-- The statement that a tree makes: a mnemonic alone, or a list that begins with a name. -/
def Tree.statement (t : Tree) : Labelling Statement :=
  match t with
  | word _ => return .op t.opcode
  | _ => t.statementNamed t.head

/-- The initial value of a field. -/
def Tree.fieldValue (t : Tree) : FieldValue :=
  let x := t.item 1
  match t.head with
  | "long" => .long x.i8
  | "float" => .float x.floatBits
  | "double" => .double x.doubleBits
  | "string" => .string x.text
  | _ => .int x.i4

/-- The flags that a number stands for. -/
def Tree.access (t : Tree) : Access := ⟨t.u2⟩

/-- The field that a record describes. -/
def Tree.fieldText (t : Tree) : FieldText :=
  ⟨(t.part "access").access, (t.part "name").text, (t.part "desc").text,
    (t.part "const").optional fieldValue⟩

/-- The method that a record describes. -/
def Tree.methodText (t : Tree) : MethodText :=
  ⟨(t.part "access").access, (t.part "name").text, (t.part "desc").text,
    (t.part "code").optional fun code => ((code.sequence.mapM statement).run []).1⟩

/-- The class that a record describes. -/
def Tree.classText (t : Tree) : ClassText :=
  let base := ClassText.ofName (t.part "name").text
  { base with
    superName := (t.part? "super").elim base.superName text?
    access := ((t.part "access").optional access).getD base.access
    major := ((t.part "major").optional u2).getD base.major
    source := (t.part "source").text?
    interfaces := (t.part "interfaces").items.map text
    constants := (t.part "pool").sequence.map entry
    fields := (t.part "fields").items.map fieldText
    methods := (t.part "methods").items.map methodText }

/-- The bytes of the class file that a record describes or holds as they are. -/
def Tree.classBytes (t : Tree) : Except Fault (List UInt8) :=
  match (t.part "hex").text? with
  | some hex => .ok (Text.Hex.toBytes hex)
  | none => t.classText.assemble

/-- The class file that a record describes, with the name it is found under. -/
def Tree.classFile (t : Tree) : Except Fault (String × List UInt8) := do
  return (((t.part? "path").getD (t.part "name")).text, ← t.classBytes)

end Jvm.Assembly
