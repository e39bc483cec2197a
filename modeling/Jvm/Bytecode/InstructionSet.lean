import Jvm.Bytecode.Operation

/-! # The instruction set

The table of all opcodes: row `n` holds the mnemonic of opcode `n` and the form of its operands. -/

namespace Jvm.Bytecode

/-- How an instruction's operands are laid out, and the operation they make. -/
inductive Form where
  | plain (op : Operation)
  | pushByte
  | pushShort
  | ldc
  | ldcWide
  | ldc2
  | load (kind : LocalKind)
  | store (kind : LocalKind)
  | iinc
  | ret
  | jump (jump : Jump)
  | farJump (jump : Jump)
  | tableSwitch
  | lookupSwitch
  | pooled (use : PoolUse)
  | invokeInterface
  | invokeDynamic
  | newArray
  | newMultiArray
  | wide
deriving DecidableEq, Inhabited, Repr

namespace InstructionSet

open Form Operation

/-- The rows of the table, by opcode. -/
def table : Array (String × Form) := #[
  ("nop", plain nop),
  ("aconst_null", plain pushNull),
  ("iconst_m1", plain (pushInt (-1))),
  ("iconst_0", plain (pushInt 0)),
  ("iconst_1", plain (pushInt 1)),
  ("iconst_2", plain (pushInt 2)),
  ("iconst_3", plain (pushInt 3)),
  ("iconst_4", plain (pushInt 4)),
  ("iconst_5", plain (pushInt 5)),
  ("lconst_0", plain (pushLong 0)),
  ("lconst_1", plain (pushLong 1)),
  ("fconst_0", plain (pushFloat 0)),
  ("fconst_1", plain (pushFloat 0x3F800000)),
  ("fconst_2", plain (pushFloat 0x40000000)),
  ("dconst_0", plain (pushDouble 0)),
  ("dconst_1", plain (pushDouble 0x3FF0000000000000)),
  ("bipush", pushByte),
  ("sipush", pushShort),
  ("ldc", Form.ldc),
  ("ldc_w", ldcWide),
  ("ldc2_w", Form.ldc2),
  ("iload", Form.load .int),
  ("lload", Form.load .long),
  ("fload", Form.load .float),
  ("dload", Form.load .double),
  ("aload", Form.load .reference),
  ("iload_0", plain (load .int 0)),
  ("iload_1", plain (load .int 1)),
  ("iload_2", plain (load .int 2)),
  ("iload_3", plain (load .int 3)),
  ("lload_0", plain (load .long 0)),
  ("lload_1", plain (load .long 1)),
  ("lload_2", plain (load .long 2)),
  ("lload_3", plain (load .long 3)),
  ("fload_0", plain (load .float 0)),
  ("fload_1", plain (load .float 1)),
  ("fload_2", plain (load .float 2)),
  ("fload_3", plain (load .float 3)),
  ("dload_0", plain (load .double 0)),
  ("dload_1", plain (load .double 1)),
  ("dload_2", plain (load .double 2)),
  ("dload_3", plain (load .double 3)),
  ("aload_0", plain (load .reference 0)),
  ("aload_1", plain (load .reference 1)),
  ("aload_2", plain (load .reference 2)),
  ("aload_3", plain (load .reference 3)),
  ("iaload", plain (arrayLoad .int)),
  ("laload", plain (arrayLoad .long)),
  ("faload", plain (arrayLoad .float)),
  ("daload", plain (arrayLoad .double)),
  ("aaload", plain (arrayLoad .reference)),
  ("baload", plain (arrayLoad .byte)),
  ("caload", plain (arrayLoad .char)),
  ("saload", plain (arrayLoad .short)),
  ("istore", Form.store .int),
  ("lstore", Form.store .long),
  ("fstore", Form.store .float),
  ("dstore", Form.store .double),
  ("astore", Form.store .reference),
  ("istore_0", plain (store .int 0)),
  ("istore_1", plain (store .int 1)),
  ("istore_2", plain (store .int 2)),
  ("istore_3", plain (store .int 3)),
  ("lstore_0", plain (store .long 0)),
  ("lstore_1", plain (store .long 1)),
  ("lstore_2", plain (store .long 2)),
  ("lstore_3", plain (store .long 3)),
  ("fstore_0", plain (store .float 0)),
  ("fstore_1", plain (store .float 1)),
  ("fstore_2", plain (store .float 2)),
  ("fstore_3", plain (store .float 3)),
  ("dstore_0", plain (store .double 0)),
  ("dstore_1", plain (store .double 1)),
  ("dstore_2", plain (store .double 2)),
  ("dstore_3", plain (store .double 3)),
  ("astore_0", plain (store .reference 0)),
  ("astore_1", plain (store .reference 1)),
  ("astore_2", plain (store .reference 2)),
  ("astore_3", plain (store .reference 3)),
  ("iastore", plain (arrayStore .int)),
  ("lastore", plain (arrayStore .long)),
  ("fastore", plain (arrayStore .float)),
  ("dastore", plain (arrayStore .double)),
  ("aastore", plain (arrayStore .reference)),
  ("bastore", plain (arrayStore .byte)),
  ("castore", plain (arrayStore .char)),
  ("sastore", plain (arrayStore .short)),
  ("pop", plain pop),
  ("pop2", plain pop2),
  ("dup", plain (dup 1 0)),
  ("dup_x1", plain (dup 1 1)),
  ("dup_x2", plain (dup 1 2)),
  ("dup2", plain (dup 2 0)),
  ("dup2_x1", plain (dup 2 1)),
  ("dup2_x2", plain (dup 2 2)),
  ("swap", plain swap),
  ("iadd", plain (arith .add .int)),
  ("ladd", plain (arith .add .long)),
  ("fadd", plain (arith .add .float)),
  ("dadd", plain (arith .add .double)),
  ("isub", plain (arith .sub .int)),
  ("lsub", plain (arith .sub .long)),
  ("fsub", plain (arith .sub .float)),
  ("dsub", plain (arith .sub .double)),
  ("imul", plain (arith .mul .int)),
  ("lmul", plain (arith .mul .long)),
  ("fmul", plain (arith .mul .float)),
  ("dmul", plain (arith .mul .double)),
  ("idiv", plain (arith .div .int)),
  ("ldiv", plain (arith .div .long)),
  ("fdiv", plain (arith .div .float)),
  ("ddiv", plain (arith .div .double)),
  ("irem", plain (arith .rem .int)),
  ("lrem", plain (arith .rem .long)),
  ("frem", plain (arith .rem .float)),
  ("drem", plain (arith .rem .double)),
  ("ineg", plain (neg .int)),
  ("lneg", plain (neg .long)),
  ("fneg", plain (neg .float)),
  ("dneg", plain (neg .double)),
  ("ishl", plain (shift .left .int)),
  ("lshl", plain (shift .left .long)),
  ("ishr", plain (shift .right .int)),
  ("lshr", plain (shift .right .long)),
  ("iushr", plain (shift .rightUnsigned .int)),
  ("lushr", plain (shift .rightUnsigned .long)),
  ("iand", plain (bits .and .int)),
  ("land", plain (bits .and .long)),
  ("ior", plain (bits .or .int)),
  ("lor", plain (bits .or .long)),
  ("ixor", plain (bits .xor .int)),
  ("lxor", plain (bits .xor .long)),
  ("iinc", Form.iinc),
  ("i2l", plain (convert .int .long)),
  ("i2f", plain (convert .int .float)),
  ("i2d", plain (convert .int .double)),
  ("l2i", plain (convert .long .int)),
  ("l2f", plain (convert .long .float)),
  ("l2d", plain (convert .long .double)),
  ("f2i", plain (convert .float .int)),
  ("f2l", plain (convert .float .long)),
  ("f2d", plain (convert .float .double)),
  ("d2i", plain (convert .double .int)),
  ("d2l", plain (convert .double .long)),
  ("d2f", plain (convert .double .float)),
  ("i2b", plain (narrow .byte)),
  ("i2c", plain (narrow .char)),
  ("i2s", plain (narrow .short)),
  ("lcmp", plain lcmp),
  ("fcmpl", plain (fcmp false)),
  ("fcmpg", plain (fcmp true)),
  ("dcmpl", plain (dcmp false)),
  ("dcmpg", plain (dcmp true)),
  ("ifeq", Form.jump (.ifInt .eq)),
  ("ifne", Form.jump (.ifInt .ne)),
  ("iflt", Form.jump (.ifInt .lt)),
  ("ifge", Form.jump (.ifInt .ge)),
  ("ifgt", Form.jump (.ifInt .gt)),
  ("ifle", Form.jump (.ifInt .le)),
  ("if_icmpeq", Form.jump (.ifInts .eq)),
  ("if_icmpne", Form.jump (.ifInts .ne)),
  ("if_icmplt", Form.jump (.ifInts .lt)),
  ("if_icmpge", Form.jump (.ifInts .ge)),
  ("if_icmpgt", Form.jump (.ifInts .gt)),
  ("if_icmple", Form.jump (.ifInts .le)),
  ("if_acmpeq", Form.jump (.ifRefs true)),
  ("if_acmpne", Form.jump (.ifRefs false)),
  ("goto", Form.jump .always),
  ("jsr", Form.jump .subroutine),
  ("ret", Form.ret),
  ("tableswitch", Form.tableSwitch),
  ("lookupswitch", Form.lookupSwitch),
  ("ireturn", plain (leave (some .int))),
  ("lreturn", plain (leave (some .long))),
  ("freturn", plain (leave (some .float))),
  ("dreturn", plain (leave (some .double))),
  ("areturn", plain (leave (some .reference))),
  ("return", plain (leave none)),
  ("getstatic", Form.pooled .getStatic),
  ("putstatic", Form.pooled .putStatic),
  ("getfield", Form.pooled .getField),
  ("putfield", Form.pooled .putField),
  ("invokevirtual", Form.pooled .invokeVirtual),
  ("invokespecial", Form.pooled .invokeSpecial),
  ("invokestatic", Form.pooled .invokeStatic),
  ("invokeinterface", Form.invokeInterface),
  ("invokedynamic", Form.invokeDynamic),
  ("new", Form.pooled .new),
  ("newarray", Form.newArray),
  ("anewarray", Form.pooled .newReferenceArray),
  ("arraylength", plain arrayLength),
  ("athrow", plain throw_),
  ("checkcast", Form.pooled .checkCast),
  ("instanceof", Form.pooled .instanceOf),
  ("monitorenter", plain monitorEnter),
  ("monitorexit", plain monitorExit),
  ("wide", Form.wide),
  ("multianewarray", Form.newMultiArray),
  ("ifnull", Form.jump (.ifNull true)),
  ("ifnonnull", Form.jump (.ifNull false)),
  ("goto_w", Form.farJump .always),
  ("jsr_w", Form.farJump .subroutine)]

/-- The form of an opcode's operands; none where no instruction is assigned. -/
def form? (opcode : UInt8) : Option Form := table[opcode.toNat]?.map (·.2)

/-- The mnemonic of an opcode. -/
def mnemonic? (opcode : UInt8) : Option String := table[opcode.toNat]?.map (·.1)

/-- The opcode of a mnemonic. -/
def opcode? (mnemonic : String) : Option UInt8 :=
  (table.findIdx? (·.1 == mnemonic)).map (·.toUInt8)

end InstructionSet

end Jvm.Bytecode
