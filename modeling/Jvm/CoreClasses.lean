import Jvm.Assembly.Class

/-! # Core classes

The classes that every program finds: the object class, strings, class objects, print streams, the
system class and the throwables. They are described like any other class and go through ordinary linking;
their native methods are implemented by the machine. -/

namespace Jvm.CoreClasses

open ClassFile Bytecode Assembly

/-- The string class. -/
def stringName : String := "java/lang/String"

/-- The class of class objects. -/
def className : String := "java/lang/Class"

/-- The system class. -/
def systemName : String := "java/lang/System"

/-- The class of print streams. -/
def printStreamName : String := "java/io/PrintStream"

/-- The throwable class. -/
def throwableName : String := "java/lang/Throwable"

/-- An interface of every array class. -/
def cloneableName : String := "java/lang/Cloneable"

/-- The other interface of every array class. -/
def serializableName : String := "java/io/Serializable"

/-- The subclasses of the throwable class with their superclasses, superclasses first. -/
def throwables : List (String × String) :=
  [("java/lang/Exception", throwableName),
    ("java/lang/Error", throwableName),
    ("java/lang/RuntimeException", "java/lang/Exception"),
    ("java/lang/CloneNotSupportedException", "java/lang/Exception"),
    ("java/lang/ArithmeticException", "java/lang/RuntimeException"),
    ("java/lang/NullPointerException", "java/lang/RuntimeException"),
    ("java/lang/ClassCastException", "java/lang/RuntimeException"),
    ("java/lang/NegativeArraySizeException", "java/lang/RuntimeException"),
    ("java/lang/ArrayStoreException", "java/lang/RuntimeException"),
    ("java/lang/IllegalMonitorStateException", "java/lang/RuntimeException"),
    ("java/lang/IllegalArgumentException", "java/lang/RuntimeException"),
    ("java/lang/IllegalStateException", "java/lang/RuntimeException"),
    ("java/lang/IndexOutOfBoundsException", "java/lang/RuntimeException"),
    ("java/lang/ArrayIndexOutOfBoundsException", "java/lang/IndexOutOfBoundsException"),
    ("java/lang/LinkageError", "java/lang/Error"),
    ("java/lang/ClassFormatError", "java/lang/LinkageError"),
    ("java/lang/VerifyError", "java/lang/LinkageError"),
    ("java/lang/NoClassDefFoundError", "java/lang/LinkageError"),
    ("java/lang/ClassCircularityError", "java/lang/LinkageError"),
    ("java/lang/UnsatisfiedLinkError", "java/lang/LinkageError"),
    ("java/lang/ExceptionInInitializerError", "java/lang/LinkageError"),
    ("java/lang/IncompatibleClassChangeError", "java/lang/LinkageError"),
    ("java/lang/NoSuchMethodError", "java/lang/IncompatibleClassChangeError"),
    ("java/lang/NoSuchFieldError", "java/lang/IncompatibleClassChangeError"),
    ("java/lang/AbstractMethodError", "java/lang/IncompatibleClassChangeError"),
    ("java/lang/VirtualMachineError", "java/lang/Error"),
    ("java/lang/OutOfMemoryError", "java/lang/VirtualMachineError"),
    ("java/lang/StackOverflowError", "java/lang/VirtualMachineError")]

/-- The descriptors of the methods that print a value. -/
def printDescriptors : List String :=
  ["(Ljava/lang/String;)V", "(Ljava/lang/Object;)V", "(I)V", "(J)V", "(C)V", "(Z)V", "(F)V", "(D)V"]

/-! ## Abbreviations -/

/-- The flags of a public member. -/
def publicAccess : Access := ⟨0x0001⟩

/-- The flags of a public native method. -/
def nativeAccess : Access := ⟨0x0101⟩

/-- The flags of a public static native method. -/
def staticNativeAccess : Access := ⟨0x0109⟩

/-- The flags of a private field. -/
def privateAccess : Access := ⟨0x0002⟩

/-- The flags of a private field that is assigned once. -/
def privateFinalAccess : Access := ⟨0x0012⟩

/-- The flags of a public static field that is assigned once. -/
def publicConstantAccess : Access := ⟨0x0019⟩

/-- The flags of a public class without subclasses. -/
def publicFinalClass : Access := ⟨0x0031⟩

/-- The flags of a public interface. -/
def publicInterface : Access := ⟨0x0601⟩

/-- An instruction without operands. -/
def op (mnemonic : String) : Statement := .op ((InstructionSet.opcode? mnemonic).getD 0)

/-- A jump to a label. -/
def jump (mnemonic : String) (target : Label) : Statement :=
  .jump ((InstructionSet.opcode? mnemonic).getD 0) target

/-- Pushes a local that holds a reference. -/
def aload (i : UInt16) : Statement := .load .reference i

/-- Calls a method of this very class. -/
def callSpecial (owner name descriptor : String) : Statement :=
  .member .invokeSpecial owner name descriptor

/-- A method with a body. -/
def method (name descriptor : String) (code : List Statement) : MethodText :=
  ⟨publicAccess, name, descriptor, some code⟩

/-- A native method. -/
def nativeMethod (name descriptor : String) : MethodText := ⟨nativeAccess, name, descriptor, none⟩

/-- A static native method. -/
def staticNativeMethod (name descriptor : String) : MethodText :=
  ⟨staticNativeAccess, name, descriptor, none⟩

/-- A field. -/
def field (access : Access) (name descriptor : String) : FieldText := ⟨access, name, descriptor, none⟩

/-- The part of a class name behind its last slash. -/
def simpleName (name : String) : String :=
  String.ofList (name.toList.reverse.takeWhile (· != '/')).reverse

/-- A class without members that names its source file. -/
def begin_ (name : String) : ClassText :=
  { ClassText.ofName name with source := some (simpleName name ++ ".java") }

/-! ## The classes -/

/-- The object class. -/
def objectClass : ClassText :=
  { begin_ objectName with
    superName := none
    methods := [
      method "<init>" "()V" [op "return"],
      method "equals" "(Ljava/lang/Object;)Z" [.line 1, aload 0, aload 1, jump "if_acmpne" 0,
        op "iconst_1", op "ireturn", .label 0, op "iconst_0", op "ireturn"],
      nativeMethod "hashCode" "()I",
      nativeMethod "getClass" "()Ljava/lang/Class;",
      nativeMethod "toString" "()Ljava/lang/String;",
      ⟨⟨0x0104⟩, "clone", "()Ljava/lang/Object;", none⟩] }

/-- An interface without members. -/
def markerInterface (name : String) : ClassText := { begin_ name with access := publicInterface }

/-- The class of class objects. -/
def classClass : ClassText :=
  { begin_ className with
    access := publicFinalClass
    fields := [field privateFinalAccess "name" "Ljava/lang/String;"]
    methods := [
      method "getName" "()Ljava/lang/String;"
        [aload 0, .member .getField className "name" "Ljava/lang/String;", op "areturn"],
      method "toString" "()Ljava/lang/String;"
        [aload 0, .member .invokeVirtual className "getName" "()Ljava/lang/String;",
          op "areturn"]] }

/-- The number of the primitive type of chars. -/
def charCode : UInt8 := 5

/-- The descriptor of the method that copies array elements. -/
def arraycopyDescriptor : String := "(Ljava/lang/Object;ILjava/lang/Object;II)V"

/-- The string class: a string holds an array of chars that is its own. -/
def stringClass : ClassText :=
  { begin_ stringName with
    access := publicFinalClass
    interfaces := [serializableName]
    fields := [field privateFinalAccess "value" "[C"]
    methods := [
      method "<init>" "()V" [aload 0, callSpecial objectName "<init>" "()V",
        aload 0, op "iconst_0", .newArray charCode, .member .putField stringName "value" "[C",
        op "return"],
      method "<init>" "([C)V" [aload 0, callSpecial objectName "<init>" "()V",
        aload 1, op "arraylength", .store .int 2,
        aload 0, .load .int 2, .newArray charCode, .member .putField stringName "value" "[C",
        aload 1, op "iconst_0", aload 0, .member .getField stringName "value" "[C",
        op "iconst_0", .load .int 2,
        .member .invokeStatic systemName "arraycopy" arraycopyDescriptor, op "return"],
      method "length" "()I" [aload 0, .member .getField stringName "value" "[C",
        op "arraylength", op "ireturn"],
      method "isEmpty" "()Z" [aload 0, .member .invokeVirtual stringName "length" "()I",
        jump "ifeq" 0, op "iconst_0", op "ireturn", .label 0, op "iconst_1", op "ireturn"],
      method "charAt" "(I)C" [aload 0, .member .getField stringName "value" "[C", .load .int 1,
        op "caload", op "ireturn"],
      method "toString" "()Ljava/lang/String;" [aload 0, op "areturn"],
      nativeMethod "intern" "()Ljava/lang/String;",
      nativeMethod "equals" "(Ljava/lang/Object;)Z",
      nativeMethod "hashCode" "()I",
      nativeMethod "concat" "(Ljava/lang/String;)Ljava/lang/String;",
      staticNativeMethod "valueOf" "(I)Ljava/lang/String;",
      staticNativeMethod "valueOf" "(J)Ljava/lang/String;",
      staticNativeMethod "valueOf" "(Ljava/lang/Object;)Ljava/lang/String;"] }

/-- The descriptor of a print stream. -/
def streamDescriptor : String := "Ljava/io/PrintStream;"

/-- Creates a print stream with a number and puts it into a field of the system class. -/
def openStream (number : Int32) (name : String) : List Statement :=
  [.onClass .new printStreamName, op "dup", .pushInt number,
    callSpecial printStreamName "<init>" "(I)V",
    .member .putStatic systemName name streamDescriptor]

/-- The system class. -/
def systemClass : ClassText :=
  { begin_ systemName with
    access := publicFinalClass
    fields := ["out", "err"].map fun name => field publicConstantAccess name streamDescriptor
    methods := [
      ⟨⟨0x0008⟩, "<clinit>", "()V",
        some (openStream 1 "out" ++ openStream 2 "err" ++ [op "return"])⟩,
      staticNativeMethod "arraycopy" arraycopyDescriptor,
      staticNativeMethod "identityHashCode" "(Ljava/lang/Object;)I",
      staticNativeMethod "gc" "()V",
      staticNativeMethod "nanoTime" "()J",
      staticNativeMethod "currentTimeMillis" "()J"] }

/-- The class of print streams. -/
def printStreamClass : ClassText :=
  { begin_ printStreamName with
    fields := [field privateFinalAccess "fd" "I"]
    methods := [
      method "<init>" "(I)V" [aload 0, callSpecial objectName "<init>" "()V", aload 0, .load .int 1,
        .member .putField printStreamName "fd" "I", op "return"],
      method "flush" "()V" [op "return"],
      nativeMethod "println" "()V"] ++ printDescriptors.flatMap fun descriptor =>
        [nativeMethod "print" descriptor, nativeMethod "println" descriptor] }

/-- Notes where a throwable was created. -/
def fillTrace : List Statement :=
  [aload 0, .member .invokeVirtual throwableName "fillInStackTrace" "()Ljava/lang/Throwable;",
    op "pop"]

/-- The throwable class. -/
def throwableClass : ClassText :=
  { begin_ throwableName with
    interfaces := [serializableName]
    fields := [field privateAccess "detailMessage" "Ljava/lang/String;",
      field privateAccess "stackTrace" "[Ljava/lang/String;"]
    methods := [
      method "<init>" "()V"
        ([aload 0, callSpecial objectName "<init>" "()V"] ++ fillTrace ++ [op "return"]),
      method "<init>" "(Ljava/lang/String;)V"
        ([aload 0, callSpecial objectName "<init>" "()V", aload 0, aload 1,
          .member .putField throwableName "detailMessage" "Ljava/lang/String;"] ++ fillTrace
          ++ [op "return"]),
      method "getMessage" "()Ljava/lang/String;"
        [aload 0, .member .getField throwableName "detailMessage" "Ljava/lang/String;",
          op "areturn"],
      nativeMethod "fillInStackTrace" "()Ljava/lang/Throwable;",
      nativeMethod "toString" "()Ljava/lang/String;",
      nativeMethod "printStackTrace" "()V"] }

/-- A subclass of a throwable class, with the constructors of its superclass. -/
def throwableSubclass (name superName : String) : ClassText :=
  { begin_ name with
    superName := some superName
    methods := [
      method "<init>" "()V" [aload 0, callSpecial superName "<init>" "()V", op "return"],
      method "<init>" "(Ljava/lang/String;)V"
        [aload 0, aload 1, callSpecial superName "<init>" "(Ljava/lang/String;)V", op "return"]] }

/-- All core classes. -/
def all : List ClassText :=
  [objectClass, markerInterface cloneableName, markerInterface serializableName, classClass,
    stringClass, systemClass, printStreamClass, throwableClass]
    ++ throwables.map fun (name, superName) => throwableSubclass name superName

/-- The class files of the core classes by name. -/
def files : Except Fault (List (String × List UInt8)) :=
  all.mapM fun c => do return (c.name, ← c.assemble)

end Jvm.CoreClasses
