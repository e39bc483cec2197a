/-! # Faults

The ways in which reading, linking or running a class can fail. Most faults have a throwable class:
inside a running thread they are raised as objects of that class, which programs can catch. -/

namespace Jvm

/-- A class or member name with dots in place of slashes. -/
def dotted (name : String) : String := name.map fun c => if c = '/' then '.' else c

/-- A failure of the machine. -/
inductive Fault where
  | classFormat (detail : String)
  | verify (detail : String)
  | classNotFound (detail : String)
  | linkage (detail : String)
  | classCircularity (detail : String)
  | incompatibleClassChange (detail : String)
  | noSuchMethod (detail : String)
  | noSuchField (detail : String)
  | abstractMethod (detail : String)
  | unsatisfiedLink (detail : String)
  | initialization (className message : String)
  | outOfMemory (detail : String)
  | stackOverflow
  | uncaught (thread className : String) (message : Option String) (trace : List String)
  | internal (detail : String)
deriving DecidableEq, Inhabited, Repr

namespace Fault

/-- A text with a message behind a colon, if there is one. -/
def withMessage (text : String) : Option String → String
  | some m => text ++ ": " ++ m
  | none => text

/-- The text of a fault. -/
def message : Fault → String
  | classFormat d => "ClassFormatError: " ++ d
  | verify d => "VerifyError: " ++ d
  | classNotFound d => "NoClassDefFoundError: " ++ d
  | linkage d => "LinkageError: " ++ d
  | classCircularity d => "ClassCircularityError: " ++ d
  | incompatibleClassChange d => "IncompatibleClassChangeError: " ++ d
  | noSuchMethod d => "NoSuchMethodError: " ++ d
  | noSuchField d => "NoSuchFieldError: " ++ d
  | abstractMethod d => "AbstractMethodError: " ++ d
  | unsatisfiedLink d => "UnsatisfiedLinkError: " ++ d
  | initialization c m => "ExceptionInInitializerError: " ++ c ++ ": " ++ m
  | outOfMemory d => "OutOfMemoryError: " ++ d
  | stackOverflow => "StackOverflowError"
  | uncaught thread c m _ =>
    withMessage ("Exception in thread \"" ++ thread ++ "\" " ++ dotted c) m
  | internal d => "internal error: " ++ d

/-- The name of a fault's kind. -/
def kind : Fault → String
  | classFormat _ => "ClassFormat"
  | verify _ => "Verify"
  | classNotFound _ => "ClassNotFound"
  | linkage _ => "Linkage"
  | classCircularity _ => "ClassCircularity"
  | incompatibleClassChange _ => "IncompatibleClassChange"
  | noSuchMethod _ => "NoSuchMethod"
  | noSuchField _ => "NoSuchField"
  | abstractMethod _ => "AbstractMethod"
  | unsatisfiedLink _ => "UnsatisfiedLink"
  | initialization _ _ => "Initialization"
  | outOfMemory _ => "OutOfMemory"
  | stackOverflow => "StackOverflow"
  | uncaught _ _ _ _ => "UncaughtException"
  | internal _ => "Internal"

/-- The class of the object a fault is raised as inside a thread; none if it ends the thread. -/
def throwableClass : Fault → Option String
  | classFormat _ => some "java/lang/ClassFormatError"
  | verify _ => some "java/lang/VerifyError"
  | classNotFound _ => some "java/lang/NoClassDefFoundError"
  | linkage _ => some "java/lang/LinkageError"
  | classCircularity _ => some "java/lang/ClassCircularityError"
  | incompatibleClassChange _ => some "java/lang/IncompatibleClassChangeError"
  | noSuchMethod _ => some "java/lang/NoSuchMethodError"
  | noSuchField _ => some "java/lang/NoSuchFieldError"
  | abstractMethod _ => some "java/lang/AbstractMethodError"
  | unsatisfiedLink _ => some "java/lang/UnsatisfiedLinkError"
  | initialization _ _ => some "java/lang/ExceptionInInitializerError"
  | outOfMemory _ => some "java/lang/OutOfMemoryError"
  | stackOverflow => some "java/lang/StackOverflowError"
  | uncaught _ _ _ _ | internal _ => none

/-- The message of the object a fault is raised as. -/
def detail : Fault → Option String
  | classFormat d | verify d | classNotFound d | linkage d | classCircularity d
  | incompatibleClassChange d | noSuchMethod d | noSuchField d | abstractMethod d
  | unsatisfiedLink d | outOfMemory d | internal d => some d
  | initialization c m => some (c ++ ": " ++ m)
  | stackOverflow => none
  | uncaught _ c m _ => some (withMessage c m)

end Fault

/-- The checks of running code that raise an exception when they fail. -/
inductive RuntimeCheck where
  | nullPointer
  | arrayIndexOutOfBounds
  | arithmetic
  | classCast
  | negativeArraySize
  | arrayStore
  | illegalMonitorState
deriving DecidableEq, Inhabited, Repr

/-- The name of a check. -/
def RuntimeCheck.name : RuntimeCheck → String
  | nullPointer => "NullPointer"
  | arrayIndexOutOfBounds => "ArrayIndexOutOfBounds"
  | arithmetic => "Arithmetic"
  | classCast => "ClassCast"
  | negativeArraySize => "NegativeArraySize"
  | arrayStore => "ArrayStore"
  | illegalMonitorState => "IllegalMonitorState"

/-- All checks. -/
def RuntimeCheck.all : List RuntimeCheck :=
  [nullPointer, arrayIndexOutOfBounds, arithmetic, classCast, negativeArraySize, arrayStore,
    illegalMonitorState]

/-- The check of a name. -/
def RuntimeCheck.ofName? (name : String) : Option RuntimeCheck := all.find? (·.name == name)

/-- The class of the exception that a failed check raises. -/
def RuntimeCheck.className : RuntimeCheck → String
  | nullPointer => "java/lang/NullPointerException"
  | arrayIndexOutOfBounds => "java/lang/ArrayIndexOutOfBoundsException"
  | arithmetic => "java/lang/ArithmeticException"
  | classCast => "java/lang/ClassCastException"
  | negativeArraySize => "java/lang/NegativeArraySizeException"
  | arrayStore => "java/lang/ArrayStoreException"
  | illegalMonitorState => "java/lang/IllegalMonitorStateException"

end Jvm
