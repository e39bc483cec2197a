import Jvm.CoreClasses
import Jvm.Execution.Frame

/-! # Native methods

Which native methods there are. A method declared `native` is bound by class, name and descriptor to one of
the methods of the core classes or to an action of the host. -/

namespace Jvm.Execution

/-- The native methods of the core classes. -/
inductive CoreNative where
  | hashCode
  | getClass
  | objectToString
  | clone
  | intern
  | stringEquals
  | stringHashCode
  | concat
  | valueOf
  | arraycopy
  | identityHashCode
  | gc
  | nanoTime
  | currentTimeMillis
  | print (descriptor : String) (newline : Bool)
  | fillInStackTrace
  | throwableToString
  | printStackTrace
deriving DecidableEq, Inhabited, Repr

/-- What a native method of the host does. -/
inductive HostAction where
  | nothing
  | value (v : Value)
  | argument (i : Nat)
  | sum
  | raise (check : RuntimeCheck) (message : Option String)
  | exception (className : String) (message : Option String)
  | fault (e : Fault)
  | throwArgument
  | string (text : String)
  | chars (units : List UInt16)
  | strings (n : Nat)
  | read
  | intern
  | threadName
  | describe
  | trace
  | className
  | classObject
  | hash
  | call (name descriptor : String)
  | fill
  | gc
  | usedBytes
  | objectCount
  | write (toError : Bool) (text : String)
deriving DecidableEq, Inhabited, Repr

/-- An implementation of a native method. -/
inductive Native where
  | core (method : CoreNative)
  | host (action : HostAction)
deriving DecidableEq, Inhabited, Repr

/-- What a native method is bound by. -/
structure NativeKey where
  className : String
  name : String
  descriptor : String
deriving DecidableEq, Inhabited, Repr

/-- The bound native methods; the first binding of a key counts. -/
abbrev NativeTable := List (NativeKey × Native)

namespace NativeTable

open CoreClasses Assembly

/-- The descriptor of methods that give back a text. -/
def textDescriptor : String := "()Ljava/lang/String;"

/-- The methods that print, for one descriptor. -/
def printing (descriptor : String) : NativeTable :=
  [(⟨printStreamName, "print", descriptor⟩, .core (.print descriptor false)),
    (⟨printStreamName, "println", descriptor⟩, .core (.print descriptor true))]

/-- The native methods of the core classes. -/
def core : NativeTable :=
  [(⟨objectName, "hashCode", "()I"⟩, .core .hashCode),
    (⟨objectName, "getClass", "()Ljava/lang/Class;"⟩, .core .getClass),
    (⟨objectName, "toString", textDescriptor⟩, .core .objectToString),
    (⟨objectName, "clone", "()Ljava/lang/Object;"⟩, .core .clone),
    (⟨stringName, "intern", textDescriptor⟩, .core .intern),
    (⟨stringName, "equals", "(Ljava/lang/Object;)Z"⟩, .core .stringEquals),
    (⟨stringName, "hashCode", "()I"⟩, .core .stringHashCode),
    (⟨stringName, "concat", "(Ljava/lang/String;)Ljava/lang/String;"⟩, .core .concat),
    (⟨stringName, "valueOf", "(I)Ljava/lang/String;"⟩, .core .valueOf),
    (⟨stringName, "valueOf", "(J)Ljava/lang/String;"⟩, .core .valueOf),
    (⟨stringName, "valueOf", "(Ljava/lang/Object;)Ljava/lang/String;"⟩, .core .valueOf),
    (⟨systemName, "arraycopy", arraycopyDescriptor⟩, .core .arraycopy),
    (⟨systemName, "identityHashCode", "(Ljava/lang/Object;)I"⟩, .core .identityHashCode),
    (⟨systemName, "gc", "()V"⟩, .core .gc),
    (⟨systemName, "nanoTime", "()J"⟩, .core .nanoTime),
    (⟨systemName, "currentTimeMillis", "()J"⟩, .core .currentTimeMillis),
    (⟨printStreamName, "println", "()V"⟩, .core (.print "()V" true)),
    (⟨throwableName, "fillInStackTrace", "()Ljava/lang/Throwable;"⟩, .core .fillInStackTrace),
    (⟨throwableName, "toString", textDescriptor⟩, .core .throwableToString),
    (⟨throwableName, "printStackTrace", "()V"⟩, .core .printStackTrace)]
    ++ printDescriptors.flatMap printing

/-- The table with more methods, which take the place of others of their keys; of several with one key
the last counts. -/
def extend (t : NativeTable) (more : NativeTable) : NativeTable := more.reverse ++ t

/-- The implementation of a method. -/
def find? (t : NativeTable) (m : Linking.Method) : Option Native :=
  t.lookup ⟨m.className, m.name, m.descriptor⟩

end NativeTable

end Jvm.Execution
