import Jvm.ClassFile.References

/-! # Mentioned classes

A class is only ever looked up because it is the one to run or because the constants of a class that has
been loaded mention it. So the classes of a program can be gathered before it runs. -/

namespace Jvm.CommandLine

open ClassFile

/-- The class that the elements of the innermost arrays have; none if they are of a primitive type. A name
that is not that of an array class is kept. -/
def elementClass? (name : String) : Option String :=
  match name.toList with
  | '[' :: rest =>
    match rest.dropWhile (· == '[') with
    | 'L' :: inner => some (String.ofList inner.dropLast)
    | _ => none
  | _ => some name

/-- The class that a constant mentions. -/
def mentioned? (pool : ConstantPool) : Constant → Option String
  | .classRef name => (pool.utf8 name).toOption.bind elementClass?
  | _ => none

/-- The classes that a class file mentions. Bytes that are no class file mention none. -/
def mentionedClasses (bytes : List UInt8) : List String :=
  match ClassFile.parse bytes with
  | .ok c => c.pool.usable.filterMap fun (_, constant) => mentioned? c.pool constant
  | .error _ => []

end Jvm.CommandLine
