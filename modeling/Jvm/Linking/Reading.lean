import Jvm.Assembly.Reading
import Jvm.CoreClasses
import Jvm.Linking.Files
import Jvm.Linking.Registry

/-! # Reading class paths

Where classes are found can be described by a record: lists of class descriptions for the application and
for the core classes, and names that cannot be looked up. -/

namespace Jvm.Assembly

open Linking

/-- The class path of the classes that a list describes. -/
def Tree.classPath (t : Tree) : Except Fault ClassPath :=
  return .ofFiles (← t.items.mapM classFile)

/-- The names that cannot be looked up, each with what is reported for it. -/
def Tree.lookupFailures : Tree → List (String × String)
  | record members => members.map fun (name, text) => (name, text.text)
  | _ => []

/-- The class paths that a record describes. Without core classes of its own, the application path ends
with `extra`. -/
def Tree.classPaths (t : Tree) (extra : List ClassPath) : Except Fault ClassPaths := do
  let first ← (t.part "classes").classPath
  let more ← (t.part "more_paths").items.mapM classPath
  let failures := (t.part "io_errors").lookupFailures
  let app (extra : List ClassPath) : ClassPath :=
    (ClassPath.join (first :: more ++ extra)).failing failures
  match t.part? "bootstrap" with
  | some classes => return ⟨← classes.classPath, app []⟩
  | none => return ⟨.ofFiles (← CoreClasses.files), app extra⟩

/-- The loader and the class that a text names, such as `boot:java/lang/Object`; without a loader in front
it is that of the application. Only the first loader counts: what stands behind it is the class. -/
def Tree.key (t : Tree) : Key :=
  match t.text.toList with
  | 'b' :: 'o' :: 'o' :: 't' :: ':' :: name => (.boot, String.ofList name)
  | 'a' :: 'p' :: 'p' :: ':' :: name => (.app, String.ofList name)
  | _ => (.app, t.text)

/-- The files that a record describes by their paths: class files, and directories in place of nothing. -/
def Tree.files : Tree → Except Fault Files
  | record members => members.mapM fun (path, t) => do
    let bytes ← if t.isBlank then pure none else some <$> t.classBytes
    return (Files.place path, bytes)
  | _ => .ok []

end Jvm.Assembly
