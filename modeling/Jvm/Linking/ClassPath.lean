import Jvm.Fault

/-! # Class paths

A class path maps class names to the bytes of class files. Looking a name up finds bytes, finds nothing, or
fails with a text. Only the names of a finite list have bytes, which is why loading ends. -/

namespace Jvm.Linking

/-- A source of class files. -/
structure ClassPath where
  find : String → Except String (Option (List UInt8))
  names : List String
  known : ∀ name bytes, find name = .ok (some bytes) → name ∈ names

namespace ClassPath

/-- A class path without class files. -/
def empty : ClassPath where
  find _ := .ok none
  names := []
  known _ _ h := by cases h

/-- The name of an entry that a lookup finds is among the names of the entries. -/
theorem mem_of_lookup {α : Type} {files : List (String × α)} {name : String} {a : α}
    (h : files.lookup name = some a) : name ∈ files.map (·.1) := by
  induction files with
  | nil => cases h
  | cons f rest ih =>
    rw [List.lookup_cons] at h
    split at h
    · simp_all
    · exact List.mem_cons_of_mem _ (ih h)

/-- The class files of a list; of several with one name, the last. -/
def ofFiles (files : List (String × List UInt8)) : ClassPath :=
  let latest := files.reverse
  { find := fun name => .ok (latest.lookup name)
    names := latest.map (·.1)
    known := fun _ _ h => mem_of_lookup (Except.ok.inj h) }

/-- The class files of two paths; the first path with a name wins. -/
def orElse (p q : ClassPath) : ClassPath where
  find name :=
    match p.find name with
    | .ok none => q.find name
    | found => found
  names := p.names ++ q.names
  known name bytes h := by
    rw [List.mem_append]
    split at h
    · exact .inr (q.known _ _ h)
    · exact .inl (p.known _ _ h)

/-- The class files of several paths. -/
def join (paths : List ClassPath) : ClassPath := paths.foldr orElse empty

/-- A path on which the lookup of some names fails. -/
def failing (p : ClassPath) (errors : List (String × String)) : ClassPath where
  find name :=
    match errors.lookup name with
    | some text => .error text
    | none => p.find name
  names := p.names
  known name bytes h := by
    split at h
    · cases h
    · exact p.known _ _ h

end ClassPath

/-- The name spaces that classes are loaded into. -/
inductive Loader where
  | boot
  | app
deriving DecidableEq, Hashable, Inhabited, Repr

/-- The name of a loader in messages. -/
def Loader.name : Loader → String
  | boot => "bootstrap"
  | app => "application"

/-- The class paths of both loaders. -/
structure ClassPaths where
  boot : ClassPath
  app : ClassPath

/-- The class path of a loader. -/
def ClassPaths.ofLoader (p : ClassPaths) : Loader → ClassPath
  | .boot => p.boot
  | .app => p.app

end Jvm.Linking
