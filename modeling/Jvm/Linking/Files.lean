import Jvm.Linking.ClassPath

/-! # Files

The files below a directory as a finite table, and the class paths that look classes up among them. A path
is followed name by name from the directory it starts in; the class `p/Name` is the file `p/Name.class`
below the root of its class path. -/

namespace Jvm.Linking

/-- Some files and directories by their place, each given by the names on the way to it. -/
abbrev Files := List (List String × Option (List UInt8))

/-- What there is at a place. -/
inductive FileEntry where
  | file (bytes : List UInt8)
  | directory
deriving DecidableEq, Inhabited, Repr

namespace Files

/-- What is reported where a directory is needed and a file is found. -/
def notADirectory : String := "Not a directory (os error 20)"

/-- What is reported where a file is needed and a directory is found. -/
def isADirectory : String := "Is a directory (os error 21)"

/-- What is reported for a name that is too long. -/
def nameTooLong : String := "File name too long (os error 36)"

/-- What is reported for a path that holds the character zero. -/
def zeroInName : String := "file name contained an unexpected NUL byte"

/-- The greatest number of bytes of a name. -/
def maxNameBytes : Nat := 255

/-- The greatest number of bytes of a path. -/
def maxPathBytes : Nat := 4095

/-- The names on a path; one that starts at the top begins with a slash. -/
def parts (path : String) : List String :=
  if path.startsWith "/" then "/" :: path.splitOn "/" else path.splitOn "/"

/-- The place that a name leads to from another place. -/
def move (place : List String) (part : String) : List String :=
  if part = "" ∨ part = "." then place
  else if part = ".." then
    match place.getLast? with
    | none | some ".." => place ++ [".."]
    | some "/" => place
    | some _ => place.dropLast
  else place ++ [part]

/-- The place that a path leads to if everything on the way is a directory. -/
def place (path : String) : List String := (parts path).foldl move []

/-- What there is at a place: directories are also those on the way to something. -/
def entry? (files : Files) (place : List String) : Option FileEntry :=
  match files.lookup place with
  | some (some bytes) => some (.file bytes)
  | some none => some .directory
  | none =>
    if place.isEmpty || files.any fun (other, _) => place.isPrefixOf other then some .directory
    else none

/-- Follows names from a place to a file, which is not there if something on the way is not. -/
def follow (files : Files) (place : List String) :
    List String → Except String (Option (List UInt8))
  | [] =>
    match files.entry? place with
    | some (.file bytes) => .ok (some bytes)
    | some .directory => .error isADirectory
    | none => .ok none
  | part :: rest =>
    match files.entry? place with
    | some (.file _) => .error notADirectory
    | some .directory =>
      if maxNameBytes < part.utf8ByteSize then .error nameTooLong
      else files.follow (move place part) rest
    | none => .ok none

/-- Reads the file at a path. -/
def read (files : Files) (path : String) : Except String (Option (List UInt8)) :=
  if path.contains '\x00' then .error zeroInName
  else if maxPathBytes < path.utf8ByteSize then .error nameTooLong
  else files.follow [] (parts path)

/-- Whether a class name can be that of a file: none of its parts is empty or relative. -/
def isFileName (name : String) : Bool :=
  (name.splitOn "/").all fun part => part != "" && part != "." && part != ".."

/-- The name of the class whose file is at a place below another one. -/
def className? (root place : List String) : Option String :=
  if root.isPrefixOf place then
    let path := "/".intercalate (place.drop root.length)
    if path.endsWith ".class" then some (path.dropEnd ".class".length).copy else none
  else none

/-- The names of the classes whose files are below a path. -/
def classNames (files : Files) (root : String) : List String :=
  files.filterMap fun (other, _) => className? (place root) other

/-- The path of something below a root, with a slash between them unless the root ends with one. -/
def below (root path : String) : String :=
  if root = "" || root.endsWith "/" then root ++ path else root ++ "/" ++ path

/-- Looks the file of a class up below a path. -/
def lookUp (files : Files) (root name : String) : Except String (Option (List UInt8)) :=
  if isFileName name then files.read (below root (name ++ ".class")) else .ok none

/-- The classes whose files are below a path. -/
def classPath (files : Files) (root : String) : ClassPath :=
  let names := files.classNames root
  { find := fun name => (files.lookUp root name).map fun found =>
      found.filter fun _ => decide (name ∈ names)
    names := names
    known := fun name bytes h => by
      cases hl : files.lookUp root name with
      | error e => rw [hl] at h; cases h
      | ok found =>
        rw [hl] at h
        simpa using (Option.filter_eq_some_iff.1 (Except.ok.inj h)).2 }

end Files

end Jvm.Linking
