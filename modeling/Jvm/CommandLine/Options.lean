import Jvm.CommandLine.Sizes

/-! # Options

The options of the launcher come before the class to run, and what follows the class are arguments of the
program. The parser of the options is a part by itself, which the launcher does not look into: any that reads
command lines in order will do. In the one that the program runs with (`Options.parse`), options that are known are
still read after the class, until the first argument that is none, and an option's value is read when the next thing
is, or at the end, so complaints come in that order. -/

namespace Jvm.CommandLine

/-- The options that take a value. -/
inductive ValueOption where
  | classPath
  | initialHeap
  | maxHeap
  | blockSize
  | maxFrames
deriving DecidableEq, Inhabited, Repr

/-- The options. -/
inductive Flag where
  | value (o : ValueOption)
  | verbose
  | help
  | version
deriving DecidableEq, Inhabited, Repr

/-- Why a command line is not run. -/
inductive Usage where
  | missingRequiredArgument
  | invalidValue
  | unknownArgument
  | argumentConflict
  | valueValidation
  | tooManyValues
  | displayHelp
  | displayVersion
deriving DecidableEq, Inhabited, Repr

/-- The name of a usage. -/
def Usage.name : Usage → String
  | missingRequiredArgument => "MissingRequiredArgument"
  | invalidValue => "InvalidValue"
  | unknownArgument => "UnknownArgument"
  | argumentConflict => "ArgumentConflict"
  | valueValidation => "ValueValidation"
  | tooManyValues => "TooManyValues"
  | displayHelp => "DisplayHelp"
  | displayVersion => "DisplayVersion"

/-- The options and arguments of a command line. -/
structure Options where
  classPath : Option String
  initialHeap : Option Nat
  maxHeap : Option Nat
  blockSize : Option Nat
  maxFrames : Option Nat
  verbose : Nat
  mainClass : String
  args : List String
deriving DecidableEq, Inhabited, Repr

namespace Options

/-- Where classes are found. -/
def path (o : Options) : String := o.classPath.getD "."

/-- The directories in which classes are found. -/
def directories (o : Options) : List String := (o.path.splitOn ":").filter (· != "")

/-- How much is logged. -/
def level (o : Options) : String :=
  match o.verbose with
  | 0 => "WARN"
  | 1 => "INFO"
  | 2 => "DEBUG"
  | _ => "TRACE"

/-- The internal name of the class to run. -/
def className (o : Options) : String :=
  let name := if o.mainClass.endsWith ".class" then (o.mainClass.dropEnd ".class".length).copy
    else o.mainClass
  name.map fun c => if c = '.' then '/' else c

end Options

/-! ## Names of options -/

/-- The option of a long name. -/
def longFlag? : String → Option Flag
  | "class-path" | "cp" => some (.value .classPath)
  | "initial-heap" => some (.value .initialHeap)
  | "max-heap" => some (.value .maxHeap)
  | "block-size" => some (.value .blockSize)
  | "max-frames" => some (.value .maxFrames)
  | "verbose" => some .verbose
  | "help" => some .help
  | "version" => some .version
  | _ => none

/-- The option of a letter. -/
def shortFlag? : Char → Option Flag
  | 'c' => some (.value .classPath)
  | 'v' => some .verbose
  | 'h' => some .help
  | 'V' => some .version
  | _ => none

/-- How an argument is written. -/
inductive Word where
  | escape
  | long (name : String) (value : Option String)
  | short (letters : List Char)
  | plain
deriving DecidableEq, Inhabited, Repr

/-- A text before and behind its first equals sign. -/
def splitEquals (cs : List Char) : String × Option String :=
  let name := String.ofList (cs.takeWhile (· != '='))
  match cs.dropWhile (· != '=') with
  | _ :: value => (name, some (String.ofList value))
  | [] => (name, none)

/-- How an argument is written. -/
def Word.ofArg (arg : String) : Word :=
  match arg.toList with
  | ['-', '-'] => .escape
  | '-' :: '-' :: rest => .long (splitEquals rest).1 (splitEquals rest).2
  | ['-'] => .plain
  | '-' :: letters => .short letters
  | _ => .plain

/-! ## The parser -/

/-- What has been read of a command line. -/
structure Progress where
  options : Options
  hasClass : Bool
  pending : Option (ValueOption × Option String)
deriving DecidableEq, Inhabited, Repr

namespace Progress

/-- Nothing has been read. -/
def start : Progress := ⟨⟨none, none, none, none, none, 0, "", []⟩, false, none⟩

/-- The value of an option that is given for the first time. -/
def once {α : Type} (old : Option α) (value : Except Usage α) : Except Usage (Option α) :=
  match old with
  | some _ => .error .argumentConflict
  | none => value.map some

/-- The size that is the value of an option. -/
def sizeValue (value : String) : Except Usage Nat :=
  (parseSize value).mapError fun _ => .valueValidation

/-- The count that is the value of an option. -/
def countValue (value : String) : Except Usage Nat :=
  match count? value.toList with
  | some n => .ok n
  | none => .error .valueValidation

/-- Gives an option its value. -/
def assign (o : Options) (value : String) : ValueOption → Except Usage Options
  | .classPath => do return { o with classPath := ← once o.classPath (.ok value) }
  | .initialHeap => do return { o with initialHeap := ← once o.initialHeap (sizeValue value) }
  | .maxHeap => do return { o with maxHeap := ← once o.maxHeap (sizeValue value) }
  | .blockSize => do return { o with blockSize := ← once o.blockSize (sizeValue value) }
  | .maxFrames => do return { o with maxFrames := ← once o.maxFrames (countValue value) }

/-- Finishes the option that is not done. -/
def settle (p : Progress) : Except Usage Progress :=
  match p.pending with
  | none => .ok p
  | some (_, none) => .error .invalidValue
  | some (option, some value) => do
    return { p with options := ← assign p.options value option, pending := none }

/-- Reads an option whose value comes next. -/
def await (p : Progress) (option : ValueOption) : Except Usage Progress := do
  return { ← p.settle with pending := some (option, none) }

/-- Reads an option with its value. -/
def give (p : Progress) (option : ValueOption) (value : String) : Except Usage Progress := do
  let p ← p.settle
  return { p with options := ← assign p.options value option }

/-- The greatest count of requests for more logging. -/
def maxVerbose : Nat := 255

/-- Reads an option without a value. -/
def raise (p : Progress) (stop : Option Usage) : Except Usage Progress := do
  let p ← p.settle
  match stop with
  | some usage => throw usage
  | none => return { p with options.verbose := min (p.options.verbose + 1) maxVerbose }

/-- Reads an option, with the value that is attached to it. -/
def flag (p : Progress) (f : Flag) (attached : Option String) : Except Usage Progress :=
  match f, attached with
  | .value option, some value => p.give option value
  | .value option, none => p.await option
  | _, some _ => .error .tooManyValues
  | .verbose, none => p.raise none
  | .help, none => p.raise (some .displayHelp)
  | .version, none => p.raise (some .displayVersion)

/-- Reads letters; what follows the letter of an option with a value is its value. -/
def letters (p : Progress) : List Char → Except Usage Progress
  | [] => .ok p
  | c :: rest =>
    match shortFlag? c, rest with
    | none, _ => .error .unknownArgument
    | some (.value option), [] => p.await option
    | some (.value option), '=' :: value => p.give option (String.ofList value)
    | some (.value option), value => p.give option (String.ofList value)
    | some f, rest => do (← p.flag f none).letters rest

/-- Whether an argument is an option here; behind the class those that are not known are none. -/
def isOption (p : Progress) : Word → Bool
  | .escape | .plain => false
  | .long name _ => !p.hasClass || (longFlag? name).isSome
  | .short letters => !p.hasClass || letters.all fun c => (shortFlag? c).isSome

/-- Reads an option. -/
def word (p : Progress) : Word → Except Usage Progress
  | .long name attached =>
    match longFlag? name with
    | some f => p.flag f attached
    | none => .error .unknownArgument
  | .short letters => p.letters letters
  | .escape | .plain => .ok p

end Progress

/-- Reads the rest of a command line; once options have ended, everything is the class or an argument. -/
def readArgs (p : Progress) (ended : Bool) : List String → Except Usage Progress
  | [] => p.settle
  | arg :: rest =>
    let w := Word.ofArg arg
    if !ended && w = .escape then readArgs p true rest
    else if !ended && p.isOption w then do readArgs (← p.word w) false rest
    else
      match ended, p.pending with
      | false, some (option, none) =>
        readArgs { p with pending := some (option, some arg) } false rest
      | _, _ => do
        let p ← p.settle
        if p.hasClass then return { p with options.args := arg :: rest }
        else readArgs { p with options.mainClass := arg, hasClass := true } ended rest

/-- Reads a command line, which begins with the name of the program. -/
def Options.parse (commandLine : List String) : Except Usage Options := do
  let p ← readArgs .start false commandLine.tail
  if p.hasClass then return p.options else throw .missingRequiredArgument

/-! ## Spellings -/

/-- The options whose next argument is a value. -/
def valueSpellings : List String :=
  ["-c", "--class-path", "--cp", "--initial-heap", "--max-heap", "--block-size", "--max-frames"]

/-- The spellings of the class path option that stand for `--cp`. -/
def classPathSpellings : List String := ["-cp", "-classpath"]

/-- What an argument is to one who only looks for the class path option. -/
inductive Role where
  | classPath
  | valued
  | flag
  | positional
deriving DecidableEq, Inhabited, Repr

/-- The role of an argument, by its text; one that is not text is no option. -/
def Role.ofText? : Option String → Role
  | none => positional
  | some text =>
    if text ∈ classPathSpellings then classPath
    else if text ∈ valueSpellings then valued
    else if text.startsWith "-" then flag
    else positional

/-- A kind of arguments: their texts, and the argument `--cp`. -/
structure Spelling (α : Type) where
  text? : α → Option String
  classPath : α
  text?_classPath : text? classPath = some "--cp"

namespace Spelling

variable {α : Type}

/-- Spells the class path option `--cp` where it is spelt in another way, as far as the first argument that is
no option and no value; `awaited` says whether the next argument is the value of an option. -/
def respell (w : Spelling α) (awaited : Bool) : List α → List α
  | [] => []
  | arg :: rest =>
    if awaited then arg :: w.respell false rest
    else
      match Role.ofText? (w.text? arg) with
      | .classPath => w.classPath :: w.respell true rest
      | .valued => arg :: w.respell true rest
      | .flag => arg :: w.respell false rest
      | .positional => arg :: rest

/-- A command line with one spelling of the class path option, as far as the class to run. It begins with the
name of the program. -/
def normalize (w : Spelling α) : List α → List α
  | [] => []
  | program :: args => program :: w.respell false args

/-- Arguments that are texts. -/
def texts : Spelling String := ⟨some, "--cp", rfl⟩

end Spelling

/-- An argument as a process is given it: bytes, which need not be the UTF-8 of a text. -/
structure Argument where
  bytes : ByteArray
deriving Inhabited

/-- The argument that is a text. -/
def Argument.ofText (text : String) : Argument := ⟨text.toUTF8⟩

/-- The text of an argument, if it is one. -/
def Argument.text? (a : Argument) : Option String := String.fromUTF8? a.bytes

theorem Argument.text?_ofText (text : String) : (ofText text).text? = some text := dif_pos text.isValidUTF8

/-- Arguments as a process is given them. -/
def Spelling.arguments : Spelling Argument := ⟨Argument.text?, .ofText "--cp", Argument.text?_ofText _⟩

/-- A command line of texts with one spelling of the class path option, as far as the class to run. -/
def normalize (commandLine : List String) : List String := Spelling.texts.normalize commandLine

end Jvm.CommandLine
