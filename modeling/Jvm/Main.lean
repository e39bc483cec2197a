import Std.Time.DateTime.Timestamp
import Jvm.CommandLine.Launch
import Jvm.CommandLine.Mentions

/-! # The program

Reads the command line and the class files that the program can need, runs it and writes what it wrote. -/

namespace Jvm.CommandLine

open Execution Linking

/-- The text for a command line that is not run. -/
def Usage.text : Usage → String
  | displayVersion => "jvm 0.1.0"
  | displayHelp => "Usage: jvm [OPTIONS] <CLASS> [ARGS]...\n\nOptions:\n"
      ++ "  -c, --class-path <PATH>    Directories searched for class files, separated by ':'\n"
      ++ "      --initial-heap <SIZE>  Heap budget before the first growth (e.g. 16m)\n"
      ++ "      --max-heap <SIZE>      Maximum heap size (e.g. 256m)\n"
      ++ "      --block-size <SIZE>    Size of one heap block (e.g. 256k)\n"
      ++ "      --max-frames <FRAMES>  Frames per thread before StackOverflowError\n"
      ++ "  -v, --verbose...           Raise log verbosity\n"
      ++ "  -h, --help                 Print help\n"
      ++ "  -V, --version              Print version"
  | missingRequiredArgument => "error: the class to run is missing"
  | invalidValue => "error: an option stands without its value"
  | unknownArgument => "error: an option is not known"
  | argumentConflict => "error: an option is given twice"
  | valueValidation => "error: the value of an option cannot be read"
  | tooManyValues => "error: an option takes no value"

/-- Whether a usage is what was asked for. -/
def Usage.isAsked : Usage → Bool
  | displayHelp | displayVersion => true
  | _ => false

/-- Classes that have been looked up. -/
structure Gathered where
  names : List String
  files : List (String × List UInt8)
  failures : List (String × String)

/-- The class path of what has been gathered. -/
def Gathered.classPath (g : Gathered) : ClassPath := (ClassPath.ofFiles g.files).failing g.failures

/-- Reads the class file of a name from the first of some directories that has it. -/
def readClass (name : String) : List String → IO (Except String (Option (List UInt8)))
  | [] => return .ok none
  | directory :: rest => do
    try
      return .ok (some (← IO.FS.readBinFile (directory ++ "/" ++ name ++ ".class")).toList)
    catch
      | .noFileOrDirectory .. => readClass name rest
      | e => return .error (toString e)

/-- Looks up names, and then those that the class files found mention. -/
partial def gather (directories : List String) (g : Gathered) : List String → IO Gathered
  | [] => return g
  | name :: rest => do
    if g.names.contains name || !Files.isFileName name then gather directories g rest
    else
      let g := { g with names := name :: g.names }
      match ← readClass name directories with
      | .ok none => gather directories g rest
      | .ok (some bytes) =>
        gather directories { g with files := (name, bytes) :: g.files }
          (mentionedClasses bytes ++ rest)
      | .error text => gather directories { g with failures := (name, text) :: g.failures } rest

/-- What the clocks show. -/
def readClock : IO Clock := do
  let millis := (← Std.Time.Timestamp.now).toMillisecondsSinceUnixEpoch
  return ⟨Int64.ofNat (← IO.monoNanosNow), Int64.ofInt millis.val⟩

/-- Runs the program that options name and writes what it wrote. -/
def runProgram (o : Options) : IO UInt32 := do
  let gathered ← gather o.directories ⟨[], [], []⟩ [o.className]
  let outcome := launch gathered.classPath (← readClock) o
  IO.print outcome.out
  IO.eprint outcome.err
  if let .error e := outcome.result then
    if !e.isReported then IO.eprintln ("Error: " ++ e.message)
  return (exitCode outcome.result).toUInt32

end Jvm.CommandLine

open Jvm.CommandLine in
/-- Runs the class that the command line names. -/
def main (args : List String) : IO UInt32 := do
  match Options.parse (normalize ("jvm" :: args)) with
  | .ok o => runProgram o
  | .error usage =>
    if usage.isAsked then
      IO.println usage.text
      return 0
    else
      IO.eprintln usage.text
      return 2
