import Jvm.Assembly.Tree
import Jvm.Execution.Native

/-! # Reading native methods

The native methods of a host can be described by trees: a record for each of its class, name and
descriptor, and of what it does, which is a list that begins with a word. -/

namespace Jvm.Assembly

open Execution

/-- The action that a list names. -/
def Tree.hostAction (t : Tree) : HostAction :=
  let x := t.item 1
  let y := t.item 2
  match t.head with
  | "value" => .value x.value
  | "arg" => .argument x.size
  | "sum" => .sum
  | "raise" => .raise ((RuntimeCheck.ofName? x.text).getD .nullPointer) y.text?
  | "exception" => .exception x.text y.text?
  | "error" => .fault x.fault
  | "throw_arg" => .throwArgument
  | "string" => .string x.text
  | "chars" => .chars (x.items.map u2)
  | "strings" => .strings x.nat
  | "read" => .read
  | "intern" => .intern
  | "thread_name" => .threadName
  | "describe" => .describe
  | "trace" => .trace
  | "class_name" => .className
  | "mirror" => .classObject
  | "hash" => .hash
  | "call" => .call x.text y.text
  | "fill" => .fill
  | "gc" => .gc
  | "used" => .usedBytes
  | "live" => .objectCount
  | "write" => .write (x.int == 2) y.text
  | _ => .nothing

/-- The binding that a record describes. -/
def Tree.binding (t : Tree) : NativeKey × Native :=
  (⟨(t.part "class").text, (t.part "name").text, (t.part "desc").text⟩,
    .host (t.part "do").hostAction)

/-- The native methods that a tree describes: none at all for a word, and otherwise those of the core
classes and the listed ones. -/
def Tree.natives (t : Tree) : NativeTable :=
  match t with
  | word _ => []
  | _ => NativeTable.core.extend (t.items.map binding)

end Jvm.Assembly
