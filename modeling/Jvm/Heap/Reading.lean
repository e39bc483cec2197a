import Jvm.Assembly.Tree
import Jvm.Heap.Basic

/-! # Reading heap requests

The sizes of a heap and the objects that are asked for can be described by records, with names in the place
of classes. -/

namespace Jvm.Assembly

/-- The sizes that a record gives; those it does not give are the usual ones. -/
def Tree.heapConfig (t : Tree) : Heap.Config :=
  let base := Heap.Config.standard
  let c := { base with
    initial := ((t.part "initial").optional size).getD base.initial
    max := ((t.part "max").optional size).getD base.max }
  ((t.part "block").optional size).elim c c.withBlock

/-- The element kind of a name. -/
def Tree.elementKind (t : Tree) : ElementKind := (ElementKind.ofName? t.text).getD .reference

/-- The request that a record describes: an instance, an array with elements or an array of zeros; the
error is a negative length. -/
def Tree.heapRequest (t : Tree) : Except Int32 (Heap.Request String) :=
  let cls := (t.part "class").text
  let kind := (t.part "kind").elementKind
  match t.part? "fields", t.part? "elements" with
  | some fields, _ => .ok (.object cls (.fields (fields.items.map value).toArray))
  | none, some elements => .ok (.object cls (.array (.ofValues kind (elements.items.map value))))
  | none, none => Heap.Request.array cls kind (t.part "length").i4

end Jvm.Assembly
