import Jvm.Fault
import Jvm.Heap.Object

/-! # The heap

Objects live in numbered slots; a free slot is used again, the one freed last first. Bytes are accounted
in blocks: an object that fits a block is given room in the current one, in the first one with room, or in
a new one, and a larger object gets a block of its own. All blocks together stay within a budget, which
grows by whole blocks up to a maximum. -/

namespace Jvm

namespace Heap

/-- The sizes of a heap. -/
structure Config where
  block : Nat
  initial : Nat
  max : Nat
deriving DecidableEq, Inhabited, Repr

namespace Config

/-- The sizes unless others are given. -/
def standard : Config := ⟨256 * 1024, 4 * 1024 * 1024, 256 * 1024 * 1024⟩

/-- The least block size. -/
def minBlock : Nat := 64

/-- The sizes with another block size. -/
def withBlock (c : Config) (bytes : Nat) : Config := { c with block := Nat.max bytes minBlock }

end Config

/-- A run of bytes that objects are given room in. -/
structure Block where
  capacity : Nat
  used : Nat
  live : Nat
  dedicated : Bool
  released : Bool
deriving DecidableEq, Inhabited, Repr

/-- The bytes that a block can still hand out. -/
def Block.room (b : Block) : Nat := b.capacity - b.used

/-- Whether an object of a size can be put into a block of the common size. -/
def Block.takes (b : Block) (size : Nat) : Bool :=
  !b.released && !b.dedicated && size ≤ b.room

/-- The counts of a heap's collections. -/
structure Tally where
  collections : Nat
  objects : Nat
  bytes : Nat
deriving DecidableEq, Inhabited, Repr

/-- A request for an object. -/
inductive Request (κ : Type) where
  | object (cls : κ) (contents : Contents)
  | zeros (cls : κ) (kind : ElementKind) (length : Nat)
deriving Inhabited, Repr

namespace Request

variable {κ : Type}

/-- The bytes that the object asked for counts for. -/
def bytes : Request κ → Nat
  | object _ contents => contents.bytes
  | zeros _ kind length => arrayBytes kind length

/-- The class of the object asked for. -/
def cls : Request κ → κ
  | object cls _ | zeros cls _ _ => cls

/-- The contents of the object asked for. -/
def contents : Request κ → Contents
  | object _ contents => contents
  | zeros _ kind length => .array (.zeros kind length)

/-- A request for an array of zeros; the error is a negative length. -/
def array (cls : κ) (kind : ElementKind) (length : Int32) : Except Int32 (Request κ) :=
  if length < 0 then .error length else .ok (.zeros cls kind length.toInt.toNat)

end Request

end Heap

/-- A heap whose objects have classes of type `κ`. -/
structure Heap (κ : Type) where
  config : Heap.Config
  slots : Array (Option (Object κ))
  free : List Nat
  blocks : Array Heap.Block
  current : Option Nat
  budget : Nat
  committed : Nat
  used : Nat
  objectCount : Nat
  tally : Heap.Tally
  seed : UInt32
deriving Inhabited, Repr

namespace Heap

variable {κ : Type}

/-- The state of the hash code generator at the start. -/
def firstSeed : UInt32 := 0x9E3779B9

/-- A heap without objects. -/
def empty (config : Config) : Heap κ where
  config := config
  slots := #[]
  free := []
  blocks := #[]
  current := none
  budget := min config.initial config.max
  committed := 0
  used := 0
  objectCount := 0
  tally := ⟨0, 0, 0⟩
  seed := firstSeed

/-! ## Room -/

/-- The next state of the hash code generator, a xorshift register. -/
def nextSeed (x : UInt32) : UInt32 :=
  let x := x ^^^ (x <<< 13)
  let x := x ^^^ (x >>> 17)
  x ^^^ (x <<< 5)

/-- The hash code of a generator state. -/
def hashOf (seed : UInt32) : Int32 := (seed &&& 0x7FFFFFFF).toInt32

/-- Adds a block, in the place of one that was given back if there is one. -/
def commit (h : Heap κ) (capacity : Nat) (dedicated : Bool) : Nat × Heap κ :=
  let block : Block := ⟨capacity, 0, 0, dedicated, false⟩
  let h := { h with committed := h.committed + capacity }
  match h.blocks.findIdx? (·.released) with
  | some i => (i, { h with blocks := h.blocks.setIfInBounds i block })
  | none => (h.blocks.size, { h with blocks := h.blocks.push block })

/-- Whether the current block has room for an object of a size. -/
def currentTakes? (h : Heap κ) (size : Nat) : Option Nat :=
  h.current.filter fun i => (h.blocks[i]?.map fun b => decide (size ≤ b.room)).getD false

/-- Finds a block with room for an object of a size, or adds one; none if the budget does not allow
it. -/
def reserve (h : Heap κ) (size : Nat) : Option (Nat × Heap κ) :=
  if h.config.block < size then
    if h.budget < h.committed + size then none else some (h.commit size true)
  else
    match h.currentTakes? size with
    | some i => some (i, h)
    | none =>
      match h.blocks.findIdx? (·.takes size) with
      | some i => some (i, { h with current := some i })
      | none =>
        if h.budget < h.committed + h.config.block then none
        else
          let (i, h) := h.commit h.config.block false
          some (i, { h with current := some i })

/-- Puts an object into a block that has room for it, at the free slot to use next. -/
def place (h : Heap κ) (request : Request κ) (block : Nat) : Ref × Heap κ :=
  let size := request.bytes
  let seed := nextSeed h.seed
  let object : Object κ :=
    ⟨request.cls, request.contents, Monitor.free, false, 0, hashOf seed, size, block⟩
  let h := { h with
    blocks := h.blocks.modify block fun b => { b with used := b.used + size, live := b.live + size }
    used := h.used + size
    objectCount := h.objectCount + 1
    seed }
  match h.free with
  | i :: free => (⟨i⟩, { h with slots := h.slots.setIfInBounds i (some object), free })
  | [] => (⟨h.slots.size⟩, { h with slots := h.slots.push (some object) })

/-- Creates an object within the budget; none if it does not fit. -/
def tryAllocate (h : Heap κ) (request : Request κ) : Option (Ref × Heap κ) :=
  (h.reserve request.bytes).map fun (block, h) => h.place request block

/-- Creates objects until one does not fit, `most` at most; `made` counts those before. -/
def fillUpTo (h : Heap κ) (request : Request κ) (made : Nat) : Nat → Nat × Heap κ
  | 0 => (made, h)
  | most + 1 =>
    match h.tryAllocate request with
    | some (_, h) => h.fillUpTo request (made + 1) most
    | none => (made, h)

/-- Creates objects until the budget is used up, and counts them. Each takes a byte or more. -/
def fill (h : Heap κ) (request : Request κ) : Nat × Heap κ :=
  h.fillUpTo request 0 (h.budget + 1)

/-- The bytes that a request of a size asks to be added in blocks. -/
def needed (h : Heap κ) (size : Nat) : Nat := max size h.config.block

/-- The number of blocks that cover some bytes. -/
def blocksFor (h : Heap κ) (bytes : Nat) : Nat := (bytes + h.config.block - 1) / h.config.block

/-- The budget that allows `target` bytes of blocks: the budget itself if it is enough, and else as many
blocks more as it takes, up to the maximum. -/
def budgetFor (h : Heap κ) (target : Nat) : Nat :=
  if h.budget < target then
    min (h.budget + h.blocksFor (target - h.budget) * h.config.block) h.config.max
  else h.budget

/-- Raises the budget for a request of a size. -/
def grow (h : Heap κ) (size : Nat) : Except Fault (Heap κ) :=
  let target := h.committed + h.needed size
  if h.config.max < target then
    .error (.outOfMemory ("cannot allocate " ++ toString size ++ " bytes: " ++ toString h.committed
      ++ " of " ++ toString h.config.max ++ " bytes committed"))
  else .ok { h with budget := h.budgetFor target }

/-- Raises the budget and creates an object. -/
def growAndAllocate (h : Heap κ) (request : Request κ) : Except Fault Ref × Heap κ :=
  let size := request.bytes
  match h.grow size with
  | .error e => (.error e, h)
  | .ok h =>
    match h.tryAllocate request with
    | some (r, h) => (.ok r, h)
    | none => (.error (.outOfMemory ("cannot allocate " ++ toString size ++ " bytes")), h)

/-! ## Objects -/

/-- The object behind a reference. -/
def object? (h : Heap κ) (r : Ref) : Option (Object κ) := h.slots[r.index]?.join

/-- The classes of all objects. -/
def classes (h : Heap κ) : List κ := h.slots.toList.filterMap fun slot => slot.map (·.cls)

/-- The object behind a reference, which has to be there. -/
def object (h : Heap κ) (r : Ref) : Except Fault (Object κ) :=
  match h.object? r with
  | some o => .ok o
  | none => .error (.internal ("dangling reference " ++ r.text))

/-- The heap with the object behind a reference changed. -/
def modifyObject (h : Heap κ) (r : Ref) (f : Object κ → Object κ) : Heap κ :=
  { h with slots := h.slots.modify r.index (Option.map f) }

/-- The heap with the contents of an object changed. -/
def modifyContents (h : Heap κ) (r : Ref) (f : Contents → Contents) : Heap κ :=
  h.modifyObject r fun o => { o with contents := f o.contents }

/-- The class of an object. -/
def classOf (h : Heap κ) (r : Ref) : Except Fault κ := (h.object r).map (·.cls)

/-- The complaint about a field slot that an object does not have. -/
def noFieldSlot (r : Ref) (slot : Nat) : Fault :=
  .internal (r.text ++ " has no field slot " ++ toString slot)

/-- A field of an instance. -/
def getField (h : Heap κ) (r : Ref) (slot : Nat) : Except Fault Value := do
  match (← h.object r).contents.fields?.bind (·[slot]?) with
  | some v => return v
  | none => throw (noFieldSlot r slot)

/-- The heap with another value in a field of an instance. -/
def putField (h : Heap κ) (r : Ref) (slot : Nat) (v : Value) : Heap κ :=
  h.modifyContents r (·.putField slot v)

/-- The heap after an assignment to a field of an instance, which has to be there. -/
def setField (h : Heap κ) (r : Ref) (slot : Nat) (v : Value) : Except Fault (Heap κ) := do
  let _ ← h.getField r slot
  return h.putField r slot v

/-- The heap with one more field at the end of an instance; none for an array. -/
def pushField (h : Heap κ) (r : Ref) (v : Value) : Except Fault (Option (Nat × Heap κ)) := do
  return (← h.object r).contents.fields?.map fun values =>
    (values.size + 1, h.modifyContents r (·.pushField v))

/-- The elements of an array. -/
def elements (h : Heap κ) (r : Ref) : Except Fault Elements := do
  match (← h.object r).contents.elements? with
  | some e => return e
  | none => throw (.internal (r.text ++ " is not an array"))

/-- The heap with other elements in an array. -/
def setElements (h : Heap κ) (r : Ref) (e : Elements) : Heap κ :=
  h.modifyContents r fun _ => .array e

/-- The heap with another value in an element of an array. -/
def putElement (h : Heap κ) (r : Ref) (i : Nat) (v : Value) : Heap κ :=
  h.modifyContents r (·.putElement i v)

/-- The heap after a store to an array; none if the array refuses it. -/
def storeElement (h : Heap κ) (r : Ref) (i : Nat) (v : Value) :
    Except Fault (Option (Heap κ)) := do
  return ((← h.elements r).kept? i v).map (h.putElement r i)

/-- The elements that an array has after a copy of `n` elements into it; none if a range or the kinds do
not fit. -/
def copied (h : Heap κ) (source : Ref) (sourceAt : Nat) (target : Ref) (targetAt n : Nat) :
    Except Fault (Option Elements) := do
  match (← h.elements source).slice? sourceAt n with
  | none => return none
  | some slice => return (← h.elements target).writeSlice? targetAt slice

/-- The heap after a copy of `n` elements between arrays; none if a range or the kinds do not fit. -/
def copyElements (h : Heap κ) (source : Ref) (sourceAt : Nat) (target : Ref) (targetAt n : Nat) :
    Except Fault (Option (Heap κ)) := do
  return (← h.copied source sourceAt target targetAt n).map (h.setElements target)

/-- The identity hash code of an object. -/
def identityHash (h : Heap κ) (r : Ref) : Except Fault Int32 := (h.object r).map (·.hash)

/-- The monitor of an object. -/
def monitor (h : Heap κ) (r : Ref) : Except Fault Monitor := (h.object r).map (·.monitor)

/-- The heap with the monitor of an object in another state. -/
def setMonitor (h : Heap κ) (r : Ref) (monitor : Monitor) : Heap κ :=
  h.modifyObject r fun o => { o with monitor }

/-- The heap after a thread has entered a monitor; none if another thread holds it. -/
def enterMonitor (h : Heap κ) (r : Ref) (thread : Nat) : Except Fault (Option (Heap κ)) := do
  return ((← h.monitor r).enter? thread).map (h.setMonitor r)

/-- The heap after a thread has left a monitor once, and whether the monitor is free now; none if the
thread does not hold it. -/
def exitMonitor (h : Heap κ) (r : Ref) (thread : Nat) :
    Except Fault (Option (Bool × Heap κ)) := do
  return ((← h.monitor r).exit? thread).map fun monitor => (monitor.isFree, h.setMonitor r monitor)

/-- The number of blocks that have not been given back. -/
def blockCount (h : Heap κ) : Nat := h.blocks.toList.countP (!·.released)

end Heap

end Jvm
