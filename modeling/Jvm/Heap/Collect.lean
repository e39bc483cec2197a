import Jvm.Heap.Basic

/-! # Collection

A collection keeps the objects that can be reached from the roots through fields and elements, and frees
the slots of all others. Marking walks over a list of references still to be looked at; a reference to an
object without a mark marks it and puts the references of that object in front of the list. Every such
step leaves one unmarked object less, so marking ends. The sweep takes the marks away again. -/

namespace Jvm.Heap

variable {κ : Type}

/-! ## Marking -/

/-- Whether a slot holds an object without a mark. -/
def isUnmarked (slot : Option (Object κ)) : Bool := slot.any (!·.marked)

/-- The number of objects without a mark. -/
def unmarkedCount (h : Heap κ) : Nat := h.slots.countP isUnmarked

/-- The heap with a mark on an object. -/
def mark (h : Heap κ) (r : Ref) : Heap κ := h.modifyObject r Object.mark

/-- Marking an unmarked object leaves fewer of them. -/
theorem unmarkedCount_mark_lt {h : Heap κ} {r : Ref} {o : Object κ} (live : h.object? r = some o)
    (unmarked : o.marked = false) : (h.mark r).unmarkedCount < h.unmarkedCount := by
  obtain ⟨slot, found, rfl⟩ : ∃ slot, h.slots[r.index]? = some slot ∧ slot = some o := by
    simpa [object?, Option.join_eq_some_iff] using live
  obtain ⟨bound, at_r⟩ := Array.getElem?_eq_some_iff.1 found
  have here : isUnmarked h.slots[r.index] = true := by simp [at_r, isUnmarked, unmarked]
  have marked : isUnmarked (Option.map Object.mark h.slots[r.index]) = false := by
    simp [at_r, isUnmarked, Object.mark]
  have some_unmarked : 0 < h.slots.countP isUnmarked :=
    Array.countP_pos_iff.2 ⟨_, Array.getElem_mem bound, here⟩
  have step : (h.mark r).slots = h.slots.set r.index (h.slots[r.index].map Object.mark) bound := by
    refine Array.ext (by simp [mark, modifyObject]) fun i _ _ => ?_
    simp only [mark, modifyObject, Array.getElem_modify, Array.getElem_set]
    split <;> simp_all
  rw [unmarkedCount, unmarkedCount, step, Array.countP_set, here, marked]
  simp only [if_true, Bool.false_eq_true, if_false]
  omega

/-- Marks the objects that can be reached from some references through objects without marks, and adds
their number to `found`. -/
def markFrom (h : Heap κ) (found : Nat) : List Ref → Nat × Heap κ
  | [] => (found, h)
  | r :: pending =>
    match _live : h.object? r with
    | none => h.markFrom found pending
    | some o =>
      if _marked : o.marked then h.markFrom found pending
      else (h.mark r).markFrom (found + 1) (o.contents.references ++ pending)
termination_by pending => (h.unmarkedCount, pending.length)
decreasing_by
  · exact Prod.Lex.right _ (by simp)
  · exact Prod.Lex.right _ (by simp)
  · exact Prod.Lex.left _ _ (unmarkedCount_mark_lt _live (by simpa using _marked))

/-! ## Sweeping -/

/-- What a collection did. -/
structure Summary where
  marked : Nat
  reclaimed : Nat
  bytes : Nat
  blocks : Nat
deriving DecidableEq, Inhabited, Repr

/-- The objects without a mark, with their slots, in increasing order of the slots. -/
def unmarked (h : Heap κ) : List (Nat × Object κ) :=
  h.slots.toList.zipIdx.filterMap fun (slot, i) => (slot.filter (!·.marked)).map fun o => (i, o)

/-- The bytes of some objects. -/
def totalSize (objects : List (Nat × Object κ)) : Nat := objects.foldr (fun (_, o) n => o.size + n) 0

/-- The blocks without the room of an object. -/
def withdraw (blocks : Array Block) (o : Object κ) : Array Block :=
  blocks.modify o.block fun b => { b with live := b.live - o.size }

/-- The heap without the objects that have no mark, with the others unmarked and one collection older. -/
def removeUnmarked (h : Heap κ) : Heap κ :=
  let lost := h.unmarked
  { h with
    slots := h.slots.map fun slot => (slot.filter (·.marked)).map Object.aged
    free := lost.foldl (fun free (i, _) => i :: free) h.free
    blocks := lost.foldl (fun blocks (_, o) => withdraw blocks o) h.blocks
    used := h.used - totalSize lost
    objectCount := h.objectCount - lost.length }

/-- Whether an empty block is given back: always if it was made for one object, and else if enough
blocks stay for the budget at the start. The current block is kept. -/
def gives (h : Heap κ) (i : Nat) (b : Block) : Bool :=
  b.live == 0 && (b.dedicated || h.config.initial ≤ h.committed - b.capacity) && h.current != some i

/-- Counts the room of a block anew, and gives the block back if it is not needed; the number counts the
blocks given back. -/
def settleBlock (state : Nat × Heap κ) (i : Nat) : Nat × Heap κ :=
  let (given, h) := state
  match h.blocks[i]? with
  | none => (given, h)
  | some b =>
    if b.released then (given, h)
    else
      let b := { b with used := b.live }
      if h.gives i b then
        (given + 1, { h with
          blocks := h.blocks.setIfInBounds i { b with released := true }
          committed := h.committed - b.capacity })
      else (given, { h with blocks := h.blocks.setIfInBounds i b })

/-- Settles all blocks in order. -/
def settleBlocks (h : Heap κ) : Nat × Heap κ :=
  (List.range h.blocks.size).foldl settleBlock (0, h)

/-- Keeps the objects that can be reached from the roots and frees the rest. -/
def collect (h : Heap κ) (roots : List Ref) : Summary × Heap κ :=
  let (found, h) := h.markFrom 0 roots
  let lost := h.unmarked
  let bytes := totalSize lost
  let (blocks, h) := h.removeUnmarked.settleBlocks
  (⟨found, lost.length, bytes, blocks⟩,
    { h with tally := ⟨h.tally.collections + 1, h.tally.objects + lost.length, h.tally.bytes + bytes⟩ })

/-- Creates an object: within the budget, or after a collection, or with a greater budget. -/
def allocate (h : Heap κ) (request : Request κ) (roots : List Ref) : Except Fault Ref × Heap κ :=
  match h.tryAllocate request with
  | some (r, h) => (.ok r, h)
  | none =>
    let (_, h) := h.collect roots
    match h.tryAllocate request with
    | some (r, h) => (.ok r, h)
    | none => h.growAndAllocate request

end Jvm.Heap
