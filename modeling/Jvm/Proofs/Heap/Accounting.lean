import Mathlib
import Jvm.Proofs.Heap.Collection

/-! # The accounts of a heap

The counters, the free list and the blocks of a heap agree with its objects (`Balanced`). Every operation
keeps this: a reservation finds a block with room (`HasRoom`), an object put there is accounted for, and a
sweep takes back exactly what the lost objects had. From it follows that no count ever has to go below
zero, and that a new object never takes the place of another: `balanced_after`. -/

namespace Jvm.Heap

variable {κ : Type}

/-- The bytes of an object, if it is in a block. -/
def bytesIn (block : Nat) (o : Object κ) : Nat := if o.block = block then o.size else 0

/-- The bytes of the blocks that have not been given back. -/
def capacityOf (blocks : Array Block) : Nat :=
  (blocks.toList.map fun b => if b.released then 0 else b.capacity).sum

/-- Whether the accounts agree with the objects. -/
structure Balanced (h : Heap κ) : Prop where
  nodup : h.free.Nodup
  free : ∀ i : Nat, i ∈ h.free ↔ h.slots[i]? = some none
  count : h.objectCount = total (fun _ => 1) h.slots
  used : h.used = total Object.size h.slots
  size : ∀ r o, h.object? r = some o → 0 < o.size
  placed : ∀ r o, h.object? r = some o → o.block < h.blocks.size
  live : ∀ (i : Nat) (b : Block), h.blocks[i]? = some b → b.live = total (bytesIn i) h.slots
  room : ∀ (i : Nat) (b : Block), h.blocks[i]? = some b → b.live ≤ b.used ∧ b.used ≤ b.capacity
  released : ∀ (i : Nat) (b : Block), h.blocks[i]? = some b → b.released = true →
    ∀ r o, h.object? r = some o → o.block ≠ i
  committed : h.committed = capacityOf h.blocks
  budget : h.committed ≤ h.budget
  max : h.budget ≤ h.config.max
  current : ∀ i, h.current = some i →
    ∃ b, h.blocks[i]? = some b ∧ b.released = false ∧ b.dedicated = false
  dedicated : ∀ (i : Nat) (b : Block), h.blocks[i]? = some b → b.dedicated = true → ∀ r s o p,
    h.object? r = some o → h.object? s = some p → o.block = i → p.block = i → r = s

theorem balanced_empty (config : Config) : (empty config : Heap κ).Balanced where
  nodup := List.nodup_nil
  free i := by simp [empty]
  count := rfl
  used := rfl
  size r o ho := by simp at ho
  placed r o ho := by simp at ho
  live i b hb := by simp [empty] at hb
  room i b hb := by simp [empty] at hb
  released i b hb := by simp [empty] at hb
  committed := rfl
  budget := Nat.zero_le _
  max := min_le_right _ _
  current i hi := by simp [empty] at hi
  dedicated i b hb := by simp [empty] at hb

/-! ### Changes in place -/

theorem emptySlot_modifyObject {h : Heap κ} {r : Ref} {f : Object κ → Object κ} (i : Nat) :
    (h.modifyObject r f).slots[i]? = some none ↔ h.slots[i]? = some none := by
  rw [modifyObject, Array.getElem?_modify]
  split_ifs
  · rcases h.slots[i]? with _ | _ | o <;> simp
  · rfl

/-- An object after a change that keeps the accounts. -/
theorem exists_of_modifyObject {h : Heap κ} {r s : Ref} {f : Object κ → Object κ} {o : Object κ}
    (hf : ∀ o, (f o).size = o.size ∧ (f o).block = o.block)
    (ho : (h.modifyObject r f).object? s = some o) :
    ∃ o', h.object? s = some o' ∧ o.size = o'.size ∧ o.block = o'.block := by
  rw [object?_modifyObject] at ho
  split_ifs at ho
  · obtain ⟨o', ho', rfl⟩ := Option.map_eq_some_iff.mp ho
    exact ⟨o', ho', hf o'⟩
  · exact ⟨o, ho, rfl, rfl⟩

theorem Balanced.modify {h : Heap κ} (hh : h.Balanced) (r : Ref) {f : Object κ → Object κ}
    (hf : ∀ o, (f o).size = o.size ∧ (f o).block = o.block) : (h.modifyObject r f).Balanced where
  nodup := hh.nodup
  free i := (hh.free i).trans (emptySlot_modifyObject i).symm
  count := hh.count.trans (total_modifyObject_of_eq (f := f) h r fun _ => rfl).symm
  used := hh.used.trans (total_modifyObject_of_eq h r fun o => (hf o).1).symm
  size s o ho := by
    obtain ⟨o', ho', hsize, -⟩ := exists_of_modifyObject hf ho
    exact hsize ▸ hh.size s o' ho'
  placed s o ho := by
    obtain ⟨o', ho', -, hblock⟩ := exists_of_modifyObject hf ho
    exact hblock ▸ hh.placed s o' ho'
  live i b hb := by
    refine (hh.live i b hb).trans (total_modifyObject_of_eq h r fun o => ?_).symm
    rw [bytesIn, bytesIn, (hf o).1, (hf o).2]
  room := hh.room
  released i b hb hreleased s o ho := by
    obtain ⟨o', ho', -, hblock⟩ := exists_of_modifyObject hf ho
    exact hblock ▸ hh.released i b hb hreleased s o' ho'
  committed := hh.committed
  budget := hh.budget
  max := hh.max
  current := hh.current
  dedicated i b hb hdedicated s t o p ho hp hoi hpi := by
    obtain ⟨o', ho', -, hoblock⟩ := exists_of_modifyObject hf ho
    obtain ⟨p', hp', -, hpblock⟩ := exists_of_modifyObject hf hp
    exact hh.dedicated i b hb hdedicated s t o' p' ho' hp' (hoblock ▸ hoi) (hpblock ▸ hpi)

theorem Balanced.markFrom {h : Heap κ} (hh : h.Balanced) (found : Nat) (pending : List Ref) :
    (h.markFrom found pending).2.Balanced := by
  induction h, found, pending using markFrom.induct with
  | case1 h found =>
    rw [Heap.markFrom]
    exact hh
  | case2 h found r pending hdead ih =>
    rw [Heap.markFrom]
    split
    · exact ih hh
    · next o ho => rw [hdead] at ho; cases ho
  | case3 h found r pending o ho hmarked ih =>
    rw [Heap.markFrom]
    split
    · next hdead => rw [ho] at hdead; cases hdead
    · next o' ho' =>
      obtain rfl := Option.some.inj (ho.symm.trans ho')
      rw [dif_pos hmarked]
      exact ih hh
  | case4 h found r pending o ho hunmarked ih =>
    rw [Heap.markFrom]
    split
    · next hdead => rw [ho] at hdead; cases hdead
    · next o' ho' =>
      obtain rfl := Option.some.inj (ho.symm.trans ho')
      rw [dif_neg hunmarked]
      exact ih (hh.modify r fun _ => ⟨rfl, rfl⟩)

/-! ### Reserving -/

/-- Whether an object of a size can go to a block. -/
structure HasRoom (h : Heap κ) (block size : Nat) : Prop where
  room : ∃ b, h.blocks[block]? = some b ∧ b.released = false ∧ b.used + size ≤ b.capacity ∧
    (b.dedicated = true → ∀ r o, h.object? r = some o → o.block ≠ block)

theorem total_eq_zero_iff {w : Object κ → Nat} {h : Heap κ} :
    total w h.slots = 0 ↔ ∀ r o, h.object? r = some o → w o = 0 := by
  rw [total, List.sum_eq_zero_iff]
  constructor
  · intro hall r o ho
    have hmem : some o ∈ h.slots.toList :=
      Array.mem_toList_iff.mpr (Array.mem_of_getElem? (object?_eq_some.mp ho))
    exact hall _ (List.mem_map.mpr ⟨some o, hmem, rfl⟩)
  · rintro hall _ hx
    obtain ⟨slot, hmem, rfl⟩ := List.mem_map.mp hx
    rcases slot with _ | o
    · rfl
    · obtain ⟨i, hi⟩ := List.mem_iff_getElem?.mp hmem
      exact hall ⟨i⟩ o (object?_eq_some.mpr (by simpa using hi))

theorem Balanced.no_bytes {h : Heap κ} (hh : h.Balanced) {i : Nat} :
    total (bytesIn i) h.slots = 0 ↔ ∀ r o, h.object? r = some o → o.block ≠ i := by
  rw [total_eq_zero_iff]
  refine forall₂_congr fun r o => forall_congr' fun ho => ?_
  have hsize := hh.size r o ho
  rw [bytesIn]
  split_ifs with hblock
  · exact ⟨fun hzero => by omega, fun hne => absurd hblock hne⟩
  · exact ⟨fun _ => hblock, fun _ => rfl⟩

theorem capacityOf_set {blocks : Array Block} {i : Nat} {old : Block} (new : Block)
    (hold : blocks[i]? = some old) :
    capacityOf (blocks.setIfInBounds i new) + (if old.released then 0 else old.capacity) =
      capacityOf blocks + (if new.released then 0 else new.capacity) := by
  rw [capacityOf, capacityOf, Array.toList_setIfInBounds]
  exact sum_map_set (fun b : Block => if b.released then 0 else b.capacity) new _ i old
    (by rw [Array.getElem?_toList, hold])

theorem capacityOf_push (blocks : Array Block) (b : Block) :
    capacityOf (blocks.push b) = capacityOf blocks + if b.released then 0 else b.capacity := by
  simp [capacityOf]

/-- A heap with one block put in the place of a block without objects, or behind all others. -/
theorem Balanced.newBlock {h : Heap κ} (hh : h.Balanced) {i : Nat} {blocks : Array Block}
    {new : Block} (hi : blocks[i]? = some new) (hne : ∀ j : Nat, j ≠ i → blocks[j]? = h.blocks[j]?)
    (hsize : h.blocks.size ≤ blocks.size)
    (hempty : ∀ r o, h.object? r = some o → o.block ≠ i) (hcurrent : h.current ≠ some i)
    (hnew : new.live = 0 ∧ new.used = 0) {committed : Nat}
    (hcommitted : committed = capacityOf blocks) (hbudget : committed ≤ h.budget) :
    ({ h with blocks, committed } : Heap κ).Balanced where
  nodup := hh.nodup
  free := hh.free
  count := hh.count
  used := hh.used
  size := hh.size
  placed r o ho := (hh.placed r o ho).trans_le hsize
  live j b hb := by
    by_cases hj : j = i
    · subst hj
      obtain rfl := Option.some.inj (hi.symm.trans hb)
      exact hnew.1.trans (hh.no_bytes.mpr hempty).symm
    · exact hh.live j b (hne j hj ▸ hb)
  room j b hb := by
    by_cases hj : j = i
    · subst hj
      obtain rfl := Option.some.inj (hi.symm.trans hb)
      omega
    · exact hh.room j b (hne j hj ▸ hb)
  released j b hb hreleased := by
    by_cases hj : j = i
    · exact hj ▸ hempty
    · exact hh.released j b (hne j hj ▸ hb) hreleased
  committed := hcommitted
  budget := hbudget
  max := hh.max
  current j hj := by
    have hji : j ≠ i := fun heq => hcurrent (heq ▸ hj)
    obtain ⟨b, hb, hboth⟩ := hh.current j hj
    exact ⟨b, (hne j hji).trans hb, hboth⟩
  dedicated j b hb hdedicated r s o p ho hp hoj hpj := by
    by_cases hj : j = i
    · exact absurd (hoj.trans hj) (hempty r o ho)
    · exact hh.dedicated j b (hne j hj ▸ hb) hdedicated r s o p ho hp hoj hpj

/-- A heap with a block more. -/
theorem Balanced.commit {h : Heap κ} (hh : h.Balanced) {capacity : Nat} (dedicated : Bool)
    (hbudget : h.committed + capacity ≤ h.budget) :
    (h.commit capacity dedicated).2.Balanced ∧
      (h.commit capacity dedicated).2.blocks[(h.commit capacity dedicated).1]? =
        some ⟨capacity, 0, 0, dedicated, false⟩ ∧
      ∀ r o, h.object? r = some o → o.block ≠ (h.commit capacity dedicated).1 := by
  rcases h.commit_cases capacity dedicated with ⟨i, b, hb, hreleased, heq⟩ | heq
  · have hi : i < h.blocks.size := (Array.getElem?_eq_some_iff.mp hb).1
    have hnew : (h.blocks.setIfInBounds i ⟨capacity, 0, 0, dedicated, false⟩)[i]? =
        some ⟨capacity, 0, 0, dedicated, false⟩ := by
      rw [Array.getElem?_setIfInBounds, if_pos rfl, if_pos hi]
    have hempty := hh.released i b hb hreleased
    rw [heq]
    refine ⟨hh.newBlock hnew (fun j hj => ?_) (by simp) hempty ?_ ⟨rfl, rfl⟩ ?_ hbudget, hnew, hempty⟩
    · rw [Array.getElem?_setIfInBounds, if_neg (Ne.symm hj)]
    · intro hcurrent
      obtain ⟨b', hb', hnot, -⟩ := hh.current i hcurrent
      obtain rfl := Option.some.inj (hb.symm.trans hb')
      rw [hreleased] at hnot
      cases hnot
    · have := capacityOf_set ⟨capacity, 0, 0, dedicated, false⟩ hb
      rw [hreleased] at this
      rw [hh.committed]
      simpa using this.symm
  · have hnew : (h.blocks.push ⟨capacity, 0, 0, dedicated, false⟩)[h.blocks.size]? =
        some ⟨capacity, 0, 0, dedicated, false⟩ := by
      rw [Array.getElem?_push, if_pos rfl]
    have hempty : ∀ r o, h.object? r = some o → o.block ≠ h.blocks.size :=
      fun r o ho => (hh.placed r o ho).ne
    rw [heq]
    refine ⟨hh.newBlock hnew (fun j hj => ?_) (by simp) hempty ?_ ⟨rfl, rfl⟩ ?_ hbudget, hnew, hempty⟩
    · rw [Array.getElem?_push, if_neg hj]
    · intro hcurrent
      obtain ⟨b, hb, -⟩ := hh.current _ hcurrent
      exact (Array.getElem?_eq_some_iff.mp hb).1.ne rfl
    · rw [capacityOf_push, hh.committed]
      rfl

theorem Balanced.setCurrent {h : Heap κ} (hh : h.Balanced) {i : Nat} {b : Block}
    (hb : h.blocks[i]? = some b) (hreleased : b.released = false) (hdedicated : b.dedicated = false) :
    ({ h with current := some i } : Heap κ).Balanced :=
  { hh with current := fun j hj => by cases hj; exact ⟨b, hb, hreleased, hdedicated⟩ }

theorem Balanced.reserve {h h' : Heap κ} (hh : h.Balanced) {size block : Nat}
    (hreserve : h.reserve size = some (block, h')) : h'.Balanced ∧ h'.HasRoom block size := by
  cases reserved_of_reserve hreserve with
  | dedicated hlarge hbudget =>
    obtain ⟨hbalanced, hnew, hempty⟩ := hh.commit true hbudget
    refine ⟨hbalanced, ⟨_, hnew, rfl, (Nat.zero_add _).le, fun _ r o ho => ?_⟩⟩
    exact hempty r o (object?_congr (slots_commit h size true) r ▸ ho)
  | current hsmall hcurrent hb hroom =>
    obtain ⟨b', hb', hreleased, hdedicated⟩ := hh.current _ hcurrent
    obtain rfl := Option.some.inj (hb.symm.trans hb')
    have := (hh.room _ _ hb).2
    rw [Block.room] at hroom
    exact ⟨hh, ⟨_, hb, hreleased, by omega, fun hd => by rw [hdedicated] at hd; cases hd⟩⟩
  | other hsmall hb htakes =>
    simp only [Block.takes, Bool.and_eq_true, Bool.not_eq_true', decide_eq_true_eq] at htakes
    obtain ⟨⟨hreleased, hdedicated⟩, hroom⟩ := htakes
    have := (hh.room _ _ hb).2
    rw [Block.room] at hroom
    exact ⟨hh.setCurrent hb hreleased hdedicated,
      ⟨_, hb, hreleased, by omega, fun hd => by rw [hdedicated] at hd; cases hd⟩⟩
  | fresh hsmall hbudget =>
    obtain ⟨hbalanced, hnew, -⟩ := hh.commit false hbudget
    exact ⟨hbalanced.setCurrent hnew rfl rfl,
      ⟨_, hnew, rfl, (Nat.zero_add _).trans_le hsmall, fun hd => by cases hd⟩⟩

/-! ### Placing -/

theorem bytes_pos (request : Request κ) : 0 < request.bytes := by
  cases request with
  | object cls contents => cases contents <;> simp [Request.bytes, Contents.bytes, instanceBytes,
      arrayBytes, headerBytes]
  | zeros cls kind length => simp [Request.bytes, arrayBytes, headerBytes]

/-- What putting an object into a block changes. -/
structure Placed (h : Heap κ) (request : Request κ) (block : Nat) (r : Ref) (h' : Heap κ) :
    Prop where
  fresh : ¬ h.IsLive r
  object : h'.object? r = some (h.made request block)
  nodup : h'.free.Nodup
  free : ∀ i : Nat, i ∈ h'.free ↔ h'.slots[i]? = some none
  total : ∀ w : Object κ → Nat, total w h'.slots = total w h.slots + w (h.made request block)
  count : h'.objectCount = h.objectCount + 1
  used : h'.used = h.used + request.bytes
  blocks : h'.blocks = h.blocks.modify block fun b =>
    { b with used := b.used + request.bytes, live := b.live + request.bytes }
  rest : h'.committed = h.committed ∧ h'.budget = h.budget ∧ h'.config = h.config ∧
    h'.current = h.current

/-- The new object goes to an empty slot, or behind all others. -/
theorem Balanced.placed_place {h : Heap κ} (hh : h.Balanced) (request : Request κ) (block : Nat) :
    h.Placed request block (h.place request block).1 (h.place request block).2 := by
  rcases hfree : h.free with _ | ⟨i, free⟩
  · have hplace : h.place request block = (⟨h.slots.size⟩, { h with
        blocks := h.blocks.modify block fun b =>
          { b with used := b.used + request.bytes, live := b.live + request.bytes }
        used := h.used + request.bytes
        objectCount := h.objectCount + 1
        seed := nextSeed h.seed
        slots := h.slots.push (some (h.made request block)) }) := by
      rw [place]
      simp only [hfree]
      rfl
    have hempty (i : Nat) : h.slots[i]? ≠ some none := fun hi => by
      have := (hh.free i).mpr hi
      rw [hfree] at this
      cases this
    rw [hplace]
    refine ⟨fun hlive => hlive.index_lt.ne rfl, ?_, hh.nodup, fun i => ?_, fun w => ?_, rfl, rfl, rfl,
      rfl, rfl, rfl, rfl⟩
    · rw [object?_eq_some, Array.getElem?_push, if_pos rfl]
    · rw [Array.getElem?_push]
      dsimp only
      rw [hfree]
      split_ifs
      · simp
      · simpa using hempty i
    · exact total_push w h.slots _
  · have hplace : h.place request block = (⟨i⟩, { h with
        blocks := h.blocks.modify block fun b =>
          { b with used := b.used + request.bytes, live := b.live + request.bytes }
        used := h.used + request.bytes
        objectCount := h.objectCount + 1
        seed := nextSeed h.seed
        slots := h.slots.setIfInBounds i (some (h.made request block))
        free }) := by
      rw [place]
      simp only [hfree]
      rfl
    have hi : h.slots[i]? = some none := (hh.free i).mp (by rw [hfree]; exact List.mem_cons_self)
    have hbound : i < h.slots.size := (Array.getElem?_eq_some_iff.mp hi).1
    have hnodup : (i :: free).Nodup := hfree ▸ hh.nodup
    rw [hplace]
    refine ⟨?_, ?_, (List.nodup_cons.mp hnodup).2, fun j => ?_, fun w => ?_, rfl, rfl, rfl,
      rfl, rfl, rfl, rfl⟩
    · rintro ⟨o, ho⟩
      rw [object?_eq_some, hi] at ho
      cases ho
    · rw [object?_eq_some, Array.getElem?_setIfInBounds, if_pos rfl, if_pos hbound]
    · rw [Array.getElem?_setIfInBounds]
      by_cases hij : i = j
      · subst hij
        rw [if_pos rfl, if_pos hbound]
        exact ⟨fun hmem => absurd hmem (List.nodup_cons.mp hnodup).1, fun h => by cases h⟩
      · rw [if_neg hij, ← hh.free j, hfree, List.mem_cons]
        exact ⟨.inr, fun hmem => hmem.resolve_left (Ne.symm hij)⟩
    · have := total_set w (some (h.made request block)) hi
      simpa using this

theorem Balanced.place {h : Heap κ} (hh : h.Balanced) {request : Request κ} {block : Nat}
    (hroom : h.HasRoom block request.bytes) : (h.place request block).2.Balanced := by
  have hplaced := hh.placed_place request block
  have hobject : ∀ r o, (h.place request block).2.object? r = some o →
      h.object? r = some o ∨ r = (h.place request block).1 ∧ o = h.made request block :=
    fun r o => object?_place
  generalize (h.place request block).1 = r₁, (h.place request block).2 = h' at hplaced hobject ⊢
  obtain ⟨b, hb, hreleased, hfits, hdedicated⟩ := hroom.room
  have hbound : block < h.blocks.size := (Array.getElem?_eq_some_iff.mp hb).1
  have hblocks : h'.blocks = h.blocks.setIfInBounds block
      { b with used := b.used + request.bytes, live := b.live + request.bytes } :=
    hplaced.blocks.trans (modify_eq_set _ hb)
  have hblock (i : Nat) (b' : Block) (hb' : h'.blocks[i]? = some b') :
      i = block ∧ b' = { b with used := b.used + request.bytes, live := b.live + request.bytes } ∨
        i ≠ block ∧ h.blocks[i]? = some b' := by
    rw [hblocks, Array.getElem?_setIfInBounds] at hb'
    split_ifs at hb' with hi
    · exact .inl ⟨hi.symm, (Option.some.inj hb').symm⟩
    · exact .inr ⟨Ne.symm hi, hb'⟩
  obtain ⟨hcommitted, hbudget, hconfig, hcurrent⟩ := hplaced.rest
  refine ⟨hplaced.nodup, hplaced.free, ?_, ?_, fun r o ho => ?_, fun r o ho => ?_,
    fun i b' hb' => ?_, fun i b' hb' => ?_, fun i b' hb' hgone r o ho => ?_, ?_, ?_, ?_,
    fun i hi => ?_, fun i b' hb' hded r s o p ho hp hoi hpi => ?_⟩
  · rw [hplaced.count, hplaced.total, hh.count]
  · rw [hplaced.used, hplaced.total, hh.used]
    rfl
  · rcases hobject r o ho with ho | ⟨-, rfl⟩
    exacts [hh.size r o ho, bytes_pos request]
  · rw [hblocks, Array.size_setIfInBounds]
    rcases hobject r o ho with ho | ⟨-, rfl⟩
    exacts [hh.placed r o ho, hbound]
  · rw [hplaced.total]
    rcases hblock i b' hb' with ⟨rfl, rfl⟩ | ⟨hi, hb'⟩
    · rw [← hh.live _ b hb, bytesIn, if_pos (show (h.made request i).block = i from rfl)]
      rfl
    · rw [← hh.live i b' hb', bytesIn,
        if_neg (show (h.made request block).block ≠ i from Ne.symm hi)]
      rfl
  · rcases hblock i b' hb' with ⟨rfl, rfl⟩ | ⟨hi, hb'⟩
    · have := hh.room _ b hb
      dsimp only
      omega
    · exact hh.room i b' hb'
  · rcases hblock i b' hb' with ⟨rfl, rfl⟩ | ⟨hi, hb'⟩
    · rw [hreleased] at hgone
      cases hgone
    · rcases hobject r o ho with ho | ⟨-, rfl⟩
      exacts [hh.released i b' hb' hgone r o ho, Ne.symm hi]
  · rw [hcommitted, hh.committed, hblocks]
    have := capacityOf_set
      { b with used := b.used + request.bytes, live := b.live + request.bytes } hb
    simpa using this.symm
  · rw [hcommitted, hbudget]
    exact hh.budget
  · rw [hbudget, hconfig]
    exact hh.max
  · rw [hcurrent] at hi
    obtain ⟨b', hb', hboth⟩ := hh.current i hi
    rw [hblocks, Array.getElem?_setIfInBounds]
    by_cases hbi : block = i
    · subst hbi
      obtain rfl := Option.some.inj (hb.symm.trans hb')
      rw [if_pos rfl, if_pos hbound]
      exact ⟨_, rfl, hboth⟩
    · rw [if_neg hbi]
      exact ⟨b', hb', hboth⟩
  · rcases hblock i b' hb' with ⟨rfl, rfl⟩ | ⟨hi, hb'⟩
    · -- The block is a new one, so both objects are the one that was put there.
      rcases hobject r o ho with ho | ⟨rfl, -⟩
      · exact absurd hoi (hdedicated hded r o ho)
      · rcases hobject s p hp with hp | ⟨rfl, -⟩
        · exact absurd hpi (hdedicated hded s p hp)
        · rfl
    · rcases hobject r o ho with ho | ⟨-, rfl⟩
      · rcases hobject s p hp with hp | ⟨-, rfl⟩
        · exact hh.dedicated i b' hb' hded r s o p ho hp hoi hpi
        · exact absurd hpi.symm hi
      · exact absurd hoi.symm hi

/-- A new object is not in the place of another one. -/
theorem Balanced.fresh {h h' : Heap κ} (hh : h.Balanced) {request : Request κ} {r : Ref}
    (htry : h.tryAllocate request = some (r, h')) : ¬ h.IsLive r ∧ h'.IsLive r := by
  obtain ⟨block, h₁, hreserve, rfl, rfl⟩ := tryAllocate_eq_some htry
  have hplaced := (hh.reserve hreserve).1.placed_place request block
  refine ⟨fun hlive => hplaced.fresh ?_, ⟨_, hplaced.object⟩⟩
  rw [isLive_iff, object?_congr (slots_reserve hreserve)]
  exact isLive_iff.mp hlive

/-! ### Sweeping -/

/-- What a sweep keeps and what it takes away add up. -/
theorem total_sweep {w : Object κ → Nat} (hw : ∀ o, w o.aged = w o) (h : Heap κ) :
    total w h.removeUnmarked.slots + (h.unmarked.map fun entry => w entry.2).sum =
      total w h.slots := by
  have hlost := sum_objectsWhere h (!·.marked) w
  change (h.unmarked.map fun entry => w entry.2).sum = _ at hlost
  rw [hlost, removeUnmarked, total_map, total, total, ← List.sum_map_add]
  refine congrArg List.sum (List.map_congr_left fun slot _ => ?_)
  rcases slot with _ | o
  · rfl
  · cases hmarked : o.marked <;> simp [Option.filter_some, hmarked, hw]

/-- The blocks without the room of some objects. -/
def withdrawAll (blocks : Array Block) (lost : List (Nat × Object κ)) : Array Block :=
  lost.foldl (fun blocks (_, o) => withdraw blocks o) blocks

theorem getElem?_withdrawAll (i : Nat) : ∀ (lost : List (Nat × Object κ)) (blocks : Array Block),
    (withdrawAll blocks lost)[i]? = blocks[i]?.map fun b =>
      { b with live := b.live - (lost.map fun entry => bytesIn i entry.2).sum }
  | [], blocks => by
    rw [withdrawAll, List.foldl_nil]
    rcases blocks[i]? with _ | b <;> rfl
  | (j, o) :: lost, blocks => by
    have ih := getElem?_withdrawAll i lost (withdraw blocks o)
    rw [withdrawAll] at ih ⊢
    rw [List.foldl_cons, ih, withdraw, Array.getElem?_modify, List.map_cons, List.sum_cons, bytesIn]
    split_ifs
    · rw [Option.map_map]
      rcases blocks[i]? with _ | b
      · rfl
      · simp only [Option.map_some, Function.comp_apply, Nat.sub_sub]
    · rw [Nat.zero_add]

theorem capacityOf_withdrawAll : ∀ (lost : List (Nat × Object κ)) (blocks : Array Block),
    capacityOf (withdrawAll blocks lost) = capacityOf blocks
  | [], _ => rfl
  | (j, o) :: lost, blocks => by
    have hstep : capacityOf (withdraw blocks o) = capacityOf blocks := by
      rcases hb : blocks[o.block]? with _ | b
      · rw [withdraw, modify_of_le _ (Array.getElem?_eq_none_iff.mp hb)]
      · have := capacityOf_set { b with live := b.live - o.size } hb
        rw [withdraw, modify_eq_set _ hb]
        exact Nat.add_right_cancel this
    rw [withdrawAll, List.foldl_cons]
    exact (capacityOf_withdrawAll lost _).trans hstep

theorem free_sweep (h : Heap κ) :
    h.removeUnmarked.free = (h.unmarked.map (·.1)).reverse ++ h.free := by
  have hfold : ∀ (lost : List (Nat × Object κ)) (free : List Nat),
      lost.foldl (fun free (i, _) => i :: free) free = (lost.map (·.1)).reverse ++ free := by
    intro lost
    induction lost with
    | nil => exact fun _ => rfl
    | cons entry lost ih => exact fun free => by simp [ih]
  exact hfold _ _

theorem mem_lost {h : Heap κ} {i : Nat} :
    i ∈ h.unmarked.map (·.1) ↔ ∃ o, h.slots[i]? = some (some o) ∧ o.marked = false := by
  simp only [List.mem_map, Prod.exists, exists_and_right, exists_eq_right]
  refine exists_congr fun o => (mem_objectsWhere (p := (!·.marked))).trans ?_
  rw [object?_eq_some, Bool.not_eq_true']

theorem emptySlot_sweep {h : Heap κ} (i : Nat) : h.removeUnmarked.slots[i]? = some none ↔
    i ∈ h.unmarked.map (·.1) ∨ h.slots[i]? = some none := by
  rw [mem_lost, removeUnmarked, Array.getElem?_map]
  rcases h.slots[i]? with _ | _ | o
  · simp
  · simp
  · cases hmarked : o.marked <;> simp [Option.filter_some, hmarked]

theorem exists_of_sweep {h : Heap κ} {r : Ref} {o : Object κ}
    (ho : h.removeUnmarked.object? r = some o) :
    ∃ o', h.object? r = some o' ∧ o.size = o'.size ∧ o.block = o'.block := by
  rw [object?_removeUnmarked] at ho
  obtain ⟨o', ho', rfl⟩ := Option.map_eq_some_iff.mp ho
  exact ⟨o', (Option.filter_eq_some_iff.mp ho').1, rfl, rfl⟩

/-- A block keeps all but some of the bytes of its objects. -/
theorem exists_of_withdrawAll {i : Nat} {lost : List (Nat × Object κ)} {blocks : Array Block}
    {b : Block} (hb : (withdrawAll blocks lost)[i]? = some b) :
    ∃ b', blocks[i]? = some b' ∧
      b = { b' with live := b'.live - (lost.map fun entry => bytesIn i entry.2).sum } := by
  rw [getElem?_withdrawAll] at hb
  obtain ⟨b', hb', rfl⟩ := Option.map_eq_some_iff.mp hb
  exact ⟨b', hb', rfl⟩

theorem length_unmarked (h : Heap κ) :
    h.unmarked.length = (h.unmarked.map fun _ => 1).sum := by
  simp

theorem Balanced.removeUnmarked {h : Heap κ} (hh : h.Balanced) : h.removeUnmarked.Balanced where
  nodup := by
    rw [free_sweep, List.nodup_append]
    refine ⟨List.nodup_reverse.mpr (nodup_objectsWhere h _), hh.nodup, fun i hi j hj => ?_⟩
    rintro rfl
    obtain ⟨o, ho, -⟩ := mem_lost.mp (List.mem_reverse.mp hi)
    rw [(hh.free i).mp hj] at ho
    cases ho
  free i := by
    rw [emptySlot_sweep, free_sweep, List.mem_append, List.mem_reverse, hh.free]
  count := by
    have := total_sweep (w := fun _ => 1) (fun _ => rfl) h
    rw [← hh.count, ← length_unmarked] at this
    exact Nat.sub_eq_of_eq_add this.symm
  used := by
    have := total_sweep (w := Object.size) (fun _ => rfl) h
    rw [← hh.used, ← totalSize_eq_sum] at this
    exact Nat.sub_eq_of_eq_add this.symm
  size r o ho := by
    obtain ⟨o', ho', hsize, -⟩ := exists_of_sweep ho
    exact hsize ▸ hh.size r o' ho'
  placed r o ho := by
    obtain ⟨o', ho', -, hblock⟩ := exists_of_sweep ho
    obtain ⟨b, hb⟩ : ∃ b, h.blocks[o.block]? = some b :=
      ⟨_, Array.getElem?_eq_getElem (hblock ▸ hh.placed r o' ho')⟩
    have hb' := getElem?_withdrawAll o.block h.unmarked h.blocks
    rw [hb, Option.map_some] at hb'
    exact (Array.getElem?_eq_some_iff.mp hb').1
  live i b hb := by
    obtain ⟨b', hb', rfl⟩ := exists_of_withdrawAll hb
    have := total_sweep (w := bytesIn i) (fun _ => rfl) h
    rw [← hh.live i b' hb'] at this
    exact Nat.sub_eq_of_eq_add this.symm
  room i b hb := by
    obtain ⟨b', hb', rfl⟩ := exists_of_withdrawAll hb
    have := hh.room i b' hb'
    exact ⟨(Nat.sub_le _ _).trans this.1, this.2⟩
  released i b hb hgone r o ho := by
    obtain ⟨b', hb', rfl⟩ := exists_of_withdrawAll hb
    obtain ⟨o', ho', -, hblock⟩ := exists_of_sweep ho
    exact hblock ▸ hh.released i b' hb' hgone r o' ho'
  committed := hh.committed.trans (capacityOf_withdrawAll h.unmarked h.blocks).symm
  budget := hh.budget
  max := hh.max
  current i hi := by
    obtain ⟨b, hb, hboth⟩ := hh.current i hi
    have hb' := getElem?_withdrawAll i h.unmarked h.blocks
    rw [hb, Option.map_some] at hb'
    exact ⟨_, hb', hboth⟩
  dedicated i b hb hded r s o p ho hp hoi hpi := by
    obtain ⟨b', hb', rfl⟩ := exists_of_withdrawAll hb
    obtain ⟨o', ho', -, hoblock⟩ := exists_of_sweep ho
    obtain ⟨p', hp', -, hpblock⟩ := exists_of_sweep hp
    exact hh.dedicated i b' hb' hded r s o' p' ho' hp' (hoblock ▸ hoi) (hpblock ▸ hpi)

/-- A heap with the room of a block counted anew. -/
theorem Balanced.setBlock {h : Heap κ} (hh : h.Balanced) {i : Nat} {b : Block} (new : Block)
    (hb : h.blocks[i]? = some b) (hlive : new.live = b.live)
    (hroom : new.live ≤ new.used ∧ new.used ≤ new.capacity) (hded : new.dedicated = b.dedicated)
    (hgone : new.released = true →
      (∀ r o, h.object? r = some o → o.block ≠ i) ∧ h.current ≠ some i)
    {committed : Nat} (hcommitted : committed = capacityOf (h.blocks.setIfInBounds i new))
    (hbudget : committed ≤ h.budget) :
    ({ h with blocks := h.blocks.setIfInBounds i new, committed } : Heap κ).Balanced := by
  have hbound : i < h.blocks.size := (Array.getElem?_eq_some_iff.mp hb).1
  have hblock (j : Nat) (b' : Block) (hb' : (h.blocks.setIfInBounds i new)[j]? = some b') :
      j = i ∧ b' = new ∨ h.blocks[j]? = some b' := by
    rw [Array.getElem?_setIfInBounds] at hb'
    split_ifs at hb' with hi
    · exact .inl ⟨hi.symm, (Option.some.inj hb').symm⟩
    · exact .inr hb'
  refine { hh with
    placed := fun r o ho => ?_, live := fun j b' hb' => ?_, room := fun j b' hb' => ?_,
    released := fun j b' hb' hreleased => ?_, committed := hcommitted, budget := hbudget,
    current := fun j hj => ?_, dedicated := fun j b' hb' hdedicated => ?_ }
  · rw [Array.size_setIfInBounds]
    exact hh.placed r o ho
  · rcases hblock j b' hb' with ⟨rfl, rfl⟩ | hb'
    exacts [hlive.trans (hh.live j b hb), hh.live j b' hb']
  · rcases hblock j b' hb' with ⟨rfl, rfl⟩ | hb'
    exacts [hroom, hh.room j b' hb']
  · rcases hblock j b' hb' with ⟨rfl, rfl⟩ | hb'
    exacts [(hgone hreleased).1, hh.released j b' hb' hreleased]
  · obtain ⟨b', hb', hreleased, hdedicated⟩ := hh.current j hj
    rw [Array.getElem?_setIfInBounds]
    by_cases hij : i = j
    · subst hij
      obtain rfl := Option.some.inj (hb.symm.trans hb')
      rw [if_pos rfl, if_pos hbound]
      refine ⟨new, rfl, ?_, hded.trans hdedicated⟩
      cases hnew : new.released
      · rfl
      · exact absurd hj (hgone hnew).2
    · rw [if_neg hij]
      exact ⟨b', hb', hreleased, hdedicated⟩
  · rcases hblock j b' hb' with ⟨rfl, rfl⟩ | hb'
    · exact hh.dedicated j b hb (hded ▸ hdedicated)
    · exact hh.dedicated j b' hb' hdedicated

theorem Balanced.settleBlock {state : Nat × Heap κ} (hh : state.2.Balanced) (i : Nat) :
    (settleBlock state i).2.Balanced := by
  obtain ⟨given, h⟩ := state
  dsimp only at hh
  unfold Heap.settleBlock
  dsimp only
  split
  · exact hh
  · next b hb =>
    by_cases hreleased : b.released = true
    · rw [if_pos hreleased]
      exact hh
    · rw [if_neg hreleased]
      have hkept : b.released = false := by simpa using hreleased
      have hroom := hh.room i b hb
      by_cases hgives : h.gives i { b with used := b.live } = true
      · rw [if_pos hgives]
        simp only [gives, Bool.and_eq_true, beq_iff_eq, bne_iff_ne] at hgives
        obtain ⟨⟨hzero, -⟩, hcurrent⟩ := hgives
        refine hh.setBlock { b with used := b.live, released := true } hb rfl
          ⟨le_rfl, hroom.1.trans hroom.2⟩ rfl (fun _ => ⟨?_, hcurrent⟩) ?_
          ((Nat.sub_le _ _).trans hh.budget)
        · exact hh.no_bytes.mp ((hh.live i b hb).symm.trans hzero)
        · have := capacityOf_set { b with used := b.live, released := true } hb
          simp only [hkept, if_true, Bool.false_eq_true, if_false] at this
          rw [hh.committed]
          omega
      · rw [if_neg hgives]
        refine hh.setBlock { b with used := b.live } hb rfl
          ⟨le_rfl, hroom.1.trans hroom.2⟩ rfl (fun h => ?_) ?_ hh.budget
        · exact absurd h hreleased
        · have := capacityOf_set { b with used := b.live } hb
          rw [hh.committed]
          exact (Nat.add_right_cancel this).symm

theorem Balanced.settleBlocks {h : Heap κ} (hh : h.Balanced) (indices : List Nat) :
    (indices.foldl Heap.settleBlock (0, h)).2.Balanced := by
  have hfold : ∀ (indices : List Nat) (state : Nat × Heap κ), state.2.Balanced →
      (indices.foldl Heap.settleBlock state).2.Balanced := by
    intro indices
    induction indices with
    | nil => exact fun _ hstate => hstate
    | cons i indices ih => exact fun state hstate => ih _ (hstate.settleBlock i)
  exact hfold indices (0, h) hh

theorem Balanced.grow {h h' : Heap κ} (hh : h.Balanced) {size : Nat} (hgrow : h.grow size = .ok h') :
    h'.Balanced := by
  obtain ⟨htarget, rfl⟩ := eq_of_grow hgrow
  have hmax := hh.max
  have hnew : h.budget ≤ h.budgetFor (h.committed + h.needed size) ∧
      h.budgetFor (h.committed + h.needed size) ≤ h.config.max := by
    unfold budgetFor
    split_ifs <;> omega
  exact { hh with budget := hh.budget.trans hnew.1, max := hnew.2 }

theorem balanced_kept : Kept (Balanced : Heap κ → Prop) where
  empty := balanced_empty
  modify {h r f} hh hf := hh.modify r fun o => ⟨(hf o).1, (hf o).2.1⟩
  create {h h' request r} hh htry := by
    obtain ⟨block, h₁, hreserve, -, rfl⟩ := tryAllocate_eq_some htry
    obtain ⟨hbalanced, hroom⟩ := hh.reserve hreserve
    exact hbalanced.place hroom
  grow hh hgrow := hh.grow hgrow
  collect {h roots} hh := by
    have hswept := ((hh.markFrom 0 roots).removeUnmarked).settleBlocks
      (List.range (h.markFrom 0 roots).2.removeUnmarked.blocks.size)
    exact { hswept with }

end Jvm.Heap
