import Mathlib
import Jvm.Proofs.Heap.Accounting

/-! # When memory is gone

A collection that finds nothing reachable leaves a heap without objects, but not without blocks: it keeps
the current block, and of the others as many as the budget at the start asks for. `Settled` follows the
blocks through the sweep, `Emptied` says what is left, and `allocate_ok_iff_of_unreachable` draws from it
the line between the requests that are met and the ones that are refused. -/

namespace Jvm.Heap

variable {κ : Type}

/-! ### Blocks and their sizes -/

/-- Whether a heap comes from another one without new blocks, and with each block of the same size and
kind. -/
structure SameBlocks (h h' : Heap κ) : Prop where
  config : h'.config = h.config
  committed : h'.committed ≤ h.committed
  block : ∀ (i : Nat) (b' : Block), h'.blocks[i]? = some b' →
    ∃ b, h.blocks[i]? = some b ∧ b'.capacity = b.capacity ∧ b'.dedicated = b.dedicated

theorem SameBlocks.refl (h : Heap κ) : h.SameBlocks h :=
  ⟨rfl, le_rfl, fun _ b hb => ⟨b, hb, rfl, rfl⟩⟩

theorem SameBlocks.trans {h₁ h₂ h₃ : Heap κ} (h₁₂ : h₁.SameBlocks h₂) (h₂₃ : h₂.SameBlocks h₃) :
    h₁.SameBlocks h₃ where
  config := h₂₃.config.trans h₁₂.config
  committed := h₂₃.committed.trans h₁₂.committed
  block i b₃ hb₃ := by
    obtain ⟨b₂, hb₂, hcapacity₂, hkind₂⟩ := h₂₃.block i b₃ hb₃
    obtain ⟨b₁, hb₁, hcapacity₁, hkind₁⟩ := h₁₂.block i b₂ hb₂
    exact ⟨b₁, hb₁, hcapacity₂.trans hcapacity₁, hkind₂.trans hkind₁⟩

/-- One block put in the place of another of the same size and kind. -/
theorem sameBlocks_set {h : Heap κ} {i : Nat} {b : Block} (new : Block) (hb : h.blocks[i]? = some b)
    (hcapacity : new.capacity = b.capacity) (hkind : new.dedicated = b.dedicated) {committed : Nat}
    (hcommitted : committed ≤ h.committed) :
    h.SameBlocks { h with blocks := h.blocks.setIfInBounds i new, committed } where
  config := rfl
  committed := hcommitted
  block j b' hb' := by
    rw [Array.getElem?_setIfInBounds] at hb'
    split_ifs at hb' with hij
    · cases hb'
      exact ⟨b, hij ▸ hb, hcapacity, hkind⟩
    · exact ⟨b', hb', rfl, rfl⟩

theorem sameBlocks_place (h : Heap κ) (request : Request κ) (block : Nat) :
    h.SameBlocks (h.place request block).2 := by
  have hrest : (h.place request block).2.config = h.config ∧
      (h.place request block).2.committed = h.committed ∧
      (h.place request block).2.blocks = h.blocks.modify block fun b =>
        { b with used := b.used + request.bytes, live := b.live + request.bytes } := by
    rw [place]
    rcases h.free with _ | ⟨i, free⟩
    all_goals exact ⟨rfl, rfl, rfl⟩
  refine ⟨hrest.1, hrest.2.1.le, fun i b' hb' => ?_⟩
  rw [hrest.2.2, Array.getElem?_modify] at hb'
  split_ifs at hb'
  · obtain ⟨b, hb, rfl⟩ := Option.map_eq_some_iff.mp hb'
    exact ⟨b, hb, rfl, rfl⟩
  · exact ⟨b', hb', rfl, rfl⟩

theorem sameBlocks_markFrom (h : Heap κ) (roots : List Ref) :
    h.SameBlocks (h.markFrom 0 roots).2 := by
  rw [(markedFrom_markFrom h 0 roots).marks.rest]
  exact ⟨rfl, le_rfl, fun _ b hb => ⟨b, hb, rfl, rfl⟩⟩

theorem sameBlocks_removeUnmarked (h : Heap κ) : h.SameBlocks h.removeUnmarked :=
  ⟨rfl, le_rfl, fun i b' hb' => by
    have hwithdrawn : (withdrawAll h.blocks h.unmarked)[i]? = some b' := hb'
    obtain ⟨b, hb, rfl⟩ := exists_of_withdrawAll hwithdrawn
    exact ⟨b, hb, rfl, rfl⟩⟩

/-! ### Settling the blocks -/

/-- What settling a block does to the heap. -/
inductive Settles (h : Heap κ) (i : Nat) : Heap κ → Prop
  | gone (hgone : ∀ b, h.blocks[i]? = some b → b.released = true) : h.Settles i h
  | given {b : Block} (hb : h.blocks[i]? = some b) : h.Settles i { h with
      blocks := h.blocks.setIfInBounds i { b with used := b.live, released := true }
      committed := h.committed - b.capacity }
  | stays {b : Block} (hb : h.blocks[i]? = some b)
      (hstays : h.gives i { b with used := b.live } = false) : h.Settles i { h with
      blocks := h.blocks.setIfInBounds i { b with used := b.live } }

theorem settles_settleBlock (state : Nat × Heap κ) (i : Nat) :
    state.2.Settles i (settleBlock state i).2 := by
  obtain ⟨given, h⟩ := state
  unfold settleBlock
  dsimp only
  split
  · next hnone => exact .gone fun b hb => by rw [hnone] at hb; cases hb
  · next b hb =>
    split_ifs with hreleased hgives
    · exact .gone fun b' hb' => Option.some.inj (hb.symm.trans hb') ▸ hreleased
    · exact .given hb
    · exact .stays hb (by simpa using hgives)

section

variable {h h' : Heap κ} {i : Nat} (hsettles : h.Settles i h')

include hsettles

theorem Settles.sameBlocks : h.SameBlocks h' := by
  cases hsettles with
  | gone => exact .refl h
  | given hb => refine sameBlocks_set _ hb ?_ ?_ (Nat.sub_le _ _) <;> rfl
  | stays hb => refine sameBlocks_set _ hb ?_ ?_ le_rfl <;> rfl

theorem Settles.rest : h'.current = h.current ∧
    ∀ j : Nat, j ≠ i → h'.blocks[j]? = h.blocks[j]? := by
  have hset (new : Block) (j : Nat) (hj : j ≠ i) :
      (h.blocks.setIfInBounds i new)[j]? = h.blocks[j]? := by
    rw [Array.getElem?_setIfInBounds, if_neg hj.symm]
  cases hsettles with
  | gone => exact ⟨rfl, fun _ _ => rfl⟩
  | given => exact ⟨rfl, hset _⟩
  | stays => exact ⟨rfl, hset _⟩

/-- The block that was settled, if it was not given back. -/
theorem Settles.settled {b' : Block} (hb' : h'.blocks[i]? = some b') (hkept : b'.released = false) :
    b'.used = b'.live ∧ h.gives i b' = false := by
  cases hsettles with
  | gone hgone =>
    rw [hgone b' hb'] at hkept
    cases hkept
  | given hb =>
    rw [Array.getElem?_setIfInBounds, if_pos rfl, if_pos (Array.getElem?_eq_some_iff.mp hb).1] at hb'
    cases hb'
    cases hkept
  | stays hb hstays =>
    rw [Array.getElem?_setIfInBounds, if_pos rfl, if_pos (Array.getElem?_eq_some_iff.mp hb).1] at hb'
    cases hb'
    exact ⟨rfl, hstays⟩

end

/-- Whether the first `n` blocks are settled: one that was not given back has only the bytes of its objects
handed out, and if there are none, it is the current block, or one for all objects without which too few
bytes would be left for the budget at the start. -/
def Settled (h : Heap κ) (n : Nat) : Prop :=
  ∀ (i : Nat) (b : Block), i < n → h.blocks[i]? = some b → b.released = false →
    b.used = b.live ∧ (b.live = 0 → h.current = some i ∨
      b.dedicated = false ∧ h.committed < h.config.initial + b.capacity)

theorem Settled.succ {h h' : Heap κ} {n : Nat} (hh : h.Settled n) (hsettles : h.Settles n h') :
    h'.Settled (n + 1) := by
  intro i b hi hb hkept
  have hsame := hsettles.sameBlocks
  obtain ⟨hcurrent, hothers⟩ := hsettles.rest
  rw [hsame.config, hcurrent]
  rcases Nat.lt_succ_iff_lt_or_eq.mp hi with hlt | rfl
  · exact (hh i b hlt (hothers i hlt.ne ▸ hb) hkept).imp_right fun hrest hzero =>
      (hrest hzero).imp_right fun hfloor => ⟨hfloor.1, hsame.committed.trans_lt hfloor.2⟩
  · obtain ⟨hused, hgives⟩ := hsettles.settled hb hkept
    have hcommitted := hsame.committed
    refine ⟨hused, fun hzero => ?_⟩
    simp only [gives, hzero, beq_self_eq_true, Bool.true_and, Bool.and_eq_false_iff,
      Bool.or_eq_false_iff, decide_eq_false_iff_not, bne_eq_false_iff_eq] at hgives
    rcases hgives with ⟨hded, hfloor⟩ | hcur
    · exact .inr ⟨hded, by omega⟩
    · exact .inl hcur

theorem settled_settleBlocks (h : Heap κ) (n : Nat) :
    h.SameBlocks ((List.range n).foldl settleBlock (0, h)).2 ∧
      ((List.range n).foldl settleBlock (0, h)).2.Settled n := by
  induction n with
  | zero => exact ⟨.refl h, fun i b hi => absurd hi i.not_lt_zero⟩
  | succ n ih =>
    rw [List.range_succ, List.foldl_append]
    have hsettles := settles_settleBlock ((List.range n).foldl settleBlock (0, h)) n
    exact ⟨ih.1.trans hsettles.sameBlocks, ih.2.succ hsettles⟩

/-- A collection gives blocks back, and settles the others. -/
theorem settled_collect (h : Heap κ) (roots : List Ref) : h.SameBlocks (h.collect roots).2 ∧
    (h.collect roots).2.Settled (h.collect roots).2.blocks.size := by
  set swept := (h.markFrom 0 roots).2.removeUnmarked with hswept
  obtain ⟨hsame, hsettled⟩ := settled_settleBlocks swept swept.blocks.size
  have hmarked := (sameBlocks_markFrom h roots).trans (sameBlocks_removeUnmarked _)
  have hall := hmarked.trans hsame
  refine ⟨⟨hall.config, hall.committed, hall.block⟩, fun i b _ hb hkept => ?_⟩
  obtain ⟨b', hb', -⟩ := hsame.block i b hb
  exact hsettled i b (Array.getElem?_eq_some_iff.mp hb').1 hb hkept

/-! ### Blocks of the common size -/

/-- Whether a heap has some sizes, and gives every block that is not for one object the common size. -/
structure Uniform (c : Config) (h : Heap κ) : Prop where
  config : h.config = c
  capacity : ∀ (i : Nat) (b : Block), h.blocks[i]? = some b → b.dedicated = false →
    b.capacity = c.block

section

variable {c : Config} {h : Heap κ} (hh : h.Uniform c)

include hh

theorem Uniform.of_sameBlocks {h' : Heap κ} (hsame : h.SameBlocks h') : h'.Uniform c where
  config := hsame.config.trans hh.config
  capacity i b' hb' hded := by
    obtain ⟨b, hb, hcapacity, hkind⟩ := hsame.block i b' hb'
    exact hcapacity.trans (hh.capacity i b hb (hkind ▸ hded))

theorem Uniform.commit {capacity : Nat} {dedicated : Bool}
    (hcapacity : dedicated = false → capacity = c.block) :
    (h.commit capacity dedicated).2.Uniform c := by
  rcases h.commit_cases capacity dedicated with ⟨i, b, -, -, heq⟩ | heq
  all_goals rw [heq]; refine ⟨hh.config, fun j b' hb' hded => ?_⟩
  · rw [Array.getElem?_setIfInBounds] at hb'
    split_ifs at hb'
    · cases hb'
      exact hcapacity hded
    · exact hh.capacity j b' hb' hded
  · rw [Array.getElem?_push] at hb'
    split_ifs at hb'
    · cases hb'
      exact hcapacity hded
    · exact hh.capacity j b' hb' hded

theorem Uniform.reserve {h' : Heap κ} {size block : Nat}
    (hreserve : h.reserve size = some (block, h')) : h'.Uniform c := by
  cases reserved_of_reserve hreserve with
  | dedicated => exact hh.commit nofun
  | current => exact hh
  | other => exact ⟨hh.config, hh.capacity⟩
  | fresh =>
    have hnew : (h.commit h.config.block false).2.Uniform c :=
      hh.commit fun _ => congrArg Config.block hh.config
    exact ⟨hnew.config, hnew.capacity⟩

end

theorem carried_uniform (c : Config) : Carried (Uniform c : Heap κ → Prop) where
  modify hh _ := ⟨hh.config, hh.capacity⟩
  create hh htry := by
    obtain ⟨block, h₁, hreserve, -, rfl⟩ := tryAllocate_eq_some htry
    exact (hh.reserve hreserve).of_sameBlocks (sameBlocks_place h₁ _ block)
  grow hh hgrow := by
    obtain ⟨-, rfl⟩ := eq_of_grow hgrow
    exact ⟨hh.config, hh.capacity⟩
  collect hh := hh.of_sameBlocks (settled_collect _ _).1

theorem uniform_after (config : Config) (operations : List (Operation κ)) :
    (after config operations).Uniform config :=
  (carried_uniform config).run ⟨rfl, fun i b hb => by simp [empty] at hb⟩ operations

/-! ### Emptied heaps -/

/-- What is left of a heap when a collection finds nothing that can be reached. -/
structure Emptied (h : Heap κ) : Prop where
  blocks : ∀ (i : Nat) (b : Block), h.blocks[i]? = some b → b.released = false →
    b.dedicated = false ∧ b.capacity = h.config.block ∧ b.used = 0
  floor : h.committed < h.config.initial + h.config.block

theorem capacityOf_eq_zero {blocks : Array Block}
    (hblocks : ∀ (i : Nat) (b : Block), blocks[i]? = some b → b.released = true) :
    capacityOf blocks = 0 := by
  rw [capacityOf, List.sum_eq_zero_iff]
  intro n hn
  obtain ⟨b, hb, rfl⟩ := List.mem_map.mp hn
  obtain ⟨i, hi⟩ := List.mem_iff_getElem?.mp hb
  rw [if_pos (hblocks i b (by simpa using hi))]

/-- If every block but one was given back, that one has all the bytes. -/
theorem capacityOf_le {blocks : Array Block} {i n : Nat}
    (hone : ∀ b, blocks[i]? = some b → b.released = false → b.capacity ≤ n)
    (hothers : ∀ (j : Nat) (b : Block), j ≠ i → blocks[j]? = some b → b.released = true) :
    capacityOf blocks ≤ n := by
  rcases hi : blocks[i]? with _ | b
  · rw [capacityOf_eq_zero fun j b hb => hothers j b (fun hji => by rw [hji, hi] at hb; cases hb) hb]
    exact Nat.zero_le n
  · have hzero : capacityOf (blocks.setIfInBounds i { b with released := true }) = 0 := by
      refine capacityOf_eq_zero fun j b' hb' => ?_
      rw [Array.getElem?_setIfInBounds] at hb'
      split_ifs at hb' with hij
      · cases hb'
        rfl
      · exact hothers j b' (Ne.symm hij) hb'
    have hset := capacityOf_set { b with released := true } hi
    have hb := hone b hi
    rw [hzero, if_pos rfl] at hset
    split_ifs at hset with hreleased
    · omega
    · have := hb (by simpa using hreleased)
      omega

theorem capacityOf_eq_mul {blocks : Array Block} {n : Nat}
    (hblocks : ∀ (i : Nat) (b : Block), blocks[i]? = some b → b.released = false →
      b.capacity = n) :
    capacityOf blocks = blocks.toList.countP (!·.released) * n := by
  have hlist : ∀ l : List Block, (∀ b ∈ l, b.released = false → b.capacity = n) →
      (l.map fun b => if b.released then 0 else b.capacity).sum = l.countP (!·.released) * n := by
    intro l
    induction l with
    | nil => simp
    | cons b l ih =>
      intro hl
      obtain ⟨hb, hl⟩ := List.forall_mem_cons.mp hl
      rw [List.map_cons, List.sum_cons, ih hl, List.countP_cons]
      cases hreleased : b.released
      · simp [hb hreleased, Nat.add_mul, Nat.add_comm]
      · simp
  refine hlist _ fun b hb => ?_
  obtain ⟨i, hi⟩ := List.mem_iff_getElem?.mp hb
  exact hblocks i b (by simpa using hi)

/-- The bytes of an emptied heap are those of its blocks. -/
theorem Emptied.committed {h : Heap κ} (hemptied : h.Emptied) (hh : h.Balanced) :
    h.committed = h.blockCount * h.config.block :=
  hh.committed.trans (capacityOf_eq_mul fun i b hb hkept => (hemptied.blocks i b hb hkept).2.1)

/-- Without objects, a settled block is an empty one of the common size, and is the current one or kept for
the budget at the start. -/
theorem Settled.block_of_dead {config : Config} {h : Heap κ} (hsettled : h.Settled h.blocks.size)
    (hh : h.Balanced) (huniform : h.Uniform config) (hdead : ∀ r, ¬ h.IsLive r) {i : Nat} {b : Block}
    (hb : h.blocks[i]? = some b) (hkept : b.released = false) :
    (b.dedicated = false ∧ b.capacity = h.config.block ∧ b.used = 0) ∧
      (h.current = some i ∨ h.committed < h.config.initial + h.config.block) := by
  have hzero : b.live = 0 := (hh.live i b hb).trans
    (total_eq_zero_iff.mpr fun r o ho => absurd ⟨o, ho⟩ (hdead r))
  obtain ⟨hused, hstays⟩ := hsettled i b (Array.getElem?_eq_some_iff.mp hb).1 hb hkept
  have hded : b.dedicated = false := by
    rcases hstays hzero with hcurrent | ⟨hded, -⟩
    · obtain ⟨b', hb', -, hded⟩ := hh.current i hcurrent
      rwa [Option.some.inj (hb.symm.trans hb')]
    · exact hded
  have hcapacity : b.capacity = h.config.block :=
    (huniform.capacity i b hb hded).trans (congrArg Config.block huniform.config.symm)
  exact ⟨⟨hded, hcapacity, hused.trans hzero⟩,
    (hstays hzero).imp_right fun hfloor => hcapacity ▸ hfloor.2⟩

/-- If no block but the current one is kept, all bytes are the current block's. -/
theorem Balanced.committed_le_of_current {h : Heap κ} (hh : h.Balanced) {n : Nat}
    (hcurrent : ∀ i b, h.blocks[i]? = some b → b.released = false → h.current = some i ∧ b.capacity ≤ n) :
    h.committed ≤ n := by
  rw [hh.committed]
  have hreleased (i : Nat) (b : Block) (hb : h.blocks[i]? = some b) (hne : h.current ≠ some i) :
      b.released = true := by
    by_contra hkept
    exact hne (hcurrent i b hb (by simpa using hkept)).1
  rcases hc : h.current with _ | c
  · rw [capacityOf_eq_zero fun i b hb => hreleased i b hb (by rw [hc]; simp)]
    exact Nat.zero_le n
  · refine capacityOf_le (i := c) (fun b hb hkept => (hcurrent c b hb hkept).2)
      fun j b hj hb => hreleased j b hb ?_
    rw [hc]
    exact fun heq => hj (Option.some.inj heq).symm

theorem emptied_of_settled {config : Config} {h : Heap κ} (hinitial : 0 < config.initial)
    (hh : h.Balanced) (huniform : h.Uniform config) (hsettled : h.Settled h.blocks.size)
    (hdead : ∀ r, ¬ h.IsLive r) : h.Emptied := by
  refine ⟨fun i b hb hkept => (hsettled.block_of_dead hh huniform hdead hb hkept).1, ?_⟩
  by_contra hfloor
  -- then the current block is the only one, which is not enough for the budget at the start
  have hle : h.committed ≤ h.config.block := hh.committed_le_of_current fun i b hb hkept => by
    obtain ⟨⟨-, hcapacity, -⟩, hstays⟩ := hsettled.block_of_dead hh huniform hdead hb hkept
    exact ⟨hstays.resolve_right hfloor, hcapacity.le⟩
  rw [huniform.config] at hfloor hle
  omega

/-! ### Meeting a request -/

/-- Why a request is not met at once: no block of the common size has room for it, and the budget has no
room for another block. -/
theorem refused_of_tryAllocate {h : Heap κ} {request : Request κ}
    (hnone : h.tryAllocate request = none) :
    h.budget < h.committed + h.needed request.bytes ∧ (request.bytes ≤ h.config.block →
      ∀ (i : Nat) (b : Block), h.blocks[i]? = some b → b.takes request.bytes = false) := by
  have hreserve : h.reserve request.bytes = none := by simpa [tryAllocate] using hnone
  unfold reserve at hreserve
  rw [needed]
  by_cases hlarge : h.config.block < request.bytes
  · rw [if_pos hlarge] at hreserve
    by_cases hbudget : h.budget < h.committed + request.bytes
    · exact ⟨by omega, fun hsmall => absurd hlarge hsmall.not_gt⟩
    · rw [if_neg hbudget] at hreserve
      cases hreserve
  · rw [if_neg hlarge] at hreserve
    rcases hcurrent : h.currentTakes? request.bytes with _ | i
    · rcases hfind : h.blocks.findIdx? (·.takes request.bytes) with _ | i
      · by_cases hbudget : h.budget < h.committed + h.config.block
        · refine ⟨by omega, fun _ i b hb => ?_⟩
          simpa using Array.findIdx?_eq_none_iff.mp hfind b (Array.mem_of_getElem? hb)
        · simp only [hcurrent, hfind, if_neg hbudget] at hreserve
          cases hreserve
      · simp only [hcurrent, hfind] at hreserve
        cases hreserve
    · simp only [hcurrent] at hreserve
      cases hreserve

/-- A request that is met at once is small, or its bytes fit the budget. -/
theorem fits_of_tryAllocate {h h' : Heap κ} {request : Request κ} {r : Ref}
    (htry : h.tryAllocate request = some (r, h')) :
    request.bytes ≤ h.config.block ∨ h.committed + request.bytes ≤ h.budget := by
  obtain ⟨block, h₁, hreserve, -, -⟩ := tryAllocate_eq_some htry
  cases reserved_of_reserve hreserve with
  | dedicated _ hbudget => exact .inr hbudget
  | current hsmall => exact .inl hsmall
  | other hsmall => exact .inl hsmall
  | fresh hsmall => exact .inl hsmall

/-- A request is met at once, or after a collection, or else it asks for a greater budget. -/
theorem allocate_cases (h : Heap κ) (request : Request κ) (roots : List Ref) :
    (∃ r h', h.tryAllocate request = some (r, h') ∧ h.allocate request roots = (.ok r, h')) ∨
    (∃ r h', (h.collect roots).2.tryAllocate request = some (r, h') ∧
      h.allocate request roots = (.ok r, h')) ∨
    ((h.collect roots).2.tryAllocate request = none ∧
      h.allocate request roots = (h.collect roots).2.growAndAllocate request) := by
  rw [allocate]
  rcases h.tryAllocate request with _ | ⟨r, h'⟩
  · rcases hagain : (h.collect roots).2.tryAllocate request with _ | ⟨r, h'⟩
    · exact .inr (.inr ⟨rfl, by simp only [hagain]⟩)
    · exact .inr (.inl ⟨r, h', rfl, by simp only [hagain]⟩)
  · exact .inl ⟨r, h', rfl, rfl⟩

theorem le_budgetFor {h : Heap κ} {target : Nat} (hblock : 0 < h.config.block)
    (hmax : target ≤ h.config.max) : target ≤ h.budgetFor target := by
  unfold budgetFor
  split_ifs with hless
  · have hceil : target - h.budget ≤ h.blocksFor (target - h.budget) * h.config.block := by
      have := Nat.lt_div_mul_add (a := target - h.budget + h.config.block - 1) hblock
      rw [blocksFor]
      omega
    exact le_min (by omega) hmax
  · exact Nat.le_of_not_lt hless

/-- The complaint about a request that the greatest budget has no room for. -/
def complaint (h : Heap κ) (request : Request κ) : Fault :=
  .outOfMemory ("cannot allocate " ++ toString request.bytes ++ " bytes: " ++ toString h.committed ++
    " of " ++ toString h.config.max ++ " bytes committed")

/-- With a greater budget, a request is met exactly if the greatest budget has room for another block. -/
theorem growAndAllocate_cases {h : Heap κ} (hblock : 0 < h.config.block) (request : Request κ) :
    (h.committed + h.needed request.bytes ≤ h.config.max ∧
      ∃ r h', h.growAndAllocate request = (.ok r, h')) ∨
    (h.config.max < h.committed + h.needed request.bytes ∧
      h.growAndAllocate request = (.error (h.complaint request), h)) := by
  rcases Nat.lt_or_ge h.config.max (h.committed + h.needed request.bytes) with hmax | hmax
  · refine .inr ⟨hmax, ?_⟩
    simp only [growAndAllocate, grow, if_pos hmax, complaint]
  · have hbudget := le_budgetFor hblock hmax
    rcases htry : ({ h with budget := h.budgetFor (h.committed + h.needed request.bytes) } :
      Heap κ).tryAllocate request with _ | ⟨r, h'⟩
    · exact absurd (refused_of_tryAllocate htry).1 hbudget.not_gt
    · refine .inl ⟨hmax, r, h', ?_⟩
      simp only [growAndAllocate, grow, if_neg hmax.not_gt, htry]

/-- An emptied heap that does not meet a small request at once has no blocks at all: one that was left
would have room for it. -/
theorem Emptied.committed_eq_zero {h : Heap κ} (hemptied : h.Emptied) (hh : h.Balanced)
    {request : Request κ} (hsmall : request.bytes ≤ h.config.block)
    (hnone : h.tryAllocate request = none) : h.committed = 0 := by
  rw [hh.committed]
  refine capacityOf_eq_zero fun i b hb => ?_
  have htakes := (refused_of_tryAllocate hnone).2 hsmall i b hb
  by_contra hgone
  have hkept : b.released = false := by simpa using hgone
  obtain ⟨hded, hcapacity, hused⟩ := hemptied.blocks i b hb hkept
  simp [Block.takes, Block.room, hded, hused, hcapacity, hsmall, hkept] at htakes

/-- What becomes of a request when the collection that it asks for finds nothing to keep. -/
theorem allocate_of_emptied {h : Heap κ} {roots : List Ref} (hh : h.Balanced)
    (hemptied : (h.collect roots).2.Emptied) (hblock : 0 < h.config.block)
    (hmax : h.config.block ≤ h.config.max) (request : Request κ) :
    ((request.bytes ≤ h.config.block ∨
        (h.collect roots).2.committed + request.bytes ≤ h.config.max) ∧
      ∃ r h', h.allocate request roots = (.ok r, h')) ∨
    (h.config.block < request.bytes ∧
        h.config.max < (h.collect roots).2.committed + request.bytes ∧
      h.allocate request roots =
        (.error ((h.collect roots).2.complaint request), (h.collect roots).2)) := by
  have hh₁ : (h.collect roots).2.Balanced := balanced_kept.collect hh
  have hsame := (settled_collect h roots).1
  rcases h.allocate_cases request roots with ⟨r, h', htry, hok⟩ | ⟨r, h', htry, hok⟩ | ⟨hnone, heq⟩
  · have hless := hsame.committed
    have hbudget := hh.budget.trans hh.max
    exact .inl ⟨(fits_of_tryAllocate htry).imp_right (by have := hh.max; omega), r, h', hok⟩
  · have hfits := fits_of_tryAllocate htry
    have hbudget := hh₁.max
    rw [hsame.config] at hfits hbudget
    exact .inl ⟨hfits.imp_right (le_trans · hbudget), r, h', hok⟩
  · rw [heq]
    have hcases := growAndAllocate_cases (hsame.config ▸ hblock) request
    rw [needed, hsame.config] at hcases
    by_cases hsmall : request.bytes ≤ h.config.block
    · have hzero := hemptied.committed_eq_zero hh₁ (hsame.config ▸ hsmall) hnone
      rcases hcases with ⟨-, hok⟩ | ⟨hover, -⟩
      · exact .inl ⟨.inl hsmall, hok⟩
      · omega
    · rcases hcases with ⟨hfits, hok⟩ | ⟨hover, herror⟩
      · exact .inl ⟨.inr (by omega), hok⟩
      · exact .inr ⟨by omega, by omega, herror⟩

/-- **Memory is gone only if the blocks that are kept leave no room.** When nothing can be reached from the
roots, a request is met exactly if it fits a block of the common size, or if its bytes fit the greatest
budget beside the blocks that the collection keeps. These are empty ones of the common size, and make up
less than the budget at the start and one block more. A request that is not met leaves the collected
heap. -/
theorem allocate_of_unreachable (config : Config) (operations : List (Operation κ))
    (request : Request κ) (roots : List Ref) (hmin : Config.minBlock ≤ config.block)
    (hinitial : config.block ≤ config.initial) (hmax : config.initial ≤ config.max)
    (hdead : ∀ r, ¬ (after config operations).Reachable roots r) :
    (request.bytes ≤ config.block ∨
        ((after config operations).collect roots).2.committed + request.bytes ≤ config.max →
      ∃ r h', (after config operations).allocate request roots = (.ok r, h')) ∧
    (config.block < request.bytes →
        config.max < ((after config operations).collect roots).2.committed + request.bytes →
      (after config operations).allocate request roots =
        (.error (((after config operations).collect roots).2.complaint request),
          ((after config operations).collect roots).2)) ∧
    ((after config operations).collect roots).2.committed =
      ((after config operations).collect roots).2.blockCount * config.block ∧
    ((after config operations).collect roots).2.committed < config.initial + config.block := by
  have hpos : 0 < config.block := lt_of_lt_of_le (by decide) hmin
  have hh : (after config operations).Balanced := balanced_kept.after config operations
  have huniform := uniform_after config operations
  have hcollected := collected_of_clean (clean_kept.after config operations) roots
  generalize after config operations = h at hdead hh huniform hcollected ⊢
  have hh₁ : (h.collect roots).2.Balanced := balanced_kept.collect hh
  have huniform₁ := huniform.of_sameBlocks (settled_collect h roots).1
  have hemptied : (h.collect roots).2.Emptied :=
    emptied_of_settled (hpos.trans_le hinitial) hh₁ huniform₁ (settled_collect h roots).2
      fun r hlive => hdead r ((hcollected.live r).mp hlive).2
  have hcommitted := hemptied.committed hh₁
  have hfloor := hemptied.floor
  rw [huniform₁.config] at hcommitted hfloor
  have hanswer := allocate_of_emptied hh hemptied (huniform.config.symm ▸ hpos)
    (huniform.config.symm ▸ hinitial.trans hmax) request
  rw [huniform.config] at hanswer
  refine ⟨fun hfits => ?_, fun hlarge hover => ?_, hcommitted, hfloor⟩
  · rcases hanswer with ⟨-, hok⟩ | ⟨hlarge, hover, -⟩
    · exact hok
    · omega
  · rcases hanswer with ⟨hfits, -⟩ | ⟨-, -, herror⟩
    · omega
    · exact herror

theorem not_reachable_nil (h : Heap κ) (r : Ref) : ¬ h.Reachable [] r := by
  intro hr
  induction hr with
  | root hroot => cases hroot
  | step _ _ _ _ ih => exact ih

/-- A request for some bytes. -/
def bytesRequest (length : Nat) : Request Unit := .zeros () (.primitive .byte) length

theorem allocate_of_unreachable_large :
    (∀ r, ¬ (after ⟨64, 64, 256⟩ [.tryAllocate (bytesRequest 0)]).Reachable [] r) ∧
      ∃ r h', (after ⟨64, 64, 256⟩ [.tryAllocate (bytesRequest 0)]).allocate (bytesRequest 104) [] =
        (.ok r, h') := by
  have hdead := not_reachable_nil (after ⟨64, 64, 256⟩ [.tryAllocate (bytesRequest 0)])
  obtain ⟨hfits, -, -, hfloor⟩ := allocate_of_unreachable ⟨64, 64, 256⟩
    [.tryAllocate (bytesRequest 0)] (bytesRequest 104) [] (by decide) (by decide) (by decide) hdead
  have hbytes : (bytesRequest 104).bytes = 128 := rfl
  dsimp only at hfloor
  exact ⟨hdead, hfits (.inr (by dsimp only; omega))⟩

/-- **A heap without reachable objects may refuse a request that fits it alone**: the block that it keeps
is in the way. -/
theorem refuses_beside_kept_block :
    ¬ ∀ (config : Config) (operations : List (Operation Unit)) (request : Request Unit)
      (roots : List Ref), Config.minBlock ≤ config.block → config.block ≤ config.initial →
      config.initial ≤ config.max → request.bytes ≤ config.max →
      (∀ r, ¬ (after config operations).Reachable roots r) →
      ∃ r h', (after config operations).allocate request roots = (.ok r, h') := by
  intro hall
  obtain ⟨r, h', hok⟩ := hall ⟨64, 64, 128⟩ [.tryAllocate (bytesRequest 0)] (bytesRequest 104) []
    (by decide) (by decide) (by decide) (by decide) (not_reachable_nil _)
  have hrefused : ((after ⟨64, 64, 128⟩ [.tryAllocate (bytesRequest 0)]).allocate
      (bytesRequest 104) []).1.isOk = false := by
    rw [allocate, collect, markFrom]
    decide +kernel
  rw [hok] at hrefused
  cases hrefused

end Jvm.Heap
