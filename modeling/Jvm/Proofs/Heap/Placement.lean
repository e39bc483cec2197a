import Mathlib
import Jvm.Proofs.Heap.Objects

/-! # Where new objects go

`reserve_cases` lists the ways in which a heap finds a block for an object, and `place_cases` the two slots
that the object can go to. -/

namespace Jvm.Heap

variable {κ : Type}

theorem commit_cases (h : Heap κ) (capacity : Nat) (dedicated : Bool) :
    (∃ i b, h.blocks[i]? = some b ∧ b.released = true ∧ h.commit capacity dedicated =
      (i, { h with
        blocks := h.blocks.setIfInBounds i ⟨capacity, 0, 0, dedicated, false⟩
        committed := h.committed + capacity })) ∨
    h.commit capacity dedicated = (h.blocks.size, { h with
      blocks := h.blocks.push ⟨capacity, 0, 0, dedicated, false⟩
      committed := h.committed + capacity }) := by
  rcases hfind : h.blocks.findIdx? (·.released) with _ | i
  · exact .inr (by rw [commit]; simp only [hfind])
  · obtain ⟨hi, hreleased, -⟩ := Array.findIdx?_eq_some_iff_getElem.mp hfind
    exact .inl ⟨i, h.blocks[i], Array.getElem?_eq_getElem hi, hreleased,
      by rw [commit]; simp only [hfind]⟩

theorem slots_commit (h : Heap κ) (capacity : Nat) (dedicated : Bool) :
    (h.commit capacity dedicated).2.slots = h.slots := by
  rcases h.commit_cases capacity dedicated with ⟨i, b, -, -, heq⟩ | heq
  all_goals rw [heq]

/-- How a heap finds a block for an object. -/
inductive Reserved (h : Heap κ) (size : Nat) : Nat → Heap κ → Prop
  | dedicated (hlarge : h.config.block < size) (hbudget : h.committed + size ≤ h.budget) :
    h.Reserved size (h.commit size true).1 (h.commit size true).2
  | current {i : Nat} {b : Block} (hsmall : size ≤ h.config.block) (hcurrent : h.current = some i)
    (hb : h.blocks[i]? = some b) (hroom : size ≤ b.room) : h.Reserved size i h
  | other {i : Nat} {b : Block} (hsmall : size ≤ h.config.block) (hb : h.blocks[i]? = some b)
    (htakes : b.takes size = true) : h.Reserved size i { h with current := some i }
  | fresh (hsmall : size ≤ h.config.block) (hbudget : h.committed + h.config.block ≤ h.budget) :
    h.Reserved size (h.commit h.config.block false).1
      { (h.commit h.config.block false).2 with
        current := some (h.commit h.config.block false).1 }

theorem reserved_of_reserve {h h' : Heap κ} {size block : Nat}
    (hreserve : h.reserve size = some (block, h')) : h.Reserved size block h' := by
  unfold reserve at hreserve
  by_cases hlarge : h.config.block < size
  · rw [if_pos hlarge] at hreserve
    by_cases hbudget : h.budget < h.committed + size
    · rw [if_pos hbudget] at hreserve
      cases hreserve
    · rw [if_neg hbudget] at hreserve
      have heq := Option.some.inj hreserve
      rw [show block = (h.commit size true).1 from congrArg Prod.fst heq.symm,
        show h' = (h.commit size true).2 from congrArg Prod.snd heq.symm]
      exact .dedicated hlarge (Nat.le_of_not_lt hbudget)
  · rw [if_neg hlarge] at hreserve
    have hsmall := Nat.le_of_not_lt hlarge
    rcases hcurrent : h.currentTakes? size with _ | i
    · rw [hcurrent] at hreserve
      rcases hfind : h.blocks.findIdx? (·.takes size) with _ | i
      · rw [hfind] at hreserve
        by_cases hbudget : h.budget < h.committed + h.config.block
        · simp only [if_pos hbudget] at hreserve
          cases hreserve
        · simp only [if_neg hbudget] at hreserve
          cases hreserve
          exact .fresh hsmall (Nat.le_of_not_lt hbudget)
      · rw [hfind] at hreserve
        cases hreserve
        obtain ⟨hi, htakes, -⟩ := Array.findIdx?_eq_some_iff_getElem.mp hfind
        exact .other hsmall (Array.getElem?_eq_getElem hi) htakes
    · rw [hcurrent] at hreserve
      cases hreserve
      obtain ⟨hi, hroom⟩ := Option.filter_eq_some_iff.mp hcurrent
      rcases hb : h.blocks[block]? with _ | b
      · rw [hb] at hroom
        cases hroom
      · rw [hb] at hroom
        exact .current hsmall hi hb (by simpa using hroom)

theorem slots_reserve {h h' : Heap κ} {size block : Nat}
    (hreserve : h.reserve size = some (block, h')) : h'.slots = h.slots := by
  cases reserved_of_reserve hreserve with
  | dedicated => exact slots_commit h _ _
  | current => rfl
  | other => rfl
  | fresh => exact slots_commit h _ _

/-- The object that a request creates in a block. -/
def made (h : Heap κ) (request : Request κ) (block : Nat) : Object κ :=
  ⟨request.cls, request.contents, Monitor.free, false, 0, hashOf (nextSeed h.seed), request.bytes,
    block⟩

/-- What is behind a reference after an object was put into a block is the new object or was there
before. -/
theorem object?_place {h : Heap κ} {request : Request κ} {block : Nat} {r : Ref} {o : Object κ}
    (ho : (h.place request block).2.object? r = some o) :
    h.object? r = some o ∨ r = (h.place request block).1 ∧ o = h.made request block := by
  rw [object?_eq_some] at ho ⊢
  unfold place at ho ⊢
  dsimp only at ho ⊢
  split at ho
  · rw [Array.getElem?_setIfInBounds] at ho
    split_ifs at ho with hindex
    · cases ho
      exact .inr ⟨by rw [hindex], rfl⟩
    · exact .inl ho
  · rw [Array.getElem?_push] at ho
    split_ifs at ho with hindex
    · cases ho
      exact .inr ⟨by rw [← hindex], rfl⟩
    · exact .inl ho

theorem tryAllocate_eq_some {h h' : Heap κ} {request : Request κ} {r : Ref}
    (htry : h.tryAllocate request = some (r, h')) :
    ∃ block h₁, h.reserve request.bytes = some (block, h₁) ∧ r = (h₁.place request block).1 ∧
      h' = (h₁.place request block).2 := by
  obtain ⟨⟨block, h₁⟩, hreserve, hplace⟩ := Option.map_eq_some_iff.mp htry
  exact ⟨block, h₁, hreserve, congrArg Prod.fst hplace.symm, congrArg Prod.snd hplace.symm⟩

theorem eq_of_grow {h h' : Heap κ} {size : Nat} (hgrow : h.grow size = .ok h') :
    h.committed + h.needed size ≤ h.config.max ∧
      h' = { h with budget := h.budgetFor (h.committed + h.needed size) } := by
  unfold grow at hgrow
  dsimp only at hgrow
  split_ifs at hgrow with hmax
  cases hgrow
  exact ⟨Nat.le_of_not_lt hmax, rfl⟩

end Jvm.Heap
