import Mathlib
import Jvm.Proofs.Heap.Emptied

/-! # Refusals and the budget

A request that does not fit is handed back and leaves the heap alone (`attempt`), and that is the case
exactly if neither a block nor the budget has room for it (`Crowded`). If the greatest budget has room for
one block more, a growing allocation always succeeds, since the budget then covers what the second attempt
asks for, and it grows by no block more than that takes: `growsExactly_after`. -/

namespace Jvm.Heap

variable {κ : Type}

/-! ### Refusals -/

/-- An attempt to create an object within the budget: the object, or the request itself. -/
def attempt (h : Heap κ) (request : Request κ) : Except (Request κ) Ref × Heap κ :=
  match h.tryAllocate request with
  | some (r, h') => (.ok r, h')
  | none => (.error request, h)

theorem attempt_eq_error {h h' : Heap κ} {request back : Request κ}
    (hattempt : h.attempt request = (.error back, h')) :
    h.tryAllocate request = none ∧ back = request ∧ h' = h := by
  rw [attempt] at hattempt
  rcases htry : h.tryAllocate request with _ | ⟨r, h₁⟩
  · rw [htry] at hattempt
    cases hattempt
    exact ⟨rfl, rfl, rfl⟩
  · rw [htry] at hattempt
    cases hattempt

theorem attempt_of_none {h : Heap κ} {request : Request κ} (hnone : h.tryAllocate request = none) :
    h.attempt request = (.error request, h) := by
  rw [attempt, hnone]

/-- Whether neither the budget has room for another block nor, if an object of the size can be put into
one of the common size, any block that is there. -/
def Crowded (h : Heap κ) (size : Nat) : Prop :=
  h.budget < h.committed + h.needed size ∧
    (size ≤ h.config.block → ∀ (i : Nat) (b : Block), h.blocks[i]? = some b → b.takes size = false)

theorem Balanced.currentTakes?_of_crowded {h : Heap κ} (hh : h.Balanced) {size : Nat}
    (hfull : ∀ (i : Nat) (b : Block), h.blocks[i]? = some b → b.takes size = false) :
    h.currentTakes? size = none := by
  refine Option.filter_eq_none_iff.mpr fun i hi => ?_
  obtain ⟨b, hb, hkept, hshared⟩ := hh.current i hi
  have hroom := hfull i b hb
  rw [hb]
  simpa [Block.takes, hkept, hshared] using hroom

theorem Balanced.reserve_of_crowded {h : Heap κ} (hh : h.Balanced) {size : Nat}
    (hcrowded : h.Crowded size) : h.reserve size = none := by
  obtain ⟨hbudget, hfull⟩ := hcrowded
  rw [needed] at hbudget
  unfold Heap.reserve
  by_cases hlarge : h.config.block < size
  · rw [if_pos hlarge, if_pos (by omega)]
  · have hfull := hfull (Nat.le_of_not_lt hlarge)
    have hnone : h.blocks.findIdx? (·.takes size) = none := by
      refine Array.findIdx?_eq_none_iff.mpr fun b hb => ?_
      obtain ⟨i, hi⟩ := Array.getElem?_of_mem hb
      exact hfull i b hi
    simp only [if_neg hlarge, hh.currentTakes?_of_crowded hfull, hnone]
    rw [if_pos (by omega)]

theorem Balanced.tryAllocate_eq_none_iff {h : Heap κ} (hh : h.Balanced) (request : Request κ) :
    h.tryAllocate request = none ↔ h.Crowded request.bytes := by
  refine ⟨refused_of_tryAllocate, fun hcrowded => ?_⟩
  rw [tryAllocate, hh.reserve_of_crowded hcrowded, Option.map_none]

/-! ### The budget -/

theorem budget_commit (h : Heap κ) (capacity : Nat) (dedicated : Bool) :
    (h.commit capacity dedicated).2.budget = h.budget := by
  rcases h.commit_cases capacity dedicated with ⟨i, b, -, -, heq⟩ | heq
  all_goals rw [heq]

theorem budget_of_tryAllocate {h h' : Heap κ} {request : Request κ} {r : Ref}
    (htry : h.tryAllocate request = some (r, h')) : h'.budget = h.budget := by
  obtain ⟨block, h₁, hreserve, -, rfl⟩ := tryAllocate_eq_some htry
  have hplace : (h₁.place request block).2.budget = h₁.budget := by
    unfold place
    dsimp only
    split <;> rfl
  rw [hplace]
  cases reserved_of_reserve hreserve with
  | dedicated => exact budget_commit h _ _
  | current => rfl
  | other => rfl
  | fresh => exact budget_commit h _ _

theorem eq_of_growAndAllocate {h h' : Heap κ} {request : Request κ} {r : Ref}
    (hgrow : h.growAndAllocate request = (.ok r, h')) :
    h'.budget = h.budgetFor (h.committed + h.needed request.bytes) ∧
      ({ h with budget := h'.budget } : Heap κ).tryAllocate request = some (r, h') := by
  rw [growAndAllocate] at hgrow
  rcases hg : h.grow request.bytes with e | h₁
  · rw [hg] at hgrow
    cases hgrow
  · obtain ⟨-, rfl⟩ := eq_of_grow hg
    rw [hg] at hgrow
    rcases htry : ({ h with budget := h.budgetFor (h.committed + h.needed request.bytes) } :
      Heap κ).tryAllocate request with _ | ⟨r', h₂⟩
    · simp only [htry] at hgrow
      cases hgrow
    · simp only [htry] at hgrow
      cases hgrow
      have hbudget := budget_of_tryAllocate htry
      exact ⟨hbudget, by rw [hbudget]; exact htry⟩

/-- The number of blocks that cover some bytes is the least that does. -/
theorem blocksFor_le_iff {h : Heap κ} (hblock : 0 < h.config.block) {bytes n : Nat} :
    h.blocksFor bytes ≤ n ↔ bytes ≤ n * h.config.block := by
  rw [blocksFor, ← Nat.lt_succ_iff, Nat.div_lt_iff_lt_mul hblock, Nat.succ_mul]
  omega

theorem isLeast_blocksFor {h : Heap κ} (hblock : 0 < h.config.block) (target : Nat) :
    IsLeast {n | target ≤ h.budget + n * h.config.block} (h.blocksFor (target - h.budget)) := by
  have hiff (n : Nat) :
      h.blocksFor (target - h.budget) ≤ n ↔ target ≤ h.budget + n * h.config.block := by
    rw [blocksFor_le_iff hblock, Nat.sub_le_iff_le_add']
  exact ⟨(hiff _).mp le_rfl, fun n hn => (hiff n).mpr hn⟩

/-- A number as arithmetic knows it that stops at a greatest one. -/
def saturated (top n : Nat) : Nat := min n top

/-- The budget is the same in arithmetic that stops at a greatest number, as that of machine words does,
if the maximum is such a number. -/
theorem min_saturated {top budget more greatest : Nat} (htop : greatest ≤ top) :
    min (saturated top (budget + saturated top more)) greatest = min (budget + more) greatest := by
  unfold saturated
  omega

/-- What a heap makes of the requests that its budget has no room for. -/
structure GrowsExactly (h : Heap κ) : Prop where
  refuses : ∀ request, (∃ back h', h.attempt request = (.error back, h')) ↔ h.Crowded request.bytes
  handsBack : ∀ request back h', h.attempt request = (.error back, h') → back = request ∧ h' = h
  fails : ∀ request, (∃ e, (h.growAndAllocate request).1 = .error e) ↔
    h.config.max < h.committed + max request.bytes h.config.block
  leaves : ∀ request e, (h.growAndAllocate request).1 = .error e →
    e = h.complaint request ∧ (h.growAndAllocate request).2 = h
  stays : ∀ request r h', h.growAndAllocate request = (.ok r, h') →
    h.committed + max request.bytes h.config.block ≤ h.budget → h'.budget = h.budget
  grows : ∀ request r h', h.growAndAllocate request = (.ok r, h') →
    h.budget < h.committed + max request.bytes h.config.block →
      ∃ n, IsLeast
          {n | h.committed + max request.bytes h.config.block ≤ h.budget + n * h.config.block} n ∧
        h'.budget = min (h.budget + n * h.config.block) h.config.max ∧
        ∀ top, h.config.max ≤ top → h'.budget =
          min (saturated top (h.budget + saturated top (n * h.config.block))) h.config.max
  creates : ∀ request r h', h.growAndAllocate request = (.ok r, h') →
    ({ h with budget := h'.budget } : Heap κ).attempt request = (.ok r, h')

theorem Balanced.growsExactly {h : Heap κ} (hh : h.Balanced) (hblock : 0 < h.config.block) :
    h.GrowsExactly where
  refuses request := by
    rw [← hh.tryAllocate_eq_none_iff]
    constructor
    · rintro ⟨back, h', hattempt⟩
      exact (attempt_eq_error hattempt).1
    · exact fun hnone => ⟨request, h, attempt_of_none hnone⟩
  handsBack request back h' hattempt := (attempt_eq_error hattempt).2
  fails request := by
    rcases growAndAllocate_cases hblock request with ⟨hmax, r, h', hok⟩ | ⟨hmax, herror⟩
    · refine ⟨?_, fun hover => absurd hmax hover.not_ge⟩
      rintro ⟨e, he⟩
      rw [hok] at he
      cases he
    · exact ⟨fun _ => hmax, fun _ => ⟨_, by rw [herror]⟩⟩
  leaves request e he := by
    rcases growAndAllocate_cases hblock request with ⟨-, r, h', hok⟩ | ⟨-, herror⟩
    · rw [hok] at he
      cases he
    · rw [herror] at he ⊢
      cases he
      exact ⟨rfl, rfl⟩
  stays request r h' hgrow hcovered := by
    rw [(eq_of_growAndAllocate hgrow).1]
    exact if_neg hcovered.not_gt
  grows request r h' hgrow hover := by
    have hbudget := (eq_of_growAndAllocate hgrow).1.trans (if_pos hover)
    exact ⟨_, isLeast_blocksFor hblock _, hbudget, fun top htop =>
      hbudget.trans (min_saturated htop).symm⟩
  creates request r h' hgrow := by
    rw [attempt, (eq_of_growAndAllocate hgrow).2]

/-- **Refused requests change nothing, and the budget grows by what they need.** On every heap that
operations lead to, a request is handed back exactly if there is no room for it, and the heap is then as it
was. A growing allocation fails exactly if the greatest budget has no room for the object, or for a block
if that is more, and leaves the heap as it was too, with its budget; the attempt after a raise always
succeeds. The budget is then the old one if that was enough, and else the old one with the least number of
blocks that covers the request, up to the maximum. -/
theorem growsExactly_after (config : Config) (operations : List (Operation κ))
    (hblock : 0 < config.block) : (after config operations).GrowsExactly := by
  refine (balanced_kept.after config operations).growsExactly ?_
  rw [(uniform_after config operations).config]
  exact hblock

theorem growsExactly_after_two_blocks :
    0 < 64 ∧ (after ⟨64, 64, 160⟩
      [.growAndAllocate (bytesRequest 40), .growAndAllocate (bytesRequest 40)]).budget = 128 ∧
    (after ⟨64, 64, 160⟩
      [.growAndAllocate (bytesRequest 40), .growAndAllocate (bytesRequest 40)]).GrowsExactly :=
  ⟨by decide, by decide +kernel, growsExactly_after ⟨64, 64, 160⟩ _ (by decide)⟩

end Jvm.Heap
