import Mathlib
import Jvm.Proofs.Heap.Collection

/-! # How often a thread holds monitors

A thread holds the monitor of an object as often as it has entered it and not left it (`Heap.holds`). Entering
it counts once more and leaving it once less, and nothing else that happens to a heap makes a thread hold
monitors more often (`Heap.Releases`): a new object has a free monitor, and one that is collected none. -/

namespace Jvm

namespace Monitor

variable {m m' : Monitor} {thread : Nat}

/-- How often a thread holds a monitor. -/
def heldBy (m : Monitor) (thread : Nat) : Nat := if m.owner = some thread then m.count else 0

theorem heldBy_free (thread : Nat) : free.heldBy thread = 0 := by simp [heldBy, free]

theorem heldBy_enter? (h : m.enter? thread = some m') : m'.heldBy thread = m.heldBy thread + 1 := by
  unfold enter? at h
  split at h
  · next howner =>
    cases h
    simp [heldBy, howner]
  · next owner howner =>
    split_ifs at h with heq
    cases h
    simp [heldBy, howner, heq]

theorem heldBy_exit? (h : m.exit? thread = some m') : m'.heldBy thread = m.heldBy thread - 1 := by
  unfold exit? at h
  split_ifs at h with howner hlast
  · cases h
    rw [heldBy_free, heldBy, if_pos howner]
    omega
  · cases h
    simp [heldBy, howner]

/-- A thread that cannot leave a monitor does not hold it. -/
theorem heldBy_of_exit?_eq_none (h : m.exit? thread = none) : m.heldBy thread = 0 := by
  unfold exit? at h
  split_ifs at h with howner
  rw [heldBy, if_neg howner]

end Monitor

namespace Heap

variable {κ : Type} {h h₁ h₂ h' : Heap κ} {r s : Ref} {thread : Nat} {monitor : Monitor}

/-- How often a thread holds the monitor of an object. -/
def holds (h : Heap κ) (thread : Nat) (r : Ref) : Nat := (h.object? r).elim 0 (·.monitor.heldBy thread)

theorem holds_of_object? {o : Object κ} (ho : h.object? r = some o) :
    h.holds thread r = o.monitor.heldBy thread := by
  rw [holds, ho, Option.elim_some]

theorem holds_of_monitor (hmonitor : h.monitor r = .ok monitor) : h.holds thread r = monitor.heldBy thread := by
  unfold Heap.monitor object at hmonitor
  cases ho : h.object? r with
  | none => rw [ho] at hmonitor; cases hmonitor
  | some o =>
    rw [ho] at hmonitor
    cases hmonitor
    exact holds_of_object? ho

theorem holds_of_monitor_error {e : Fault} (hmonitor : h.monitor r = .error e) : h.holds thread r = 0 := by
  unfold Heap.monitor object at hmonitor
  cases ho : h.object? r with
  | none => rw [holds, ho, Option.elim_none]
  | some o => rw [ho] at hmonitor; cases hmonitor

theorem holds_setMonitor_of_ne (monitor : Monitor) (hne : s ≠ r) :
    (h.setMonitor r monitor).holds thread s = h.holds thread s := by
  rw [holds, setMonitor, object?_modifyObject, if_neg hne, holds]

theorem holds_setMonitor_le (h : Heap κ) (r : Ref) (monitor : Monitor) (thread : Nat) :
    (h.setMonitor r monitor).holds thread r ≤ monitor.heldBy thread := by
  rw [holds, setMonitor, object?_modifyObject, if_pos rfl]
  cases h.object? r with
  | none => exact Nat.zero_le _
  | some o => exact Nat.le_refl _

/-- Whether a thread holds no monitor more often than before. -/
def Releases (thread : Nat) (h h' : Heap κ) : Prop := ∀ r, h'.holds thread r ≤ h.holds thread r

theorem Releases.refl (thread : Nat) (h : Heap κ) : Releases thread h h := fun _ => Nat.le_refl _

theorem Releases.trans (h₁₂ : Releases thread h h₁) (h₂₃ : Releases thread h₁ h₂) : Releases thread h h₂ :=
  fun r => (h₂₃ r).trans (h₁₂ r)

/-- Objects have the monitors that they had before, or free ones. -/
theorem releases_of_object? (hobjects : ∀ r o', h'.object? r = some o' →
    o'.monitor = .free ∨ ∃ o, h.object? r = some o ∧ o'.monitor = o.monitor) :
    Releases thread h h' := by
  intro r
  cases ho' : h'.object? r with
  | none => rw [holds, ho', Option.elim_none]; exact Nat.zero_le _
  | some o' =>
    rw [holds_of_object? ho']
    rcases hobjects r o' ho' with hfree | ⟨o, ho, hsame⟩
    · rw [hfree, Monitor.heldBy_free]
      exact Nat.zero_le _
    · rw [holds_of_object? ho, hsame]

theorem releases_of_slots (hslots : h'.slots = h.slots) : Releases thread h h' :=
  releases_of_object? fun r o' ho' => .inr ⟨o', object?_congr hslots r ▸ ho', rfl⟩

theorem releases_tryAllocate {request : Request κ} (htry : h.tryAllocate request = some (r, h')) :
    Releases thread h h' := by
  obtain ⟨block, h₁, hreserve, -, rfl⟩ := tryAllocate_eq_some htry
  refine (releases_of_slots (slots_reserve hreserve)).trans (releases_of_object? fun s o' ho' => ?_)
  rcases object?_place ho' with ho' | ⟨-, rfl⟩
  · exact .inr ⟨o', ho', rfl⟩
  · exact .inl rfl

theorem releases_growAndAllocate (thread : Nat) (h : Heap κ) (request : Request κ) :
    Releases thread h (h.growAndAllocate request).2 := by
  unfold growAndAllocate
  dsimp only
  split
  · exact .refl thread h
  · next h₁ hgrow =>
    have hgrown : Releases thread h h₁ := by
      obtain ⟨-, rfl⟩ := eq_of_grow hgrow
      exact releases_of_slots rfl
    split
    · next htry => exact hgrown.trans (releases_tryAllocate htry)
    · exact hgrown

/-- A collection keeps the monitors of the objects that it keeps. -/
theorem releases_collect (thread : Nat) (h : Heap κ) (roots : List Ref) : Releases thread h (h.collect roots).2 := by
  refine releases_of_object? fun r o' ho' => .inr ?_
  rw [object?_collect] at ho'
  obtain ⟨o₁, hfilter, rfl⟩ := Option.map_eq_some_iff.1 ho'
  obtain ⟨ho₁, -⟩ := Option.filter_eq_some_iff.1 hfilter
  obtain ⟨o, ho, heq⟩ := (markedFrom_markFrom h 0 roots).marks.object_eq ho₁
  exact ⟨o, ho, by rw [heq]; rfl⟩

theorem releases_allocate (thread : Nat) (h : Heap κ) (request : Request κ) (roots : List Ref) :
    Releases thread h (h.allocate request roots).2 := by
  unfold allocate
  split
  · next htry => exact releases_tryAllocate htry
  · dsimp only
    refine (releases_collect thread h roots).trans ?_
    split
    · next htry => exact releases_tryAllocate htry
    · exact releases_growAndAllocate thread _ request

theorem releases_modifyContents (thread : Nat) (h : Heap κ) (r : Ref) (f : Contents → Contents) :
    Releases thread h (h.modifyContents r f) := by
  refine releases_of_object? fun s o' ho' => .inr ?_
  rw [modifyContents, object?_modifyObject] at ho'
  split_ifs at ho'
  · obtain ⟨o, ho, rfl⟩ := Option.map_eq_some_iff.1 ho'
    exact ⟨o, ho, rfl⟩
  · exact ⟨o', ho', rfl⟩

end Heap

end Jvm
