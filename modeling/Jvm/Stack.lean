/-! # Stacks

A stack is the list of its entries, the top first, with their number at hand: a running program asks for
the height of a stack with every push and every call. What a stack is follows from the list alone
(`ext_list`), and each operation is one on the list (`list_push`, `list_pop`, `list_drop`). -/

namespace Jvm

/-- A list of entries that knows its length. -/
structure Stack (α : Type) where
  list : List α
  size : Nat
  size_eq : size = list.length

namespace Stack

variable {α : Type}

/-- Two stacks with the same entries are the same. -/
theorem ext_list {s t : Stack α} (h : s.list = t.list) : s = t := by
  obtain ⟨l, n, hn⟩ := s
  obtain ⟨k, m, hm⟩ := t
  cases h
  rw [← hm] at hn
  cases hn
  rfl

instance [DecidableEq α] : DecidableEq (Stack α) := fun s t =>
  decidable_of_iff (s.list = t.list) ⟨ext_list, fun h => h ▸ rfl⟩

instance [Repr α] : Repr (Stack α) := ⟨fun s => reprPrec s.list⟩

/-- The stack without entries. -/
def empty : Stack α := ⟨[], 0, rfl⟩

instance : Inhabited (Stack α) := ⟨empty⟩

/-- The top entry. -/
def top? (s : Stack α) : Option α := s.list.head?

/-- Puts an entry on top. -/
def push (s : Stack α) (a : α) : Stack α := ⟨a :: s.list, s.size + 1, by simp [s.size_eq]⟩

/-- Takes the top entry away, if there is one. -/
def pop (s : Stack α) : Stack α := ⟨s.list.tail, s.size - 1, by simp [s.size_eq]⟩

/-- Takes the top `n` entries away, or all there are. -/
def drop (s : Stack α) (n : Nat) : Stack α := ⟨s.list.drop n, s.size - n, by simp [s.size_eq]⟩

/-- Replaces the top entry, if there is one. -/
def setTop (s : Stack α) (a : α) : Stack α :=
  match s with
  | ⟨_ :: rest, size, h⟩ => ⟨a :: rest, size, h⟩
  | s => s

@[simp] theorem list_empty : (empty : Stack α).list = [] := rfl

@[simp] theorem list_push (s : Stack α) (a : α) : (s.push a).list = a :: s.list := rfl

@[simp] theorem list_pop (s : Stack α) : s.pop.list = s.list.tail := rfl

@[simp] theorem list_drop (s : Stack α) (n : Nat) : (s.drop n).list = s.list.drop n := rfl

end Stack

end Jvm
