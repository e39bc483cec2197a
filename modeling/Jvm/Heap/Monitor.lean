/-! # Monitors

A lock that its owner can enter again. It is free after as many exits of the owner as entries. -/

namespace Jvm

/-- A monitor. -/
structure Monitor where
  owner : Option Nat
  count : Nat
deriving DecidableEq, Inhabited, Repr

namespace Monitor

/-- A monitor that nobody holds. -/
def free : Monitor := ⟨none, 0⟩

/-- The monitor after a thread has entered it; none if another thread holds it. -/
def enter? (m : Monitor) (thread : Nat) : Option Monitor :=
  match m.owner with
  | none => some ⟨some thread, 1⟩
  | some owner => if owner = thread then some { m with count := m.count + 1 } else none

/-- The monitor after its owner has left it once; none if the thread is not the owner. -/
def exit? (m : Monitor) (thread : Nat) : Option Monitor :=
  if m.owner = some thread then
    if m.count ≤ 1 then some free else some { m with count := m.count - 1 }
  else none

/-- Whether nobody holds the monitor. -/
def isFree (m : Monitor) : Bool := m.owner.isNone

end Monitor

end Jvm
