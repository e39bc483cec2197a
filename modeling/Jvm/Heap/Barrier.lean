import Jvm.Value

/-! # The barrier

A collection runs while all threads but one stand still. The barrier keeps the threads that take part,
the roots of those that wait for something else, and the thread that collects. An operation that would
have to wait for another thread has no result. -/

namespace Jvm

/-- The state of the barrier. -/
structure Barrier where
  threads : List Nat
  blocked : List (Nat × List Ref)
  collector : Option Nat
  epoch : Nat
  checks : Nat
deriving DecidableEq, Inhabited, Repr

namespace Barrier

/-- A barrier without threads. -/
def empty : Barrier := ⟨[], [], none, 0, 0⟩

/-- Whether a collection is asked for. -/
def isRequested (b : Barrier) : Bool := b.collector.isSome

/-- A thread takes part from now on; it waits while a collection runs. -/
def register (b : Barrier) (thread : Nat) : Option Barrier :=
  if b.isRequested then none
  else some { b with threads := if b.threads.contains thread then b.threads else thread :: b.threads }

/-- A thread takes part no more. -/
def unregister (b : Barrier) (thread : Nat) : Barrier :=
  { b with
    threads := b.threads.filter (· != thread)
    blocked := b.blocked.filter (·.1 != thread) }

/-- A thread stands still until the collection is over; without one it goes on at once. -/
def park (b : Barrier) : Option Barrier := if b.isRequested then none else some b

/-- A thread looks whether to stand still. -/
def poll (b : Barrier) : Option Barrier := { b with checks := b.checks + 1 }.park

/-- A thread begins to wait for something else and leaves its roots behind. -/
def block (b : Barrier) (thread : Nat) (roots : List Ref) : Barrier :=
  { b with blocked := (thread, roots) :: b.blocked.filter (·.1 != thread) }

/-- A thread has waited long enough; it goes on once no other thread collects. -/
def unblock (b : Barrier) (thread : Nat) : Option Barrier :=
  if b.collector.any (· != thread) then none
  else some { b with blocked := b.blocked.filter (·.1 != thread) }

/-- How many threads stand still for a collector. -/
def stopped (b : Barrier) (collector : Nat) : Nat := b.blocked.countP (·.1 != collector)

/-- How many threads have to stand still for a collector. -/
def others (b : Barrier) (collector : Nat) : Nat := b.threads.countP (· != collector)

/-- The outcome of asking for a collection. -/
inductive Stop where
  -- All others stand still; these are their roots.
  | granted (roots : List Ref) (b : Barrier)
  | busy
  | waits
deriving DecidableEq, Inhabited, Repr

/-- A thread asks for a collection. -/
def stop (b : Barrier) (thread : Nat) : Stop :=
  if b.isRequested then .busy
  else if b.stopped thread < b.others thread then .waits
  else
    .granted ((b.blocked.filter (·.1 != thread)).flatMap (·.2)) { b with collector := some thread }

/-- The collection is over, if one runs. -/
def release (b : Barrier) : Barrier :=
  if b.isRequested then { b with collector := none, epoch := b.epoch + 1 } else b

end Barrier

end Jvm
