/-! # Switch tables

A finite map from keys to positions with a default: either positions for a run of keys, or pairs in
increasing order of their keys. -/

namespace Jvm.Bytecode

/-- The cases of a switch. -/
inductive SwitchCases where
  | range (low : Int32) (targets : List Nat)
  | pairs (pairs : Array (Int32 × Nat))
deriving DecidableEq, Inhabited, Repr

/-- A switch table. -/
structure SwitchTable where
  default : Nat
  cases : SwitchCases
deriving DecidableEq, Inhabited, Repr

namespace SwitchTable

/-- Halves the `size` pairs from `base` on until one is left: the last pair whose key is not above the
sought one, if the keys increase. -/
def seek (pairs : Array (Int32 × Nat)) (key : Int32) (base size : Nat) : Nat :=
  if 1 < size then
    let middle := base + size / 2
    let above := match pairs[middle]? with
      | some (k, _) => decide (key < k)
      | none => true
    seek pairs key (if above then base else middle) (size - size / 2)
  else base
termination_by size
decreasing_by omega

/-- The position of a key among pairs in increasing order. -/
def lookup (pairs : Array (Int32 × Nat)) (key : Int32) : Option Nat :=
  match pairs[seek pairs key 0 pairs.size]? with
  | some (k, t) => if k = key then some t else none
  | none => none

/-- Where a key goes. -/
def target (t : SwitchTable) (key : Int32) : Nat :=
  match t.cases with
  | .range low targets =>
    let offset := key.toInt - low.toInt
    if offset < 0 then t.default else targets[offset.toNat]?.getD t.default
  | .pairs pairs => (lookup pairs key).getD t.default

/-- All positions of a table, the default first. -/
def allTargets (t : SwitchTable) : List Nat :=
  t.default ::
    match t.cases with
    | .range _ targets => targets
    | .pairs pairs => pairs.toList.map (·.2)

/-- Replaces every position of a table, the default first, or fails at the first that has no
replacement. -/
def mapM {ε : Type} (f : Nat → Except ε Nat) (t : SwitchTable) : Except ε SwitchTable := do
  let default ← f t.default
  match t.cases with
  | .range low targets => return ⟨default, .range low (← targets.mapM f)⟩
  | .pairs pairs =>
    return ⟨default, .pairs (← pairs.toList.mapM fun (k, p) => do return (k, ← f p)).toArray⟩

end SwitchTable

end Jvm.Bytecode
