import Jvm.Decimal.Binary

/-! # Shortest decimals

The shortest decimal that reads back as a given float: among the decimals with the fewest digits that
lie in the interval of reals rounding to it, the one nearest to it, and the upper one on an exact tie.
All comparisons are made between whole numbers. -/

namespace Jvm.Decimal

/-- A positive decimal `0.d₁d₂… · 10 ^ point`: its digits and the place of the point before them. -/
structure Digits where
  digits : List Nat
  point : Int
deriving DecidableEq, Repr

/-- A positive number as a quotient, with the reals that round to it. -/
structure Target where
  value : Nat
  low : Nat
  high : Nat
  den : Nat
  closed : Bool
deriving Repr

namespace Target

/-- The number `m · 2 ^ power` with its interval: half a unit to either side, a quarter below for the
least significand of a binade. -/
def ofBinary (m : Nat) (power : Int) (narrow : Bool) : Target :=
  let scale := Nat.pow 2 (power - 2).toNat
  { value := 4 * m * scale
    low := (4 * m - (if narrow then 1 else 2)) * scale
    high := (4 * m + 2) * scale
    den := Nat.pow 2 (2 - power).toNat
    closed := m % 2 == 0 }

/-- Whether the decimal `c · 10 ^ place` rounds to the number. -/
def covers (t : Target) (c : Nat) (place : Int) : Bool :=
  let c := c * Nat.pow 10 place.toNat * t.den
  let ends := Nat.pow 10 (-place).toNat
  if t.closed then t.low * ends ≤ c && c ≤ t.high * ends
  else t.low * ends < c && c < t.high * ends

/-- The whole part of the number counted in units of `10 ^ place`, and the part left over as a
numerator and denominator. -/
def inUnits (t : Target) (place : Int) : Nat × Nat × Nat :=
  let num := t.value * Nat.pow 10 (-place).toNat
  let den := t.den * Nat.pow 10 place.toNat
  (num / den, num % den, den)

/-- The decimal on the grid of `10 ^ place` that rounds to the number and is nearest to it, if there is
one. -/
def onGrid? (t : Target) (place : Int) : Option Nat :=
  let (below, left, den) := t.inUnits place
  let above := below + 1
  match t.covers below place, t.covers above place with
  | true, true => some (if 2 * left < den then below else above)
  | true, false => some below
  | false, true => some above
  | false, false => none

/-- The least `k` with the number below `10 ^ k`, for a number of at least one. -/
def wholeDigits (n : Nat) : Nat := (Nat.toDigits 10 n).length

/-- How many factors of ten bring `value / den` to at least one; `fuel` bounds the count. -/
def leadingZeros (value den : Nat) : Nat → Nat
  | 0 => 0
  | fuel + 1 => if den ≤ value then 0 else leadingZeros (value * 10) den fuel + 1

/-- The `k` with `10 ^ (k - 1) ≤ value / den < 10 ^ k`. -/
def point (t : Target) : Int :=
  if t.den ≤ t.value then wholeDigits (t.value / t.den)
  else 1 - leadingZeros t.value t.den (wholeDigits t.den + 1)

/-- Tries `count` digits, then one more, `fuel` times. -/
def search (t : Target) (k : Int) (count : Nat) : Nat → Nat × Int
  | 0 => ((t.inUnits (k - count)).1, k - count)
  | fuel + 1 =>
    match t.onGrid? (k - count) with
    | some c => (c, k - count)
    | none => search t k (count + 1) fuel

end Target

/-- The decimal digits of a number without the zeros at its end. -/
def trimmedDigits (n : Nat) : List Nat :=
  (((Nat.toDigits 10 n).map fun c => c.toNat - '0'.toNat).reverse.dropWhile (· == 0)).reverse

/-- The shortest decimal of the positive number `m · 2 ^ power`. Seventeen digits always suffice. -/
def shortest (m : Nat) (power : Int) (narrow : Bool) : Digits :=
  let t := Target.ofBinary m power narrow
  let (c, place) := t.search t.point 1 17
  { digits := trimmedDigits c, point := place + (Nat.toDigits 10 c).length }

end Jvm.Decimal
