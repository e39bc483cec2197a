/-! # Binary floating-point numbers, exactly

A finite float is `± m · 2 ^ q` with a whole `m`. `Format` holds the two widths of the machine,
`Format.split` takes a bit pattern apart and `Format.join` writes an exactly representable number
back. The truncated remainder of two floats is exact, so it is computed on whole numbers here. -/

namespace Jvm.Decimal

/-- A binary interchange format: bits of the stored fraction, bits of the exponent. -/
structure Format where
  fraction : Nat
  exponent : Nat
deriving DecidableEq, Repr

/-- The 32-bit format. -/
def single : Format := ⟨23, 8⟩

/-- The 64-bit format. -/
def double : Format := ⟨52, 11⟩

/-- What a bit pattern stands for. -/
inductive Parts where
  | nan
  | infinite (negative : Bool)
  -- The number `± significand · 2 ^ power`; `narrow` marks the least significand of a binade that
  -- has a closer neighbour below.
  | finite (negative : Bool) (significand : Nat) (power : Int) (narrow : Bool)
deriving DecidableEq, Repr

namespace Format

/-- The largest value of the exponent field, kept for infinities and NaN. -/
def topExponent (f : Format) : Nat := Nat.pow 2 f.exponent - 1

/-- The power of two of the least significand bit of a number with exponent field 1. -/
def leastPower (f : Format) : Int := 1 - (Nat.pow 2 (f.exponent - 1) - 1 : Nat) - f.fraction

/-- The number a bit pattern stands for. -/
def split (f : Format) (bits : Nat) : Parts :=
  let fraction := bits % Nat.pow 2 f.fraction
  let field := bits / Nat.pow 2 f.fraction % Nat.pow 2 f.exponent
  let negative := bits / Nat.pow 2 (f.fraction + f.exponent) % 2 == 1
  if field = f.topExponent then
    if fraction = 0 then .infinite negative else .nan
  else if field = 0 then .finite negative fraction f.leastPower false
  else
    .finite negative (Nat.pow 2 f.fraction + fraction) (f.leastPower + (field - 1 : Nat))
      (fraction == 0 && field != 1)

/-- The sign bit as a pattern. -/
def signBits (f : Format) (negative : Bool) : Nat :=
  if negative then Nat.pow 2 (f.fraction + f.exponent) else 0

/-- A pattern of a NaN. -/
def nanBits (f : Format) : Nat := f.topExponent * Nat.pow 2 f.fraction + Nat.pow 2 (f.fraction - 1)

/-- The bit pattern of `± m · 2 ^ power`, for a number that the format holds exactly. -/
def join (f : Format) (negative : Bool) (m : Nat) (power : Int) : Nat :=
  if m = 0 then f.signBits negative
  else
    -- shift the significand to its full width, but not below the least power
    let up := f.fraction - Nat.log2 m
    let room := (power - f.leastPower).toNat
    let shift := min up room
    let m := m * Nat.pow 2 shift
    let power := power - shift
    let down := Nat.log2 m - f.fraction
    let m := m / Nat.pow 2 down
    let power := power + down
    let field : Nat := if m < Nat.pow 2 f.fraction then 0 else (power - f.leastPower).toNat + 1
    f.signBits negative + field * Nat.pow 2 f.fraction + m % Nat.pow 2 f.fraction

/-- The truncated remainder of two patterns: it has the sign of the dividend, and there is none for
an infinite dividend or a zero divisor. -/
def remainder (f : Format) (a b : Nat) : Nat :=
  match f.split a, f.split b with
  | .nan, _ | _, .nan | .infinite _, _ => f.nanBits
  | .finite _ _ _ _, .infinite _ => a
  | .finite negative m p _, .finite _ n q _ =>
    if n = 0 then f.nanBits
    else
      let least := min p q
      let m := m * Nat.pow 2 (p - least).toNat
      let n := n * Nat.pow 2 (q - least).toNat
      f.join negative (m % n) least

end Format

end Jvm.Decimal
