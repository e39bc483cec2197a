import Jvm.Decimal.Shortest

/-! # Layouts of decimals

How the digits of a float are written out. A `Layout` record holds the decisions of one output format;
`Layout.write` writes a bit pattern with it. -/

namespace Jvm.Decimal

/-- The decisions of a float's text. -/
structure Layout where
  scientific : Digits → Bool
  keepsPoint : Bool
  exponentMark : String
  nan : String
  infinity : String

/-- The characters of a list of digits. -/
def digitText (ds : List Nat) : String := String.ofList (ds.map Nat.digitChar)

/-- A run of zeros. -/
def zeros (n : Nat) : String := "".pushn '0' n

/-- The digits before and after the point in positional notation. -/
def positionalParts (d : Digits) : String × String :=
  let n := d.digits.length
  if d.point ≤ 0 then ("0", zeros (-d.point).toNat ++ digitText d.digits)
  else
    let whole := d.point.toNat
    if n ≤ whole then (digitText d.digits ++ zeros (whole - n), "")
    else (digitText (d.digits.take whole), digitText (d.digits.drop whole))

namespace Layout

/-- A whole part and a fraction, joined as the layout says. -/
def joinParts (l : Layout) (parts : String × String) : String :=
  if parts.2.isEmpty then if l.keepsPoint then parts.1 ++ ".0" else parts.1
  else parts.1 ++ "." ++ parts.2

/-- The text of a positive decimal. -/
def writeDigits (l : Layout) (d : Digits) : String :=
  if l.scientific d then
    l.joinParts (digitText (d.digits.take 1), digitText (d.digits.drop 1)) ++ l.exponentMark
      ++ toString (d.point - 1)
  else l.joinParts (positionalParts d)

/-- The text of a bit pattern. -/
def write (l : Layout) (f : Format) (bits : Nat) : String :=
  let signed (negative : Bool) (text : String) := if negative then "-" ++ text else text
  match f.split bits with
  | .nan => l.nan
  | .infinite negative => signed negative l.infinity
  | .finite negative m power narrow =>
    signed negative
      (if m = 0 then l.joinParts ("0", "") else l.writeDigits (shortest m power narrow))

end Layout

/-- Plain decimals: always positional, whole numbers without a point. -/
def plain : Layout := ⟨fun _ => false, false, "", "NaN", "inf"⟩

/-- The text that `String.valueOf` gives a float: positional from `10 ^ -3` to below `10 ^ 7` and
scientific outside, always with a digit after the point. -/
def valueText : Layout := ⟨fun d => d.point ≤ -3 || 7 < d.point, true, "E", "NaN", "Infinity"⟩

end Jvm.Decimal
