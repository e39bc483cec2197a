import Jvm.Text.Blank

/-! # Sizes and counts on the command line

A count is a run of decimal digits, with a plus sign before it if one likes, below `2 ^ 64`. A size is a
count of bytes, or of the `k`, `m` or `g` that stand behind it. -/

namespace Jvm.CommandLine

/-- One more than the greatest count: two to the power of 64. -/
def countLimit : Nat := 18446744073709551616

/-- The number that some characters spell, if they are decimal digits. -/
def digitsValue? (cs : List Char) : Option Nat :=
  if cs.isEmpty || !cs.all Char.isDigit then none
  else some (cs.foldl (fun n c => 10 * n + (c.toNat - '0'.toNat)) 0)

/-- The count that some characters spell. -/
def count? (cs : List Char) : Option Nat :=
  let digits := match cs with
    | '+' :: rest => rest
    | _ => cs
  (digitsValue? digits).filter (· < countLimit)

/-- The bytes that a suffix stands for. -/
def unit? : Char → Option Nat
  | 'k' | 'K' => some 1024
  | 'm' | 'M' => some (1024 * 1024)
  | 'g' | 'G' => some (1024 * 1024 * 1024)
  | _ => none

/-- The digits of a size and the bytes that each counts for. -/
def splitSize (cs : List Char) : List Char × Nat :=
  match cs.getLast?.bind unit? with
  | some unit => (cs.dropLast, unit)
  | none => (cs, 1)

/-- Reads a size; the error says what is wrong with it. -/
def parseSize (text : String) : Except String Nat :=
  let cs := Text.trimBlanks text.toList
  let shown := "'" ++ String.ofList cs ++ "'"
  let (digits, unit) := splitSize cs
  match count? digits with
  | none => .error ("invalid size " ++ shown)
  | some n =>
    if n * unit < countLimit then .ok (n * unit) else .error ("size " ++ shown ++ " is too large")

end Jvm.CommandLine
