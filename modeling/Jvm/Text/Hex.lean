/-! # Hexadecimal text

Numbers and byte strings in base sixteen, with lower-case digits. -/

namespace Jvm.Text.Hex

/-- The digits of a number, without leading zeros. -/
def digits (n : Nat) : String := String.ofList (Nat.toDigits 16 n)

/-- The digits of a number, with zeros in front up to a width. -/
def padded (width n : Nat) : String :=
  let ds := Nat.toDigits 16 n
  String.ofList (List.replicate (width - ds.length) '0' ++ ds)

/-- The value of a digit; other characters count as zero. -/
def digitValue (c : Char) : Nat :=
  if '0' ≤ c ∧ c ≤ '9' then c.toNat - '0'.toNat
  else if 'a' ≤ c ∧ c ≤ 'f' then c.toNat - 'a'.toNat + 10
  else if 'A' ≤ c ∧ c ≤ 'F' then c.toNat - 'A'.toNat + 10
  else 0

/-- The number that digits spell. -/
def value (s : String) : Nat := s.toList.foldl (fun n c => n * 16 + digitValue c) 0

/-- The two digits of a byte. -/
def byteChars (b : UInt8) : List Char :=
  [Nat.digitChar (b.toNat / 16), Nat.digitChar (b.toNat % 16)]

/-- Bytes as pairs of digits. -/
def ofBytes (bytes : List UInt8) : String := String.ofList (bytes.flatMap byteChars)

/-- Reads pairs of digits after the bytes in `read`, which holds them latest first. -/
def bytesOnto (read : List UInt8) : List Char → List UInt8
  | a :: b :: rest => bytesOnto ((digitValue a * 16 + digitValue b).toUInt8 :: read) rest
  | _ => read.reverse

/-- The bytes that pairs of digits spell. -/
def toBytes (s : String) : List UInt8 := bytesOnto [] s.toList

end Jvm.Text.Hex
