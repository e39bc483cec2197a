/-! # UTF-16 code units

Strings of the machine are counted, hashed and stored by 16-bit code unit. `encode` spells a text as
units, `decode` reads any unit sequence and replaces each unpaired surrogate by U+FFFD. -/

namespace Jvm.Text.Utf16

/-- The units of one character: one below U+10000, else a high and a low surrogate. -/
def unitsOfChar (c : Char) : List UInt16 :=
  if c.toNat < 0x10000 then [c.toNat.toUInt16]
  else
    let offset := c.toNat - 0x10000
    [(0xD800 + offset / 0x400).toUInt16, (0xDC00 + offset % 0x400).toUInt16]

/-- The code units of a text. -/
def encode (s : String) : List UInt16 := s.toList.flatMap unitsOfChar

/-- A unit that opens a surrogate pair. -/
def isHighSurrogate (u : UInt16) : Bool := 0xD800 ≤ u && u ≤ 0xDBFF

/-- A unit that closes a surrogate pair. -/
def isLowSurrogate (u : UInt16) : Bool := 0xDC00 ≤ u && u ≤ 0xDFFF

/-- The character that stands for a unit outside any pair: itself, or U+FFFD for a surrogate. -/
def charOfUnit (u : UInt16) : Char :=
  if isHighSurrogate u || isLowSurrogate u then '\uFFFD' else Char.ofNat u.toNat

/-- The character of a surrogate pair. -/
def charOfPair (high low : UInt16) : Char :=
  Char.ofNat (0x10000 + (high.toNat - 0xD800) * 0x400 + (low.toNat - 0xDC00))

/-- Reads units from the left; `read` holds the characters found so far, latest first. -/
def decodeOnto (read : List Char) : List UInt16 → List Char
  | [] => read.reverse
  | [u] => (charOfUnit u :: read).reverse
  | u :: v :: rest =>
    if isHighSurrogate u && isLowSurrogate v then decodeOnto (charOfPair u v :: read) rest
    else decodeOnto (charOfUnit u :: read) (v :: rest)

/-- The text of a unit sequence. -/
def decode (units : List UInt16) : String := String.ofList (decodeOnto [] units)

/-- The hash of a string: its units as the digits of a number in base 31, modulo `2 ^ 32`. -/
def hash (units : List UInt16) : Int32 :=
  units.foldl (fun h u => h * 31 + u.toUInt32.toInt32) 0

end Jvm.Text.Utf16
