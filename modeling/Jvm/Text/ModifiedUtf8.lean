import Jvm.Text.Utf16

/-! # Modified UTF-8

The encoding of strings inside class files. Each UTF-16 unit is written on its own, in one byte for
U+0001 to U+007F, two bytes below U+0800 (zero included) and three bytes otherwise, so the bytes
`00` and `F0` to `FF` never occur. `decodeUnits` accepts exactly the groups of these three shapes and
reports the offset of the first group that has none of them. -/

namespace Jvm.Text.ModifiedUtf8

/-- The bytes of one code unit. -/
def bytesOfUnit (u : UInt16) : List UInt8 :=
  if 1 ≤ u && u ≤ 0x7F then [u.toUInt8]
  else if u ≤ 0x7FF then [(0xC0 : UInt8) ||| (u >>> 6).toUInt8, (0x80 : UInt8) ||| (u &&& 0x3F).toUInt8]
  else
    [(0xE0 : UInt8) ||| (u >>> 12).toUInt8, (0x80 : UInt8) ||| ((u >>> 6) &&& 0x3F).toUInt8,
      (0x80 : UInt8) ||| (u &&& 0x3F).toUInt8]

/-- The bytes of a text. -/
def encode (s : String) : List UInt8 := (Utf16.encode s).flatMap bytesOfUnit

/-- A byte that may follow the first byte of a group. -/
def isContinuation (b : UInt8) : Bool := b &&& 0xC0 == 0x80

/-- The unit of a two-byte group. -/
def unitOfTwo (a b : UInt8) : UInt16 :=
  ((a &&& 0x1F).toUInt16 <<< 6) ||| (b &&& 0x3F).toUInt16

/-- The unit of a three-byte group. -/
def unitOfThree (a b c : UInt8) : UInt16 :=
  ((a &&& 0x0F).toUInt16 <<< 12) ||| ((b &&& 0x3F).toUInt16 <<< 6) ||| (c &&& 0x3F).toUInt16

/-- Reads groups from offset `at_`; `read` holds the units found so far, latest first. The error is
the offset of the first malformed group. -/
def decodeOnto (at_ : Nat) (read : List UInt16) : List UInt8 → Except Nat (List UInt16)
  | [] => .ok read.reverse
  | a :: rest =>
    if 1 ≤ a && a ≤ 0x7F then decodeOnto (at_ + 1) (a.toUInt16 :: read) rest
    else if 0xC0 ≤ a && a ≤ 0xDF then
      match rest with
      | b :: rest =>
        if isContinuation b then decodeOnto (at_ + 2) (unitOfTwo a b :: read) rest
        else .error at_
      | [] => .error at_
    else if 0xE0 ≤ a && a ≤ 0xEF then
      match rest with
      | b :: c :: rest =>
        if isContinuation b && isContinuation c then
          decodeOnto (at_ + 3) (unitOfThree a b c :: read) rest
        else .error at_
      | _ => .error at_
    else .error at_

/-- The code units that the bytes spell, or the offset of the first malformed group. -/
def decodeUnits (bytes : List UInt8) : Except Nat (List UInt16) := decodeOnto 0 [] bytes

/-- The text that the bytes spell. -/
def decode (bytes : List UInt8) : Except Nat String := (decodeUnits bytes).map Utf16.decode

end Jvm.Text.ModifiedUtf8
