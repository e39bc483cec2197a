import Jvm.Decimal.Layout

/-! # Arithmetic

The arithmetic of the instruction set. Whole numbers wrap in two's complement and have no quotient by
zero; shift distances are taken modulo the width; floats compare to `-1`, `0` or `1`, with an answer of
the caller's for NaN; conversions of floats to whole numbers clamp and send NaN to zero. -/

namespace Jvm.Arithmetic

/-- The quotient of two ints, truncated. -/
def idiv (a b : Int32) : Option Int32 := if b = 0 then none else some (a / b)

/-- The remainder of two ints, with the sign of the dividend. -/
def irem (a b : Int32) : Option Int32 := if b = 0 then none else some (a % b)

/-- The quotient of two longs, truncated. -/
def ldiv (a b : Int64) : Option Int64 := if b = 0 then none else some (a / b)

/-- The remainder of two longs, with the sign of the dividend. -/
def lrem (a b : Int64) : Option Int64 := if b = 0 then none else some (a % b)

/-- The truncated remainder of two floats. -/
def frem (a b : UInt32) : UInt32 := (Decimal.single.remainder a.toNat b.toNat).toUInt32

/-- The truncated remainder of two doubles. -/
def drem (a b : UInt64) : UInt64 := (Decimal.double.remainder a.toNat b.toNat).toUInt64

/-- Left shift of an int by the low five bits of the distance. -/
def ishl (a distance : Int32) : Int32 := a <<< (distance &&& 0x1F)

/-- Right shift of an int with copies of the sign. -/
def ishr (a distance : Int32) : Int32 := a >>> (distance &&& 0x1F)

/-- Right shift of an int with zeros. -/
def iushr (a distance : Int32) : Int32 := (a.toUInt32 >>> (distance &&& 0x1F).toUInt32).toInt32

/-- Left shift of a long by the low six bits of the distance. -/
def lshl (a : Int64) (distance : Int32) : Int64 := a <<< (distance &&& 0x3F).toInt64

/-- Right shift of a long with copies of the sign. -/
def lshr (a : Int64) (distance : Int32) : Int64 := a >>> (distance &&& 0x3F).toInt64

/-- Right shift of a long with zeros. -/
def lushr (a : Int64) (distance : Int32) : Int64 :=
  (a.toUInt64 >>> (distance &&& 0x3F).toInt64.toUInt64).toInt64

/-- The sign of a comparison. -/
def signOf (less equal : Bool) : Int32 := if less then -1 else if equal then 0 else 1

/-- Comparison of two longs. -/
def lcmp (a b : Int64) : Int32 := signOf (a < b) (a == b)

/-- Comparison of two floats, given as bit patterns. -/
def fcmp (a b : UInt32) (unordered : Int32) : Int32 :=
  let x := Float32.ofBits a
  let y := Float32.ofBits b
  if x.isNaN || y.isNaN then unordered else signOf (x < y) (x == y)

/-- Comparison of two doubles, given as bit patterns. -/
def dcmp (a b : UInt64) (unordered : Int32) : Int32 :=
  let x := Float.ofBits a
  let y := Float.ofBits b
  if x.isNaN || y.isNaN then unordered else signOf (x < y) (x == y)

/-- A float as an int. -/
def f2i (a : UInt32) : Int32 := (Float32.ofBits a).toInt32

/-- A float as a long. -/
def f2l (a : UInt32) : Int64 := (Float32.ofBits a).toInt64

/-- A double as an int. -/
def d2i (a : UInt64) : Int32 := (Float.ofBits a).toInt32

/-- A double as a long. -/
def d2l (a : UInt64) : Int64 := (Float.ofBits a).toInt64

/-- The low eight bits of an int with their sign. -/
def i2b (a : Int32) : Int32 := a.toInt8.toInt32

/-- The low sixteen bits of an int without a sign. -/
def i2c (a : Int32) : Int32 := a &&& 0xFFFF

/-- The low sixteen bits of an int with their sign. -/
def i2s (a : Int32) : Int32 := a.toInt16.toInt32

/-- A binary operation on floats, on bit patterns. -/
def onSingles (f : Float32 → Float32 → Float32) (a b : UInt32) : UInt32 :=
  (f (Float32.ofBits a) (Float32.ofBits b)).toBits

/-- A binary operation on doubles, on bit patterns. -/
def onDoubles (f : Float → Float → Float) (a b : UInt64) : UInt64 :=
  (f (Float.ofBits a) (Float.ofBits b)).toBits

/-- A float with the other sign. -/
def fneg (a : UInt32) : UInt32 := a ^^^ 0x80000000

/-- A double with the other sign. -/
def dneg (a : UInt64) : UInt64 := a ^^^ 0x8000000000000000

/-- The text of a float. -/
def floatText (a : UInt32) : String := Decimal.valueText.write Decimal.single a.toNat

/-- The text of a double. -/
def doubleText (a : UInt64) : String := Decimal.valueText.write Decimal.double a.toNat

end Jvm.Arithmetic
