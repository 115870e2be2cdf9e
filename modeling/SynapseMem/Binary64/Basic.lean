/-!
# Double-precision words

A `Binary64` is the 64-bit interchange word of a double-precision number. The word splits into a
sign and a magnitude. The magnitude orders the nonnegative numbers, with infinity at
`infinityMagnitude` and the words that are not numbers above it.

Every finite number is a whole count of units of `2 ^ (-1074)`, the least positive number. The
count is `units`, and `signedUnits` carries the sign, so exact sums, products and comparisons are
arithmetic on `Nat` and `Int`. No arithmetic of the machine is involved.
-/

namespace SynapseMem

/-- A double-precision number, held as its interchange word. -/
structure Binary64 where
  bits : UInt64
  deriving DecidableEq, Repr

namespace Binary64

/-- The weight `2 ^ 63` of the sign bit. -/
def signWeight : Nat := 9223372036854775808

/-- The number `2 ^ 52` of fractions that share one exponent. -/
def fractionCount : Nat := 4503599627370496

/-- The magnitude of the infinities: exponent 2047, fraction 0. -/
def infinityMagnitude : Nat := 9218868437227405312

/-- The number `2 ^ 1074` of units in one. -/
def unitsPerOne : Nat := Nat.pow 2 1074

/-- Whether the sign bit is set. -/
def negative (x : Binary64) : Bool := decide (signWeight ≤ x.bits.toNat)

/-- The word without its sign bit. -/
def magnitude (x : Binary64) : Nat := x.bits.toNat % signWeight

/-- Neither an infinity nor a word that is not a number. -/
def isFinite (x : Binary64) : Bool := decide (x.magnitude < infinityMagnitude)

/-- One of the two infinities. -/
def isInfinite (x : Binary64) : Bool := x.magnitude == infinityMagnitude

/-- Not a number. -/
def isNaN (x : Binary64) : Bool := decide (infinityMagnitude < x.magnitude)

/-- One of the two zeros. -/
def isZero (x : Binary64) : Bool := x.magnitude == 0

/-- The units that a magnitude stands for. Infinity is placed at `2 ^ 1024`. -/
def unitsOfMagnitude (m : Nat) : Nat :=
  if m / fractionCount = 0 then m
  else (fractionCount + m % fractionCount) * Nat.pow 2 (m / fractionCount - 1)

/-- The size of a number in units of `2 ^ (-1074)`. -/
def units (x : Binary64) : Nat := unitsOfMagnitude x.magnitude

/-- The number in units of `2 ^ (-1074)`, with its sign. -/
def signedUnits (x : Binary64) : Int := if x.negative then -(x.units : Int) else x.units

/-- The exact value of a finite number. -/
def toRat (x : Binary64) : Rat := (x.signedUnits : Rat) / (unitsPerOne : Rat)

/-- The word with the given sign and magnitude. -/
def ofMagnitude (negative : Bool) (m : Nat) : Binary64 :=
  ⟨UInt64.ofNat ((if negative then signWeight else 0) + m)⟩

/-- Positive zero. -/
def zero : Binary64 := ofMagnitude false 0

/-- The infinity of the given sign. -/
def infinity (negative : Bool) : Binary64 := ofMagnitude negative infinityMagnitude

/-- The quiet word that is not a number. -/
def nan : Binary64 := ofMagnitude false (infinityMagnitude + fractionCount / 2)

instance : Inhabited Binary64 := ⟨zero⟩

/-- The number with its sign turned. -/
def neg (x : Binary64) : Binary64 := ofMagnitude (!x.negative) x.magnitude

/-- Strictly less; false when either side is not a number. The two zeros are equal. -/
def lt (x y : Binary64) : Bool :=
  !x.isNaN && !y.isNaN && decide (x.signedUnits < y.signedUnits)

/-- Numerically equal; false when either side is not a number. -/
def eq (x y : Binary64) : Bool :=
  !x.isNaN && !y.isNaN && decide (x.signedUnits = y.signedUnits)

/-- The lesser of two numbers; a side that is not a number gives way to the other. -/
def min (x y : Binary64) : Binary64 := if x.isNaN || y.lt x then y else x

/-- The greater of two numbers; a side that is not a number gives way to the other. -/
def max (x y : Binary64) : Binary64 := if x.isNaN || x.lt y then y else x

/-- The number moved into the interval from `lo` to `hi`; a word that is not a number stays. -/
def clamp (x lo hi : Binary64) : Binary64 :=
  let raised := if x.lt lo then lo else x
  if hi.lt raised then hi else raised

end Binary64

end SynapseMem
