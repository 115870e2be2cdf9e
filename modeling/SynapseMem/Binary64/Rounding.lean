import SynapseMem.Binary64.Basic

/-!
# Rounding to the nearest double

`roundDiv` divides to the nearest whole number, a half going to the even neighbour. The one rounding
function of the library, `ofQuotient`, takes an exact quotient to the nearest double in the same
way. With the quotient counted in units of `2 ^ (-1074)`, the spacing of the doubles around it is
`2 ^ s`, and the rounded count of spacings plus `s * 2 ^ 52` is already the magnitude of the answer:
a count that reaches the next power of two carries into the exponent.
-/

namespace SynapseMem

/-- The quotient `n / d` to the nearest whole number, a half going to the even neighbour. -/
def roundDiv (n d : Nat) : Nat :=
  let q := n / d
  let r := n % d
  if 2 * r < d then q
  else if d < 2 * r then q + 1
  else q + q % 2

namespace Binary64

/-- The magnitude of the double nearest to `num / den`. -/
def nearestMagnitude (num den : Nat) : Nat :=
  let scaled := num * unitsPerOne
  let spacing := Nat.log2 (scaled / den) - 52
  Nat.min (spacing * fractionCount + roundDiv scaled (den * Nat.pow 2 spacing)) infinityMagnitude

/-- The double nearest to `num / den`, with the given sign. -/
def ofQuotient (negative : Bool) (num den : Nat) : Binary64 :=
  ofMagnitude negative (nearestMagnitude num den)

/-- The double nearest to a natural number. -/
def ofNat (n : Nat) : Binary64 := ofQuotient false n 1

/-- The double nearest to an integer; zero is positive. -/
def ofInt (z : Int) : Binary64 := ofQuotient (decide (z < 0)) z.natAbs 1

/-- The number one. -/
def one : Binary64 := ofNat 1

end Binary64

end SynapseMem
