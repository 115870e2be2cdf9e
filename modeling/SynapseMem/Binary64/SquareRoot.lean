import SynapseMem.Binary64.Rounding

/-!
# Square roots of doubles

`floorSqrt` is the root of a natural number, cut to a whole number. The root of a double is taken of
its exact value in units far finer than the spacing of doubles, and one further digit says whether
the root was cut. No root of a double lies halfway between two doubles, so that digit is all that
rounding needs to know.
-/

namespace SynapseMem

/-- The greatest natural number whose square is at most `n`, found two binary digits at a time. -/
def floorSqrt (n : Nat) : Nat :=
  if n = 0 then 0
  else
    let root := 2 * floorSqrt (n / 4)
    if (root + 1) * (root + 1) ≤ n then root + 1 else root
termination_by n
decreasing_by omega

namespace Binary64

/-- The square root, rounded once. Zeros are their own roots, and other negative numbers have
none. -/
def sqrt (x : Binary64) : Binary64 :=
  if x.isNaN then nan
  else if x.isZero then x
  else if x.negative then nan
  else if x.isInfinite then x
  else
    let square := x.units * unitsPerOne
    let root := floorSqrt square
    let cut := if root * root = square then 0 else 1
    ofQuotient false (2 * root + cut) (2 * unitsPerOne)

end Binary64

end SynapseMem
