import SynapseMem.Binary64.Rounding

/-!
# Arithmetic of doubles

Products, quotients and sums are the exact results rounded once. Rounding to whole numbers comes in
two kinds, a half going to the even neighbour or away from zero, and both keep the sign of a zero.
-/

namespace SynapseMem.Binary64

/-- The product, rounded once. -/
def mul (x y : Binary64) : Binary64 :=
  let sign := x.negative != y.negative
  if x.isNaN || y.isNaN then nan
  else if x.isInfinite || y.isInfinite then
    if x.isZero || y.isZero then nan else infinity sign
  else ofQuotient sign (x.units * y.units) (unitsPerOne * unitsPerOne)

/-- The quotient, rounded once. -/
def div (x y : Binary64) : Binary64 :=
  let sign := x.negative != y.negative
  if x.isNaN || y.isNaN then nan
  else if x.isInfinite then
    if y.isInfinite then nan else infinity sign
  else if y.isInfinite then ofMagnitude sign 0
  else if y.isZero then
    if x.isZero then nan else infinity sign
  else ofQuotient sign x.units y.units

/-- The sum, rounded once. An exact zero is negative only when both sides are. -/
def add (x y : Binary64) : Binary64 :=
  if x.isNaN || y.isNaN then nan
  else if x.isInfinite then
    if y.isInfinite && x.negative != y.negative then nan else x
  else if y.isInfinite then y
  else
    let total := x.signedUnits + y.signedUnits
    if total = 0 then ofMagnitude (x.negative && y.negative) 0
    else ofQuotient (decide (total < 0)) total.natAbs unitsPerOne

/-- The nearest whole number, a half going to the even neighbour. -/
def roundTiesEven (x : Binary64) : Binary64 :=
  if x.isFinite then ofQuotient x.negative (roundDiv x.units unitsPerOne) 1 else x

/-- The nearest whole number, a half going away from zero. -/
def roundTiesAway (x : Binary64) : Binary64 :=
  if x.isFinite then
    ofQuotient x.negative ((2 * x.units + unitsPerOne) / (2 * unitsPerOne)) 1
  else x

/-- The integer reached by cutting toward zero; zero for a word that is not a number. -/
def truncate (x : Binary64) : Int :=
  if x.isNaN then 0 else x.signedUnits.tdiv unitsPerOne

/-- Cut toward zero into a 128-bit signed integer, stopping at either end of its range. -/
def toInt128 (x : Binary64) : Int :=
  let lowest : Int := -170141183460469231731687303715884105728
  let highest : Int := 170141183460469231731687303715884105727
  let n := x.truncate
  if n < lowest then lowest else if highest < n then highest else n

end SynapseMem.Binary64
