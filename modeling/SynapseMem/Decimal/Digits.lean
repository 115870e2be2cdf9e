import SynapseMem.Binary64.Rounding

/-!
# Decimal digits of a double

A `Decimal` is a row of significant digits with a place for the decimal point. `shortest` finds the
fewest digits that read back as the same double. For 1, 2, … digits it looks at the two neighbours
of the value on the grid of that many digits and takes the first grid that has a neighbour inside
the interval of values that round to the double; of two such neighbours the nearer one, and for an
exact tie the caller's choice. `rounded` cuts to a given number of digits instead.
-/

namespace SynapseMem

/-- The value `0.d₁d₂… * 10 ^ point`, with `coefficient` the whole number `d₁d₂…`. -/
structure Decimal where
  coefficient : Nat
  point : Int
  deriving DecidableEq, Repr

namespace Decimal

/-- Where a value halfway between two grid points goes. -/
inductive Tie where
  | up
  | toEven
  deriving DecidableEq, Repr

/-- The number of decimal digits of `n`; zero has one. -/
def digitCount (n : Nat) : Nat := (Nat.toDigits 10 n).length

/-- The least `p` with `num / den < 10 ^ p`, for positive `num` and `den`. -/
def pointOf (num den : Nat) : Int :=
  if den ≤ num then digitCount (num / den)
  else 1 - (digitCount ((den - 1) / num) : Int)

/-- The fraction `num / den` multiplied by `10 ^ e`, as a fraction. -/
def shift (num den : Nat) (e : Int) : Nat × Nat :=
  match e with
  | .ofNat k => (num * Nat.pow 10 k, den)
  | .negSucc k => (num, den * Nat.pow 10 (k + 1))

/-- The digits as characters, without trailing zeros; zero has the one digit `0`. -/
def digits (d : Decimal) : List Char :=
  match ((Nat.toDigits 10 d.coefficient).reverse.dropWhile (· == '0')).reverse with
  | [] => ['0']
  | cs => cs

/-- A coefficient on the grid of `k` digits; one that has grown a digit moves the point. -/
def onGrid (k : Nat) (point : Int) (coefficient : Nat) : Decimal :=
  if coefficient = Nat.pow 10 k then ⟨1, point + 1⟩ else ⟨coefficient, point⟩

/-- The fraction `num / den` rounded to `k` significant digits, a half going to the even one. -/
def rounded (num den k : Nat) : Decimal :=
  let point := pointOf num den
  let scaled := shift num den (k - point)
  let coefficient := roundDiv scaled.1 scaled.2
  if coefficient = Nat.pow 10 k then ⟨coefficient / 10, point + 1⟩ else ⟨coefficient, point⟩

/-- An interval of positive values around `center`, over one denominator. -/
structure Cell where
  low : Nat
  center : Nat
  high : Nat
  den : Nat
  /-- Whether the ends belong to the interval. -/
  closed : Bool

/-- Whether `coefficient * 10 ^ e` lies in the interval. -/
def Cell.contains (cell : Cell) (coefficient : Nat) (e : Int) : Bool :=
  let scaled := shift coefficient 1 e
  let n := scaled.1 * cell.den
  let low := cell.low * scaled.2
  let high := cell.high * scaled.2
  if cell.closed then decide (low ≤ n) && decide (n ≤ high)
  else decide (low < n) && decide (n < high)

/-- The neighbour of the center on the grid of `k` digits that lies in the interval, if one does. -/
def Cell.onGrid? (cell : Cell) (tie : Tie) (point : Int) (k : Nat) : Option Decimal :=
  let scaled := shift cell.center cell.den (k - point)
  let below := scaled.1 / scaled.2
  let rest := scaled.1 % scaled.2
  let e := point - k
  let nearerAbove :=
    if 2 * rest = scaled.2 then
      match tie with
      | .up => true
      | .toEven => below % 2 == 1
    else decide (scaled.2 < 2 * rest)
  match cell.contains below e, cell.contains (below + 1) e with
  | true, true => some (Decimal.onGrid k point (if nearerAbove then below + 1 else below))
  | true, false => some (Decimal.onGrid k point below)
  | false, true => some (Decimal.onGrid k point (below + 1))
  | false, false => none

/-- The values that round to a positive finite double. The gap below a power of two is half the gap
above it, and the ends round to the double exactly when its fraction is even. -/
def cellOf (x : Binary64) : Cell :=
  let m := x.magnitude
  let exponent := m / Binary64.fractionCount
  let gap := Nat.pow 2 (exponent - 1)
  let center := 4 * x.units
  let atPower := decide (m % Binary64.fractionCount = 0) && decide (1 < exponent)
  { low := center - (if atPower then gap else 2 * gap)
    center := center
    high := center + 2 * gap
    den := 4 * Binary64.unitsPerOne
    closed := m % 2 == 0 }

/-- The fewest digits that read back as the finite double `x`, the sign left out. -/
def shortest (tie : Tie) (x : Binary64) : Decimal :=
  if x.isZero then ⟨0, 1⟩
  else
    let cell := cellOf x
    let point := pointOf cell.center cell.den
    ((List.range 17).findSome? fun i => cell.onGrid? tie point (i + 1)).getD
      (rounded cell.center cell.den 17)

end Decimal

end SynapseMem
