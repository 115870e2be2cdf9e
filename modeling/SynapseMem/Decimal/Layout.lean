import SynapseMem.Decimal.Digits

/-!
# Decimal text of a double

A `Layout` says how the shortest digits of a double are set out: from which magnitude on an exponent
is written, whether a whole number keeps `.0`, and how an exponent is marked. The three layouts of
the program are `plain` for messages, `listed` for lists of weights, and `json` for JSON texts.
`fixed` and `scientific` write a given number of decimals, rounded from the exact value with a half
going to the even digit.
-/

namespace SynapseMem.Decimal

/-- How the shortest digits of a double are set out. -/
structure Layout where
  tie : Tie
  /-- Exponents of the leading digit below this are written with an exponent. -/
  leastPlain : Option Int
  /-- Exponents of the leading digit above this are written with an exponent. -/
  greatestPlain : Option Int
  /-- Whether a whole number in positional form ends in `.0`. -/
  pointZero : Bool
  /-- Whether a positive exponent carries a sign. -/
  plusSign : Bool

/-- Positional always, and no decimals for a whole number. -/
def plain : Layout := ⟨.up, none, none, false, false⟩

/-- Positional from `1e-4` up to `1e16`, with `.0` on whole numbers. -/
def listed : Layout := ⟨.up, some (-4), some 15, true, false⟩

/-- Positional from `1e-5` up to `1e16`, with `.0` on whole numbers and signed exponents. -/
def json : Layout := ⟨.toEven, some (-5), some 15, true, true⟩

/-- The digits with the point after the first `point` of them, padded with zeros on either side. -/
def positional (pointZero : Bool) (ds : List Char) (point : Int) : List Char :=
  match point with
  | .ofNat 0 => '0' :: '.' :: ds
  | .ofNat k =>
    if ds.length ≤ k then
      ds ++ List.replicate (k - ds.length) '0' ++ (if pointZero then ['.', '0'] else [])
    else ds.take k ++ '.' :: ds.drop k
  | .negSucc k => '0' :: '.' :: (List.replicate (k + 1) '0' ++ ds)

/-- The first digit, the point and the other digits. -/
def mantissa : List Char → List Char
  | [] => []
  | [d] => [d]
  | d :: ds => d :: '.' :: ds

/-- The exponent in decimal, after its mark. -/
def exponentText (plusSign : Bool) (e : Int) : List Char :=
  'e' :: ((if plusSign && decide (0 ≤ e) then ['+'] else []) ++ (toString e).toList)

/-- A finite double under a layout, the sign left out. -/
def Layout.magnitudeText (layout : Layout) (x : Binary64) : List Char :=
  let d := shortest layout.tie x
  let e := d.point - 1
  let small := match layout.leastPlain with
    | some low => decide (e < low)
    | none => false
  let large := match layout.greatestPlain with
    | some high => decide (high < e)
    | none => false
  if !x.isZero && (small || large) then mantissa d.digits ++ exponentText layout.plusSign e
  else positional layout.pointZero d.digits d.point

/-- Put a sign before the text of a number, or name what is not finite. -/
def signed (x : Binary64) (text : List Char) : String :=
  if x.isNaN then "NaN"
  else String.ofList ((if x.negative then ['-'] else []) ++
    (if x.isInfinite then ['i', 'n', 'f'] else text))

/-- A double under a layout. -/
def Layout.write (layout : Layout) (x : Binary64) : String := signed x (layout.magnitudeText x)

/-- The digits of `n`, with zeros put before them up to `width`. -/
def padDigits (width n : Nat) : List Char :=
  let ds := Nat.toDigits 10 n
  List.replicate (width - ds.length) '0' ++ ds

/-- A double with `places` decimals. -/
def fixed (places : Nat) (x : Binary64) : String :=
  let n := roundDiv (x.units * Nat.pow 10 places) Binary64.unitsPerOne
  let ds := padDigits (places + 1) n
  signed x (ds.take (ds.length - places) ++ '.' :: ds.drop (ds.length - places))

/-- A double with one digit before the point, `places` after it, and an exponent. -/
def scientific (places : Nat) (x : Binary64) : String :=
  let d : Decimal :=
    if x.isZero then ⟨0, 1⟩ else rounded x.units Binary64.unitsPerOne (places + 1)
  signed x (mantissa (padDigits (places + 1) d.coefficient) ++ exponentText false (d.point - 1))

end SynapseMem.Decimal
