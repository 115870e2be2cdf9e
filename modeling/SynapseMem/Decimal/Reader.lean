import SynapseMem.Decimal.Digits

/-!
# Reading decimal text

`read?` reads a number written with an optional sign, digits with at most one point, and an optional
exponent, or one of the words for infinity and for what is not a number. The value is the nearest
double to the exact decimal value.
-/

namespace SynapseMem.Decimal

/-- The number written by a row of decimal digits. -/
def digitsValue (ds : List Char) : Nat :=
  ds.foldl (fun n c => 10 * n + (c.toNat - 48)) 0

/-- The double nearest to `coefficient * 10 ^ e`. Exponents far outside the range of doubles are
settled without computing the power. -/
def nearest (negative : Bool) (coefficient : Nat) (e : Int) : Binary64 :=
  if coefficient = 0 then Binary64.ofMagnitude negative 0
  else
    let point := digitCount coefficient + e
    if 400 < point then Binary64.infinity negative
    else if point < -400 then Binary64.ofMagnitude negative 0
    else
      let scaled := shift coefficient 1 e
      Binary64.ofQuotient negative scaled.1 scaled.2

/-- Split off a leading sign. -/
def splitSign : List Char → Bool × List Char
  | '-' :: cs => (true, cs)
  | '+' :: cs => (false, cs)
  | cs => (false, cs)

/-- The exponent after the mantissa: nothing, or a mark, an optional sign and digits. -/
def exponent? : List Char → Option Int
  | [] => some 0
  | c :: cs =>
    if c == 'e' || c == 'E' then
      let (negative, ds) := splitSign cs
      if ds.isEmpty || !ds.all Char.isDigit then none
      else
        let n : Int := digitsValue ds
        some (if negative then -n else n)
    else none

/-- An unsigned decimal: digits, a point and digits, and an exponent. -/
def unsigned? (negative : Bool) (cs : List Char) : Option Binary64 :=
  let whole := cs.takeWhile Char.isDigit
  let afterWhole := cs.dropWhile Char.isDigit
  let (decimals, rest) := match afterWhole with
    | '.' :: more => (more.takeWhile Char.isDigit, more.dropWhile Char.isDigit)
    | other => ([], other)
  if whole.isEmpty && decimals.isEmpty then none
  else
    match exponent? rest with
    | none => none
    | some e => some (nearest negative (digitsValue (whole ++ decimals)) (e - decimals.length))

/-- The number written by a text, or nothing when the text is not a number. -/
def read? (text : String) : Option Binary64 :=
  let (negative, cs) := splitSign text.toList
  let word := cs.map Char.toLower
  if word == "inf".toList || word == "infinity".toList then some (Binary64.infinity negative)
  else if word == "nan".toList then some Binary64.nan
  else unsigned? negative cs

end SynapseMem.Decimal
