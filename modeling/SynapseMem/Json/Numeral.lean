import SynapseMem.Binary64.Arithmetic
import SynapseMem.Json.Value

/-!
# Reading JSON numbers

A number is split into its digits by the JSON grammar. A whole number that fits 64 bits is kept
exactly. Any other number is read with a 64-bit significand: a digit that would overflow it is
dropped, and a dropped digit before the point counts toward the exponent. The significand is
converted to a double and scaled by one power of ten, so two roundings take place, and a result
beyond the doubles is refused.
-/

namespace SynapseMem.Json

/-- Texts are read as bytes. -/
abbrev Bytes := List UInt8

/-- Whether a byte is a decimal digit. -/
def isDigit (b : UInt8) : Bool := decide (48 ≤ b.toNat) && decide (b.toNat ≤ 57)

/-- The value of a decimal digit. -/
def digitValue (b : UInt8) : Nat := b.toNat - 48

/-- The parts of a number as written. -/
structure Numeral where
  negative : Bool
  whole : Bytes
  /-- The digits after the point, if there is one. -/
  decimals : Option Bytes
  /-- The sign and digits of the exponent, if there is one. -/
  exponent : Option (Bool × Bytes)

/-- The digits before the point: a single zero, or digits that start with another. -/
def Numeral.splitWhole (bs : Bytes) : Option (Bytes × Bytes) :=
  let ds := bs.takeWhile isDigit
  match ds with
  | [] => none
  | [_] => some (ds, bs.dropWhile isDigit)
  | d :: _ => if d = 48 then none else some (ds, bs.dropWhile isDigit)

/-- The digits after the point, at least one. -/
def Numeral.splitDecimals (bs : Bytes) : Option (Option Bytes × Bytes) :=
  match bs with
  | 46 :: rest =>
    let ds := rest.takeWhile isDigit
    if ds.isEmpty then none else some (some ds, rest.dropWhile isDigit)
  | _ => some (none, bs)

/-- The exponent: a mark, an optional sign and digits. -/
def Numeral.splitExponent (bs : Bytes) : Option (Option (Bool × Bytes) × Bytes) :=
  match bs with
  | mark :: rest =>
    if mark = 101 || mark = 69 then
      let (negative, unsigned) := match rest with
        | 43 :: more => (false, more)
        | 45 :: more => (true, more)
        | more => (false, more)
      let ds := unsigned.takeWhile isDigit
      if ds.isEmpty then none else some (some (negative, ds), unsigned.dropWhile isDigit)
    else some (none, bs)
  | [] => some (none, bs)

/-- The number at the head of a text, and the text after it. -/
def Numeral.split (bs : Bytes) : Option (Numeral × Bytes) :=
  let (negative, unsigned) := match bs with
    | 45 :: rest => (true, rest)
    | _ => (false, bs)
  match splitWhole unsigned with
  | none => none
  | some (whole, afterWhole) =>
    match splitDecimals afterWhole with
    | none => none
    | some (decimals, afterDecimals) =>
      match splitExponent afterDecimals with
      | none => none
      | some (exponent, rest) => some (⟨negative, whole, decimals, exponent⟩, rest)

/-- Extend a 64-bit significand by digits up to the first that would overflow it. The answer holds
the significand, the count of digits taken and the count of digits left. -/
def extend (significand : Nat) : Bytes → Nat × Nat × Nat
  | [] => (significand, 0, 0)
  | d :: ds =>
    let next := 10 * significand + digitValue d
    if next < 18446744073709551616 then
      let (final, taken, left) := extend next ds
      (final, taken + 1, left)
    else (significand, 0, ds.length + 1)

/-- The power `10 ^ k` as a double. -/
def tenPower (k : Nat) : Binary64 := Binary64.ofNat (Nat.pow 10 k)

/-- A double times `10 ^ e`, by one product or quotient once the exponent is within 308. Larger
negative exponents are reached by quotients by `10 ^ 308`, and larger positive ones are refused. -/
def scaleByTen : Nat → Binary64 → Int → Option Binary64
  | 0, f, _ => some f
  | fuel + 1, f, e =>
    if e.natAbs ≤ 308 then
      if 0 ≤ e then
        let product := f.mul (tenPower e.natAbs)
        if product.isInfinite then none else some product
      else some (f.div (tenPower e.natAbs))
    else if f.isZero then some f
    else if 0 ≤ e then none
    else scaleByTen fuel (f.div (tenPower 308)) (e + 308)

/-- The number that decimal digits write. -/
def digitsNumber (ds : Bytes) : Nat := ds.foldl (fun n d => 10 * n + digitValue d) 0

/-- The value of a number as written, or nothing when it lies beyond the doubles. -/
def Numeral.value? (n : Numeral) : Option Number :=
  let (whole, _, dropped) := extend 0 n.whole
  let signed := fun (x : Binary64) => Number.float (if n.negative then x.neg else x)
  if dropped = 0 && n.decimals.isNone && n.exponent.isNone then
    if !n.negative then some (.int whole)
    else if whole = 0 || 9223372036854775808 < whole then some (signed (Binary64.ofNat whole))
    else some (.int (-whole))
  else
    let (significand, taken, _) := extend whole (n.decimals.getD [])
    let base : Int := dropped - taken
    match n.exponent with
    | none => (scaleByTen 4 (Binary64.ofNat significand) base).map signed
    | some (down, ds) =>
      let e := digitsNumber ds
      if 2147483647 < e then
        if significand = 0 || down then some (signed Binary64.zero) else none
      else
        (scaleByTen 4 (Binary64.ofNat significand) (if down then base - e else base + e)).map signed

end SynapseMem.Json
