/-!
# Numerals

Hexadecimal digits in both directions, and the decimal whole numbers accepted on the command line
and in counts.
-/

namespace SynapseMem.Text

/-- The value of a hexadecimal digit of either case. -/
def hexValue? (c : Char) : Option Nat :=
  let n := c.toNat
  if 48 ≤ n ∧ n ≤ 57 then some (n - 48)
  else if 65 ≤ n ∧ n ≤ 70 then some (n - 55)
  else if 97 ≤ n ∧ n ≤ 102 then some (n - 87)
  else none

/-- The number written by hexadecimal digits, most significant first. -/
def hexNumber? (cs : List Char) : Option Nat :=
  cs.foldl (fun acc c => acc.bind fun n => (hexValue? c).map fun d => 16 * n + d) (some 0)

/-- The lower-case digit of a value below 16. -/
def lowerHexDigit (d : Nat) : Char := Char.ofNat (if d < 10 then 48 + d else 87 + d)

/-- The upper-case digit of a value below 16. -/
def upperHexDigit (d : Nat) : Char := Char.ofNat (if d < 10 then 48 + d else 55 + d)

/-- The values of the hexadecimal digits of `n`, most significant first; zero has one digit. -/
def hexDigits (n : Nat) : List Nat :=
  if n < 16 then [n] else hexDigits (n / 16) ++ [n % 16]
termination_by n
decreasing_by omega

/-- The number written by decimal digits, at least one of them. -/
def decimalNumber? (cs : List Char) : Option Nat :=
  if cs.isEmpty || !cs.all Char.isDigit then none
  else some (cs.foldl (fun n c => 10 * n + (c.toNat - 48)) 0)

/-- A 64-bit count: decimal digits after an optional plus sign. -/
def count? (s : String) : Option Nat :=
  let digits := match s.toList with
    | '+' :: cs => cs
    | cs => cs
  (decimalNumber? digits).filter (· < 18446744073709551616)

/-- A whole number from 0 to `highest`: decimal digits after an optional sign. -/
def bounded? (highest : Nat) (s : String) : Option Nat :=
  match s.toList with
  | '-' :: cs => (decimalNumber? cs).filter (· == 0)
  | '+' :: cs => (decimalNumber? cs).filter (· ≤ highest)
  | cs => (decimalNumber? cs).filter (· ≤ highest)

end SynapseMem.Text
