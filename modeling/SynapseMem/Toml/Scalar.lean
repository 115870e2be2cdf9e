import SynapseMem.Decimal.Reader
import SynapseMem.Text.Numeral
import SynapseMem.Toml.Value

/-!
# TOML keys and scalar values

Readers for bare keys, the four kinds of quoted text, numbers, truth values and times. Each takes
the text from its first character and gives what was read with the text after it.
-/

namespace SynapseMem.Toml

/-- A blank within a line. -/
def isBlank (c : Char) : Bool := c == ' ' || c == '\t'

/-- Text after the blanks at its head. -/
def skipBlanks (cs : List Char) : List Char := cs.dropWhile isBlank

/-- Text after a line end at its head. -/
def newline? : List Char → Option (List Char)
  | '\n' :: rest => some rest
  | '\r' :: '\n' :: rest => some rest
  | _ => none

/-- Characters that a comment may hold, and quoted text too, quotes and backslashes apart. -/
def isTextChar (c : Char) : Bool := c == '\t' || (decide (0x20 ≤ c.toNat) && c.toNat != 0x7F)

/-- Characters of a bare key. -/
def isBareChar (c : Char) : Bool :=
  c.isAlphanum || c == '_' || c == '-'

/-- The character of a code point that is a scalar value. -/
def scalar? (n : Nat) : Option Char :=
  if n < 0xD800 ∨ (0xDFFF < n ∧ n < 0x110000) then some (Char.ofNat n) else none

/-- The character of an escape, its backslash already passed. -/
def escape? : List Char → Option (Char × List Char)
  | 'b' :: rest => some (Char.ofNat 8, rest)
  | 't' :: rest => some ('\t', rest)
  | 'n' :: rest => some ('\n', rest)
  | 'f' :: rest => some (Char.ofNat 12, rest)
  | 'r' :: rest => some ('\r', rest)
  | '"' :: rest => some ('"', rest)
  | '\\' :: rest => some ('\\', rest)
  | 'u' :: rest => coded 4 rest
  | 'U' :: rest => coded 8 rest
  | _ => none
where
  /-- A code point in the given number of hexadecimal digits. -/
  coded (digits : Nat) (cs : List Char) : Option (Char × List Char) :=
    if cs.length < digits then none
    else do
      let n ← Text.hexNumber? (cs.take digits)
      let c ← scalar? n
      some (c, cs.drop digits)

/-- Quoted text with escapes, within a line; `read` holds the characters so far, last first. -/
def basicText? : Nat → List Char → List Char → Option (String × List Char)
  | 0, _, _ => none
  | _, _, [] => none
  | fuel + 1, read, c :: rest =>
    if c == '"' then some (String.ofList read.reverse, rest)
    else if c == '\\' then
      match escape? rest with
      | none => none
      | some (x, after) => basicText? fuel (x :: read) after
    else if isTextChar c then basicText? fuel (c :: read) rest
    else none

/-- Quoted text without escapes, within a line. -/
def literalText? (cs : List Char) : Option (String × List Char) :=
  let body := cs.takeWhile (· != '\'')
  match cs.dropWhile (· != '\'') with
  | _ :: rest => if body.all isTextChar then some (String.ofList body, rest) else none
  | [] => none

/-- The quotes at the head of a text over several lines: how many belong to the text, and whether
the text ends with them. -/
def closingQuotes (count : Nat) : Nat × Bool :=
  if count < 3 then (count, false) else (Nat.min count 5 - 3, true)

/-- Text after blanks and line ends. -/
def skipBlankLines : Nat → List Char → List Char
  | 0, cs => cs
  | fuel + 1, cs =>
    match newline? (skipBlanks cs) with
    | some rest => skipBlankLines fuel rest
    | none => skipBlanks cs

/-- Text over several lines up to its closing quotes, with escapes where `escapes` says so. -/
def longText? (quote : Char) (escapes : Bool) :
    Nat → List Char → List Char → Option (String × List Char)
  | 0, _, _ => none
  | _, _, [] => none
  | fuel + 1, read, c :: rest =>
    if c == quote then
      let count := ((c :: rest).takeWhile (· == quote)).length
      let (inner, ends) := closingQuotes count
      let read' := List.replicate inner quote ++ read
      if ends then some (String.ofList read'.reverse, (c :: rest).drop (inner + 3))
      else longText? quote escapes fuel read' ((c :: rest).drop inner)
    else if escapes && c == '\\' then
      match newline? (skipBlanks rest) with
      | some after => longText? quote escapes fuel read (skipBlankLines after.length after)
      | none =>
        match escape? rest with
        | none => none
        | some (x, after) => longText? quote escapes fuel (x :: read) after
    else
      match newline? (c :: rest) with
      | some after => longText? quote escapes fuel ('\n' :: read) after
      | none => if isTextChar c then longText? quote escapes fuel (c :: read) rest else none

/-- Text after a line end right behind opening quotes. -/
def dropFirstNewline (cs : List Char) : List Char := (newline? cs).getD cs

/-- Quoted text of any kind. -/
def text? (cs : List Char) : Option (String × List Char) :=
  match cs with
  | '"' :: '"' :: '"' :: rest => longText? '"' true cs.length [] (dropFirstNewline rest)
  | '\'' :: '\'' :: '\'' :: rest => longText? '\'' false cs.length [] (dropFirstNewline rest)
  | '"' :: rest => basicText? cs.length [] rest
  | '\'' :: rest => literalText? rest
  | _ => none

/-- One part of a key: quoted within a line, or bare. -/
def keyPart? (cs : List Char) : Option (String × List Char) :=
  match cs with
  | '"' :: rest => basicText? cs.length [] rest
  | '\'' :: rest => literalText? rest
  | _ =>
    let bare := cs.takeWhile isBareChar
    if bare.isEmpty then none else some (String.ofList bare, cs.dropWhile isBareChar)

/-- Digits with single underscores between them; the digits without them and the text after. -/
def digits? (isDigit : Char → Bool) : Nat → List Char → Option (List Char × List Char)
  | 0, _ => none
  | fuel + 1, cs =>
    let ds := cs.takeWhile isDigit
    if ds.isEmpty then none
    else
      match cs.dropWhile isDigit with
      | '_' :: rest => (digits? isDigit fuel rest).map fun (more, after) => (ds ++ more, after)
      | rest => some (ds, rest)

/-- A sign, which may be missing. -/
def sign (cs : List Char) : Bool × List Char :=
  match cs with
  | '+' :: rest => (false, rest)
  | '-' :: rest => (true, rest)
  | _ => (false, cs)

/-- Decimal digits without a leading zero, zero itself apart. -/
def whole? (cs : List Char) : Option (List Char × List Char) :=
  match cs with
  | '0' :: rest => some (['0'], rest)
  | _ => digits? Char.isDigit cs.length cs

/-- The digits of a radix. -/
def isRadixDigit (radix : Nat) (c : Char) : Bool :=
  match Text.hexValue? c with
  | some d => decide (d < radix)
  | none => false

/-- An integer of 64 bits with its sign. -/
def bounded? (z : Int) : Option Value :=
  if -9223372036854775808 ≤ z ∧ z < 9223372036854775808 then some (.integer z) else none

/-- An integer in another radix than ten, its mark already passed. -/
def radixInteger? (radix : Nat) (cs : List Char) : Option (Value × List Char) :=
  match digits? (isRadixDigit radix) cs.length cs with
  | none => none
  | some (ds, rest) =>
    let n := ds.foldl (fun n c => radix * n + (Text.hexValue? c).getD 0) 0
    (bounded? n).map fun v => (v, rest)

/-- The part of a number from its point on, and the text after it. -/
def fraction? (cs : List Char) : Option (List Char × List Char) :=
  match cs with
  | '.' :: rest => (digits? Char.isDigit cs.length rest).map fun (ds, after) => ('.' :: ds, after)
  | _ => some ([], cs)

/-- The exponent of a number, and the text after it. -/
def exponent? (cs : List Char) : Option (List Char × List Char) :=
  match cs with
  | c :: rest =>
    if c == 'e' || c == 'E' then
      let (negative, unsigned) := sign rest
      (digits? Char.isDigit cs.length unsigned).map fun (ds, after) =>
        ('e' :: (if negative then ['-'] else []) ++ ds, after)
    else some ([], cs)
  | [] => some ([], cs)

/-- A decimal number: a float when it has a point or an exponent, an integer otherwise. A positive
float beyond the doubles is refused. -/
def decimal? (cs : List Char) : Option (Value × List Char) := do
  let (negative, unsigned) := sign cs
  let (ds, afterWhole) ← whole? unsigned
  let (point, afterPoint) ← fraction? afterWhole
  let (power, rest) ← exponent? afterPoint
  if point.isEmpty && power.isEmpty then
    let n : Int := Decimal.digitsValue ds
    let v ← bounded? (if negative then -n else n)
    some (v, rest)
  else
    let x ← Decimal.read? (String.ofList ((if negative then ['-'] else []) ++ ds ++ point ++ power))
    if x.isInfinite && !x.negative then none else some (.float x, rest)

/-- Infinity and what is not a number, with a sign. -/
def specialFloat? (cs : List Char) : Option (Value × List Char) :=
  let (negative, unsigned) := sign cs
  match unsigned with
  | 'i' :: 'n' :: 'f' :: rest => some (.float (Binary64.infinity negative), rest)
  | 'n' :: 'a' :: 'n' :: rest => some (.float Binary64.nan, rest)
  | _ => none

/-- A number of any kind. -/
def number? (cs : List Char) : Option (Value × List Char) :=
  match cs with
  | '0' :: 'x' :: rest => radixInteger? 16 rest
  | '0' :: 'o' :: rest => radixInteger? 8 rest
  | '0' :: 'b' :: rest => radixInteger? 2 rest
  | _ => (specialFloat? cs).or (decimal? cs)

/-- A field of a time: the given number of digits with a value in bounds. -/
def timeField? (count low high : Nat) (cs : List Char) : Option (Nat × List Char) :=
  let ds := cs.take count
  if ds.length = count ∧ ds.all Char.isDigit then
    let n := Decimal.digitsValue ds
    if low ≤ n ∧ n ≤ high then some (n, cs.drop count) else none
  else none

/-- Text after an expected character. -/
def expectChar? (c : Char) : List Char → Option (List Char)
  | x :: rest => if x == c then some rest else none
  | [] => none

/-- The days of a month. -/
def daysInMonth (year month : Nat) : Nat :=
  if month = 2 then
    if year % 4 = 0 ∧ (year % 100 ≠ 0 ∨ year % 400 = 0) then 29 else 28
  else if month = 4 ∨ month = 6 ∨ month = 9 ∨ month = 11 then 30
  else 31

/-- Text after a date. -/
def date? (cs : List Char) : Option (List Char) := do
  let (year, rest) ← timeField? 4 0 9999 cs
  let rest ← expectChar? '-' rest
  let (month, rest) ← timeField? 2 1 12 rest
  let rest ← expectChar? '-' rest
  let (_, rest) ← timeField? 2 1 (daysInMonth year month) rest
  some rest

/-- Text after a time of day. -/
def time? (cs : List Char) : Option (List Char) := do
  let (_, rest) ← timeField? 2 0 23 cs
  let rest ← expectChar? ':' rest
  let (_, rest) ← timeField? 2 0 59 rest
  let rest ← expectChar? ':' rest
  let (_, rest) ← timeField? 2 0 60 rest
  match rest with
  | '.' :: more =>
    if (more.takeWhile Char.isDigit).isEmpty then some rest else some (more.dropWhile Char.isDigit)
  | _ => some rest

/-- Text after an offset from universal time, if there is one. -/
def offset (cs : List Char) : List Char :=
  match cs with
  | c :: rest =>
    if c == 'Z' || c == 'z' then rest
    else if c == '+' || c == '-' then
      let after := do
        let (_, r) ← timeField? 2 0 23 rest
        let r ← expectChar? ':' r
        let (_, r) ← timeField? 2 0 59 r
        some r
      after.getD cs
    else cs
  | [] => cs

/-- Text after a date with an optional time, or after a time. -/
def timestamp? (cs : List Char) : Option (List Char) :=
  match date? cs with
  | none => time? cs
  | some rest =>
    match rest with
    | c :: more =>
      if c == 'T' || c == 't' || c == ' ' then
        match time? more with
        | some after => some (offset after)
        | none => some rest
      else some rest
    | [] => some rest

/-- A date, a time or both. -/
def datetime? (cs : List Char) : Option (Value × List Char) :=
  (timestamp? cs).map fun rest =>
    (.datetime (String.ofList (cs.take (cs.length - rest.length))), rest)

/-- A value other than an array or a table. -/
def scalarValue? (cs : List Char) : Option (Value × List Char) :=
  match cs with
  | '"' :: _ | '\'' :: _ => (text? cs).map fun (s, rest) => (.string s, rest)
  | 't' :: 'r' :: 'u' :: 'e' :: rest => some (.boolean true, rest)
  | 'f' :: 'a' :: 'l' :: 's' :: 'e' :: rest => some (.boolean false, rest)
  | _ => (datetime? cs).or (number? cs)

end SynapseMem.Toml
