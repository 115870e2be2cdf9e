import SynapseMem.Fixed.Format
import SynapseMem.Text.Blank
import SynapseMem.Text.Numeral

/-!
# Words and their hexadecimal tokens

A `Word` is a two's-complement word together with its format. It is written as a token in one of two
styles: `prefixed` is lower case after `0x` and never padded, `padded` is upper case with zeros put
before it up to a least number of digits. `QFormat.decode` reads a token of either style.

A padding above `maxPadding` digits cannot be written, so `HexStyle.render?` has no token for it.
-/

namespace SynapseMem

/-- A two's-complement word and its format. -/
structure Word where
  raw : UInt64
  format : QFormat
  deriving DecidableEq

/-- How a word is written. -/
inductive HexStyle where
  | prefixed
  | padded (digits : Nat)
  deriving DecidableEq, Repr

/-- Why a text is no token, or no style. -/
inductive TokenError where
  | empty
  | invalidHex (token : String)
  | tooWide (token : String) (format : QFormat)
  | unknownStyle (text : String)
  deriving DecidableEq

/-- The wording of a token error. -/
def TokenError.message : TokenError → String
  | .empty => "empty hex token"
  | .invalidHex t => s!"invalid hex token '{t}'"
  | .tooWide t q => s!"hex token '{t}' does not fit in " ++ q.name
  | .unknownStyle s => s!"unknown hex style '{s}' (expected 'prefixed' or 'padded')"

namespace HexStyle

/-- The most digits that padding can be asked for. -/
def maxPadding : Nat := 65535

/-- Four digits, one 16-bit word. -/
def padded16 : HexStyle := .padded 4

instance : Inhabited HexStyle := ⟨padded16⟩

/-- Padding wide enough for every word of the format. -/
def paddedFor (q : QFormat) : HexStyle := .padded ((q.totalBits + 3) / 4)

/-- Lower-case digits after `0x`. -/
def prefixedText (raw : UInt64) : String :=
  String.ofList ('0' :: 'x' :: (Text.hexDigits raw.toNat).map Text.lowerHexDigit)

/-- Upper-case digits, with zeros put before them up to `digits`. -/
def paddedText (digits : Nat) (raw : UInt64) : String :=
  let ds := (Text.hexDigits raw.toNat).map Text.upperHexDigit
  String.ofList (List.replicate (digits - ds.length) '0' ++ ds)

/-- The token of a word, or nothing when the padding is too wide to be written. -/
def render? : HexStyle → UInt64 → Option String
  | .prefixed, raw => some (prefixedText raw)
  | .padded digits, raw => if digits ≤ maxPadding then some (paddedText digits raw) else none

/-- The style named by a text: `prefixed` or `0x`, or `padded` for four digits. -/
def parse (text : String) : Except TokenError HexStyle :=
  let name := Text.lower (Text.trim text)
  if name == "prefixed" || name == "0x" then .ok .prefixed
  else if name == "padded" then .ok padded16
  else .error (.unknownStyle text)

end HexStyle

namespace Word

/-- A word of the format, unless bits above the format's width are set. -/
def ofRaw (raw : UInt64) (format : QFormat) : Except TokenError Word :=
  if raw &&& ~~~format.mask = 0 then .ok ⟨raw, format⟩
  else .error (.tooWide (HexStyle.prefixedText raw) format)

/-- The scaled integer that the word stands for. -/
def signed (w : Word) : Int64 :=
  let total := w.format.totalBits
  if w.raw &&& ((1 : UInt64) <<< UInt64.ofNat (total - 1)) = 0 then Int64.ofInt w.raw.toNat
  else Int64.ofInt (w.raw.toNat - Nat.pow 2 total)

/-- The value that the word stands for. -/
def toBinary64 (w : Word) : Binary64 := (Binary64.ofInt w.signed.toInt).div w.format.scale

/-- The token of the word in a style. -/
def render? (w : Word) (style : HexStyle) : Option String := style.render? w.raw

/-- The padded token with one digit for every four bits of the format. -/
def display (w : Word) : String := HexStyle.paddedText ((w.format.totalBits + 3) / 4) w.raw

end Word

/-- Split off the mark `0x` or `0X`. -/
def dropHexMark : List Char → List Char
  | '0' :: 'x' :: cs => cs
  | '0' :: 'X' :: cs => cs
  | cs => cs

/-- A 64-bit word in hexadecimal digits, after an optional plus sign. -/
def hexWord? (cs : List Char) : Option UInt64 :=
  let digits := match cs with
    | '+' :: ds => ds
    | ds => ds
  if digits.isEmpty then none
  else ((Text.hexNumber? digits).filter (· < 18446744073709551616)).map UInt64.ofNat

/-- The word written by a token of either style. -/
def QFormat.decode (format : QFormat) (token : String) : Except TokenError Word :=
  let trimmed := Text.trimChars token.toList
  let digits := dropHexMark trimmed
  if digits.isEmpty then .error .empty
  else
    match hexWord? digits with
    | none => .error (.invalidHex (String.ofList trimmed))
    | some raw =>
      match Word.ofRaw raw format with
      | .ok w => .ok w
      | .error _ => .error (.tooWide (String.ofList trimmed) format)

end SynapseMem
