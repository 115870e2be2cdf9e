/-!
# Blank characters

`isBlank` is the White_Space property of characters, and `trim` removes blank characters from both
ends of a text.
-/

namespace SynapseMem.Text

/-- The characters with the White_Space property. -/
def isBlank (c : Char) : Bool :=
  let n := c.toNat
  (decide (0x9 ≤ n) && decide (n ≤ 0xD)) || n == 0x20 || n == 0x85 || n == 0xA0 || n == 0x1680 ||
    (decide (0x2000 ≤ n) && decide (n ≤ 0x200A)) || n == 0x2028 || n == 0x2029 || n == 0x202F ||
    n == 0x205F || n == 0x3000

/-- A row of characters without the blanks at its ends. -/
def trimChars (cs : List Char) : List Char :=
  ((cs.dropWhile isBlank).reverse.dropWhile isBlank).reverse

/-- A text without the blanks at its ends. -/
def trim (s : String) : String := String.ofList (trimChars s.toList)

/-- A text with its ASCII letters in lower case. -/
def lower (s : String) : String := String.ofList (s.toList.map Char.toLower)

/-- Texts put together, each followed by a line end. -/
def unlines (lines : List String) : String :=
  lines.foldl (fun text line => text ++ line ++ "\n") ""

/-- Texts put together with a separator between them. -/
def joined (separator : String) (texts : List String) : String := separator.intercalate texts

/-- Texts in square brackets, with a comma and a blank between them. -/
def bracketed (texts : List String) : String := "[" ++ joined ", " texts ++ "]"

end SynapseMem.Text
