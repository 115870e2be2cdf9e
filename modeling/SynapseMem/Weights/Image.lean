import SynapseMem.Error

/-!
# Reading a memory image

A memory image has one token per line. Everything from `//` on is a comment, and lines that hold
nothing else are skipped. Lines end at a line feed, and a carriage return right before it belongs to
the line end.
-/

namespace SynapseMem.Image

/-- The bytes of the lines, without their ends; `current` holds the line so far, last byte first. -/
def linesFrom (current : List UInt8) : List UInt8 → List (List UInt8)
  | [] => if current.isEmpty then [] else [current.reverse]
  | b :: rest =>
    if b = 10 then
      let line := match current with
        | 13 :: before => before.reverse
        | _ => current.reverse
      line :: linesFrom [] rest
    else linesFrom (b :: current) rest

/-- The bytes of the lines, without their ends. -/
def lines (bs : List UInt8) : List (List UInt8) := linesFrom [] bs

/-- The characters before a comment. -/
def dropComment : List Char → List Char
  | [] => []
  | '/' :: '/' :: _ => []
  | c :: cs => c :: dropComment cs

/-- What a line holds besides blanks and a comment. -/
def content (line : String) : List Char := Text.trimChars (dropComment line.toList)

/-- The words of lines, the first of which has number `number`. -/
def readLines (format : QFormat) (number : Nat) : List (List UInt8) → Except Error (List Word)
  | [] => .ok []
  | bytes :: rest =>
    match String.fromUTF8? ⟨bytes.toArray⟩ with
    | none => .error (.io "stream did not contain valid UTF-8")
    | some line =>
      let token := content line
      if token.isEmpty then readLines format (number + 1) rest
      else
        match format.decode (String.ofList token) with
        | .error e => .error (.parse number e)
        | .ok word =>
          match readLines format (number + 1) rest with
          | .error e => .error e
          | .ok words => .ok (word :: words)

/-- The words of a memory image. -/
def read (format : QFormat) (bs : List UInt8) : Except Error (List Word) :=
  readLines format 1 (lines bs)

end SynapseMem.Image
