import SynapseMem.Json.Numeral

/-!
# Reading JSON texts

`Value.read?` reads a text that holds one value and blanks around it, nested at most `maxDepth`
deep. `sections?` reads a text whose top level is a record with named sections: an object, in which
other keys are skipped and a repeated section is refused, or an array that gives the sections in
order.

A skipped value is checked for its grammar only. Its nesting is free, its texts may hold any bytes,
and its numbers may have any size.
-/

namespace SynapseMem.Json

/-- The deepest nesting of arrays and objects. -/
def maxDepth : Nat := 127

/-- The four blanks of JSON. -/
def isBlankByte (b : UInt8) : Bool := b = 32 || b = 9 || b = 10 || b = 13

/-- A text from its first byte that is no blank. -/
def skipBlanks (bs : Bytes) : Bytes := bs.dropWhile isBlankByte

/-- The text after an expected word. -/
def expect (word : Bytes) (bs : Bytes) : Option Bytes :=
  if word.isPrefixOf bs then some (bs.drop word.length) else none

/-- The value of four hexadecimal digits, and the text after them. -/
def hexQuad? : Bytes → Option (Nat × Bytes)
  | a :: b :: c :: d :: rest =>
    (Text.hexNumber? ([a, b, c, d].map fun x => Char.ofNat x.toNat)).map fun n => (n, rest)
  | _ => none

/-- The character of a `\u` escape, which takes two quads beyond the basic plane. A half of such a
pair on its own is refused. -/
def unicodeEscape? (bs : Bytes) : Option (Char × Bytes) :=
  match hexQuad? bs with
  | none => none
  | some (high, rest) =>
    if 0xDC00 ≤ high ∧ high ≤ 0xDFFF then none
    else if 0xD800 ≤ high ∧ high ≤ 0xDBFF then
      match rest with
      | 92 :: 117 :: more =>
        match hexQuad? more with
        | some (low, after) =>
          if 0xDC00 ≤ low ∧ low ≤ 0xDFFF then
            some (Char.ofNat (0x10000 + (high - 0xD800) * 0x400 + (low - 0xDC00)), after)
          else none
        | none => none
      | _ => none
    else some (Char.ofNat high, rest)

/-- The byte that a one-letter escape stands for. -/
def letterEscape? (b : UInt8) : Option UInt8 :=
  if b = 34 || b = 92 || b = 47 then some b
  else if b = 98 then some 8
  else if b = 102 then some 12
  else if b = 110 then some 10
  else if b = 114 then some 13
  else if b = 116 then some 9
  else none

/-- The bytes of a quoted text up to its closing quote, last byte first. -/
def stringBytes? : Nat → Bytes → Bytes → Option (Bytes × Bytes)
  | 0, _, _ => none
  | _, _, [] => none
  | fuel + 1, read, b :: rest =>
    if b = 34 then some (read, rest)
    else if b = 92 then
      match rest with
      | [] => none
      | 117 :: digits =>
        match unicodeEscape? digits with
        | none => none
        | some (c, after) =>
          stringBytes? fuel ((String.utf8EncodeChar c).reverse ++ read) after
      | letter :: after =>
        match letterEscape? letter with
        | none => none
        | some x => stringBytes? fuel (x :: read) after
    else if b.toNat < 32 then none
    else stringBytes? fuel (b :: read) rest

/-- The text between an opening quote, already passed, and the closing one. -/
def string? (fuel : Nat) (bs : Bytes) : Option (String × Bytes) :=
  match stringBytes? fuel [] bs with
  | none => none
  | some (read, rest) =>
    (String.fromUTF8? ⟨read.reverse.toArray⟩).map fun s => (s, rest)

/-- Items with commas between them up to a closing byte; `read` holds the earlier ones, last
first. -/
def separated {α : Type} (item : Bytes → Option (α × Bytes)) (close : UInt8) :
    Nat → List α → Bytes → Option (List α × Bytes)
  | 0, _, _ => none
  | fuel + 1, read, bs =>
    match item bs with
    | none => none
    | some (x, afterItem) =>
      match skipBlanks afterItem with
      | [] => none
      | b :: rest =>
        if b = close then some ((x :: read).reverse, rest)
        else if b = 44 then separated item close fuel (x :: read) rest
        else none

/-- No items and the closing byte, or items with commas between them. -/
def sequence {α : Type} (item : Bytes → Option (α × Bytes)) (close : UInt8) (fuel : Nat)
    (bs : Bytes) : Option (List α × Bytes) :=
  match skipBlanks bs with
  | [] => none
  | b :: rest => if b = close then some ([], rest) else separated item close fuel [] (b :: rest)

/-- A key with its colon, and the text after them. -/
def key? (fuel : Nat) (bs : Bytes) : Option (String × Bytes) :=
  match skipBlanks bs with
  | 34 :: body =>
    match string? fuel body with
    | none => none
    | some (key, afterKey) =>
      match skipBlanks afterKey with
      | 58 :: rest => some (key, rest)
      | _ => none
  | _ => none

/-- A key, a colon and what follows them. -/
def member {α : Type} (value : Bytes → Option (α × Bytes)) (fuel : Nat) (bs : Bytes) :
    Option ((String × α) × Bytes) :=
  match key? fuel bs with
  | none => none
  | some (key, rest) => (value rest).map fun (v, after) => ((key, v), after)

/-- A value nested at most `depth` deep, and the text after it. -/
def value? (fuel : Nat) : Nat → Bytes → Option (Value × Bytes)
  | depth, bs =>
    match skipBlanks bs with
    | [] => none
    | b :: rest =>
      if b = 110 then (expect [117, 108, 108] rest).map fun r => (.null, r)
      else if b = 116 then (expect [114, 117, 101] rest).map fun r => (.bool true, r)
      else if b = 102 then (expect [97, 108, 115, 101] rest).map fun r => (.bool false, r)
      else if b = 34 then (string? fuel rest).map fun (s, r) => (.string s, r)
      else if b = 91 then
        match depth with
        | 0 => none
        | d + 1 => (sequence (value? fuel d) 93 fuel rest).map fun (vs, r) => (.array vs, r)
      else if b = 123 then
        match depth with
        | 0 => none
        | d + 1 =>
          (sequence (member (value? fuel d) fuel) 125 fuel rest).map fun (ms, r) =>
            (.object (ms.foldl (fun members m => Members.put members m.1 m.2) []), r)
      else
        match Numeral.split (b :: rest) with
        | none => none
        | some (n, r) => n.value?.map fun x => (.number x, r)

/-- The text after a quoted text of any bytes, its opening quote already passed. -/
def skipString? : Nat → Bytes → Option Bytes
  | 0, _ => none
  | _, [] => none
  | fuel + 1, b :: rest =>
    if b = 34 then some rest
    else if b = 92 then
      match rest with
      | [] => none
      | 117 :: digits =>
        match hexQuad? digits with
        | none => none
        | some (_, after) => skipString? fuel after
      | letter :: after =>
        match letterEscape? letter with
        | none => none
        | some _ => skipString? fuel after
    else if b.toNat < 32 then none
    else skipString? fuel rest

/-- A skipped key with its colon and the value after it. -/
def skipMember (value : Bytes → Option (Unit × Bytes)) (fuel : Nat) (bs : Bytes) :
    Option (Unit × Bytes) :=
  match skipBlanks bs with
  | 34 :: body =>
    match skipString? fuel body with
    | none => none
    | some afterKey =>
      match skipBlanks afterKey with
      | 58 :: rest => value rest
      | _ => none
  | _ => none

/-- The text after a value that is checked for its grammar only. -/
def skip? (fuel : Nat) : Nat → Bytes → Option (Unit × Bytes)
  | depth, bs =>
    match skipBlanks bs with
    | [] => none
    | b :: rest =>
      if b = 110 then (expect [117, 108, 108] rest).map fun r => ((), r)
      else if b = 116 then (expect [114, 117, 101] rest).map fun r => ((), r)
      else if b = 102 then (expect [97, 108, 115, 101] rest).map fun r => ((), r)
      else if b = 34 then (skipString? fuel rest).map fun r => ((), r)
      else if b = 91 then
        match depth with
        | 0 => none
        | d + 1 => (sequence (skip? fuel d) 93 fuel rest).map fun (_, r) => ((), r)
      else if b = 123 then
        match depth with
        | 0 => none
        | d + 1 =>
          (sequence (skipMember (skip? fuel d) fuel) 125 fuel rest).map fun (_, r) => ((), r)
      else (Numeral.split (b :: rest)).map fun (_, r) => ((), r)

/-- What was read, when only blanks follow. -/
def complete {α : Type} (read : Option (α × Bytes)) : Option α :=
  match read with
  | some (x, rest) => if (skipBlanks rest).isEmpty then some x else none
  | none => none

/-- The value of a text that holds one value and blanks around it. -/
def Value.read? (bs : Bytes) : Option Value :=
  complete (value? (bs.length + 1) maxDepth bs)

/-- A member of a record: a section with its value, or a key that is skipped. -/
def sectionMember (names : List String) (fuel depth : Nat) (bs : Bytes) :
    Option (Option (String × Value) × Bytes) :=
  match key? fuel bs with
  | none => none
  | some (key, rest) =>
    if names.contains key then (value? fuel depth rest).map fun (v, r) => (some (key, v), r)
    else (skip? fuel fuel rest).map fun (_, r) => (none, r)

/-- Sections by name, refusing a name that comes twice. -/
def collect (read : List (Option (String × Value))) : Option Members :=
  read.foldl (fun acc m =>
    match acc, m with
    | none, _ => none
    | some members, none => some members
    | some members, some (key, v) =>
      if Members.has members key then none else some (members ++ [(key, v)])) (some [])

/-- The sections of a record, by name. -/
def sections? (names : List String) (bs : Bytes) : Option Members :=
  let fuel := bs.length + 1
  let depth := maxDepth - 1
  match skipBlanks bs with
  | 123 :: rest =>
    (complete (sequence (sectionMember names fuel depth) 125 fuel rest)).bind collect
  | 91 :: rest =>
    (complete (sequence (value? fuel depth) 93 fuel rest)).bind fun values =>
      if values.length ≤ names.length then some (names.zip values) else none
  | _ => none

end SynapseMem.Json
