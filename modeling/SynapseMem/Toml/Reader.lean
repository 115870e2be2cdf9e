import SynapseMem.Toml.Scalar

/-!
# Reading TOML documents

A document is a sequence of lines, each blank, a header or an entry, with an optional comment.
`read?` gives the entries of the top table, or nothing when the text is no document.
-/

namespace SynapseMem.Toml

/-- The deepest nesting of arrays and tables in braces, and the longest dotted key. -/
def maxDepth : Nat := 79

/-- The parts of a dotted key, with blanks around each. -/
def key? : Nat → List Char → Option (List String × List Char)
  | 0, _ => none
  | fuel + 1, cs =>
    match keyPart? (skipBlanks cs) with
    | none => none
    | some (part, afterPart) =>
      match skipBlanks afterPart with
      | '.' :: rest => (key? fuel rest).map fun (parts, after) => (part :: parts, after)
      | rest => some ([part], rest)

/-- The parts of a dotted key before the last, and the last. -/
def splitKey? (parts : List String) : Option (List String × String) :=
  parts.getLast?.map fun last => (parts.dropLast, last)

/-- Text after a comment that may be missing; a comment holds no control characters. -/
def skipComment? (cs : List Char) : Option (List Char) :=
  match cs with
  | '#' :: rest => some (rest.dropWhile isTextChar)
  | _ => some cs

/-- Text after blanks, comments and line ends within an array. -/
def skipLayout? : Nat → List Char → Option (List Char)
  | 0, _ => none
  | fuel + 1, cs =>
    match skipBlanks cs with
    | '#' :: rest =>
      match newline? (rest.dropWhile isTextChar) with
      | some after => skipLayout? fuel after
      | none => none
    | rest =>
      match newline? rest with
      | some after => skipLayout? fuel after
      | none => some rest

/-- The items of an array, its opening bracket already passed. -/
def arrayItems? (value : List Char → Option (Value × List Char)) :
    Nat → List Value → List Char → Option (List Value × List Char)
  | 0, _, _ => none
  | fuel + 1, read, cs =>
    match skipLayout? (cs.length + 1) cs with
    | none => none
    | some (']' :: rest) => some (read.reverse, rest)
    | some item =>
      match value item with
      | none => none
      | some (v, afterValue) =>
        match skipLayout? (afterValue.length + 1) afterValue with
        | some (',' :: rest) => arrayItems? value fuel (v :: read) rest
        | some (']' :: rest) => some ((v :: read).reverse, rest)
        | _ => none

/-- A dotted key, an equals sign and a value. -/
def assignment? (value : List Char → Option (Value × List Char)) (cs : List Char) :
    Option ((List String × String × Value) × List Char) := do
  let (parts, afterKey) ← key? maxDepth cs
  let (path, last) ← splitKey? parts
  match afterKey with
  | '=' :: rest =>
    let (v, after) ← value (skipBlanks rest)
    some ((path, last, v), after)
  | _ => none

/-- The entries of a table in braces, its opening brace already passed. -/
def braceEntries? (value : List Char → Option (Value × List Char)) :
    Nat → Entries → List Char → Option (Entries × List Char)
  | 0, _, _ => none
  | fuel + 1, entries, cs =>
    match assignment? value cs with
    | none => none
    | some ((path, last, v), afterEntry) =>
      match insertInBraces? path last v entries with
      | none => none
      | some entries' =>
        match skipBlanks afterEntry with
        | ',' :: rest => braceEntries? value fuel entries' rest
        | '}' :: rest => some (entries', rest)
        | _ => none

/-- A value nested at most `depth` deep. -/
def value? : Nat → List Char → Option (Value × List Char)
  | depth, cs =>
    match cs with
    | '[' :: rest =>
      match depth with
      | 0 => none
      | d + 1 =>
        (arrayItems? (value? d) (cs.length + 1) [] rest).map fun (items, after) =>
          (.array items, after)
    | '{' :: rest =>
      match depth with
      | 0 => none
      | d + 1 =>
        match skipBlanks rest with
        | '}' :: after => some (.table .braces [], after)
        | inner =>
          (braceEntries? (value? d) (cs.length + 1) [] inner).map fun (entries, after) =>
            (.table .braces entries, after)
    | _ => scalarValue? cs

/-- Text after the end of a line: blanks, a comment, and a line end or the end of the text. -/
def lineEnd? (cs : List Char) : Option (List Char) :=
  match skipComment? (skipBlanks cs) with
  | none => none
  | some [] => some []
  | some rest => newline? rest

/-- A document read up to some line: the top table, and the path of the table that entries go to. -/
structure Draft where
  entries : Entries
  current : List String

/-- The draft after a change at a path of headers. -/
def Draft.change? (draft : Draft) (path : List String)
    (change : Origin → Entries → Option (Origin × Entries)) : Option Entries :=
  (descend? .implied change .header path draft.entries).map (·.2)

/-- The draft after a header with one bracket or two. -/
def Draft.header? (draft : Draft) (parts : List String) (double : Bool) : Option Draft :=
  match splitKey? parts with
  | none => none
  | some (path, last) =>
    (draft.change? path (if double then appendTable? last else openTable? last)).map fun entries =>
      ⟨entries, parts⟩

/-- The draft after an entry. -/
def Draft.assign? (draft : Draft) (path : List String) (key : String) (v : Value) : Option Draft :=
  (draft.change? draft.current (insert? path key v)).map fun entries => ⟨entries, draft.current⟩

/-- Read a header, its first bracket already passed. -/
def header? (draft : Draft) (cs : List Char) : Option (Draft × List Char) :=
  match cs with
  | '[' :: rest =>
    match key? maxDepth rest with
    | some (parts, ']' :: ']' :: after) => (draft.header? parts true).map fun d => (d, after)
    | _ => none
  | _ =>
    match key? maxDepth cs with
    | some (parts, ']' :: after) => (draft.header? parts false).map fun d => (d, after)
    | _ => none

/-- Read the lines of a document. -/
def lines? : Nat → Draft → List Char → Option Draft
  | 0, _, _ => none
  | fuel + 1, draft, cs =>
    match skipBlanks cs with
    | [] => some draft
    | '[' :: rest =>
      match header? draft rest with
      | none => none
      | some (draft', after) => (lineEnd? after).bind (lines? fuel draft')
    | c :: rest =>
      if c == '#' || c == '\n' || c == '\r' then (lineEnd? (c :: rest)).bind (lines? fuel draft)
      else
        match assignment? (value? maxDepth) (c :: rest) with
        | none => none
        | some ((path, key, v), afterEntry) =>
          match draft.assign? path key v with
          | none => none
          | some draft' => (lineEnd? afterEntry).bind (lines? fuel draft')

/-- The entries of the top table of a document. A byte order mark at its head is skipped. -/
def read? (text : String) : Option Entries :=
  let cs := match text.toList with
    | c :: rest => if c.toNat = 0xFEFF then rest else c :: rest
    | [] => []
  (lines? (cs.length + 1) ⟨[], []⟩ cs).map (·.entries)

end SynapseMem.Toml
