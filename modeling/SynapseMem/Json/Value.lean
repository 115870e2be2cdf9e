import SynapseMem.Decimal.Layout
import SynapseMem.Text.Blank
import SynapseMem.Text.Numeral

/-!
# JSON values and their text

Objects keep their members in the order of first appearance. A whole number stays a whole number and
any other number is a double. `compact` writes a value without blanks, `pretty` with two blanks for
every level.
-/

namespace SynapseMem.Json

/-- A JSON number. -/
inductive Number where
  | int (z : Int)
  | float (x : Binary64)
  deriving DecidableEq, Repr

/-- A JSON value. -/
inductive Value where
  | null
  | bool (b : Bool)
  | number (n : Number)
  | string (s : String)
  | array (items : List Value)
  | object (members : List (String × Value))

instance : Inhabited Value := ⟨.null⟩

/-- The members of an object. -/
abbrev Members := List (String × Value)

/-- The double nearest to a number. -/
def Number.toBinary64 : Number → Binary64
  | .int z => Binary64.ofInt z
  | .float x => x

namespace Members

/-- The value under a key. -/
def find? (members : Members) (key : String) : Option Value :=
  match members with
  | [] => none
  | (k, v) :: rest => if k = key then some v else find? rest key

/-- Whether a key is present. -/
def has (members : Members) (key : String) : Bool := (find? members key).isSome

/-- Put a value under a key. A key that is present keeps its place and takes the new value. -/
def put (members : Members) (key : String) (value : Value) : Members :=
  match members with
  | [] => [(key, value)]
  | (k, v) :: rest => if k = key then (k, value) :: rest else (k, v) :: put rest key value

end Members

/-- A whole number as a value. -/
def Value.ofNat (n : Nat) : Value := .number (.int n)

/-- A double as a value; what is not finite has no number and becomes null. -/
def Value.ofBinary64 (x : Binary64) : Value := if x.isFinite then .number (.float x) else .null

/-- The text of a number. -/
def Number.text : Number → String
  | .int z => toString z
  | .float x => Decimal.json.write x

/-- A character inside a quoted text: quotes, backslashes and control characters are escaped. -/
def escaped (c : Char) : List Char :=
  let n := c.toNat
  if n = 0x22 then ['\\', '"']
  else if n = 0x5C then ['\\', '\\']
  else if n = 0x08 then ['\\', 'b']
  else if n = 0x09 then ['\\', 't']
  else if n = 0x0A then ['\\', 'n']
  else if n = 0x0C then ['\\', 'f']
  else if n = 0x0D then ['\\', 'r']
  else if n < 0x20 then
    ['\\', 'u', '0', '0', Text.lowerHexDigit (n / 16), Text.lowerHexDigit (n % 16)]
  else [c]

/-- A text in quotes. -/
def quoted (s : String) : String := String.ofList ('"' :: s.toList.flatMap escaped ++ ['"'])

mutual

/-- A value without blanks. -/
def Value.compact : Value → String
  | .null => "null"
  | .bool b => if b then "true" else "false"
  | .number n => n.text
  | .string s => quoted s
  | .array items => "[" ++ Text.joined "," (compactItems items) ++ "]"
  | .object members => "\x7b" ++ Text.joined "," (compactMembers members) ++ "\x7d"

/-- The items of an array without blanks. -/
def compactItems : List Value → List String
  | [] => []
  | v :: vs => v.compact :: compactItems vs

/-- The members of an object without blanks. -/
def compactMembers : List (String × Value) → List String
  | [] => []
  | (k, v) :: rest => (quoted k ++ ":" ++ v.compact) :: compactMembers rest

end

/-- A line end and two blanks for every level. -/
def indent (level : Nat) : String := String.ofList ('\n' :: List.replicate (2 * level) ' ')

mutual

/-- A value with two blanks for every level; empty arrays and objects stay on one line. -/
def Value.prettyAt (level : Nat) : Value → String
  | .null => "null"
  | .bool b => if b then "true" else "false"
  | .number n => n.text
  | .string s => quoted s
  | .array [] => "[]"
  | .array (v :: vs) =>
    "[" ++ Text.joined "," (prettyItems (level + 1) (v :: vs)) ++ indent level ++ "]"
  | .object [] => "\x7b\x7d"
  | .object (m :: ms) =>
    "\x7b" ++ Text.joined "," (prettyMembers (level + 1) (m :: ms)) ++ indent level ++ "\x7d"

/-- The items of an array, each on a line of its own. -/
def prettyItems (level : Nat) : List Value → List String
  | [] => []
  | v :: vs => (indent level ++ v.prettyAt level) :: prettyItems level vs

/-- The members of an object, each on a line of its own. -/
def prettyMembers (level : Nat) : List (String × Value) → List String
  | [] => []
  | (k, v) :: rest =>
    (indent level ++ quoted k ++ ": " ++ v.prettyAt level) :: prettyMembers level rest

end

/-- A value over several lines. -/
def Value.pretty (v : Value) : String := v.prettyAt 0

end SynapseMem.Json
