import SynapseMem.Toml.Reader
import SynapseMem.Weights.Export

/-!
# Export settings

`Config` has a format section and an output section, read from a TOML document. Whatever a document
leaves out keeps its default, and keys without a meaning are ignored. A section is a table, or an
array that gives its fields in order. A configuration is valid when its format is one and padding
has at least one digit.
-/

namespace SynapseMem

/-- A style without its number of digits. -/
inductive StyleKind where
  | padded
  | prefixed
  deriving DecidableEq, Repr

namespace StyleKind

/-- The name of a style. -/
def name : StyleKind → String
  | .padded => "padded"
  | .prefixed => "prefixed"

/-- The style named by a text. -/
def parse (text : String) : Except TokenError StyleKind :=
  match HexStyle.parse text with
  | .error e => .error e
  | .ok .prefixed => .ok .prefixed
  | .ok (.padded _) => .ok .padded

end StyleKind

/-- Settings of an export. -/
structure Config where
  intBits : Nat
  fracBits : Nat
  style : StyleKind
  /-- The least number of digits of the padded style. -/
  digits : Nat
  policy : RangePolicy
  deriving DecidableEq, Repr

namespace Config

/-- The settings without a document. -/
def default : Config := ⟨QFormat.q2_14.intBits, QFormat.q2_14.fracBits, .padded, 4, .abort⟩

/-- The values of the named fields of a section, in order. A time has no fields. -/
def fields? (names : List String) : Option Toml.Value → Option (List (Option Toml.Value))
  | none => some (names.map fun _ => none)
  | some (.datetime _) => some (names.map fun _ => none)
  | some (.table _ entries) => some (names.map fun name => Toml.Entries.find? entries name)
  | some (.array items) => some (inOrder items)
  | some (.tables items) => some (inOrder (items.map (Toml.Value.table .header)))
  | some _ => none
where
  /-- Items for the first names, nothing for the others. -/
  inOrder (items : List Toml.Value) : List (Option Toml.Value) :=
    names.mapIdx fun i _ => items[i]?

/-- A whole number from 0 to `highest`, or the default. -/
def natField? (fallback highest : Nat) : Option Toml.Value → Option Nat
  | none => some fallback
  | some (.integer z) => if 0 ≤ z ∧ z ≤ highest then some z.toNat else none
  | some _ => none

/-- Whether a value stands for nothing, as an empty array or table does. -/
def isNothing : Toml.Value → Bool
  | .array items => items.isEmpty
  | .table _ entries => entries.isEmpty
  | .tables items => items.isEmpty
  | _ => false

/-- One of several names, or the default. A name is a text, or the key of a table with nothing
else. -/
def nameField? {α : Type} (fallback : α) (choices : List (String × α)) :
    Option Toml.Value → Option α
  | none => some fallback
  | some (.string s) => choice s
  | some (.table _ [(key, v)]) => if isNothing v then choice key else none
  | some _ => none
where
  /-- The choice of a name. -/
  choice (name : String) : Option α := (choices.find? (fun c => c.1 == name)).map (·.2)

/-- The settings in the top table of a document. -/
def ofToml? (entries : Toml.Entries) : Option Config := do
  let format ← fields? ["int_bits", "frac_bits"] (entries.find? "format")
  let output ← fields? ["style", "digits", "on_range_error"] (entries.find? "output")
  let intBits ← natField? default.intBits 4294967295 (format.getD 0 none)
  let fracBits ← natField? default.fracBits 4294967295 (format.getD 1 none)
  let style ← nameField? default.style [("padded", .padded), ("prefixed", .prefixed)]
    (output.getD 0 none)
  let digits ← natField? default.digits 18446744073709551615 (output.getD 1 none)
  let policy ← nameField? default.policy [("abort", .abort), ("skip", .skip)] (output.getD 2 none)
  some ⟨intBits, fracBits, style, digits, policy⟩

/-- The format of the settings. -/
def format (config : Config) : Except Error QFormat :=
  match QFormat.ofBits config.intBits config.fracBits with
  | .ok q => .ok q
  | .error e => .error (.format e)

/-- Refuse settings without a format, then padding without digits. -/
def validate (config : Config) : Except Error Unit :=
  match config.format with
  | .error e => .error e
  | .ok _ =>
    if config.digits = 0 then .error (.config "output.digits must be at least 1") else .ok ()

/-- The style of the settings. -/
def hexStyle (config : Config) : HexStyle :=
  match config.style with
  | .prefixed => .prefixed
  | .padded => .padded config.digits

/-- The options of an export under valid settings. -/
def exportOptions (config : Config) : Except Error ExportOptions := do
  config.validate
  let format ← config.format
  return ⟨format, config.hexStyle, config.policy⟩

/-- The valid settings of a TOML text. -/
def parse (text : String) : Except Error Config :=
  match (Toml.read? text).bind ofToml? with
  | none => .error .toml
  | some config =>
    match config.validate with
    | .error e => .error e
    | .ok _ => .ok config

/-- The valid settings of a file's content. -/
def read (content : ByteArray) : Except Error Config :=
  match String.fromUTF8? content with
  | none => .error (.io "stream did not contain valid UTF-8")
  | some text => parse text

/-- The settings as a TOML text. -/
def toToml (config : Config) : String :=
  s!"[format]\nint_bits = {config.intBits}\nfrac_bits = {config.fracBits}\n\n" ++
    s!"[output]\nstyle = \"{config.style.name}\"\ndigits = {config.digits}\n" ++
    s!"on_range_error = \"{config.policy.name}\"\n"

end Config

end SynapseMem
