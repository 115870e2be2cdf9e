import SynapseMem.Fixed.Quantize

/-!
# Errors

`Error` lists what can go wrong between a dump and an exported file, each with its cause, and
`Error.message` gives the wording. `Fault` adds the one other way to stop, a crash of the process,
which no caller can handle.

Padding that is wider than can be written ends the process, and so can counts and memory. Counts
are 64-bit words in a build that checks its arithmetic: a product, a sum or an offset that leaves
64 bits does not wrap around but ends the process (`checked`). A reservation of `2 ^ 63` bytes or
more ends the process too, and any smaller one is assumed to succeed (`reserve`).
-/

namespace SynapseMem

/-- Why a nested array or a list of numbers is no tensor of the wanted form. -/
inductive ShapeFault where
  /-- The dimensions call for another number of elements. -/
  | count (shape : List Nat) (needed got : Nat)
  /-- An array has another length than the first one at its depth, or is nested too deep. -/
  | ragged (depth : Nat) (expected : Option Nat) (found : Nat)
  /-- An element that is no number, by its text. -/
  | nonNumeric (leaf : String)
  /-- A number stands where an array is due. -/
  | scalar (depth dimensions : Nat)
  /-- A weight layer without exactly two dimensions. -/
  | notMatrix (shape : List Nat)
  /-- A spike tensor without exactly five dimensions. -/
  | notSpikeGrid (shape : List Nat)
  deriving DecidableEq, Repr

/-- Dimensions in square brackets. -/
def shapeText (shape : List Nat) : String := Text.bracketed (shape.map toString)

/-- An expected length, where there is one. -/
def expectedText : Option Nat → String
  | some n => s!"Some({n})"
  | none => "None"

/-- The wording of a shape fault. -/
def ShapeFault.reason : ShapeFault → String
  | .count shape needed got => s!"shape {shapeText shape} needs {needed} elements, got {got}"
  | .ragged depth expected found =>
    s!"ragged tensor at depth {depth}: expected {expectedText expected}, found {found} items"
  | .nonNumeric leaf => s!"non-numeric element {leaf}"
  | .scalar depth dimensions => s!"scalar found at depth {depth}, expected {dimensions} dimensions"
  | .notMatrix shape => s!"expected a 2-D weight matrix, got {shapeText shape}"
  | .notSpikeGrid shape =>
    s!"expected [steps, samples, channels, height, width], got {shapeText shape}"

/-- The indices of a spike frame. -/
inductive Axis where
  | step
  | sample
  | channel
  deriving DecidableEq, Repr

/-- The name of an index. -/
def Axis.name : Axis → String
  | .step => "step"
  | .sample => "sample"
  | .channel => "channel"

/-- What can go wrong between a dump and an exported file. -/
inductive Error where
  /-- A file could not be opened, created or read. -/
  | io (cause : String)
  /-- A dump is not the JSON text of a dump. -/
  | json
  /-- A configuration is not the TOML text of a configuration. -/
  | toml
  | config (reason : String)
  | format (source : FormatError)
  | range (row col : Nat) (source : RangeError)
  | parse (line : Nat) (source : TokenError)
  | layerNotFound (name : String)
  | shape (name : String) (fault : ShapeFault)
  | outOfBounds (axis : Axis) (index len : Nat)
  | invalidSpike (index : Nat) (value : Binary64)
  | noSteps
  deriving DecidableEq

namespace Error

/-- What is said of a text that does not parse. -/
def malformed : String := "malformed text"

/-- The wording of an error. -/
def message : Error → String
  | .io cause => "I/O error: " ++ cause
  | .json => "JSON error: " ++ malformed
  | .toml => "config parse error: " ++ malformed
  | .config reason => "invalid config: " ++ reason
  | .format source => source.message
  | .range row col source => s!"weight [{row}][{col}]: " ++ source.message
  | .parse line source => s!"line {line}: " ++ source.message
  | .layerNotFound name => s!"layer '{name}' not found in the model's state dict"
  | .shape name fault => s!"bad shape for '{name}': {fault.reason}"
  | .outOfBounds axis index len => s!"{axis.name} {index} is out of bounds (have {len})"
  | .invalidSpike index value =>
    s!"spike at flat index {index} is " ++ Decimal.plain.write value ++ ", expected 0 or 1"
  | .noSteps => "no time steps requested"

/-- The wording of the error underneath, where there is one. -/
def source? : Error → Option String
  | .io cause => some cause
  | .json => some malformed
  | .toml => some malformed
  | .range _ _ source => some source.message
  | .parse _ source => some source.message
  | _ => none

end Error

/-- How a computation stops short of its result. -/
inductive Fault (ε : Type) where
  /-- An error that is reported to the caller. -/
  | error (e : ε)
  /-- The process ends. -/
  | crash
  deriving DecidableEq, Repr

/-- A result, an error or a crash. -/
abbrev Outcome (α : Type) := Except (Fault Error) α

/-- An error as an outcome. -/
def fail {α : Type} (e : Error) : Outcome α := .error (.error e)

/-- A count that has to fit in 64 bits. -/
def checked (n : Nat) : Outcome Nat :=
  if n < 18446744073709551616 then .ok n else .error .crash

/-- Reserve room for so many items of the given size in bytes. -/
def reserve (count size : Nat) : Outcome Unit :=
  if count * size < 9223372036854775808 then .ok () else .error .crash

/-- A computation with a state that keeps its changes when it stops. -/
abbrev Step (σ α : Type) := ExceptT (Fault Error) (StateM σ) α

end SynapseMem
