import SynapseMem.Files
import SynapseMem.Model

/-!
# Exporting a weight layer

A layer is written as a memory image: one token per weight and line, row by row, without a header.
Weights that do not fit the format fail the export under `RangePolicy.abort`, before anything is
written, and are left out under `RangePolicy.skip`. The `Report` counts the lines, lists what was
left out and shows the first and the last weights.

Dividing by a width of zero, an index past the weights and a count below zero end the process, as a
token that cannot be written does.
-/

namespace SynapseMem

/-- What happens to a weight that does not fit the format. -/
inductive RangePolicy where
  | abort
  | skip
  deriving DecidableEq, Repr

/-- The name of a policy. -/
def RangePolicy.name : RangePolicy → String
  | .abort => "abort"
  | .skip => "skip"

/-- How a layer is exported. -/
structure ExportOptions where
  format : QFormat
  style : HexStyle
  policy : RangePolicy
  deriving DecidableEq

/-- A weight shown in the report. -/
structure PreviewEntry where
  index : Nat
  value : Binary64
  /-- The token written for the weight; nothing when it was left out. -/
  token : Option String
  deriving DecidableEq

/-- A weight that was left out. -/
structure SkippedWeight where
  row : Nat
  col : Nat
  value : Binary64
  deriving DecidableEq

/-- The account of an export. -/
structure Report where
  layer : String
  rows : Nat
  cols : Nat
  format : String
  written : Nat
  skipped : List SkippedWeight
  head : List PreviewEntry
  tail : List PreviewEntry
  deriving DecidableEq

/-- How many weights the report shows at either end. -/
def previewLength : Nat := 5

/-- A layer with its weights quantized. -/
structure QuantizedLayer where
  rows : Nat
  cols : Nat
  values : List Binary64
  results : List (Except RangeError Word)

/-- The row and the column of a weight, for rows of `cols` weights. -/
def position (cols index : Nat) : Outcome (Nat × Nat) :=
  if cols = 0 then .error .crash else .ok (index / cols, index % cols)

/-- Look up and quantize a layer. Under `abort` the first weight that does not fit is an error. -/
def quantizeLayer (model : Model) (layer : String) (options : ExportOptions) :
    Outcome QuantizedLayer := do
  let tensor ← model.layer layer
  match tensor.matrixDims with
  | none => fail (.shape layer (.notMatrix tensor.shape))
  | some (rows, cols) =>
    match options.policy with
    | .skip => return ⟨rows, cols, tensor.data, quantizeAll tensor.data options.format⟩
    | .abort =>
      match tryQuantizeAll tensor.data options.format with
      | .error e =>
        let (row, col) ← position cols e.index
        fail (.range row col e.source)
      | .ok words => return ⟨rows, cols, tensor.data, words.map .ok⟩

/-- Write a line. -/
def putLine (line : String) : Step String Unit := modify fun text => text ++ line ++ "\n"

/-- Write the tokens of the weights from `index` on. The answer holds a token or nothing for every
weight, and the weights that were left out. -/
def writeWeights (style : HexStyle) (cols index : Nat) :
    List (Except RangeError Word) → Step String (List (Option String) × List SkippedWeight)
  | [] => return ([], [])
  | .ok word :: rest => do
    match word.render? style with
    | none => throw .crash
    | some token =>
      putLine token
      let (tokens, skipped) ← writeWeights style cols (index + 1) rest
      return (some token :: tokens, skipped)
  | .error e :: rest => do
    let (row, col) ← (position cols index : Outcome (Nat × Nat))
    let (tokens, skipped) ← writeWeights style cols (index + 1) rest
    return (none :: tokens, ⟨row, col, e.value⟩ :: skipped)

/-- What the report shows of the weight at an index. -/
def preview (values : List Binary64) (tokens : List (Option String)) (index : Nat) :
    Outcome PreviewEntry :=
  match values[index]?, tokens[index]? with
  | some value, some token => .ok ⟨index, value, token⟩
  | _, _ => .error .crash

/-- What the report shows of `count` weights from `index` on. -/
def previewsFrom (values : List Binary64) (tokens : List (Option String)) (index : Nat) :
    Nat → Outcome (List PreviewEntry)
  | 0 => .ok []
  | count + 1 => do
    let entry ← preview values tokens index
    let rest ← previewsFrom values tokens (index + 1) count
    return entry :: rest

/-- How many of `n` weights are left without those that were skipped. -/
def remaining (n skipped : Nat) : Outcome Nat :=
  if skipped ≤ n then .ok (n - skipped) else .error .crash

/-- Write a quantized layer. -/
def writeLayer (layer : String) (quantized : QuantizedLayer) (options : ExportOptions) :
    Step String Report := do
  let (tokens, skipped) ← writeWeights options.style quantized.cols 0 quantized.results
  let n := quantized.values.length
  let shown := Nat.min n previewLength
  let head ← (previewsFrom quantized.values tokens 0 shown : Outcome (List PreviewEntry))
  let tail ← (previewsFrom quantized.values tokens (n - shown) shown : Outcome (List PreviewEntry))
  let written ← (remaining n skipped.length : Outcome Nat)
  return {
    layer := layer
    rows := quantized.rows
    cols := quantized.cols
    format := options.format.name
    written := written
    skipped := skipped
    head := head
    tail := tail }

/-- Quantize a layer and write it. -/
def exportWeights (model : Model) (layer : String) (options : ExportOptions) :
    Step String Report := do
  let quantized ← (quantizeLayer model layer options : Outcome QuantizedLayer)
  writeLayer layer quantized options

/-- Quantize a layer and write it to a file, which is created once the layer is quantized. -/
def exportWeightsToFile (model : Model) (layer : String) (options : ExportOptions)
    (path : String) : Step Files Report := do
  let quantized ← (quantizeLayer model layer options : Outcome QuantizedLayer)
  Files.writing path (writeLayer layer quantized options)

end SynapseMem
