import SynapseMem.Model

/-!
# Summaries of a model

`summarize` gathers the layers of a model with some or all of their weights and, in the full view,
its topology and neuron parameters. A summary is written as lines for a reader, or as a JSON value.
-/

namespace SynapseMem

/-- Which sections of a model are shown. -/
inductive SummaryView where
  | full
  | weights
  deriving DecidableEq, Repr

/-- How many weights of a layer are shown. -/
inductive WeightCount where
  | sample (n : Nat)
  | all
  deriving DecidableEq, Repr

namespace WeightCount

/-- Five weights. -/
def default : WeightCount := .sample 5

/-- The count named by a text, or the wording of the error. -/
def parse (text : String) : Except String WeightCount :=
  let name := Text.trim text
  if name == "all" then .ok .all
  else if name == "sample" then .ok default
  else
    match Text.count? name with
    | some n => .ok (.sample n)
    | none => .error s!"expected 'all', 'sample' or a number, got '{text}'"

/-- How many of `numel` weights are shown. -/
def take (count : WeightCount) (numel : Nat) : Nat :=
  match count with
  | .all => numel
  | .sample n => Nat.min n numel

end WeightCount

/-- What a summary shows. -/
structure SummaryOptions where
  view : SummaryView
  /-- Only this layer; every layer when there is none. -/
  layer : Option String
  count : WeightCount
  deriving DecidableEq

/-- A layer in a summary. -/
structure LayerSummary where
  name : String
  shape : List Nat
  numel : Nat
  values : List Binary64
  deriving DecidableEq

/-- The summary of a model. -/
structure Summary where
  topology : Option Json.Members
  neurons : Option Json.Members
  layers : List LayerSummary

/-- The summary of one layer. -/
def summarizeLayer (model : Model) (count : WeightCount) (name : String) :
    Outcome LayerSummary := do
  let tensor ← model.layer name
  return ⟨name, tensor.shape, tensor.numel, tensor.data.take (count.take tensor.numel)⟩

/-- The summaries of layers, up to the first that fails. -/
def summarizeLayers (model : Model) (count : WeightCount) :
    List String → Outcome (List LayerSummary)
  | [] => .ok []
  | name :: rest => do
    let layer ← summarizeLayer model count name
    let layers ← summarizeLayers model count rest
    return layer :: layers

/-- The layers that a summary shows. -/
def shownLayers (model : Model) (layer : Option String) : Outcome (List String) :=
  match layer with
  | none => .ok model.layerNames
  | some name => if model.stateDict.has name then .ok [name] else fail (.layerNotFound name)

/-- The summary of a model. -/
def summarize (model : Model) (options : SummaryOptions) : Outcome Summary := do
  let names ← shownLayers model options.layer
  let layers ← summarizeLayers model options.count names
  match options.view with
  | .full => return ⟨some model.topology, some model.neurons, layers⟩
  | .weights => return ⟨none, none, layers⟩

/-- Members as lines of key and value. -/
def memberLines (members : Json.Members) : List String :=
  members.map fun m => m.1 ++ ": " ++ m.2.compact

namespace Summary

/-- The lines on the topology. -/
def topologyLines (summary : Summary) : List String :=
  match summary.topology with
  | none | some [] => []
  | some members => "--- Model Topology ---" :: (memberLines members ++ [""])

/-- The lines on one neuron layer. -/
def neuronLines (name : String) (parameters : Json.Value) : List String :=
  "" :: s!"Neuron Layer: {name}" ::
    match parameters with
    | .object members => memberLines members
    | other => [other.compact]

/-- The lines on the neuron parameters. -/
def neuronsLines (summary : Summary) : List String :=
  match summary.neurons with
  | none | some [] => []
  | some members =>
    "--- LIF Neurons Parameters ---" ::
      (members.flatMap (fun m => neuronLines m.1 m.2) ++ [""])

/-- Weights in square brackets. -/
def weightsText (values : List Binary64) : String :=
  Text.bracketed (values.map Decimal.listed.write)

/-- The lines on one layer. -/
def layerLines (layer : LayerSummary) : List String :=
  let rows := match layer.shape with
    | [rows, cols] => [s!"Rows: {rows}, Columns: {cols}"]
    | _ => []
  let shown := layer.values.length
  let weights :=
    if shown = layer.numel then "All Weights: " ++ weightsText layer.values
    else s!"Sample Weights (first {shown} weights): " ++ weightsText layer.values
  ["", s!"Layer: {layer.name}", s!"Weights Shape: {shapeText layer.shape}"] ++ rows ++ [weights]

/-- The summary as lines. -/
def text (summary : Summary) : String :=
  Text.unlines (summary.topologyLines ++ summary.neuronsLines ++
    "--- Model Weights ---" :: summary.layers.flatMap layerLines)

/-- A layer as a JSON value. -/
def layerJson (layer : LayerSummary) : Json.Value :=
  .object [
    ("name", .string layer.name),
    ("shape", .array (layer.shape.map .ofNat)),
    ("numel", .ofNat layer.numel),
    ("values", .array (layer.values.map .ofBinary64))]

/-- A section that is left out when it is not shown. -/
def optionalSection (name : String) : Option Json.Members → Json.Members
  | none => []
  | some members => [(name, .object members)]

/-- The summary as a JSON value. -/
def toJson (summary : Summary) : Json.Value :=
  .object (optionalSection "topology" summary.topology ++
    optionalSection "lif_neurons" summary.neurons ++
    [("layers", .array (summary.layers.map layerJson))])

end Summary

end SynapseMem
