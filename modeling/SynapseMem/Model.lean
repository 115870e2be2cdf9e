import SynapseMem.Json.Reader
import SynapseMem.Tensor

/-!
# Model dumps

A `Model` has three sections, each an object and each optional: the weights of the layers by name,
the topology of the network, and the parameters of its spiking neurons.
-/

namespace SynapseMem

/-- A trained network as dumped to JSON. -/
structure Model where
  stateDict : Json.Members
  topology : Json.Members
  neurons : Json.Members

namespace Model

/-- The names of the sections, in order. -/
def sectionNames : List String := ["model_state_dict", "model_topology", "LIF_neurons"]

/-- A section that is an object, or an absent one. -/
def sectionOf (sections : Json.Members) (name : String) : Option Json.Members :=
  match sections.find? name with
  | none => some []
  | some (.object members) => some members
  | some _ => none

/-- The model of a JSON text. -/
def read (bs : Json.Bytes) : Outcome Model :=
  let model := do
    let sections ← Json.sections? sectionNames bs
    let stateDict ← sectionOf sections "model_state_dict"
    let topology ← sectionOf sections "model_topology"
    let neurons ← sectionOf sections "LIF_neurons"
    some ⟨stateDict, topology, neurons⟩
  match model with
  | some m => .ok m
  | none => fail .json

/-- The names of the layers in dump order. -/
def layerNames (model : Model) : List String := model.stateDict.map (·.1)

/-- The tensor of a layer. -/
def layer (model : Model) (name : String) : Outcome Tensor :=
  match model.stateDict.find? name with
  | none => fail (.layerNotFound name)
  | some v => Tensor.ofJson name v

/-- The model as a JSON value. -/
def toJson (model : Model) : Json.Value :=
  .object [("model_state_dict", .object model.stateDict),
    ("model_topology", .object model.topology), ("LIF_neurons", .object model.neurons)]

end Model

end SynapseMem
