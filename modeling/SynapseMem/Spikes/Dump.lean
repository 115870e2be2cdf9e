import SynapseMem.Json.Reader
import SynapseMem.Tensor

/-!
# Spike dumps

A `SpikeDump` holds the spikes of a batch of samples over time, a tensor with the five dimensions
steps, samples, channels, height and width. Spikes are exported as numbers and each has to round to
0 or 1. `sampleAt` gives all channels of a sample at a step, `frame` one channel of it, and
`average` the rate of every cell of a channel over all steps.

Every count and offset on the way to a slice has to fit in 64 bits, and a slice that leaves the
stored spikes ends the process. Spikes are counted in 32-bit words, and a counter that leaves them
ends the process too.
-/

namespace SynapseMem

/-- The spikes of a batch of samples over time, in row-major order. -/
structure SpikeDump where
  steps : Nat
  samples : Nat
  channels : Nat
  height : Nat
  width : Nat
  spikes : List Bool
  labels : List Int
  deriving DecidableEq

/-- Whether a number is a spike: it rounds to 1, a spike, or to 0, none. -/
def spike? (value : Binary64) : Option Bool :=
  let bit := value.roundTiesAway
  if bit.eq Binary64.zero then some false
  else if bit.eq Binary64.one then some true
  else none

/-- The spikes of numbers, the first of which has index `index`. -/
def spikesFrom (index : Nat) : List Binary64 → Except Error (List Bool)
  | [] => .ok []
  | value :: rest =>
    match spike? value with
    | none => .error (.invalidSpike index value)
    | some bit =>
      match spikesFrom (index + 1) rest with
      | .error e => .error e
      | .ok bits => .ok (bit :: bits)

/-- The items from `start` up to `stop`. -/
def slice {α : Type} (items : List α) (start stop : Nat) : Outcome (List α) :=
  if start ≤ stop ∧ stop ≤ items.length then .ok ((items.drop start).take (stop - start))
  else .error .crash

/-- Of items in parts of `len` each, the part at place `index`. -/
def part {α : Type} (items : List α) (index len : Nat) : Outcome (List α) := do
  let start ← checked (index * len)
  let stop ← checked (start + len)
  slice items start stop

/-- Add to the counters of the cells that a frame covers. -/
def accumulate {α β : Type} (add : α → β → α) : List α → List β → List α
  | a :: as, b :: bs => add a b :: accumulate add as bs
  | as, _ => as

namespace SpikeDump

/-- A dump from a tensor with five dimensions. -/
def ofTensor (tensor : Tensor) (labels : List Int) : Except Error SpikeDump :=
  match tensor.shape with
  | [steps, samples, channels, height, width] =>
    match spikesFrom 0 tensor.data with
    | .error e => .error e
    | .ok spikes => .ok ⟨steps, samples, channels, height, width, spikes, labels⟩
  | shape => .error (.shape "spiking_input" (.notSpikeGrid shape))

/-- The names of the sections, in order. -/
def sectionNames : List String := ["spiking_input", "labels"]

/-- A label: a whole number of 64 bits with its sign. -/
def label? : Json.Value → Option Int
  | .number (.int z) => if z < 9223372036854775808 then some z else none
  | _ => none

/-- The labels of a section, none when it is absent. -/
def labels? : Option Json.Value → Option (List Int)
  | none => some []
  | some (.array items) => items.mapM label?
  | some _ => none

/-- A dump from its spike tensor in nested arrays and its labels. -/
def ofJson (spikingInput : Json.Value) (labels : List Int) : Outcome SpikeDump := do
  let tensor ← Tensor.ofJson "spiking_input" spikingInput
  match ofTensor tensor labels with
  | .ok dump => return dump
  | .error e => fail e

/-- The dump of a JSON text. -/
def read (bs : Json.Bytes) : Outcome SpikeDump :=
  let sections := do
    let sections ← Json.sections? sectionNames bs
    let spikingInput ← sections.find? "spiking_input"
    let labels ← labels? (sections.find? "labels")
    some (spikingInput, labels)
  match sections with
  | none => fail .json
  | some (spikingInput, labels) => ofJson spikingInput labels

/-- The label of a sample, if it has one. -/
def label (dump : SpikeDump) (sample : Nat) : Option Int := dump.labels[sample]?

/-- The number of cells of a frame. -/
def frameLength (dump : SpikeDump) : Outcome Nat := checked (dump.height * dump.width)

/-- Refuse an index that reaches its dimension. -/
def check (axis : Axis) (index len : Nat) : Outcome Unit :=
  if index < len then .ok () else fail (.outOfBounds axis index len)

/-- All channels of a sample at a step. -/
def sampleAt (dump : SpikeDump) (step sample : Nat) : Outcome (List Bool) := do
  check .step step dump.steps
  check .sample sample dump.samples
  let cells ← dump.frameLength
  let len ← checked (dump.channels * cells)
  let place ← checked (step * dump.samples + sample)
  part dump.spikes place len

/-- One channel of a sample at a step. -/
def frame (dump : SpikeDump) (step sample channel : Nat) : Outcome (List Bool) := do
  check .channel channel dump.channels
  let all ← dump.sampleAt step sample
  let cells ← dump.frameLength
  part all channel cells

/-- Count the spikes of every cell over the first `steps` steps, in 32-bit words. -/
def countSpikes (dump : SpikeDump) (sample channel cells : Nat) : Nat → Outcome (List Nat)
  | 0 => .ok (List.replicate cells 0)
  | steps + 1 => do
    let counts ← dump.countSpikes sample channel cells steps
    let frame ← dump.frame steps sample channel
    let counts := accumulate (fun n s => n + s.toNat) counts frame
    if counts.all (· < 4294967296) then return counts else .error .crash

/-- The rate of every cell of a channel over all steps. -/
def average (dump : SpikeDump) (sample channel : Nat) : Outcome (List Binary64) := do
  check .sample sample dump.samples
  check .channel channel dump.channels
  let cells ← dump.frameLength
  reserve cells 4
  let counts ← dump.countSpikes sample channel cells dump.steps
  reserve cells 8
  let steps := Binary64.ofNat (Nat.max dump.steps 1)
  return counts.map fun n => (Binary64.ofNat n).div steps

end SpikeDump

end SynapseMem
