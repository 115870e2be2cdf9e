import SynapseMem.Spikes.Dump

/-!
# Sources of spike frames

A `SpikeSource` hands out frames by step, sample and channel. A source made from a dump knows
labels and rates from the dump. A `plain` source knows no labels and derives the rates from its
frames, with a double for the sum of each cell.
-/

namespace SynapseMem

/-- Anything that hands out spike frames. -/
structure SpikeSource where
  steps : Nat
  samples : Nat
  channels : Nat
  height : Nat
  width : Nat
  /-- The cells of a frame, row by row; empty out of range. -/
  frame : Nat → Nat → Nat → Outcome (List Bool)
  label : Nat → Option Int
  /-- The rate of every cell of a sample and channel over all steps. -/
  average : Nat → Nat → Outcome (List Binary64)

namespace SpikeSource

/-- An outcome whose errors stand for an empty list. -/
def orEmpty {α : Type} : Outcome (List α) → Outcome (List α)
  | .error (.error _) => .ok []
  | outcome => outcome

/-- Sum up the spikes of every cell over the first `steps` steps. -/
def sumFrames (frame : Nat → Outcome (List Bool)) (cells : Nat) : Nat → Outcome (List Binary64)
  | 0 => .ok (List.replicate cells Binary64.zero)
  | steps + 1 => do
    let sums ← sumFrames frame cells steps
    let spikes ← frame steps
    return accumulate (fun x s => x.add (if s then Binary64.one else Binary64.zero)) sums spikes

/-- The rate of every cell of frames of the given size, by summing them up. -/
def meanRate (steps height width : Nat) (frame : Nat → Outcome (List Bool)) :
    Outcome (List Binary64) := do
  let cells ← checked (height * width)
  reserve cells 8
  let sums ← sumFrames frame cells steps
  return sums.map fun x => x.div (Binary64.ofNat (Nat.max steps 1))

/-- The frames of a dump, with its labels and rates. -/
def ofDump (dump : SpikeDump) : SpikeSource where
  steps := dump.steps
  samples := dump.samples
  channels := dump.channels
  height := dump.height
  width := dump.width
  frame step sample channel := orEmpty (dump.frame step sample channel)
  label := dump.label
  average sample channel := orEmpty (dump.average sample channel)

/-- The same frames without labels, the rates derived from the frames. -/
def plain (source : SpikeSource) : SpikeSource :=
  { source with
    label := fun _ => none
    average := fun sample channel =>
      meanRate source.steps source.height source.width
        (fun step => source.frame step sample channel) }

end SpikeSource

end SynapseMem
