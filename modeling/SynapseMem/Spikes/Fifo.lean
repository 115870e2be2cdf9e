import SynapseMem.Files
import SynapseMem.Spikes.Dump

/-!
# Spikes as queue stimulus

Chosen steps of one sample are written for a hardware queue, one `0` or `1` per line, each step with
its channels and rows in order. Every index is checked before anything is written.
-/

namespace SynapseMem.SpikeDump

/-- Refuse steps that reach the number of steps, in their order. -/
def checkSteps (dump : SpikeDump) : List Nat → Outcome Unit
  | [] => .ok ()
  | step :: rest => do
    check .step step dump.steps
    dump.checkSteps rest

/-- Refuse an empty choice of steps and indices out of bounds. -/
def checkFifo (dump : SpikeDump) (steps : List Nat) (sample : Nat) : Outcome Unit := do
  if steps.isEmpty then fail .noSteps
  dump.checkSteps steps
  check .sample sample dump.samples

/-- Write spikes, a line each, and count the lines. -/
def writeSpikes : List Bool → Step String Nat
  | [] => return 0
  | spike :: rest => do
    modify fun text => text ++ (if spike then "1\n" else "0\n")
    let lines ← writeSpikes rest
    return lines + 1

/-- Write steps of a sample and count the lines. -/
def writeFifo (dump : SpikeDump) (sample : Nat) : List Nat → Step String Nat
  | [] => return 0
  | step :: rest => do
    let spikes ← (dump.sampleAt step sample : Outcome (List Bool))
    let lines ← writeSpikes spikes
    let more ← dump.writeFifo sample rest
    return lines + more

/-- Check steps and sample, then write them to a file. -/
def exportFifoToFile (dump : SpikeDump) (steps : List Nat) (sample : Nat) (path : String) :
    Step Files Nat := do
  (dump.checkFifo steps sample : Outcome Unit)
  Files.writing path (dump.writeFifo sample steps)

end SynapseMem.SpikeDump
