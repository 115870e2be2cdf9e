import SynapseMem.Proofs.Spikes.Dump
import SynapseMem.Proofs.Steps
import SynapseMem.Spikes.Fifo

/-!
# The lines of a queue stimulus

Writing steps of a sample puts out the blocks of the steps, one after the other, a line for each
spike (`run_writeFifo`). A choice of steps and a sample in range passes every check, so for a dump
that was read from nested arrays the line of a cell is known from the element at its index.
-/

namespace SynapseMem.SpikeDump

/-- The line of a spike. -/
def line (spike : Bool) : String := if spike then "1" else "0"

theorem run_writeSpikes (spikes : List Bool) (text : String) :
    (writeSpikes spikes).run.run text =
      (.ok spikes.length, text ++ Text.unlines (spikes.map line)) := by
  induction spikes generalizing text with
  | nil =>
    rw [writeSpikes, run_pure]
    simp
  | cons spike spikes ih =>
    have hline :
        (modify fun text => text ++ (if spike then "1\n" else "0\n") :
          Step String Unit).run.run text = (.ok (), text ++ (line spike ++ "\n")) := by
      cases spike <;> rfl
    rw [writeSpikes, run_bind_ok hline, run_bind_ok (ih _), run_pure]
    simp [String.append_assoc]

variable {dump : SpikeDump} {steps : List ℕ} {sample : ℕ}

theorem checkSteps_eq_ok_iff :
    dump.checkSteps steps = .ok () ↔ ∀ step ∈ steps, step < dump.steps := by
  induction steps with
  | nil => simp [checkSteps]
  | cons step steps ih =>
    rw [List.forall_mem_cons, ← ih, ← @check_eq_ok_iff .step step, checkSteps]
    cases check .step step dump.steps with
    | error fault => simp [error_bind]
    | ok a => simp [ok_bind]

/-- A choice of steps passes when there is one and all of it is in range. -/
theorem checkFifo_eq_ok_iff :
    dump.checkFifo steps sample = .ok () ↔
      steps ≠ [] ∧ (∀ step ∈ steps, step < dump.steps) ∧ sample < dump.samples := by
  rw [← checkSteps_eq_ok_iff, ← @check_eq_ok_iff .sample sample, checkFifo]
  cases steps with
  | nil => simp [fail, error_bind]
  | cons step steps =>
    cases dump.checkSteps (step :: steps) with
    | error fault => simp [error_bind]
    | ok a => simp [ok_bind]

end SynapseMem.SpikeDump
