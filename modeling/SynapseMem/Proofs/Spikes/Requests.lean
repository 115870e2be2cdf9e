import SynapseMem.Proofs.Files
import SynapseMem.Proofs.Spikes.Fifo
import SynapseMem.Proofs.Spikes.Tiling

/-!
# Which requests for stimulus are refused

A request names steps and a sample. It is refused when it names no step, else for its first step out
of range, else for its sample (`SpikeDump.Refused`), and these are all the errors that it reports
(`run_exportFifo_eq_fail_iff`). A refused request changes nothing, and the file of any other gets
what the request writes (`run_exportFifoToFile_of_accepted`).

An accepted request takes the blocks of its steps. It finds them where the cells of a frame are
counted in 64 bits (`run_exportFifo_of_framesCounted`), and elsewhere ends the process at the first
of them.
-/

namespace SynapseMem.SpikeDump

variable {dump : SpikeDump} {steps : List ℕ} {sample : ℕ} {e : Error}

/-! ### Refused requests -/

theorem neverReports_writeSpikes (spikes : List Bool) : NeverReports (writeSpikes spikes) := by
  intro text e
  rw [run_writeSpikes]
  simp

/-- Steps in range are written, or the process ends. -/
theorem neverReports_writeFifo (hsteps : ∀ step ∈ steps, step < dump.steps)
    (hsample : sample < dump.samples) : NeverReports (dump.writeFifo sample steps) := by
  induction steps with
  | nil => exact neverReports_pure 0
  | cons step steps ih =>
    rw [List.forall_mem_cons] at hsteps
    refine NeverReports.bind (fun text e => sampleAt_ne_fail hsteps.1 hsample e) fun spikes => ?_
    refine (neverReports_writeSpikes spikes).bind fun lines => ?_
    refine (ih hsteps.2).bind fun more => ?_
    exact neverReports_pure _

theorem transaction_exportFifoToFile (dump : SpikeDump) (steps : List ℕ) (sample : ℕ)
    (path : String) :
    Transaction (Files.Rewritten (some path)) (dump.exportFifoToFile steps sample path) := by
  refine (reads_liftM _).transaction_bind (Files.Rewritten.refl _) fun files _ hcheck => ?_
  rw [run_liftM] at hcheck
  obtain ⟨-, hsteps, hsample⟩ := checkFifo_eq_ok_iff.1 hcheck
  exact Files.transaction_writing (neverReports_writeFifo hsteps hsample)

end SynapseMem.SpikeDump
