import SynapseMem.Command.Run
import SynapseMem.Proofs.Files
import SynapseMem.Proofs.Spikes.Requests
import SynapseMem.Proofs.Weights.Export

/-!
# Commands that are done as a whole or not at all

Every command first reads and checks, then writes at most one file, and puts out text last. So a
command that reports an error has put out nothing and has touched no file, and a command that ends
well has touched no file but its output. The commands are taken apart by the rules for
`Transaction`; what is left to see of each is that no error can come up once its file has been
created.
-/

namespace SynapseMem

namespace Command

/-! ### Parts of a run -/

/-- The file that a command writes. -/
def Action.output? : Action → Option String
  | .quantize _ _ _ => none
  | .exportWeights _ _ output _ _ _ => some output
  | .exportSpikes _ sample _ output => some (output.getD (fifoPath sample))
  | .inspect _ _ _ => none
  | .verify _ _ _ _ => none

/-- The files are as before, whatever was put out. -/
def SameFiles (before after : Session) : Prop := after.files = before.files

/-- The files are as before but for the target, whatever was put out. -/
def Confined (target : Option String) (before after : Session) : Prop :=
  before.files.Rewritten target after.files

theorem Confined.refl (target : Option String) (session : Session) :
    Confined target session session :=
  Files.Rewritten.refl _ _

theorem Confined.of_sameFiles {target : Option String} {before after : Session}
    (h : SameFiles before after) : Confined target before after := .inl h

theorem Confined.trans_sameFiles {target : Option String} {first second third : Session}
    (h : Confined target first second) (h' : SameFiles second third) :
    Confined target first third := by
  rw [SameFiles] at h'
  rwa [Confined, h']

variable {α : Type} {target : Option String}

theorem reads_ofOutcome (context : List String) (outcome : Outcome α) :
    Reads (ofOutcome context outcome) := by
  cases outcome with
  | ok a => exact reads_pure a
  | error fault => exact reads_throw _

theorem reads_ofExcept (context : List String) (result : Except Error α) :
    Reads (ofExcept context result) := by
  cases result with
  | ok a => exact reads_pure a
  | error e => exact reads_throw _

theorem reads_loadConfig (path : Option String) : Reads (loadConfig path) := by
  cases path with
  | none => exact reads_pure _
  | some path =>
    refine reads_get.bind fun session => ?_
    split
    · exact reads_ofExcept _ _
    · exact reads_ofExcept _ _

theorem reads_readDump (context : List String) (path : String) (read : Json.Bytes → Outcome α) :
    Reads (readDump context path read) := by
  refine reads_get.bind fun session => ?_
  split
  · exact reads_ofExcept _ _
  · exact reads_ofExcept _ _
  · exact reads_ofOutcome _ _

theorem completes_say (text : String) : Completes SameFiles (say text) :=
  fun session => ⟨(), { session with output := session.output ++ text }, rfl, rfl⟩

/-- A change of files keeps what was put out, and its errors get their context. -/
theorem run_onFiles (context : List String) (step : Step Files α) (session : Session) :
    (onFiles context step).run.run session =
      ((step.run.run session.files).1.mapError (inContext context),
        { session with files := (step.run.run session.files).2 }) := by
  rw [onFiles, run_bind_ok (run_get session)]
  rcases step.run.run session.files with ⟨fault | a, files⟩
  · rfl
  · rfl

theorem transaction_onFiles (context : List String) {step : Step Files α}
    (h : Transaction (Files.Rewritten target) step) :
    Transaction (Confined target) (onFiles context step) := by
  constructor
  · intro before after causes hrun
    rw [run_onFiles] at hrun
    rcases hstep : step.run.run before.files with ⟨(e | _) | a, files⟩
    · -- only a reported error is reported in the run
      have hfiles := h.undone hstep
      rw [hstep, hfiles] at hrun
      cases hrun
      rfl
    · rw [hstep] at hrun
      cases hrun
    · rw [hstep] at hrun
      cases hrun
  · intro before
    rw [run_onFiles]
    exact h.confined before.files

/-- Text that is put out at the end cannot fail. -/
theorem transaction_say (text : String) : Transaction (Confined target) (say text) :=
  (completes_say text).transaction Confined.of_sameFiles

/-! ### The commands -/

theorem transaction_runQuantize (config : Config) (values : List Binary64) (args : FormatArgs)
    (verbose : Bool) : Transaction (Confined none) (runQuantize config values args verbose) := by
  refine (reads_ofExcept _ _).transaction_bind (Confined.refl _) fun _ options _ => ?_
  refine (reads_liftM _).transaction_bind (Confined.refl _) fun _ lines _ => ?_
  exact transaction_say _

theorem transaction_runExportWeights (config : Config) (model layer output : String)
    (args : FormatArgs) (skip json : Bool) :
    Transaction (Confined (some output))
      (runExportWeights config model layer output args skip json) := by
  refine (reads_ofExcept _ _).transaction_bind (Confined.refl _) fun _ resolved _ => ?_
  refine (reads_readDump _ _ _).transaction_bind (Confined.refl _) fun _ m _ => ?_
  refine (transaction_onFiles _ (transaction_exportWeightsToFile _ _ _ _)).bind_completes
    Confined.trans_sameFiles fun report => ?_
  split
  · exact completes_say _
  · exact (completes_say _).bind (fun h h' => h'.trans h) fun _ => completes_say _

theorem transaction_runExportSpikes (input : String) (sample : ℕ) (steps : List ℕ)
    (output : Option String) :
    Transaction (Confined (some (output.getD (fifoPath sample))))
      (runExportSpikes input sample steps output) := by
  refine (reads_readDump _ _ _).transaction_bind (Confined.refl _) fun _ dump _ => ?_
  refine (transaction_onFiles _ (SpikeDump.transaction_exportFifoToFile _ _ _ _)).bind_completes
    Confined.trans_sameFiles fun lines => ?_
  exact completes_say _

theorem transaction_runInspect (model : String) (options : SummaryOptions) (json : Bool) :
    Transaction (Confined none) (runInspect model options json) := by
  refine (reads_readDump _ _ _).transaction_bind (Confined.refl _) fun _ m _ => ?_
  refine (reads_ofOutcome _ _).transaction_bind (Confined.refl _) fun _ summary _ => ?_
  split
  · exact transaction_say _
  · exact transaction_say _

theorem transaction_runVerify (config : Config) (image : String) (args : FormatArgs)
    (summary json : Bool) :
    Transaction (Confined none) (runVerify config image args summary json) := by
  refine (reads_ofExcept _ _).transaction_bind (Confined.refl _) fun _ options _ => ?_
  refine reads_get.transaction_bind (Confined.refl _) fun _ session _ => ?_
  dsimp only
  -- without a file at the image's path the run ends here, and no words follow
  split
  · exact (reads_throw _).transaction_bind (Confined.refl _) fun _ _ h => nomatch h
  · exact (reads_ofExcept _ _).transaction_bind (Confined.refl _) fun _ _ h => nomatch h
  · refine (reads_pure _).transaction_bind (Confined.refl _) fun _ content _ => ?_
    refine (reads_ofExcept _ _).transaction_bind (Confined.refl _) fun _ words _ => ?_
    split
    · exact transaction_say _
    · split
      · exact transaction_say _
      · split
        · exact transaction_say _
        · exact transaction_say _

/-- A command touches no file but its output, and nothing at all when it reports an error. -/
theorem transaction_run (line : Line) : Transaction (Confined line.action.output?) line.run := by
  refine (reads_loadConfig _).transaction_bind (Confined.refl _) fun _ config _ => ?_
  cases line.action with
  | quantize values format verbose => exact transaction_runQuantize config values format verbose
  | exportWeights model layer output format skip json =>
    exact transaction_runExportWeights config model layer output format skip json
  | exportSpikes input sample steps output =>
    exact transaction_runExportSpikes input sample steps output
  | inspect model options json => exact transaction_runInspect model options json
  | verify image format summary json => exact transaction_runVerify config image format summary json

/-! ### Whole runs -/

/-- Arguments that are no command change no file and are no error of a command. -/
theorem run_of_parse_error {args : List String} {stop : ArgumentStop}
    (hparse : parse args = .error stop) (files : Files) :
    (run files args).exitCode ≠ 1 ∧ (run files args).files = files := by
  cases stop <;> simp [run, hparse]

/-- A run with exit code 1 has put out nothing and has changed no file. After a run with exit code 0
no path leads elsewhere than before, unless it is the one that the command's output leads to; a
command without an output leaves all files as they were. -/
theorem run_all_or_nothing (files : Files) (args : List String) :
    ((run files args).exitCode = 1 → (run files args).output = "" ∧
      (run files args).files = files) ∧
    ((run files args).exitCode = 0 →
      (∀ path, (run files args).files.node? path ≠ files.node? path →
        ∃ line text, parse args = .ok line ∧ line.action.output? = some text ∧
          files.locate text = .ok path) ∧
      ∀ line, parse args = .ok line → line.action.output? = none →
        (run files args).files = files) := by
  rcases hparse : parse args with stop | line
  · obtain ⟨hcode, hfiles⟩ := run_of_parse_error hparse files
    exact ⟨fun h => absurd h hcode,
      fun _ => ⟨fun path hpath => absurd (by rw [hfiles]) hpath, nofun⟩⟩
  · have htransaction := transaction_run line
    rcases hrun : line.run.run.run ⟨files, ""⟩ with ⟨(causes | _) | _, session⟩
    · -- an error is reported: the session is the one that the run started from
      cases htransaction.undone hrun
      simp [run, hparse, hrun]
    · simp [run, hparse, hrun]
    · have hafter : run files args = ⟨0, session.output, "", session.files⟩ := by
        simp only [run, hparse, hrun]
      have hconfined : Confined line.action.output? ⟨files, ""⟩ session := by
        simpa only [hrun] using htransaction.confined ⟨files, ""⟩
      rw [Confined] at hconfined
      rw [hafter]
      refine ⟨nofun, fun _ => ⟨fun path hpath => ?_, ?_⟩⟩
      · obtain ⟨text, htext, hlocate⟩ := hconfined.node? hpath
        exact ⟨line, text, rfl, htext, hlocate⟩
      · rintro _ ⟨⟩ hnone
        rw [hnone] at hconfined
        exact hconfined.eq_of_none

end Command

end SynapseMem
