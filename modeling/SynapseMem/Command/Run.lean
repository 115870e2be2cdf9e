import SynapseMem.Command.Line
import SynapseMem.Spikes.Fifo
import SynapseMem.Weights.ImageSummary
import SynapseMem.Weights.Report

/-!
# Running a command

A run sees a snapshot of files and puts out text. `run` gives the exit code, the two output texts
and the files after the run: 0 for success, 1 for an error, 2 for arguments that are no command, and
101 for a crash. An error is reported with its context and its causes.
-/

namespace SynapseMem.Command

/-- What a run can change. -/
structure Session where
  files : Files
  output : String

/-- The texts of an error, from the outermost context to the innermost cause. -/
abbrev Causes := List String

/-- A run in progress. -/
abbrev Running (α : Type) := ExceptT (Fault Causes) (StateM Session) α

/-- The outcome of a run. -/
structure RunResult where
  exitCode : Nat
  output : String
  complaint : String
  files : Files

/-- The texts of an error. -/
def causesOf (e : Error) : Causes := e.message :: e.source?.toList

/-- A fault with a context put before its texts. -/
def inContext (context : List String) : Fault Error → Fault Causes
  | .error e => .error (context ++ causesOf e)
  | .crash => .crash

/-- An outcome as part of a run. -/
def ofOutcome {α : Type} (context : List String) (outcome : Outcome α) : Running α :=
  match outcome with
  | .ok a => return a
  | .error fault => throw (inContext context fault)

/-- A result without crashes as part of a run. -/
def ofExcept {α : Type} (context : List String) (result : Except Error α) : Running α :=
  match result with
  | .ok a => return a
  | .error e => throw (.error (context ++ causesOf e))

/-- A change of files as part of a run. -/
def onFiles {α : Type} (context : List String) (step : Step Files α) : Running α := do
  let session ← get
  let (result, files) := step.run.run session.files
  set { session with files := files }
  ofOutcome context result

/-- Put out text. -/
def say (text : String) : Running Unit :=
  modify fun session => { session with output := session.output ++ text }

/-- Put out a line. -/
def sayLine (text : String) : Running Unit := say (text ++ "\n")

/-- A title and rows of key and value, the values in one column. -/
def keyValueText (title : String) (rows : List (String × String)) : String :=
  let width := rows.foldl (fun w row => Nat.max w (row.1.length + 1)) 0
  Text.unlines (title :: rows.map fun row =>
    let key := row.1 ++ ":"
    "  " ++ key ++ String.ofList (List.replicate (width - key.length) ' ') ++ " " ++ row.2)

/-- The settings of the configuration file, or the default ones. -/
def loadConfig (path : Option String) : Running Config :=
  match path with
  | none => return Config.default
  | some path => do
    let context := ["loading config " ++ path]
    match (← get).files.read path with
    | .error e => ofExcept context (.error (.io e.message))
    | .ok content => ofExcept context (Config.read content)

/-- The options of an export under the settings and the command line. -/
def FormatArgs.resolve (args : FormatArgs) (config : Config) : Except Error ExportOptions :=
  Config.exportOptions { config with
    intBits := args.intBits.getD config.intBits
    fracBits := args.fracBits.getD config.fracBits
    style := args.style.getD config.style
    digits := args.digits.getD config.digits }

/-- Open a dump and read it. A directory opens and has no JSON text. -/
def readDump {α : Type} (context : List String) (path : String) (read : Json.Bytes → Outcome α) :
    Running α := do
  match (← get).files.openNode path with
  | .error e => ofExcept context (.error (.io e.message))
  | .ok .directory => ofExcept context (.error .json)
  | .ok (.file content) => ofOutcome context (read content.toList)

/-- Read a model dump. -/
def readModel (path : String) : Running Model :=
  readDump ["reading model dump " ++ path] path Model.read

/-- The line of a quantized value. -/
def quantizedLine (format : QFormat) (style : HexStyle) (verbose : Bool) (value : Binary64) :
    Except (Fault Causes) String :=
  match format.quantize value with
  | .error e => .error (.error [e.message])
  | .ok word =>
    match word.render? style with
    | none => .error .crash
    | some token =>
      if verbose then
        .ok (Text.joined "\t" [Decimal.plain.write value, token, toString word.signed.toInt,
          Decimal.plain.write word.toBinary64])
      else .ok token

/-- The lines of quantized values, up to the first that fails. -/
def quantizedLines (format : QFormat) (style : HexStyle) (verbose : Bool) :
    List Binary64 → Except (Fault Causes) (List String)
  | [] => .ok []
  | value :: rest => do
    let line ← quantizedLine format style verbose value
    let lines ← quantizedLines format style verbose rest
    return line :: lines

/-- Quantize values and put out a token for each. -/
def runQuantize (config : Config) (values : List Binary64) (args : FormatArgs) (verbose : Bool) :
    Running Unit := do
  let options ← ofExcept [] (args.resolve config)
  let lines ← (quantizedLines options.format options.style verbose values :
    Except (Fault Causes) (List String))
  say (Text.unlines lines)

/-- Export a layer to a file and put out the report. -/
def runExportWeights (config : Config) (model layer output : String) (args : FormatArgs)
    (skip json : Bool) : Running Unit := do
  let resolved ← ofExcept [] (args.resolve config)
  let options := if skip then { resolved with policy := .skip } else resolved
  let m ← readModel model
  let context := s!"exporting '{layer}' to " ++ output
  let report ← onFiles [context] (exportWeightsToFile m layer options output)
  if json then sayLine report.toJson.pretty
  else
    say report.text
    sayLine ("\nWeights successfully exported to " ++ output)

/-- Export steps of a sample to a file. -/
def runExportSpikes (input : String) (sample : Nat) (steps : List Nat) (output : Option String) :
    Running Unit := do
  let dump ← readDump ["reading spike dump " ++ input] input SpikeDump.read
  let path := output.getD (fifoPath sample)
  let lines ← onFiles [] (dump.exportFifoToFile steps sample path)
  let title := "Data for steps " ++ shapeText steps ++ s!" and sample {sample}" ++
    " successfully exported to " ++ path
  let label := match dump.label sample with
    | some l => [("Label", toString l)]
    | none => []
  say (keyValueText title (("Lines", toString lines) :: label))

/-- Put out the summary of a model. -/
def runInspect (model : String) (options : SummaryOptions) (json : Bool) : Running Unit := do
  let m ← readModel model
  let summary ← ofOutcome [] (summarize m options)
  if json then sayLine summary.toJson.pretty else say summary.text

/-- Decode a memory image and put out its values or their summary. -/
def runVerify (config : Config) (image : String) (args : FormatArgs) (summary json : Bool) :
    Running Unit := do
  let options ← ofExcept [] (args.resolve config)
  let content ← match (← get).files.openNode image with
    | .error e => throw (.error ["opening " ++ image, e.message])
    | .ok .directory =>
      ofExcept ["decoding " ++ image] (.error (.io FileError.isDirectory.message))
    | .ok (.file content) => pure content
  let words ← ofExcept ["decoding " ++ image] (Image.read options.format content.toList)
  if !summary && !json then
    say (Text.unlines (words.map fun w => Decimal.plain.write w.toBinary64))
  else
    match ImageSummary.ofWords? words with
    | none => sayLine s!"No values in {image}."
    | some s =>
      if json then sayLine s.toJson.pretty
      else say (keyValueText s!"Decoded {image}:" s.rows)

/-- Run a command under its settings. -/
def Action.run (action : Action) (config : Config) : Running Unit :=
  match action with
  | .quantize values format verbose => runQuantize config values format verbose
  | .exportWeights model layer output format skip json =>
    runExportWeights config model layer output format skip json
  | .exportSpikes input sample steps output => runExportSpikes input sample steps output
  | .inspect model options json => runInspect model options json
  | .verify image format summary json => runVerify config image format summary json

/-- Load the settings and run the command. -/
def Line.run (line : Line) : Running Unit := do
  let config ← loadConfig line.config
  line.action.run config

/-- A cause with its number, further lines indented below it. -/
def causeText (number : Option Nat) (cause : String) : String :=
  match number with
  | none => "    " ++ Text.joined "\n    " (cause.splitOn "\n")
  | some n =>
    let digits := toString n
    String.ofList (List.replicate (5 - digits.length) ' ') ++ digits ++ ": " ++
      Text.joined "\n       " (cause.splitOn "\n")

/-- What is reported of an error: its outermost text and the causes below it. -/
def complaintText : Causes → String
  | [] => "Error: \n"
  | [text] => "Error: " ++ text ++ "\n"
  | [text, cause] => Text.unlines ["Error: " ++ text, "", "Caused by:", causeText none cause]
  | text :: causes =>
    Text.unlines (["Error: " ++ text, "", "Caused by:"] ++
      causes.mapIdx fun i cause => causeText (some i) cause)

/-- The name and version of the program. -/
def versionText : String := "nmx 0.1.0\n"

/-- How the program is called. -/
def usageText : String :=
  "Usage: nmx [--config FILE] quantize|export-weights|export-spikes|inspect|verify [OPTIONS]\n"

/-- Run a command line on files. -/
def run (files : Files) (args : List String) : RunResult :=
  match parse args with
  | .error .version => ⟨0, versionText, "", files⟩
  | .error .help => ⟨0, usageText, "", files⟩
  | .error .usage => ⟨2, "", usageText, files⟩
  | .ok line =>
    let (result, session) := line.run.run.run ⟨files, ""⟩
    match result with
    | .ok _ => ⟨0, session.output, "", session.files⟩
    | .error (.error causes) => ⟨1, session.output, complaintText causes, session.files⟩
    | .error .crash => ⟨101, session.output, "", session.files⟩

end SynapseMem.Command
