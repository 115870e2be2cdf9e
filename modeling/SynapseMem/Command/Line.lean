import SynapseMem.Command.Arguments
import SynapseMem.Config
import SynapseMem.Summary

/-!
# Commands

The five commands with their options, and how a command line is read into one of them.
-/

namespace SynapseMem.Command

/-- Format and style given on the command line, on top of the configuration. -/
structure FormatArgs where
  intBits : Option Nat
  fracBits : Option Nat
  style : Option StyleKind
  digits : Option Nat
  deriving DecidableEq, Repr

/-- A command with its options. -/
inductive Action where
  | quantize (values : List Binary64) (format : FormatArgs) (verbose : Bool)
  | exportWeights (model layer output : String) (format : FormatArgs) (skip json : Bool)
  | exportSpikes (input : String) (sample : Nat) (steps : List Nat) (output : Option String)
  | inspect (model : String) (options : SummaryOptions) (json : Bool)
  | verify (image : String) (format : FormatArgs) (summary json : Bool)

/-- A command and the configuration file it is run with. -/
structure Line where
  config : Option String
  action : Action

/-- The file that spikes of a sample go to where no other is named. -/
def fifoPath (sample : Nat) : String := s!"fifo_data_sample_{sample}.txt"

/-- The paths that a command reads or writes. -/
def Line.paths (line : Line) : List String :=
  line.config.toList ++ match line.action with
    | .quantize _ _ _ => []
    | .exportWeights model _ output _ _ _ => [model, output]
    | .exportSpikes input sample _ output => [input, output.getD (fifoPath sample)]
    | .inspect model _ _ => [model]
    | .verify image _ _ _ => [image]

/-- A path, which is not empty. -/
def path? (text : String) : Option String := if text.isEmpty then none else some text

/-- A 32-bit count. -/
def bits? (text : String) : Option Nat := Text.bounded? 4294967295 text

/-- A style. -/
def style? (text : String) : Option StyleKind := (StyleKind.parse text).toOption

/-- Steps between commas. -/
def steps? (text : String) : Option (List Nat) := (text.splitOn ",").mapM Text.count?

/-- How many weights of a layer are shown. -/
def weightCount? (text : String) : Option WeightCount := (WeightCount.parse text).toOption

/-- An option whose value a reader accepts. -/
def valueSpec {α : Type} (name : String) (letter : Option Char) (read : String → Option α) :
    OptionSpec :=
  ⟨name, letter, .value fun text => (read text).isSome⟩

/-- The options that stand before a command and in every command. -/
def sharedSpecs : List OptionSpec :=
  [valueSpec "config" (some 'c') path?, ⟨"help", some 'h', .halt .help⟩]

/-- The options for format and style. -/
def formatSpecs : List OptionSpec :=
  [valueSpec "int-bits" (some 'i') bits?, valueSpec "frac-bits" (some 'f') bits?,
    valueSpec "style" (some 's') style?, valueSpec "digits" none Text.count?]

/-- Refuse arguments that a reader does not accept. -/
def orUsage {α : Type} : Option α → Except ArgumentStop α
  | some a => .ok a
  | none => .error .usage

/-- The value of an option read by a reader. -/
def optional {α : Type} (m : Matches) (name : String) (read : String → Option α) :
    Except ArgumentStop (Option α) :=
  match m.value? name with
  | none => .ok none
  | some text => do return some (← orUsage (read text))

/-- The value of an option that has to be given. -/
def required {α : Type} (m : Matches) (name : String) (read : String → Option α) :
    Except ArgumentStop α := do
  orUsage (← optional m name read)

/-- A path, or a default. -/
def pathOr (m : Matches) (name fallback : String) : Except ArgumentStop String := do
  return (← optional m name path?).getD fallback

/-- Format and style of a command. -/
def formatArgs (m : Matches) : Except ArgumentStop FormatArgs := do
  return ⟨← optional m "int-bits" bits?, ← optional m "frac-bits" bits?,
    ← optional m "style" style?, ← optional m "digits" Text.count?⟩

/-- Read every text of a list. -/
def readAll {α : Type} (read : String → Option α) : List String → Except ArgumentStop (List α)
  | [] => return []
  | text :: rest => do return (← orUsage (read text)) :: (← readAll read rest)

/-- Read the arguments of `quantize`. -/
def quantizeAction (args : List String) : Except ArgumentStop (Matches × Action) := do
  let specs := ⟨"verbose", some 'v', .flag⟩ :: formatSpecs ++ sharedSpecs
  let m ← scan ⟨specs, some fun text => (Decimal.read? text).isSome⟩ args
  let values ← readAll Decimal.read? m.plain
  let format ← formatArgs m
  if values.isEmpty then throw .usage
  return (m, .quantize values format (m.has "verbose"))

/-- Read the arguments of `export-weights`. -/
def exportWeightsAction (args : List String) : Except ArgumentStop (Matches × Action) := do
  let specs := [valueSpec "model" (some 'm') path?, valueSpec "layer" (some 'l') some,
    valueSpec "output" (some 'o') path?, ⟨"skip-out-of-range", none, .flag⟩, ⟨"json", none, .flag⟩]
  let m ← scan ⟨specs ++ formatSpecs ++ sharedSpecs, none⟩ args
  let model ← pathOr m "model" "model_data.json"
  let layer := (m.value? "layer").getD "fc2.weight"
  let output ← pathOr m "output" "weights_fc2.dat"
  let format ← formatArgs m
  return (m, .exportWeights model layer output format (m.has "skip-out-of-range") (m.has "json"))

/-- Read the arguments of `export-spikes`. -/
def exportSpikesAction (args : List String) : Except ArgumentStop (Matches × Action) := do
  let specs := [valueSpec "input" none path?, valueSpec "sample" none Text.count?,
    ⟨"steps", none, .list fun text => (steps? text).isSome⟩, valueSpec "output" (some 'o') path?]
  let m ← scan ⟨specs ++ sharedSpecs, none⟩ args
  let input ← pathOr m "input" "exported_spiking_input.json"
  let sample ← required m "sample" Text.count?
  let steps ← readAll steps? (m.values "steps")
  let output ← optional m "output" path?
  return (m, .exportSpikes input sample (if m.has "steps" then steps.flatten else [0, 1, 2]) output)

/-- Read the arguments of `inspect`. -/
def inspectAction (args : List String) : Except ArgumentStop (Matches × Action) := do
  let specs := [valueSpec "model" (some 'm') path?, ⟨"weights-only", none, .flag⟩,
    valueSpec "layer" (some 'l') some, valueSpec "count" (some 'n') weightCount?,
    ⟨"json", none, .flag⟩]
  let m ← scan ⟨specs ++ sharedSpecs, none⟩ args
  let model ← pathOr m "model" "model_data.json"
  let count ← optional m "count" weightCount?
  let view := if m.has "weights-only" then SummaryView.weights else .full
  return (m, .inspect model ⟨view, m.value? "layer", count.getD WeightCount.default⟩ (m.has "json"))

/-- Read the arguments of `verify`. -/
def verifyAction (args : List String) : Except ArgumentStop (Matches × Action) := do
  let specs := [valueSpec "dat" (some 'd') path?, ⟨"summary", none, .flag⟩, ⟨"json", none, .flag⟩]
  let m ← scan ⟨specs ++ formatSpecs ++ sharedSpecs, none⟩ args
  let image ← required m "dat" path?
  let format ← formatArgs m
  return (m, .verify image format (m.has "summary") (m.has "json"))

/-- The reader of a command's arguments, by the name of the command. -/
def action? : String → Option (List String → Except ArgumentStop (Matches × Action))
  | "quantize" => some quantizeAction
  | "export-weights" => some exportWeightsAction
  | "export-spikes" => some exportSpikesAction
  | "inspect" => some inspectAction
  | "verify" => some verifyAction
  | _ => none

/-- What may stand before the command. -/
def topGrammar : Grammar := ⟨⟨"version", some 'V', .halt .version⟩ :: sharedSpecs, none⟩

/-- Where `help` leads: to help for the program, or for one command by its name. -/
def helpStop : List String → ArgumentStop
  | [] => .help
  | [name] => if (action? name).isSome || name == "help" then .help else .usage
  | _ => .usage

/-- Read a command line from the options before the command on. What is held there is checked after
the command has been read. A configuration given after the command takes the place of one given
before it. -/
def parseFrom (before : Scan) : List String → Except ArgumentStop Line
  | [] => throw .usage
  | arg :: rest =>
    match before.isAwaiting, action? arg with
    | false, some read => do
      let (inner, action) ← read rest
      let outer ← before.settle topGrammar
      let earlier ← optional outer "config" path?
      let later ← optional inner "config" path?
      return ⟨later.or earlier, action⟩
    | awaiting, _ =>
      if !awaiting && arg == "help" then throw (helpStop rest)
      else do parseFrom (← scanOne topGrammar before arg) rest

/-- Read a command line. -/
def parse (args : List String) : Except ArgumentStop Line := parseFrom Scan.empty args

end SynapseMem.Command
