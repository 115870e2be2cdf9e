/-!
# Command-line arguments

An option has a long name after two dashes and may have a one-letter name after one dash. One-letter
options join in one argument, and the last of them may carry its value. A long option carries its
value after an equals sign or in the next argument. Two dashes alone end the options.

A value that is attached to its option is checked at once. A value in an argument of its own, and a
plain value, is held and checked when the next option comes or the arguments end. So an option that
ends the reading, such as the one for help, takes effect only if all before it is right.

`scan` sorts the arguments of one command into option values and plain values.
-/

namespace SynapseMem.Command

/-- Why the arguments lead to no command. -/
inductive ArgumentStop where
  | usage
  | help
  | version
  deriving DecidableEq, Repr

/-- What an option does. -/
inductive OptionKind where
  /-- Stands for itself and is given at most once. -/
  | flag
  /-- Takes a value that is accepted, and is given at most once. -/
  | value (accepts : String → Bool)
  /-- Takes a value that is accepted each time it is given. -/
  | list (accepts : String → Bool)
  /-- Ends the reading of the arguments where it stands. -/
  | halt (stop : ArgumentStop)

/-- Whether an option may be given again. -/
def OptionKind.repeats : OptionKind → Bool
  | .list _ => true
  | _ => false

/-- Whether the text is right as the value of an option. -/
def OptionKind.accepts : OptionKind → String → Bool
  | .value accepts, text => accepts text
  | .list accepts, text => accepts text
  | _, _ => true

/-- An option of a command. -/
structure OptionSpec where
  name : String
  letter : Option Char
  kind : OptionKind

/-- The options and the plain values of a command. -/
structure Grammar where
  options : List OptionSpec
  /-- Which plain values are accepted, where the command takes any. They are numbers and may start
with a dash. -/
  numbers : Option (String → Bool)

/-- The arguments of a command, sorted. -/
structure Matches where
  /-- The values of options by name, in order; a flag has an empty value. -/
  options : List (String × String)
  plain : List String

/-- What was read last and is still to be checked. -/
inductive Held where
  | nothing
  /-- An option that waits for its value. -/
  | awaiting (spec : OptionSpec)
  /-- An option with the value that came after it. -/
  | valued (spec : OptionSpec) (value : String)
  /-- Plain values. -/
  | plain (values : List String)

/-- A scan in progress: what was found right, and what is held. -/
structure Scan where
  found : Matches
  held : Held

namespace Matches

/-- Nothing found. -/
def empty : Matches := ⟨[], []⟩

/-- Whether an option was given. -/
def has (m : Matches) (name : String) : Bool := m.options.any fun o => o.1 == name

/-- The value of an option. -/
def value? (m : Matches) (name : String) : Option String :=
  (m.options.find? fun o => o.1 == name).map (·.2)

/-- All values of an option. -/
def values (m : Matches) (name : String) : List String :=
  (m.options.filter fun o => o.1 == name).map (·.2)

/-- Add an option with its value. A value that is not accepted is refused, and so is an option that
does not repeat the second time. -/
def add (m : Matches) (spec : OptionSpec) (value : String) : Except ArgumentStop Matches :=
  if m.has spec.name && !spec.kind.repeats then .error .usage
  else if !spec.kind.accepts value then .error .usage
  else .ok { m with options := m.options ++ [(spec.name, value)] }

/-- Add plain values, all of which have to be accepted. -/
def addPlain (m : Matches) (numbers : Option (String → Bool)) (values : List String) :
    Except ArgumentStop Matches :=
  match numbers with
  | some accepts =>
    if values.all accepts then .ok { m with plain := m.plain ++ values } else .error .usage
  | none => .error .usage

end Matches

namespace Scan

/-- Nothing read. -/
def empty : Scan := ⟨Matches.empty, .nothing⟩

/-- Whether an option waits for its value. -/
def isAwaiting (scan : Scan) : Bool := scan.held matches .awaiting _

/-- Check what is held. An option that still waits for its value is refused. -/
def settle (scan : Scan) (grammar : Grammar) : Except ArgumentStop Matches :=
  match scan.held with
  | .nothing => .ok scan.found
  | .awaiting _ => .error .usage
  | .valued spec value => scan.found.add spec value
  | .plain values => scan.found.addPlain grammar.numbers values

end Scan

/-- Whether the text after a dash reads as a number: digits with at most one point, not first, and
at most one exponent mark after it, neither first nor last. -/
def looksNumeric (cs : List Char) : Bool :=
  let beforeMark := cs.takeWhile fun c => c != 'e' && c != 'E'
  let whole := beforeMark.takeWhile Char.isDigit
  let mantissa := match beforeMark.dropWhile Char.isDigit with
    | [] => true
    | '.' :: decimals => !whole.isEmpty && decimals.all Char.isDigit
    | _ => false
  let exponent := match cs.dropWhile fun c => c != 'e' && c != 'E' with
    | [] => true
    | _ :: power => !beforeMark.isEmpty && !power.isEmpty && power.all Char.isDigit
  mantissa && exponent

/-- Split a long option at its first equals sign. -/
def splitLong (cs : List Char) : String × Option String :=
  match cs.dropWhile (· != '=') with
  | [] => (String.ofList cs, none)
  | _ :: value => (String.ofList (cs.takeWhile (· != '=')), some (String.ofList value))

/-- The value that follows a letter in one argument, without an equals sign before it. -/
def attached (cs : List Char) : String :=
  match cs with
  | '=' :: value => String.ofList value
  | value => String.ofList value

/-- Take an option with the value that is attached to it, where there is one. -/
def scanOption (found : Matches) (spec : OptionSpec) (value : Option String) :
    Except ArgumentStop Scan :=
  match spec.kind, value with
  | .halt stop, none => throw stop
  | .flag, none => do return ⟨← found.add spec "", .nothing⟩
  | .value _, none => return ⟨found, .awaiting spec⟩
  | .list _, none => return ⟨found, .awaiting spec⟩
  | .value _, some text => do return ⟨← found.add spec text, .nothing⟩
  | .list _, some text => do return ⟨← found.add spec text, .nothing⟩
  | _, some _ => throw .usage

/-- Take a long option. -/
def scanLong (options : List OptionSpec) (found : Matches) (cs : List Char) :
    Except ArgumentStop Scan :=
  let (name, value) := splitLong cs
  match options.find? (fun s => s.name == name) with
  | some spec => scanOption found spec value
  | none => throw .usage

/-- Take the letters of a joined argument. What follows the letter of an option with a value is that
value. -/
def scanLetters (options : List OptionSpec) (found : Matches) :
    List Char → Except ArgumentStop Scan
  | [] => return ⟨found, .nothing⟩
  | c :: rest =>
    match options.find? (fun s => s.letter == some c) with
    | none => throw .usage
    | some spec =>
      match spec.kind with
      | .halt stop => throw stop
      | .flag => do scanLetters options (← found.add spec "") rest
      | _ => scanOption found spec (if rest.isEmpty then none else some (attached rest))

/-- Take a plain value. It joins the plain values right before it. -/
def scanPlain (grammar : Grammar) (scan : Scan) (arg : String) : Except ArgumentStop Scan :=
  if grammar.numbers.isNone then throw .usage
  else
    match scan.held with
    | .plain values => return ⟨scan.found, .plain (values ++ [arg])⟩
    | _ => do return ⟨← scan.settle grammar, .plain [arg]⟩

/-- Take the value of the option that waits for one, or else a plain value. -/
def scanValue (grammar : Grammar) (scan : Scan) (arg : String) : Except ArgumentStop Scan :=
  match scan.held with
  | .awaiting spec => return ⟨scan.found, .valued spec arg⟩
  | _ => scanPlain grammar scan arg

/-- Take one argument before the end of the options. -/
def scanOne (grammar : Grammar) (scan : Scan) (arg : String) : Except ArgumentStop Scan :=
  match arg.toList with
  | '-' :: '-' :: cs => do scanLong grammar.options (← scan.settle grammar) cs
  | '-' :: c :: cs =>
    if grammar.numbers.isSome && looksNumeric (c :: cs) then scanValue grammar scan arg
    else do scanLetters grammar.options (← scan.settle grammar) (c :: cs)
  | _ => scanValue grammar scan arg

/-- Sort arguments on top of what was read before them. After two dashes alone all are plain
values. -/
def scanFrom (grammar : Grammar) (scan : Scan) : List String → Except ArgumentStop Matches
  | [] => scan.settle grammar
  | "--" :: rest => do (← rest.foldlM (scanPlain grammar) scan).settle grammar
  | arg :: rest => do scanFrom grammar (← scanOne grammar scan arg) rest

/-- Sort the arguments of a command. -/
def scan (grammar : Grammar) (args : List String) : Except ArgumentStop Matches :=
  scanFrom grammar Scan.empty args

end SynapseMem.Command
