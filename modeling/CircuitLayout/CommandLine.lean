import CircuitLayout.RunningSum
import CircuitLayout.Prover.Verify
import CircuitLayout.Json.Reader

namespace CircuitLayout

/-!
# The command line

The tool lays the running-sum circuit out and reports the layout as a document. What it does is a
function of its arguments, the environment and the files; only the reading and writing itself is
left to the caller.
-/

namespace CommandLine

/-- The name of the tool. -/
def toolName : String := "layout_report"

/-- What the tool is asked to do. -/
structure Options where
  logRows : Nat
  regions : Nat
  serial : Bool
  /-- The file with the settings; empty for none. -/
  settingsPath : String
  /-- The file for the report; empty for none. -/
  outputPath : String
  deriving DecidableEq, Repr

/-- The options of one who gives none. -/
def Options.default : Options := ⟨8, 16, false, "", ""⟩

/-- How the reading of arguments ends. -/
inductive Parsed where
  | run (options : Options)
  | help
  | badNumber (option value : String)
  | unknownArgument (argument : String)
  deriving DecidableEq, Repr

/-- Reads the arguments. An option that takes a value is unknown without one. -/
def parse (options : Options) : List String → Parsed
  | [] => .run options
  | argument :: rest =>
    match argument, rest with
    | "--k", value :: rest =>
      match Numeral.unsigned? value with
      | some k => parse { options with logRows := k } rest
      | none => .badNumber argument value
    | "--regions", value :: rest =>
      match Numeral.unsigned? value with
      | some regions => parse { options with regions := regions } rest
      | none => .badNumber argument value
    | "--config", path :: rest => parse { options with settingsPath := path } rest
    | "--output", path :: rest => parse { options with outputPath := path } rest
    | "--serial", rest => parse { options with serial := true } rest
    | "--help", _ | "-h", _ => .help
    | _, _ => .unknownArgument argument

/-- How the tool is used. -/
def usage : List String := [
  "Usage:",
  s!"  {toolName} [--k N] [--regions N] [--serial] [--config FILE] [--output FILE]",
  "    --k        log2 of the grid height (default 8)",
  "    --regions  number of step regions laid out as one batch (default 16)",
  "    --serial   materialize batches without forking",
  "    --config   JSON layout configuration",
  "    --output   write the layout JSON here instead of stdout"]

/-- What the tool sees of the world. -/
structure Surroundings where
  environment : Settings.Environment
  readFile : String → FileContent
  /-- Can a file be written? -/
  canWrite : String → Bool

/-- The variable that asks for the trace. -/
def traceVariable : String := "PLONKISH_DEBUG"

/-- Is the trace asked for? -/
def showsTrace (s : Surroundings) : Bool :=
  match s.environment traceVariable with
  | some text => text = "1" || text = "true"
  | none => false

/-- What the tool leaves. -/
structure Report where
  exitCode : Nat
  /-- The document on the standard output. -/
  output : Option Json
  /-- The lines on the standard error output. -/
  errors : List String
  /-- The document for a file. -/
  file : Option (String × Json)
  /-- The lines of the trace. -/
  trace : List String

/-- A report of nothing but an exit code and lines. -/
def Report.ofErrors (exitCode : Nat) (errors : List String) : Report :=
  ⟨exitCode, none, errors, none, []⟩

end CommandLine

namespace Settings

/-- Reads settings from a file. -/
def load (readFile : String → FileContent) (path : String) : Except SettingsFault Settings :=
  match readFile path with
  | .missing => .error (.unreadable path)
  | .folder => .error .folder
  | .text text =>
    match Json.parse? text with
    | none => .error .malformed
    | some document => ofJson document

end Settings

namespace CommandLine

/-- The line that the tool leaves for a message. -/
def errorLine (message : String) : String := s!"[{toolName}] {message}"

/-- The lines that the tool leaves for a fault; for a grid that is too low, with a hint. -/
def faultLines (fault : Fault) : List String :=
  errorLine fault.message ::
    match fault.shortGrid? with
    | some k => [s!"  try --k {k + 1}"]
    | none => []

/-- What a layout shows: the copies that do not hold, and the document. -/
structure Finding where
  mismatches : List Mismatch
  document : Json
  regions : Nat

/-- Lays the circuit out and checks it. -/
def examine (options : Options) (settings : Settings) : Run Unit Finding := do
  let circuit ← Run.ofExcept (RunningSum.circuit options.regions)
  let desk ← circuit.prove options.logRows [[RunningSum.result options.regions]] settings
  let prover := desk.target
  let mismatches ← Run.ofExcept prover.verify
  let document ← Run.ofExcept prover.layout
  let document := document.extend
    [("config", settings.toJson), ("verified", .bool mismatches.isEmpty)]
  return ⟨mismatches, document, prover.records.size⟩

/-- The report on a layout that was made. -/
def Finding.report (finding : Finding) (options : Options) (surroundings : Surroundings)
    (trace : List String) : Report :=
  let errors := finding.mismatches.map fun m => errorLine m.text
  let exitCode := if finding.mismatches.isEmpty then 0 else 2
  if options.outputPath = "" then ⟨exitCode, some finding.document, errors, none, trace⟩
  else if surroundings.canWrite options.outputPath then
    ⟨exitCode, none,
      errors ++ [s!"Layout of {finding.regions} regions written to {options.outputPath}"],
      some (options.outputPath, finding.document), trace⟩
  else ⟨1, none, errors ++ [s!"Could not open output: {options.outputPath}"], none, trace⟩

/-- Carries out what the options ask for, with settings. -/
def runWith (options : Options) (settings : Settings) (surroundings : Surroundings) : Report :=
  let outcome := examine options settings ()
  let trace := outcome.events.flatMap (·.traceLines)
  let log := outcome.events.flatMap (·.logLines)
  match outcome.result with
  | .ok finding =>
    let report := finding.report options surroundings trace
    { report with errors := log ++ report.errors }
  | .error fault => ⟨1, none, log ++ faultLines fault, none, trace⟩

/-- The settings that the options ask for. -/
def settingsOf (options : Options) (surroundings : Surroundings) :
    Except SettingsFault Settings := do
  let settings ←
    if options.settingsPath = "" then pure (Settings.ofEnvironment surroundings.environment)
    else Settings.load surroundings.readFile options.settingsPath
  return if options.serial then { settings with parallel := false } else settings

/-- Carries out what the options ask for. -/
def runOptions (options : Options) (surroundings : Surroundings) : Report :=
  if options.logRows < 1 ∨ maxLogRows < options.logRows then
    .ofErrors 1 (s!"--k must be between 1 and {maxLogRows}, got {options.logRows}" :: usage)
  else
    match settingsOf options surroundings with
    | .error fault => .ofErrors 1 (fault.notices ++ [errorLine fault.message])
    | .ok settings => runWith options settings surroundings

/-- Carries out what the arguments ask for. -/
def carryOut (arguments : List String) (surroundings : Surroundings) : Report :=
  match parse .default arguments with
  | .run options => runOptions options surroundings
  | .help => .ofErrors 0 usage
  | .badNumber option value => .ofErrors 1 [s!"Invalid value for {option}: {value}"]
  | .unknownArgument argument => .ofErrors 1 (s!"Unknown argument: {argument}" :: usage)

/-- Runs the tool. A text that holds line breaks makes several lines on the error output. -/
def run (arguments : List String) (surroundings : Surroundings) : Report :=
  let report := carryOut arguments surroundings
  { report with errors := report.errors.flatMap Text.lines }

end CommandLine

end CircuitLayout
