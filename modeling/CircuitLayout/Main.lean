import CircuitLayout.CommandLine
import CircuitLayout.Json.Printer

/-!
# The program

Reads the environment and the file with the settings, runs the tool, and prints what it leaves.
-/

open CircuitLayout CommandLine

/-- What an open file holds; what opens and cannot be read is a folder. Bytes that are no text are
no document, so the empty text, which is none either, stands for them. -/
def readOpen (handle : IO.FS.Handle) : IO FileContent := do
  try
    let bytes ← handle.readBinToEnd
    return .text ((String.fromUTF8? bytes).getD "")
  catch _ => return .folder

/-- What stands at a path. -/
def readContent (path : String) : IO FileContent := do
  try readOpen (← IO.FS.Handle.mk path .read)
  catch _ => return .missing

/-- Writes a text to a file; was it possible? -/
def writeText (path text : String) : IO Bool := do
  try
    IO.FS.writeFile path text
    return true
  catch _ => return false

/-- What the tool sees: the variables that it asks for, and the file with the settings. -/
def lookAround (options : Options) : IO Surroundings := do
  let names := traceVariable :: Settings.parallelVariable :: Settings.threadVariables
  let values ← names.mapM fun name => do
    let value ← IO.getEnv name
    return (name, value)
  let content ←
    if options.settingsPath = "" then pure .missing else readContent options.settingsPath
  return {
    environment := fun name => (values.lookup name).join
    readFile := fun path => if path = options.settingsPath then content else .missing
    canWrite := fun _ => true }

/-- Prints the lines and the document of a report; the trace only where it is asked for. -/
def printReport (surroundings : Surroundings) (report : Report) : IO Unit := do
  if showsTrace surroundings then
    for line in report.trace do
      IO.println line
  for line in report.errors do
    IO.eprintln line
  match report.output with
  | some document => IO.println (document.indented 0)
  | none => pure ()

/-- Runs the tool on the arguments of the command line. -/
def main (arguments : List String) : IO UInt32 := do
  let options := match parse .default arguments with
    | .run options => options
    | _ => .default
  let surroundings ← lookAround options
  let report := run arguments surroundings
  let report ← match report.file with
    | none => pure report
    | some (path, document) => do
      if ← writeText path (document.indented 0 ++ "\n") then pure report
      else pure (run arguments { surroundings with canWrite := fun _ => false })
  printReport surroundings report
  return report.exitCode.toUInt32
