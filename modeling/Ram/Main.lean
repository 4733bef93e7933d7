import Ram.CommandLine.Session

/-!
# The program

Reads the arguments, the environment and the source file, and drives the machine step by step,
so that output and trace appear as the program runs.
-/

namespace Ram.CommandLine

def readFile? (path : String) : IO (Option ByteArray) := do
  try
    return some (← IO.FS.readBinFile path)
  catch _ =>
    return none

def readVariables : IO Variables := do
  let trace ← IO.getEnv Settings.traceVariable
  let maxSteps ← IO.getEnv Settings.maxStepsVariable
  return { trace := trace.map String.toUTF8, maxSteps := maxSteps.map String.toUTF8 }

def report (d : Diagnostic) : IO Unit := do
  let stderr ← IO.getStderr
  if let some code := d.code then
    stderr.putStrLn (code ++ "\n")
  stderr.putStrLn ("  × " ++ d.message)
  if let some file := d.source then
    for marker in d.markers do
      stderr.putStrLn ("   [" ++ file.name ++ ", byte " ++ toString marker.span.offset ++ "] " ++
        marker.text)
  if let some help := d.help then
    stderr.putStrLn ("  help: " ++ help)

def exitWith (outcome : Outcome) : IO UInt32 := do
  if let .failure f := outcome then
    report f.diagnostic
  return outcome.exitCode.toUInt32

/-- Follows a prepared run and prints every turn. -/
def drive (j : Job) : IO Outcome :=
  j.follow print j.machine.patience j.machine
where
  print (turn : Turn) : IO Unit := do
    if let some line := turn.traceLine then
      (← IO.getStderr).putStrLn line
    IO.print turn.stdout

def runSession (i : Invocation) : IO UInt32 := do
  let environment ← readVariables
  let content ← match i with
    | .run path _ _ | .check path => readFile? path
    | _ => pure none
  let host : Host := { files := fun _ => content, environment }
  match settingsFor host i with
  | .error e => exitWith (.failure (.settings e))
  | .ok settings =>
    match i.start host settings with
    | .ok job =>
      IO.print job.stdout
      exitWith (← drive job)
    | .error t =>
      IO.print t.stdout
      exitWith t.outcome

end Ram.CommandLine

open Ram.CommandLine in
def main (args : List String) : IO UInt32 := do
  match Invocation.ofArguments args with
  | .ok i => runSession i
  | .error e =>
    IO.eprintln ("error: " ++ e.message)
    return usageExitCode.toUInt32
