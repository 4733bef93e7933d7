import Ram.Assembly.Basic
import Ram.CommandLine.Arguments
import Ram.Diagnostic
import Ram.Machine.Basic

/-!
# Sessions

A session is one use of the program: arguments, environment and files go in, and a `Transcript`
comes out. A run is prepared up to its first step (`prepare`) and then followed step by step
(`Job.follow`). Whoever follows it decides what becomes of the turns: a terminal prints them as they
are made, and `respond` collects them in the transcript.
-/

namespace Ram.CommandLine

/-- What surrounds a session: the readable files by path, and the environment. -/
structure Host where
  files : String → Option ByteArray
  environment : Variables

inductive Failure where
  | settings (error : Settings.Error)
  | seed (error : Registers.SeedError)
  /-- There is no such file, or it is not UTF-8. -/
  | unreadable (path : String)
  | source (error : Assembly.Error) (file : SourceFile)
  | fault (fault : Fault) (file : SourceFile)
  deriving DecidableEq, Repr

def Failure.diagnostic : Failure → Diagnostic
  | settings e => e.diagnostic
  | seed e => e.diagnostic
  | unreadable path => { message := "cannot read `" ++ path ++ "` as UTF-8 text" }
  | source e file => e.diagnostic file
  | fault f file => f.diagnostic file

inductive Outcome where
  | success
  | failure (failure : Failure)
  /-- A run without a limit that was given up. -/
  | unfinished
  deriving DecidableEq, Repr

structure Transcript where
  stdout : String
  trace : Array String := #[]
  outcome : Outcome := .success
  deriving DecidableEq, Repr

/-- The exit code of a session whose arguments were in order. -/
def Outcome.exitCode : Outcome → Nat
  | success => 0
  | _ => 1

/-- The exit code for arguments that are not in order. -/
def usageExitCode : Nat := 2

/-! ## Texts -/

def versionNumber : String := "0.1.0"

def versionText : String := "ramen " ++ versionNumber ++ "\n"

def bannerText : String :=
  "\n~ ramen v" ++ versionNumber ++ " ~\n\n" ++
  "Welcome to ramen, an assembler and interpreter for Random Access Machine programs.\n" ++
  "Please use `-h` or `--help` to access the usage instructions and instruction syntax.\n\n"

def helpText : String :=
  "Ramen is an assembler and interpreter for Random Access Machine programs\n\n" ++
  "Usage: ramen [PATH] [REGISTERS]...\n" ++
  "       ramen run [-m|--minimal] [-t|--trace] [--max-steps <N>] <PATH> [REGISTERS]...\n" ++
  "       ramen check <PATH>\n\n" ++
  "Syntax:\n" ++
  "    <label>:\n" ++
  "    STORE       <n>\n" ++
  "    INDSTORE    <n>\n" ++
  "    [C|IND]LOAD <n>\n" ++
  "    [C|IND]ADD  <n>\n" ++
  "    [C|IND]SUB  <n>\n" ++
  "    [C|IND]MUL  <n>\n" ++
  "    [C|IND]DIV  <n>\n" ++
  "    DUMP        <n>    # dump first n registers\n" ++
  "    GOTO <label>\n" ++
  "    IF [=|!=|<|>|<=|>=] <n> GOTO <label>\n" ++
  "    END\n\n" ++
  "Numbers are decimal, or prefixed by 0x, 0o or 0b. Comments start with #.\n"

/-- A verb, flush right in twelve columns, and what it is about. -/
def statusLine (verb subject : String) : String :=
  Text.padLeft 12 ' ' verb ++ " " ++ subject ++ "\n"

def haltText (acc : Int64) : String :=
  "--- END ---\nc(0) = " ++ toString acc.toInt ++ "\n"

/-! ## Checking and running -/

/-- The file at a path and its program. -/
def load (host : Host) (path : String) : Except Failure (SourceFile × Program) :=
  match (host.files path).bind String.fromUTF8? with
  | none => .error (.unreadable path)
  | some text =>
    match assemble text with
    | .ok p => .ok (⟨path, text⟩, p)
    | .error e => .error (.source e ⟨path, text⟩)

def warningLine (j : Jump) : String :=
  statusLine "Warning" ("label `" ++ j.label ++ "` is never declared")

def check (host : Host) (path : String) : Transcript :=
  let head := statusLine "Checking" ("target " ++ path)
  match load host path with
  | .error e => { stdout := head, outcome := .failure e }
  | .ok (_, p) =>
    let summary := toString p.size ++ " instructions, " ++ toString p.labels.size ++ " labels"
    { stdout := head ++ String.join (p.undefinedJumps.map warningLine) ++
        statusLine "Success" summary }

/-- A program that is ready to run, with what was printed so far. -/
structure Job where
  file : SourceFile
  program : Program
  machine : Machine
  minimal : Bool
  trace : Bool
  stdout : String

/-- Seeds the registers, loads the file and sets the machine up. -/
def prepare (host : Host) (settings : Settings) (path : String) (registers : List String)
    (options : RunOptions) : Except Transcript Job :=
  match Registers.ofArguments registers with
  | .error e => .error { stdout := "", outcome := .failure (.seed e) }
  | .ok regs =>
    let head := if options.minimal then "" else statusLine "Assembling" ("target " ++ path)
    match load host path with
    | .error e => .error { stdout := head, outcome := .failure e }
    | .ok (file, program) =>
      let head := if options.minimal then head
        else head ++ statusLine "Running" "assembled program"
      .ok {
        file, program
        machine := { regs, limit := options.maxSteps <|> settings.maxSteps }
        minimal := options.minimal
        trace := options.trace || settings.trace
        stdout := head }

/-- What one step of a run shows, and what comes after it. -/
structure Turn where
  traceLine : Option String
  stdout : String
  /-- The machine that goes on, or how the session ends. -/
  next : Except Outcome Machine

def Transcript.add (t : Transcript) (turn : Turn) : Transcript :=
  { t with
    stdout := t.stdout ++ turn.stdout
    trace := match turn.traceLine with
      | some line => t.trace.push line
      | none => t.trace }

/-- Adds the turn to what was collected so far. -/
def Turn.collect (turn : Turn) : StateM Transcript Unit := modify (·.add turn)

namespace Job

/-- What is printed behind the program's own output when it halts. -/
def closing (j : Job) (m : Machine) : String :=
  haltText m.acc ++
    if j.minimal then ""
    else statusLine "Completed" (j.file.name ++ " after " ++ toString m.steps ++ " steps")

def step (j : Job) (m : Machine) : Turn :=
  let (line, result, m, out) := m.tracedStep j.program j.trace {}
  match result with
  | .running => ⟨line, out.text, .ok m⟩
  | .halted => ⟨line, out.text ++ j.closing m, .error .success⟩
  | .failed f => ⟨line, out.text, .error (.failure (.fault f j.file))⟩

/-- Follows a run for at most `n` steps, and hands on every turn as it is made. -/
@[specialize] def follow {M : Type → Type} [Monad M] (j : Job) (tell : Turn → M Unit) :
    Nat → Machine → M Outcome
  | 0, _ => return .unfinished
  | n + 1, m => do
    let turn := j.step m
    tell turn
    match turn.next with
    | .ok m => follow j tell n m
    | .error outcome => return outcome

/-- Everything that the run shows. -/
def run (j : Job) : Transcript :=
  let (outcome, t) :=
    (j.follow Turn.collect j.machine.patience j.machine).run { stdout := j.stdout }
  { t with outcome }

end Job

/-- The whole answer to an invocation, or the run that it asks for. -/
def Invocation.start (host : Host) (settings : Settings) : Invocation → Except Transcript Job
  | .banner => .error { stdout := bannerText }
  | .help => .error { stdout := helpText }
  | .version => .error { stdout := versionText }
  | .check path => .error (CommandLine.check host path)
  | .run path registers options => prepare host settings path registers options

def Invocation.perform (host : Host) (settings : Settings) (i : Invocation) : Transcript :=
  match i.start host settings with
  | .ok job => job.run
  | .error t => t

/-- Help and version are told whatever the environment holds. -/
def Invocation.needsSettings : Invocation → Bool
  | help | version => false
  | _ => true

/-- The settings for an invocation. -/
def settingsFor (host : Host) (i : Invocation) : Except Settings.Error Settings :=
  if i.needsSettings then Settings.ofVariables host.environment else .ok {}

def respond (host : Host) (args : List String) : Except UsageError Transcript := do
  let i ← Invocation.ofArguments args
  match settingsFor host i with
  | .ok settings => return i.perform host settings
  | .error e => return { stdout := "", outcome := .failure (.settings e) }

end Ram.CommandLine
