import Ram.Numeral

/-!
# Command line arguments

`Invocation.ofArguments` reads the words behind the program's name. The first word may name a
command; without one the words are a path and register values. Words are taken from left to
right, and the first one that is out of place, or that asks for help or for the version, decides.
-/

namespace Ram.CommandLine

structure RunOptions where
  /-- Print nothing but what the program prints and the final accumulator. -/
  minimal : Bool := false
  trace : Bool := false
  maxSteps : Option Nat := none
  deriving DecidableEq, Repr

inductive Invocation where
  | banner
  | help
  | version
  | run (path : String) (registers : List String) (options : RunOptions)
  | check (path : String)
  deriving DecidableEq, Repr

inductive UsageError where
  | unknownOption (word : String)
  | repeatedOption (name : String)
  /-- A flag that was given a value. -/
  | unexpectedValue (name : String)
  | missingValue (name : String)
  | invalidValue (name value : String)
  | unexpectedArgument (word : String)
  | unknownCommand (word : String)
  | emptyPath
  | missingPath
  deriving DecidableEq, Repr

def UsageError.message : UsageError → String
  | unknownOption word => "unexpected argument '" ++ word ++ "' found"
  | repeatedOption name => "the argument '--" ++ name ++ "' cannot be used multiple times"
  | unexpectedValue name => "unexpected value for '--" ++ name ++ "'"
  | missingValue name => "a value is required for '--" ++ name ++ "'"
  | invalidValue name value => "invalid value '" ++ value ++ "' for '--" ++ name ++ "'"
  | unexpectedArgument word => "unexpected argument '" ++ word ++ "' found"
  | unknownCommand word => "unrecognized subcommand '" ++ word ++ "'"
  | emptyPath => "a value is required for the path"
  | missingPath => "the path was not provided"

/-! ## Words -/

inductive Word where
  /-- Two hyphens: the words behind them are values. -/
  | escape
  | long (name : String) (value : Option String)
  | short (letters : List Char)
  | plain
  deriving DecidableEq, Repr

def Word.ofChars : List Char → Word
  | ['-'] => .plain
  | ['-', '-'] => .escape
  | '-' :: '-' :: cs =>
    match cs.dropWhile (· ≠ '=') with
    | [] => .long (String.ofList cs) none
    | _ :: value => .long (String.ofList (cs.takeWhile (· ≠ '='))) (some (String.ofList value))
  | '-' :: cs => .short cs
  | _ => .plain

def isExponent (cs : List Char) : Bool := !cs.isEmpty && cs.all Char.isDigit

def isExponentMark (c : Char) : Bool := c == 'e' || c == 'E'

def isFraction : List Char → Bool
  | [] => true
  | c :: cs => if c.isDigit then isFraction cs else isExponentMark c && isExponent cs

def isMantissa : List Char → Bool
  | [] => true
  | c :: cs =>
    if c.isDigit then isMantissa cs
    else if c = '.' then isFraction cs
    else isExponentMark c && isExponent cs

/-- A decimal number without a sign: digits, then perhaps a point with or without digits behind
it, then perhaps an exponent. -/
def isDecimal : List Char → Bool
  | [] => false
  | c :: cs => c.isDigit && isMantissa cs

/-! ## Commands and their flags -/

inductive Command where
  /-- A path and register values, without a command word. -/
  | direct
  | run
  | check
  deriving DecidableEq, Repr

inductive Flag where
  | help | version | minimal | trace
  deriving DecidableEq, Repr

namespace Flag

def name : Flag → String
  | help => "help"
  | version => "version"
  | minimal => "minimal"
  | trace => "trace"

def letter : Flag → Char
  | help => 'h'
  | version => 'V'
  | minimal => 'm'
  | trace => 't'

end Flag

def Command.flags : Command → List Flag
  | direct => [.help, .version]
  | run => [.minimal, .trace, .help]
  | check => [.help]

/-- The name of the option that takes a number of steps. -/
def maxStepsOption : String := "max-steps"

/-! ## Reading the words -/

/-- What has been read so far. -/
structure Scan where
  command : Command
  operands : List String := []
  options : RunOptions := {}
  deriving DecidableEq, Repr

/-- Why reading stops before the last word. -/
inductive Stop where
  | usage (error : UsageError)
  | answer (invocation : Invocation)
  deriving DecidableEq, Repr

namespace Scan

/-- The first operand is the path; the others are register values, if the command takes any. -/
def operand (s : Scan) (word : String) : Except Stop Scan :=
  if s.operands.isEmpty then
    if word.isEmpty then .error (.usage .emptyPath)
    else .ok { s with operands := [word] }
  else if s.command = .check then .error (.usage (.unexpectedArgument word))
  else .ok { s with operands := s.operands ++ [word] }

def flag (s : Scan) : Flag → Except Stop Scan
  | .help => .error (.answer .help)
  | .version => .error (.answer .version)
  | .minimal =>
    if s.options.minimal then .error (.usage (.repeatedOption Flag.minimal.name))
    else .ok { s with options := { s.options with minimal := true } }
  | .trace =>
    if s.options.trace then .error (.usage (.repeatedOption Flag.trace.name))
    else .ok { s with options := { s.options with trace := true } }

def letter (s : Scan) (c : Char) : Except Stop Scan :=
  match s.command.flags.find? (·.letter == c) with
  | some f => s.flag f
  | none => .error (.usage (.unknownOption (String.ofList ['-', c])))

def named (s : Scan) (name : String) (value : Option String) : Except Stop Scan :=
  match s.command.flags.find? (·.name == name), value with
  | some f, none => s.flag f
  | some f, some _ => .error (.usage (.unexpectedValue f.name))
  | none, _ => .error (.usage (.unknownOption ("--" ++ name)))

def maxSteps (s : Scan) (value : String) : Except Stop Scan :=
  match s.options.maxSteps, Numeral.read .unsigned64 10 value.toList with
  | none, .ok n => .ok { s with options := { s.options with maxSteps := some n.toNat } }
  | none, .error _ => .error (.usage (.invalidValue maxStepsOption value))
  | some _, _ => .error (.usage (.repeatedOption maxStepsOption))

/-- A negative number is a value where register values are expected. -/
def takesNegatives (s : Scan) : Bool :=
  !s.operands.isEmpty && decide (s.command ≠ .check)

/-- Reads the words to the end. -/
def words (s : Scan) : List String → Except Stop Scan
  | [] => .ok s
  | w :: ws =>
    match Word.ofChars w.toList with
    | .escape => ws.foldlM operand s
    | .plain => do (← s.operand w).words ws
    | .short cs =>
      if s.takesNegatives && isDecimal cs then do (← s.operand w).words ws
      else do (← cs.foldlM letter s).words ws
    | .long name value =>
      if s.command = .run ∧ name = maxStepsOption then
        match value with
        | some v => do (← s.maxSteps v).words ws
        | none =>
          match ws with
          | [] => .error (.usage (.missingValue maxStepsOption))
          | v :: ws =>
            if Word.ofChars v.toList = .plain then do (← s.maxSteps v).words ws
            else .error (.usage (.missingValue maxStepsOption))
      else do (← s.named name value).words ws

def invocation (s : Scan) : Except Stop Invocation :=
  match s.command, s.operands with
  | .direct, [] => .ok .banner
  | .direct, path :: registers => .ok (.run path registers {})
  | .run, path :: registers => .ok (.run path registers s.options)
  | .check, path :: _ => .ok (.check path)
  | _, [] => .error (.usage .missingPath)

end Scan

/-- The words behind the command `help` name at most one command. -/
def helpOn : List String → Except Stop Invocation
  | [] => .ok .help
  | word :: words =>
    if word = "run" ∨ word = "check" ∨ word = "help" then
      match words with
      | [] => .ok .help
      | extra :: _ => .error (.usage (.unknownCommand extra))
    else .error (.usage (.unknownCommand word))

def scan (command : Command) (words : List String) : Except Stop Invocation := do
  let s : Scan := { command }
  (← s.words words).invocation

def Invocation.ofArguments (args : List String) : Except UsageError Invocation :=
  let read := match args with
    | "run" :: words => scan .run words
    | "check" :: words => scan .check words
    | "help" :: words => helpOn words
    | words => scan .direct words
  match read with
  | .ok i => .ok i
  | .error (.answer i) => .ok i
  | .error (.usage e) => .error e

end Ram.CommandLine
