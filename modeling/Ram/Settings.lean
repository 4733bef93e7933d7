import Ram.Numeral
import Ram.Text

/-!
# Settings from the environment

Two environment variables turn tracing on and limit the steps of a run. `Settings.ofVariables`
reads them; a `Configuration` holds the settings that were read last.
-/

namespace Ram

/-- The values of the two variables, as bytes; none for one that is unset. -/
structure Variables where
  trace : Option ByteArray := none
  maxSteps : Option ByteArray := none

structure Settings where
  trace : Bool := false
  maxSteps : Option Nat := none
  deriving DecidableEq, Repr

namespace Settings

def traceVariable : String := "RAMEN_TRACE"

def maxStepsVariable : String := "RAMEN_MAX_STEPS"

/-- The step limit is not a number. -/
structure Error where
  value : String
  fault : Numeral.Fault
  deriving DecidableEq, Repr

def Error.message (e : Error) : String :=
  "Invalid value `" ++ e.value ++ "` for " ++ maxStepsVariable ++ ": " ++ e.fault.message

/-- The text of a variable. One that is not UTF-8 counts as unset. -/
def text? (bytes : Option ByteArray) : Option String := bytes.bind String.fromUTF8?

/-- The step limit that a text asks for; 0 asks for none. -/
def readMaxSteps (value : String) : Except Error (Option Nat) :=
  match Numeral.read .unsigned64 10 (Text.trim value.toList) with
  | .ok n => .ok (if n = 0 then none else some n.toNat)
  | .error fault => .error ⟨value, fault⟩

def ofVariables (vars : Variables) : Except Error Settings := do
  let maxSteps ← match text? vars.maxSteps with
    | some value => readMaxSteps value
    | none => .ok none
  return ⟨text? vars.trace == some "1", maxSteps⟩

end Settings

/-- The settings in force, none before they are first read. -/
structure Configuration where
  current : Option Settings := none
  deriving DecidableEq, Repr

namespace Configuration

inductive InitResult where
  | ok
  /-- The variables are not well formed, and nothing changed. -/
  | rejected (error : Settings.Error)
  /-- There were settings before. The new ones are in force all the same. -/
  | repeated
  deriving DecidableEq, Repr

def init (c : Configuration) (vars : Variables) : InitResult × Configuration :=
  match Settings.ofVariables vars with
  | .error e => (.rejected e, c)
  | .ok s => (if c.current.isSome then .repeated else .ok, ⟨some s⟩)

def repeatedMessage : String := "environment configuration was initialized twice"

def unreadMessage : String := "environment configuration read before `env::init`"

/-- The settings in force. To read them too early is a mistake of the program, and it panics with
the message. -/
def read (c : Configuration) : Except String Settings :=
  match c.current with
  | some s => .ok s
  | none => .error unreadMessage

end Configuration

end Ram
