import Ram.Assembly.Error
import Ram.Machine.Fault
import Ram.Registers
import Ram.Settings

/-!
# Diagnostics

A diagnostic is what the user is told about an error: its message, a code that names the kind of
error, a hint, and, if the error lies in a source text, that text with the spans to mark in it.
-/

namespace Ram

open Ram.Source

structure SourceFile where
  name : String
  text : String
  deriving DecidableEq, Repr

/-- A span of the source and what to say about it. -/
structure Marker where
  span : Span
  text : String
  deriving DecidableEq, Repr

structure Diagnostic where
  message : String
  code : Option String := none
  help : Option String := none
  markers : List Marker := []
  source : Option SourceFile := none
  deriving DecidableEq, Repr

/-- The greatest register index, for hints. -/
def greatestIndex : Nat := 0xFFFFFFFFFFFFFFFF

namespace Assembly

def Cause.code : Cause → String
  | literal _ => "asm::bad_lit"
  | shape _ => "asm::shape"
  | unknownInstruction _ => "asm::unknown_instr"
  | unknownComparison _ => "asm::unknown_cmp"
  | negativeOperand _ _ => "asm::negative"
  | operandTooLarge _ _ => "asm::too_large"

def Cause.help : Cause → String
  | literal _ => "number literals are decimal, or prefixed by 0x, 0o or 0b"
  | shape expected => "expected a statement of the form `" ++ expected.form ++ "`"
  | unknownInstruction _ => "check the list of instructions with `ramen --help`"
  | unknownComparison _ => "comparisons are one of =, !=, <, >, <= or >="
  | negativeOperand _ _ => "register indices and dump counts start at 0"
  | operandTooLarge _ _ =>
    "register indices and dump counts end at " ++ toString greatestIndex

def Cause.marker : Cause → String
  | literal _ => "invalid literal"
  | shape _ => "malformed statement"
  | unknownInstruction _ => "unknown instruction"
  | unknownComparison _ => "unknown comparison"
  | negativeOperand _ _ => "negative operand"
  | operandTooLarge _ _ => "operand out of range"

def Error.diagnostic (e : Error) (file : SourceFile) : Diagnostic where
  message := e.message
  code := some e.cause.code
  help := some e.cause.help
  markers := [⟨e.site.span, e.cause.marker⟩]
  source := some file

end Assembly

namespace Fault

def code : Fault → String
  | unresolvedLabel _ _ => "run::unresolved_label"
  | divisionByZero _ => "run::div_zero"
  | negativeRegister _ _ => "run::negative_register"
  | registerTooLarge _ _ => "run::register_too_large"
  | missingEnd _ => "run::missing_end"
  | stepLimit _ _ => "run::step_limit"
  | output _ => "run::output"

def help : Fault → Option String
  | unresolvedLabel _ _ => some "declare the label with `<label>:` somewhere in the file"
  | divisionByZero _ => some "guard the division with an `IF` on the divisor"
  | negativeRegister _ _ => some "indirect operands must hold a register index of at least 0"
  | registerTooLarge _ _ => some ("register indices end at " ++ toString greatestIndex)
  | missingEnd _ => some "terminate the program with `END`"
  | stepLimit _ _ => some "raise the limit with `--max-steps` or RAMEN_MAX_STEPS"
  | output _ => none

/-- The mark in the source. A missing `END`, a step limit and a failed write have no place. -/
def marker? : Fault → Option Marker
  | unresolvedLabel _ site => some ⟨site.span, "undefined label"⟩
  | divisionByZero site => some ⟨site.span, "divisor is zero"⟩
  | negativeRegister _ site => some ⟨site.span, "negative register index"⟩
  | registerTooLarge _ site => some ⟨site.span, "register index out of range"⟩
  | missingEnd _ | stepLimit _ _ | output _ => none

def diagnostic (f : Fault) (file : SourceFile) : Diagnostic where
  message := f.message
  code := some f.code
  help := f.help
  markers := f.marker?.toList
  source := if f.marker?.isSome then some file else none

end Fault

def Registers.SeedError.diagnostic (e : Registers.SeedError) : Diagnostic where
  message := e.message
  code := some "args::bad_lit"
  help := some ("register c(" ++ toString e.register ++
    ") expects a decimal, 0x, 0o or 0b number")

def Settings.Error.diagnostic (e : Settings.Error) : Diagnostic where
  message := e.message
  code := some "env::max_steps"
  help := some "set it to a positive integer, or 0 for no limit"

end Ram
