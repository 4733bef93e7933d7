import Ram.Numeral
import Ram.Source.Span

/-!
# Errors in a source text

An `Assembly.Error` is a `Cause` at a `Site`. The first one ends assembly.
-/

namespace Ram.Assembly

open Ram.Source

/-- The families of statements, for telling what was expected. -/
inductive Shape where
  | operand | goto | branch | halt
  deriving DecidableEq, Repr

def Shape.form : Shape → String
  | operand => "INSTRUCTION <n>"
  | goto => "GOTO <label>"
  | branch => "IF [=|!=|<|>|<=|>=] <n> GOTO <label>"
  | halt => "END"

inductive Cause where
  | literal (error : Literal.Error)
  /-- The fields are too few, too many or badly arranged. -/
  | shape (expected : Shape)
  | unknownInstruction (name : String)
  | unknownComparison (symbol : String)
  | negativeOperand (mnemonic : String) (value : Int64)
  /-- An index beyond the greatest register. No 64-bit literal is. -/
  | operandTooLarge (mnemonic : String) (value : Int64)
  deriving DecidableEq, Repr

def Cause.message : Cause → String
  | literal error => error.message
  | shape expected => expected.form
  | unknownInstruction name => "unknown instruction `" ++ name ++ "`"
  | unknownComparison symbol => "unknown comparison `" ++ symbol ++ "`"
  | negativeOperand mnemonic value =>
    "`" ++ mnemonic ++ "` cannot take negative operand " ++ toString value.toInt
  | operandTooLarge mnemonic value =>
    "operand " ++ toString value.toInt ++ " of `" ++ mnemonic ++ "` is too large"

structure Error where
  site : Site
  cause : Cause
  deriving DecidableEq, Repr

def Error.message (e : Error) : String :=
  "syntax error (line " ++ toString e.site.line ++ "): " ++ e.cause.message

end Ram.Assembly
