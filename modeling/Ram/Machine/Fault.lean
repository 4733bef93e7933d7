import Ram.Source.Span

/-!
# Faults of a running program

The ways in which a step can fail. A fault that a statement causes carries the site of the
statement, or, for a jump, that of its label operand.
-/

namespace Ram

open Ram.Source

inductive Fault where
  /-- A jump was taken to a label that nothing declares; the span is that of the operand. -/
  | unresolvedLabel (label : String) (site : Site)
  | divisionByZero (site : Site)
  /-- An indirect address went through a register that holds a negative number. -/
  | negativeRegister (index : Int64) (site : Site)
  /-- An indirect address beyond the greatest register. No 64-bit word is. -/
  | registerTooLarge (index : Int64) (site : Site)
  /-- The program counter is behind the last statement. -/
  | missingEnd (acc : Int64)
  | stepLimit (limit pc : Nat)
  /-- A dump could not be written. -/
  | output (cause : String)
  deriving DecidableEq, Repr

def Fault.message : Fault → String
  | unresolvedLabel label site =>
    "`" ++ label ++ "` is not an existing label (line " ++ toString site.line ++ ")"
  | divisionByZero site => "division by zero (line " ++ toString site.line ++ ")"
  | negativeRegister index site =>
    "register index " ++ toString index.toInt ++ " is negative (line " ++
      toString site.line ++ ")"
  | registerTooLarge index site =>
    "register index " ++ toString index.toInt ++ " is too large (line " ++
      toString site.line ++ ")"
  | missingEnd acc => "no END! c(0) = " ++ toString acc.toInt
  | stepLimit limit pc =>
    "step limit of " ++ toString limit ++ " reached at PC " ++ toString pc
  | output cause => "failed to write output: " ++ cause

end Ram
