import Ram.Assembly.Error
import Ram.Program
import Ram.Source.Line

/-!
# Assembly

`assemble` turns a source text into a program in one pass over its lines. A line's label is bound
to the next statement, and the fields behind it spell at most one instruction (`instruction?`).
The first line that is not well formed decides the error.
-/

namespace Ram

namespace Assembly

open Ram.Source

def number (line : Nat) (f : Field) : Except Error Int64 :=
  match Literal.parse f.chars with
  | .ok value => .ok value
  | .error e => .error ⟨⟨line, f.span⟩, .literal e⟩

/-- A number that counts registers or names one. -/
def index (line : Nat) (mnemonic : String) (f : Field) : Except Error Nat := do
  let value ← number line f
  if value < 0 then .error ⟨⟨line, f.span⟩, .negativeOperand mnemonic value⟩
  else .ok value.toInt.toNat

/-- The instruction of a mnemonic and its operand. -/
def ofMnemonic (line : Nat) (m : Mnemonic) (f : Field) : Except Error Instruction :=
  match m with
  | .const op => do return .compute op (.const (← number line f))
  | .cell op mode => do return .compute op (.cell ⟨mode, ← index line m.name f⟩)
  | .store mode => do return .store ⟨mode, ← index line m.name f⟩
  | .dump => do return .dump (← index line m.name f)

def jump (f : Field) : Jump := ⟨f.text, f.span⟩

/-- The conditional jump with these fields behind its `IF`. The number is read before the
comparison is looked at. -/
def branch (site : Site) : List Field → Except Error Instruction
  | [symbol, value, word, target] =>
    if word.text = "GOTO" then do
      let value ← number site.line value
      match Comparison.ofSymbol? symbol.text with
      | some cmp => return .branch cmp value (jump target)
      | none => .error ⟨⟨site.line, symbol.span⟩, .unknownComparison symbol.text⟩
    else .error ⟨site, .shape .branch⟩
  | _ => .error ⟨site, .shape .branch⟩

/-- The instruction with this first field and these arguments. -/
def instruction (site : Site) (head : Field) (args : List Field) : Except Error Instruction :=
  if head.text = "IF" then branch site args
  else if head.text = "GOTO" then
    match args with
    | [target] => .ok (.goto (jump target))
    | _ => .error ⟨site, .shape .goto⟩
  else if head.text = "END" then
    match args with
    | [] => .ok .halt
    | _ => .error ⟨site, .shape .halt⟩
  else
    match Mnemonic.ofName? head.text with
    | none => .error ⟨⟨site.line, head.span⟩, .unknownInstruction head.text⟩
    | some m =>
      match args with
      | [operand] => ofMnemonic site.line m operand
      | _ => .error ⟨site, .shape .operand⟩

/-- The instruction of a line, if it has more than a label. -/
def instruction? (line : Line) : Except Error (Option Instruction) :=
  match line.fields with
  | [] => .ok none
  | head :: args => do return some (← instruction line.site head args)

/-- The program with the label of a line declared. -/
def declareLabel (p : Program) (line : Line) : Program :=
  match line.label with
  | some label => p.declare label.text
  | none => p

def addLine (p : Program) (line : Line) : Except Error Program := do
  let p := declareLabel p line
  match ← instruction? line with
  | some i => return p.push ⟨i, line.site⟩
  | none => return p

theorem addLine_of_error {line : Line} {e : Error} (h : instruction? line = .error e)
    (p : Program) : addLine p line = .error e := by
  simp only [addLine, h]; rfl

theorem addLine_of_none {line : Line} (h : instruction? line = .ok none) (p : Program) :
    addLine p line = .ok (declareLabel p line) := by
  simp only [addLine, h]; rfl

theorem addLine_of_some {line : Line} {i : Instruction} (h : instruction? line = .ok (some i))
    (p : Program) : addLine p line = .ok ((declareLabel p line).push ⟨i, line.site⟩) := by
  simp only [addLine, h]; rfl

end Assembly

/-- The program of a source text, or the error of its first ill-formed line. -/
def assemble (src : String) : Except Assembly.Error Program :=
  (Source.lines src).foldlM Assembly.addLine {}

end Ram
