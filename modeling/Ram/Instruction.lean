import Ram.Source.Span

/-!
# Instructions

The accumulator is register 0. An `Address` names a register directly, or through the register
that holds its index, and a `Comparison` holds the accumulator against a constant. `Mnemonic` lists
the eighteen names that take one numeric operand, and `Instruction.text` is the written form of an
instruction. Names and symbols are read from tables of their own (`Mnemonic.ofName?`,
`Comparison.ofSymbol?`), which have exactly what is written.
-/

namespace Ram

open Ram.Source

/-! ## Comparisons -/

inductive Comparison where
  | eq | ne | lt | gt | le | ge
  deriving DecidableEq, Repr

namespace Comparison

def symbol : Comparison → String
  | eq => "="
  | ne => "!="
  | lt => "<"
  | gt => ">"
  | le => "<="
  | ge => ">="

def ofSymbol? : String → Option Comparison
  | "=" => some eq
  | "!=" => some ne
  | "<" => some lt
  | ">" => some gt
  | "<=" => some le
  | ">=" => some ge
  | _ => none

def holds : Comparison → Int64 → Int64 → Bool
  | eq, a, b => a == b
  | ne, a, b => a != b
  | lt, a, b => decide (a < b)
  | gt, a, b => decide (b < a)
  | le, a, b => decide (a ≤ b)
  | ge, a, b => decide (b ≤ a)

theorem ofSymbol?_symbol (c : Comparison) : ofSymbol? c.symbol = some c := by
  cases c <;> rfl

theorem symbol_of_ofSymbol? {s : String} {c : Comparison} (h : ofSymbol? s = some c) :
    c.symbol = s := by
  unfold ofSymbol? at h
  split at h <;> cases h <;> rfl

end Comparison

/-! ## Operations and operands -/

/-- What happens to the accumulator. -/
inductive Operation where
  | load | add | sub | mul | div
  deriving DecidableEq, Repr

def Operation.name : Operation → String
  | load => "LOAD"
  | add => "ADD"
  | sub => "SUB"
  | mul => "MUL"
  | div => "DIV"

inductive Addressing where
  | direct | indirect
  deriving DecidableEq, Repr

def Addressing.mark : Addressing → String
  | direct => ""
  | indirect => "IND"

structure Address where
  mode : Addressing
  index : Nat
  deriving DecidableEq, Repr

/-- The second operand of an accumulator operation. -/
inductive Operand where
  | const (value : Int64)
  | cell (address : Address)
  deriving DecidableEq, Repr

/-- A jump target, kept by name; `span` is where the label operand stands. -/
structure Jump where
  label : String
  span : Span
  deriving DecidableEq, Repr

inductive Instruction where
  | compute (op : Operation) (operand : Operand)
  | store (target : Address)
  /-- Print the first `count` registers. -/
  | dump (count : Nat)
  | goto (target : Jump)
  /-- Jump if the accumulator compares so with the value. -/
  | branch (cmp : Comparison) (value : Int64) (target : Jump)
  | halt
  deriving DecidableEq, Repr

/-! ## Names with one numeric operand -/

inductive Mnemonic where
  | const (op : Operation)
  | cell (op : Operation) (mode : Addressing)
  | store (mode : Addressing)
  | dump
  deriving DecidableEq, Repr

namespace Mnemonic

def name : Mnemonic → String
  | const op => "C" ++ op.name
  | cell op mode => mode.mark ++ op.name
  | store mode => mode.mark ++ "STORE"
  | dump => "DUMP"

def ofName? : String → Option Mnemonic
  | "LOAD" => some (cell .load .direct)
  | "CLOAD" => some (const .load)
  | "INDLOAD" => some (cell .load .indirect)
  | "ADD" => some (cell .add .direct)
  | "CADD" => some (const .add)
  | "INDADD" => some (cell .add .indirect)
  | "SUB" => some (cell .sub .direct)
  | "CSUB" => some (const .sub)
  | "INDSUB" => some (cell .sub .indirect)
  | "MUL" => some (cell .mul .direct)
  | "CMUL" => some (const .mul)
  | "INDMUL" => some (cell .mul .indirect)
  | "DIV" => some (cell .div .direct)
  | "CDIV" => some (const .div)
  | "INDDIV" => some (cell .div .indirect)
  | "STORE" => some (store .direct)
  | "INDSTORE" => some (store .indirect)
  | "DUMP" => some dump
  | _ => none

theorem ofName?_name (m : Mnemonic) : ofName? m.name = some m := by
  cases m with
  | const op => cases op <;> rfl
  | cell op mode => cases op <;> cases mode <;> rfl
  | store mode => cases mode <;> rfl
  | dump => rfl

theorem name_of_ofName? {s : String} {m : Mnemonic} (h : ofName? s = some m) : m.name = s := by
  unfold ofName? at h
  split at h <;> cases h <;> rfl

end Mnemonic

/-! ## Written form -/

namespace Instruction

def text : Instruction → String
  | compute op (.const value) => (Mnemonic.const op).name ++ " " ++ toString value.toInt
  | compute op (.cell a) => (Mnemonic.cell op a.mode).name ++ " " ++ toString a.index
  | store a => (Mnemonic.store a.mode).name ++ " " ++ toString a.index
  | dump count => Mnemonic.dump.name ++ " " ++ toString count
  | goto target => "GOTO " ++ target.label
  | branch cmp value target =>
    "IF " ++ cmp.symbol ++ " " ++ toString value.toInt ++ " GOTO " ++ target.label
  | halt => "END"

def jump? : Instruction → Option Jump
  | goto target => some target
  | branch _ _ target => some target
  | _ => none

end Instruction

end Ram
