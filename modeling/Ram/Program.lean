import Ram.Instruction
import Ram.Labels

/-!
# Programs

A program is a sequence of statements, numbered from 0, with its label table. Labels are looked
up when a jump is taken, so a program may hold jumps to labels that nothing declares
(`undefinedJumps`) and still run.
-/

namespace Ram

open Ram.Source

/-- An instruction and where it was written. -/
structure Statement where
  instruction : Instruction
  site : Site
  deriving DecidableEq, Repr

structure Program where
  statements : Array Statement := #[]
  labels : Labels := {}
  deriving DecidableEq, Repr

namespace Program

def size (p : Program) : Nat := p.statements.size

def isEmpty (p : Program) : Bool := p.statements.isEmpty

/-- Binds a label to the next statement. -/
def declare (p : Program) (name : String) : Program :=
  { p with labels := p.labels.insert name p.size }

def push (p : Program) (s : Statement) : Program :=
  { p with statements := p.statements.push s }

/-- The jump targets in program order. -/
def jumps (p : Program) : List Jump := p.statements.toList.filterMap (·.instruction.jump?)

/-- The jump targets that no label declares, in program order. -/
def undefinedJumps (p : Program) : List Jump :=
  p.jumps.filter fun j => !p.labels.contains j.label

end Program

end Ram
