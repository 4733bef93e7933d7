import Ram.Program

/-!
# Programs but for places

Statements and jump targets remember where they were written. `bare` forgets it, and
`Program.Alike` are the programs that differ in nothing else that a run can see.
-/

namespace Ram

open Ram.Source

def Source.Site.nowhere : Site := ⟨0, ⟨0, 0⟩⟩

def Jump.bare (j : Jump) : Jump := ⟨j.label, ⟨0, 0⟩⟩

/-- Only the targets of jumps remember where they were written. -/
def Instruction.bare : Instruction → Instruction
  | goto target => goto target.bare
  | branch cmp value target => branch cmp value target.bare
  | i => i

def Statement.bare (s : Statement) : Statement := ⟨s.instruction.bare, Site.nowhere⟩

/-- The instructions of a program, without places. -/
def Program.bare (p : Program) : List Instruction := p.statements.toList.map (·.instruction.bare)

namespace Program

theorem length_bare (p : Program) : p.bare.length = p.size := by
  rw [bare, List.length_map, Array.length_toList]
  rfl

/-- The programs have the same instructions but for places, and the same labels lead to the same
statements. -/
structure Alike (p q : Program) : Prop where
  bare : p.bare = q.bare
  get? : ∀ name, p.labels.get? name = q.labels.get? name

theorem Alike.statement {p q : Program} (h : Alike p q) (pc : Nat) :
    (p.statements[pc]?).map Statement.bare = (q.statements[pc]?).map Statement.bare := by
  have hbare := congrArg (fun is => (is[pc]?).map fun i => (⟨i, Site.nowhere⟩ : Statement)) h.bare
  simp only [Program.bare, List.getElem?_map, Array.getElem?_toList, Option.map_map] at hbare
  exact hbare

end Program

end Ram
