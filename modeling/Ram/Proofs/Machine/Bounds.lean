import Ram.Proofs.Assembly.Pass
import Ram.Proofs.Machine.Jumps

/-!
# The program counter of an assembled program

Assembly binds no label behind the end of the program, so no step leads further than that:
`Machine.Placed` is the invariant of every reachable state. A machine that stands behind the last
statement came there in one of three ways (`ComesToEnd`): it was there from the start, it executed
the last statement without jumping, or it jumped to a label that stands behind all statements.
-/

namespace Ram

open Ram.Source

/-- The last line that declares the label stands behind the last line that spells a statement. -/
def Source.Trailing (src : String) (name : String) : Prop :=
  ∃ before raw after, src.toList.splitOn '\n' = before ++ raw :: after ∧
    Declares raw name ∧ (∀ r ∈ after, ¬ Declares r name) ∧ ∀ r ∈ raw :: after, phrase r = []

theorem trailing_of_get? {src : String} {p : Program} (h : assemble src = .ok p) {name : String}
    (hname : p.labels.get? name = some p.size) : Trailing src name := by
  rw [get?_of_assemble h] at hname
  obtain ⟨before, raw, after, hsplit, hraw, hafter, hsize⟩ := boundTo_eq_some.mp hname
  refine ⟨before, raw, after, hsplit, hraw, hafter, spelled_eq_zero.mp ?_⟩
  rw [size_of_assemble h, hsplit, spelled_append] at hsize
  omega

namespace Machine

/-- How a machine comes to stand behind the last statement, whatever its limit is by now. -/
inductive ComesToEnd (src : String) (p : Program) : Machine → Prop where
  /-- There is no statement, and the machine was there from the start. -/
  | start (regs : Registers) (limit : Option Nat) : p.size = 0 →
      ComesToEnd src p { regs, limit }
  /-- The last statement was executed and did not jump. -/
  | past {m : Machine} (out : Sink) {s : Statement} (limit : Option Nat) : Reachable p m →
      p.statements[m.pc]? = some s → m.pc + 1 = p.size → s.instruction.taken m.acc = false →
      (m.step p out).1 = .running → ComesToEnd src p ((m.step p out).2.1.withLimit limit)
  /-- A jump was taken to a label that stands behind all statements. -/
  | jumped {m : Machine} (out : Sink) {s : Statement} {j : Jump} (limit : Option Nat) :
      Reachable p m → p.statements[m.pc]? = some s → s.instruction.jump? = some j →
      s.instruction.taken m.acc = true → Trailing src j.label →
      (m.step p out).1 = .running → ComesToEnd src p ((m.step p out).2.1.withLimit limit)

variable {src : String} {p : Program} {m : Machine}

theorem ComesToEnd.withLimit (h : ComesToEnd src p m) (limit : Option Nat) :
    ComesToEnd src p (m.withLimit limit) := by
  cases h with
  | start regs _ hsize => exact .start regs limit hsize
  | past out _ hm hs hlast ht hr => exact .past out limit hm hs hlast ht hr
  | jumped out _ hm hs hj ht hl hr => exact .jumped out limit hm hs hj ht hl hr

/-- The machine stands on a statement, or behind the last one in one of the three ways. -/
structure Placed (src : String) (p : Program) (m : Machine) : Prop where
  pc_le : m.pc ≤ p.size
  comesToEnd : m.pc = p.size → ComesToEnd src p m

theorem step_of_pc_eq_size (h : m.pc = p.size) (out : Sink) : (m.step p out).2.1 = m := by
  have hs : p.statements[m.pc]? = none := Array.getElem?_eq_none (Nat.le_of_eq h.symm)
  cases hh : m.halted with
  | true => rw [step_of_fetch_error (fetch_of_halted hh)]
  | false => rw [step_of_fetch_error (fetch_of_missing hh hs)]

theorem Placed.step (h : assemble src = .ok p) (hm : Reachable p m) (hplaced : Placed src p m)
    (out : Sink) : Placed src p (m.step p out).2.1 := by
  rcases pc_step_cases p m out with hpc | ⟨s, hs, hr, ⟨ht, hpc⟩ | ⟨j, hj, ht, hk⟩⟩
  · refine ⟨hpc ▸ hplaced.pc_le, fun hend => ?_⟩
    rw [hpc] at hend
    rw [step_of_pc_eq_size hend]
    exact hplaced.comesToEnd hend
  · have hlt : m.pc < p.size := (Array.getElem?_eq_some_iff.mp hs).1
    refine ⟨by omega, fun hend => ?_⟩
    exact .past out (m.step p out).2.1.limit hm hs (by omega) ht hr
  · refine ⟨(assembled_of_assemble h).le_size hk, fun hend => ?_⟩
    rw [hend] at hk
    exact .jumped out (m.step p out).2.1.limit hm hs hj ht (trailing_of_get? h hk) hr

theorem Reachable.placed (h : assemble src = .ok p) (hm : Reachable p m) : Placed src p m := by
  refine hm.induct_reachable (fun regs => ?_) (fun m out hm hplaced => ?_)
    (fun m limit _ hplaced => ?_)
  · exact ⟨Nat.zero_le _, fun hend => .start regs none hend.symm⟩
  · exact hplaced.step h hm out
  · exact ⟨hplaced.pc_le, fun hend => (hplaced.comesToEnd hend).withLimit limit⟩

theorem missingEnd_iff (out : Sink) (acc : Int64) :
    (m.step p out).1 = .failed (.missingEnd acc) ↔
      m.halted = false ∧ p.statements[m.pc]? = none ∧ acc = m.acc := by
  constructor
  · intro h
    rcases step_failed_cases (Prod.ext h rfl) with
      ⟨hh, hs, hf, -⟩ | ⟨_, _, -, -, -, -, hf, -⟩ | ⟨s, -, -, he, -⟩ | ⟨hf, -⟩
    · exact ⟨hh, hs, Fault.missingEnd.inj hf⟩
    · cases hf
    · have hcases := s.effect_cases p.labels m.regs
      rw [he] at hcases
      cases hcases
    · cases hf
  · rintro ⟨hh, hs, rfl⟩
    rw [step_of_fetch_error (fetch_of_missing hh hs)]

/-- The program counter of an assembled program stays in bounds, whatever is called. A machine
that has halted stands on an `END`; a step tells a missing end if and only if the machine has not
halted and stands behind the last statement; and there are three ways to come there. -/
theorem pc_stays_in_bounds (h : assemble src = .ok p) (hm : Reachable p m) :
    m.pc ≤ p.size ∧
    (m.halted = true →
      m.pc < p.size ∧ ∃ s, p.statements[m.pc]? = some s ∧ s.instruction = .halt) ∧
    (∀ out acc, (m.step p out).1 = .failed (.missingEnd acc) ↔
      m.halted = false ∧ m.pc = p.size ∧ acc = m.acc) ∧
    (m.pc = p.size → ComesToEnd src p m) := by
  have hplaced := hm.placed h
  have hpc := hplaced.pc_le
  refine ⟨hpc, fun hh => ?_, fun out acc => ?_, hplaced.comesToEnd⟩
  · obtain ⟨s, hs, hi⟩ := hm.haltedAtEnd hh
    exact ⟨(Array.getElem?_eq_some_iff.mp hs).1, s, hs, hi⟩
  · have hnone : p.statements[m.pc]? = none ↔ m.pc = p.size := by
      rw [Array.getElem?_eq_none_iff]
      unfold Program.size at hpc ⊢
      omega
    rw [missingEnd_iff, hnone]

/-- The comparison does not hold, and the next statement jumps behind the last one. -/
theorem pc_stays_in_bounds_of_jump :
    let src := "IF = 1 GOTO e\nGOTO e\ne: # the end"
    let p : Program :=
      { statements := #[⟨.branch .eq 1 ⟨"e", ⟨12, 1⟩⟩, ⟨1, ⟨0, 13⟩⟩⟩,
          ⟨.goto ⟨"e", ⟨19, 1⟩⟩, ⟨2, ⟨14, 6⟩⟩⟩],
        labels := ⟨[("e", 2)], by decide⟩ }
    let m : Machine := { pc := 2, steps := 2 }
    assemble src = .ok p ∧ Reachable p m ∧
      (m.step p {}).1 = .failed (.missingEnd 0) ∧ ComesToEnd src p m := by
  intro src p m
  have h : assemble src = .ok p := by decide
  have hm : Reachable p m := ⟨{}, [.step {}, .step {}], by decide⟩
  obtain ⟨-, -, hmissing, hend⟩ := pc_stays_in_bounds h hm
  exact ⟨h, hm, (hmissing {} 0).mpr ⟨rfl, rfl, by decide⟩, hend rfl⟩

end Machine

end Ram
