import Ram.Proofs.Machine.Failure

/-!
# Where a step leads

A step leads to the next statement or to the one that a label is bound to, or it leads nowhere
(`Machine.pc_step_cases`). A step that fails leads nowhere, and so does the last step of a run that
fails (`Machine.step_of_runFor_failed`); if a statement is to blame, it is the one at the program
counter (`Machine.tells_of_failed`).
-/

namespace Ram

theorem Step.ending_eq_failed {r : Step} {f : Fault} : r.ending = .failed f ↔ r = .failed f := by
  cases r <;> simp [ending]

namespace Machine

variable {p : Program} {m : Machine} {out : Sink} {f : Fault}

/-! ## Faults -/

theorem tells_of_failed (h : (m.step p out).1 = .failed f) (hf : f.ofStatement = true) :
    ∃ s, p.statements[m.pc]? = some s ∧ f.Tells p.labels m.acc s := by
  rcases step_failed_cases (Prod.ext h rfl) with
    ⟨-, -, rfl, -⟩ | ⟨_, _, -, -, -, -, rfl, -⟩ | ⟨s, -, hs, he, -⟩ | ⟨rfl, -⟩
  · cases hf
  · cases hf
  · have htells := s.effect_cases p.labels m.regs
    rw [he] at htells
    exact ⟨s, hs, htells⟩
  · cases hf

theorem pc_of_failed (h : (m.step p out).1 = .failed f) : (m.step p out).2.1.pc = m.pc := by
  rw [(step_failed (Prod.ext h rfl)).1]
  split <;> rfl

/-- A run that fails does so in its last step, which does not move the program counter. -/
theorem step_of_runFor_failed : ∀ {n : Nat} {m : Machine} {out : Sink},
    (m.runFor p n out).1 = .failed f →
      ∃ (m' : Machine) (out' : Sink),
        (m'.step p out').1 = .failed f ∧ m'.pc = (m.runFor p n out).2.1.pc
  | 0, _, _, h => nomatch h
  | n + 1, m, out, h => by
    by_cases hr : (m.step p out).1 = .running
    · rw [runFor_of_running n hr] at h ⊢
      exact step_of_runFor_failed h
    · rw [runFor_of_ended n hr] at h ⊢
      have hf := Step.ending_eq_failed.mp h
      exact ⟨m, out, hf, (pc_of_failed hf).symm⟩

/-! ## The program counter -/

/-- A step goes nowhere, or it executes a statement and goes to the next one or where a jump that
is taken leads. -/
theorem pc_step_cases (p : Program) (m : Machine) (out : Sink) :
    (m.step p out).2.1.pc = m.pc ∨
    ∃ s, p.statements[m.pc]? = some s ∧ (m.step p out).1 = .running ∧
      ((s.instruction.taken m.acc = false ∧ (m.step p out).2.1.pc = m.pc + 1) ∨
        ∃ j, s.instruction.jump? = some j ∧ s.instruction.taken m.acc = true ∧
          p.labels.get? j.label = some (m.step p out).2.1.pc) := by
  cases hf : m.fetch p with
  | error r => exact .inl (by rw [step_of_fetch_error hf])
  | ok s =>
    have hs := (of_fetch_ok hf).2.1
    have htells := s.effect_cases p.labels m.regs
    rw [step_of_fetch_ok hf]
    cases he : s.effect p.labels m.regs with
    | error g => exact .inl (by rw [execute_of_fault he]; rfl)
    | ok e =>
      rw [he] at htells
      rw [execute_of_effect he]
      cases e with
      | write i v => exact .inr ⟨s, hs, rfl, .inl ⟨htells, rfl⟩⟩
      | next => exact .inr ⟨s, hs, rfl, .inl ⟨htells, rfl⟩⟩
      | jump k => exact .inr ⟨s, hs, rfl, .inr htells⟩
      | stop => exact .inl rfl
      | print count =>
        simp only [perform]
        split
        · exact .inr ⟨s, hs, rfl, .inl ⟨by rw [htells]; rfl, rfl⟩⟩
        · exact .inl rfl

end Machine

end Ram
