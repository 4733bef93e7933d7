import Ram.Proofs.Machine.Run
import Ram.Proofs.Program

/-!
# Places play no part in a run

A fault tells where it arose; `bare` forgets it. Programs that are equal but for places
(`Program.Alike`) are run alike: the states and the outputs are equal, and the answers are equal
but for places (`step_alike`, `after_alike`, `runFor_alike`).
-/

namespace Ram

open Ram.Source

/-! ## Answers without places -/

def Fault.bare : Fault → Fault
  | unresolvedLabel label _ => unresolvedLabel label Site.nowhere
  | divisionByZero _ => divisionByZero Site.nowhere
  | negativeRegister index _ => negativeRegister index Site.nowhere
  | registerTooLarge index _ => registerTooLarge index Site.nowhere
  | f => f

def Step.bare : Step → Step
  | failed f => failed f.bare
  | r => r

def Machine.Ending.bare : Machine.Ending → Machine.Ending
  | failed f => failed f.bare
  | r => r

theorem Step.bare_eq_running {r : Step} : r.bare = .running ↔ r = .running := by
  cases r <;> simp [bare]

theorem Step.bare_ending (r : Step) : r.ending.bare = r.bare.ending := by
  cases r <;> rfl

/-! ## Effects -/

/-- Results that are equal but for the places in a fault. -/
def SameResult {α : Type} (x y : Except Fault α) : Prop :=
  x.mapError Fault.bare = y.mapError Fault.bare

namespace SameResult

variable {α β : Type} {x y : Except Fault α} {f g : α → Except Fault β}

theorem bind (h : SameResult x y) (hfg : ∀ a, SameResult (f a) (g a)) :
    SameResult (x >>= f) (y >>= g) := by
  unfold SameResult at h
  cases x with
  | ok a =>
    cases y with
    | ok b => rw [Except.ok.inj h]; exact hfg b
    | error e => cases h
  | error d =>
    cases y with
    | ok b => cases h
    | error e => exact congrArg Except.error (Except.error.inj h)

end SameResult

theorem Address.resolve_alike (a : Address) (regs : Registers) (s t : Site) :
    SameResult (a.resolve regs s) (a.resolve regs t) := by
  obtain ⟨mode, i⟩ := a
  cases mode with
  | direct => rfl
  | indirect =>
    unfold SameResult
    simp only [resolve]
    split <;> rfl

theorem Operand.value_alike (o : Operand) (regs : Registers) (s t : Site) :
    SameResult (o.value regs s) (o.value regs t) := by
  cases o with
  | const v => rfl
  | cell a => exact (a.resolve_alike regs s t).bind fun _ => rfl

theorem Jump.resolve_alike {labels labels' : Labels}
    (h : ∀ name, labels.get? name = labels'.get? name) (j : Jump) (line line' : Nat) :
    SameResult (j.resolve labels line) (j.bare.resolve labels' line') := by
  have hlabel : j.bare.label = j.label := rfl
  unfold SameResult Jump.resolve
  rw [hlabel, h j.label]
  cases labels'.get? j.label <;> rfl

/-- What a statement does has nothing to do with where it was written. -/
theorem Statement.effect_bare {labels labels' : Labels}
    (h : ∀ name, labels.get? name = labels'.get? name) (s : Statement) (regs : Registers) :
    SameResult (s.effect labels regs) (s.bare.effect labels' regs) := by
  obtain ⟨i, site⟩ := s
  cases i with
  | compute op operand =>
    refine (operand.value_alike regs site Site.nowhere).bind fun rhs => ?_
    cases op.apply regs.acc rhs <;> rfl
  | store target => exact (target.resolve_alike regs site Site.nowhere).bind fun _ => rfl
  | dump count => rfl
  | goto target => exact (Jump.resolve_alike h target _ _).bind fun _ => rfl
  | branch cmp v target =>
    simp only [Statement.effect, Statement.bare, Instruction.bare]
    split
    · exact (Jump.resolve_alike h target _ _).bind fun _ => rfl
    · rfl
  | halt => rfl

/-! ## Steps and runs -/

namespace Machine

variable {p q : Program}

/-- Equal states and outputs, and answers that are equal but for places. -/
def SameStep (r r' : Step × Machine × Sink) : Prop := r.1.bare = r'.1.bare ∧ r.2 = r'.2

theorem execute_alike (h : p.Alike q) {s t : Statement} (hst : s.bare = t.bare) (m : Machine)
    (out : Sink) : SameStep (m.execute p s out) (m.execute q t out) := by
  have hs := s.effect_bare h.get? m.regs
  have ht : SameResult (t.effect q.labels m.regs) (t.bare.effect q.labels m.regs) :=
    t.effect_bare (fun _ => rfl) m.regs
  have heff : SameResult (s.effect p.labels m.regs) (t.effect q.labels m.regs) := by
    rw [hst] at hs
    exact hs.trans ht.symm
  unfold SameResult at heff
  cases he : s.effect p.labels m.regs with
  | ok e =>
    cases he' : t.effect q.labels m.regs with
    | ok e' =>
      rw [he, he'] at heff
      rw [execute_of_effect he, execute_of_effect he', Except.ok.inj heff]
      exact ⟨rfl, rfl⟩
    | error f => rw [he, he'] at heff; cases heff
  | error f =>
    cases he' : t.effect q.labels m.regs with
    | ok e' => rw [he, he'] at heff; cases heff
    | error g =>
      rw [he, he'] at heff
      rw [execute_of_fault he, execute_of_fault he']
      exact ⟨congrArg Step.failed (Except.error.inj heff), rfl⟩

theorem step_alike (h : p.Alike q) (m : Machine) (out : Sink) :
    SameStep (m.step p out) (m.step q out) := by
  have hpc := h.statement m.pc
  rcases fetch_cases p m with
    ⟨hh, hf⟩ | ⟨hh, hs, hf⟩ | ⟨l, s, hh, hs, hl, hle, hf⟩ | ⟨s, hh, hs, ha, hf⟩
  · rw [step_of_fetch_error hf, step_of_fetch_error (fetch_of_halted hh)]
    exact ⟨rfl, rfl⟩
  · rw [hs] at hpc
    rw [step_of_fetch_error hf,
      step_of_fetch_error (fetch_of_missing hh (Option.map_eq_none_iff.mp hpc.symm))]
    exact ⟨rfl, rfl⟩
  · rw [hs] at hpc
    obtain ⟨t, ht, -⟩ := Option.map_eq_some_iff.mp hpc.symm
    rw [step_of_fetch_error hf, step_of_fetch_error (fetch_of_reached hh ht hl hle)]
    exact ⟨rfl, rfl⟩
  · rw [hs] at hpc
    obtain ⟨t, ht, hst⟩ := Option.map_eq_some_iff.mp hpc.symm
    rw [step_of_fetch_ok hf, step_of_fetch_ok (fetch_of_allowed hh ht ha)]
    exact execute_alike h hst.symm m out

theorem after_alike (h : p.Alike q) : ∀ (n : Nat) (m : Machine) (out : Sink),
    m.after p n out = m.after q n out
  | 0, _, _ => rfl
  | n + 1, m, out => by
    rw [after, after, (step_alike h m out).2]
    exact after_alike h n _ _

theorem runFor_alike (h : p.Alike q) : ∀ (n : Nat) (m : Machine) (out : Sink),
    (m.runFor p n out).1.bare = (m.runFor q n out).1.bare ∧
      (m.runFor p n out).2 = (m.runFor q n out).2
  | 0, _, _ => ⟨rfl, rfl⟩
  | n + 1, m, out => by
    obtain ⟨hanswer, hstate⟩ := step_alike h m out
    have hiff : (m.step p out).1 = .running ↔ (m.step q out).1 = .running := by
      rw [← Step.bare_eq_running, hanswer, Step.bare_eq_running]
    by_cases hr : (m.step p out).1 = .running
    · rw [runFor_of_running n hr, runFor_of_running n (hiff.mp hr), hstate]
      exact runFor_alike h n _ _
    · rw [runFor_of_ended n hr, runFor_of_ended n (fun h => hr (hiff.mpr h)), hstate]
      exact ⟨by rw [Step.bare_ending, Step.bare_ending, hanswer], rfl⟩

end Machine

end Ram
