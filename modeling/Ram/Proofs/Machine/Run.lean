import Ram.Proofs.Machine.Step

/-!
# Runs

Facts about `Machine.runFor`, the loop of steps. `Returns` says that the loop ends, without a
bound on how long that takes. A run that ends is the same for every number of steps that is
large enough (`Returns.runFor_eq`), it can be cut anywhere before its end (`Returns.resume`), and
its steps are counted one by one while it goes on (`runFor_unfinished`).
-/

namespace Ram

/-- The ending of a run whose last step gave this answer. -/
def Step.ending : Step → Machine.Ending
  | running => .unfinished
  | halted => .halted
  | failed f => .failed f

theorem Step.ending_eq_unfinished {r : Step} : r.ending = .unfinished ↔ r = .running := by
  cases r <;> simp [ending]

namespace Machine

variable {p : Program} {m m' : Machine} {out out' : Sink} {r : Ending}

/-! ## One more step -/

theorem runFor_of_running (n : Nat) (h : (m.step p out).1 = .running) :
    m.runFor p (n + 1) out = (m.step p out).2.1.runFor p n (m.step p out).2.2 := by
  rw [runFor]
  generalize m.step p out = c at h
  obtain ⟨c, m', out'⟩ := c
  cases h
  rfl

theorem runFor_of_ended (n : Nat) (h : (m.step p out).1 ≠ .running) :
    m.runFor p (n + 1) out = ((m.step p out).1.ending, (m.step p out).2) := by
  rw [runFor]
  generalize m.step p out = c at h
  obtain ⟨c, m', out'⟩ := c
  cases c with
  | running => exact absurd rfl h
  | halted => rfl
  | failed f => rfl

theorem running_of_unfinished {n : Nat} (h : (m.runFor p (n + 1) out).1 = .unfinished) :
    (m.step p out).1 = .running ∧
      ((m.step p out).2.1.runFor p n (m.step p out).2.2).1 = .unfinished := by
  by_cases hr : (m.step p out).1 = .running
  · rw [runFor_of_running n hr] at h
    exact ⟨hr, h⟩
  · rw [runFor_of_ended n hr] at h
    exact absurd (Step.ending_eq_unfinished.mp h) hr

/-- Steps add up as long as the run goes on. -/
theorem runFor_add (n : Nat) : ∀ (k : Nat) {m : Machine} {out : Sink},
    (m.runFor p k out).1 = .unfinished →
      m.runFor p (k + n) out =
        (m.runFor p k out).2.1.runFor p n (m.runFor p k out).2.2
  | 0, m, out, _ => by rw [Nat.zero_add]; rfl
  | k + 1, m, out, h => by
    obtain ⟨hr, h⟩ := running_of_unfinished h
    rw [show k + 1 + n = k + n + 1 by omega, runFor_of_running k hr, runFor_of_running (k + n) hr]
    exact runFor_add n k h

/-- More steps change nothing once the run has ended. -/
theorem runFor_of_le : ∀ {k n : Nat} {m : Machine} {out : Sink}, k ≤ n →
    (m.runFor p k out).1 ≠ .unfinished → m.runFor p n out = m.runFor p k out
  | 0, _, m, out, _, h => absurd rfl h
  | k + 1, n, m, out, hle, h => by
    obtain ⟨n, rfl⟩ : ∃ n', n = n' + 1 := ⟨n - 1, by omega⟩
    by_cases hr : (m.step p out).1 = .running
    · rw [runFor_of_running k hr] at h ⊢
      rw [runFor_of_running n hr]
      exact runFor_of_le (by omega) h
    · rw [runFor_of_ended k hr, runFor_of_ended n hr]

theorem limit_runFor (p : Program) : ∀ (k : Nat) (m : Machine) (out : Sink),
    (m.runFor p k out).2.1.limit = m.limit
  | 0, m, out => rfl
  | k + 1, m, out => by
    have hstep := limit_step p m out
    by_cases hr : (m.step p out).1 = .running
    · rw [runFor_of_running k hr, limit_runFor p k, hstep]
    · rw [runFor_of_ended k hr]
      exact hstep

/-! ## Counting -/

theorem steps_le_runFor (p : Program) : ∀ (k : Nat) (m : Machine) (out : Sink),
    m.steps ≤ (m.runFor p k out).2.1.steps
  | 0, m, out => Nat.le_refl _
  | k + 1, m, out => by
    have hstep := steps_le_step p m out
    by_cases hr : (m.step p out).1 = .running
    · rw [runFor_of_running k hr]
      exact Nat.le_trans hstep (steps_le_runFor p k _ _)
    · rw [runFor_of_ended k hr]
      exact hstep

theorem runFor_steps_le (p : Program) : ∀ (k : Nat) (m : Machine) (out : Sink),
    (m.runFor p k out).2.1.steps ≤ m.steps + k
  | 0, m, out => Nat.le_refl _
  | k + 1, m, out => by
    have hstep := step_le_succ_steps p m out
    by_cases hr : (m.step p out).1 = .running
    · rw [runFor_of_running k hr]
      have := runFor_steps_le p k (m.step p out).2.1 (m.step p out).2.2
      omega
    · rw [runFor_of_ended k hr]
      show (m.step p out).2.1.steps ≤ _
      omega

/-- While a run goes on, every step counts and the state is that after so many steps. -/
theorem runFor_unfinished : ∀ {k : Nat} {m : Machine} {out : Sink},
    (m.runFor p k out).1 = .unfinished →
      m.runFor p k out = (.unfinished, m.after p k out) ∧
        (m.after p k out).1.steps = m.steps + k
  | 0, m, out, _ => ⟨rfl, rfl⟩
  | k + 1, m, out, h => by
    obtain ⟨hr, h⟩ := running_of_unfinished h
    obtain ⟨hrun, hsteps⟩ := runFor_unfinished h
    rw [runFor_of_running k hr]
    refine ⟨hrun, ?_⟩
    rw [after, hsteps, steps_of_running hr]
    omega

/-! ## Runs that return -/

/-- The loop of steps ends so, however long it takes. -/
def Returns (p : Program) (m : Machine) (out : Sink) (r : Ending) (m' : Machine) (out' : Sink) :
    Prop :=
  r ≠ .unfinished ∧ ∃ k, m.runFor p k out = (r, m', out')

namespace Returns

theorem steps_le (h : Returns p m out r m' out') : m.steps ≤ m'.steps := by
  obtain ⟨-, k, hk⟩ := h
  have := steps_le_runFor p k m out
  rwa [hk] at this

/-- A number of steps that exceeds those that the run counts is enough. -/
theorem runFor_eq (h : Returns p m out r m' out') {n : Nat} (hn : m'.steps < m.steps + n) :
    m.runFor p n out = (r, m', out') := by
  obtain ⟨hr, k, hk⟩ := h
  have hend : (m.runFor p k out).1 ≠ .unfinished := by rw [hk]; exact hr
  rcases Nat.le_total k n with hle | hle
  · rw [runFor_of_le hle hend, hk]
  · by_cases hu : (m.runFor p n out).1 = .unfinished
    · -- a run that still goes on has counted all its steps
      obtain ⟨h1, h2⟩ := runFor_unfinished hu
      have hadd := runFor_add (k - n) n hu
      rw [Nat.add_sub_cancel' hle, hk, h1] at hadd
      have := steps_le_runFor p (k - n) (m.after p n out).1 (m.after p n out).2
      rw [← hadd, h2] at this
      have : m.steps + n ≤ m'.steps := this
      omega
    · rw [← runFor_of_le hle hu, hk]

theorem unique {r₂ : Ending} {m₂ : Machine} {out₂ : Sink} (h : Returns p m out r m' out')
    (h₂ : Returns p m out r₂ m₂ out₂) : (r, m', out') = (r₂, m₂, out₂) := by
  have heq := h.runFor_eq (n := m'.steps + m₂.steps + 1) (by omega)
  have heq₂ := h₂.runFor_eq (n := m'.steps + m₂.steps + 1) (by omega)
  exact heq.symm.trans heq₂

theorem unfinished (h : Returns p m out r m' out') {n : Nat} (hn : m.steps + n < m'.steps) :
    (m.runFor p n out).1 = .unfinished := by
  obtain ⟨hr, k, hk⟩ := h
  refine Classical.byContradiction fun hu => ?_
  have hle := runFor_steps_le p n m out
  have hend : (m.runFor p k out).1 ≠ .unfinished := by rw [hk]; exact hr
  have heq : m.runFor p n out = m.runFor p k out := by
    rcases Nat.le_total k n with h' | h'
    · exact runFor_of_le h' hend
    · exact (runFor_of_le h' hu).symm
  rw [heq, hk] at hle
  have : m'.steps ≤ m.steps + n := hle
  omega

/-- What is left of a run is a run that returns the same. -/
theorem resume (h : Returns p m out r m' out') {n : Nat}
    (hu : (m.runFor p n out).1 = .unfinished) :
    Returns p (m.after p n out).1 (m.after p n out).2 r m' out' := by
  obtain ⟨hr, k, hk⟩ := h
  have hend : (m.runFor p k out).1 ≠ .unfinished := by rw [hk]; exact hr
  have hle : n ≤ k := by
    rcases Nat.le_total n k with h' | h'
    · exact h'
    · rw [runFor_of_le h' hend] at hu; exact absurd hu hend
  have hadd := runFor_add (k - n) n hu
  rw [Nat.add_sub_cancel' hle, hk, (runFor_unfinished hu).1] at hadd
  exact ⟨hr, k - n, hadd.symm⟩

theorem fetch_ok (h : Returns p m out r m' out') (hlt : m.steps < m'.steps) :
    ∃ s, m.fetch p = .ok s := by
  obtain ⟨hr, k, hk⟩ := h
  cases hf : m.fetch p with
  | ok s => exact ⟨s, rfl⟩
  | error e =>
    have hstep : m.step p out = (e, m, out) := step_of_fetch_error hf
    cases k with
    | zero => cases hk; exact absurd rfl hr
    | succ k =>
      have hne : (m.step p out).1 ≠ .running := by
        intro hrun
        obtain ⟨s, hs⟩ := fetch_of_running hrun
        rw [hf] at hs; cases hs
      rw [runFor_of_ended k hne, hstep] at hk
      cases hk
      omega

end Returns

/-! ## Runs into a sink without a bound -/

theorem runFor_unbounded (p : Program) : ∀ (k : Nat) (m : Machine) (t : String),
    m.runFor p k ⟨t, none⟩ = ((m.runFor p k {}).1, (m.runFor p k {}).2.1,
      ⟨t ++ (m.runFor p k {}).2.2.text, none⟩)
  | 0, m, t => by simp only [runFor, String.append_empty]
  | k + 1, m, t => by
    have hstep := step_unbounded p m t
    have hempty := step_unbounded p m ""
    rw [String.empty_append] at hempty
    by_cases hr : (m.step p {}).1 = .running
    · have hr' : (m.step p ⟨t, none⟩).1 = .running := by rw [hstep]; exact hr
      rw [runFor_of_running k hr', runFor_of_running k hr, hstep]
      have ih := runFor_unbounded p k (m.step p {}).2.1 (m.step p {}).2.2.text
      have hsink : (m.step p {}).2.2 = ⟨(m.step p {}).2.2.text, none⟩ :=
        congrArg (fun c => c.2.2) hempty
      rw [← hsink] at ih
      rw [runFor_unbounded p k _ (t ++ _), ih, String.append_assoc]
    · have hr' : (m.step p ⟨t, none⟩).1 ≠ .running := by rw [hstep]; exact hr
      rw [runFor_of_ended k hr', runFor_of_ended k hr, hstep]

end Machine

end Ram
