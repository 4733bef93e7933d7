import Ram.Proofs.Machine.Jumps
import Ram.Proofs.Machine.Limit

/-!
# Runs under a limit return

Every step that goes on uses up one of the steps that the limit leaves (`remaining_of_running`), so
a run under a limit ends before they are used up (`finished_of_remaining`), whatever the program
and wherever the machine stands. The run begins a statement with its first steps and with no later
one, and counts each of them (`Returns.begins_iff`). A step counts from below the limit only, and
goes to the next statement from one of the program only (`Advances`), so none of the two counters
can wrap.
-/

namespace Ram.Machine

variable {p : Program} {m m' : Machine} {out out' : Sink} {r : Ending} {l : Nat}

/-! ## What the limit leaves -/

/-- The steps that a limit leaves, none if it is reached or passed already. -/
def remaining (m : Machine) (l : Nat) : Nat := l - m.steps

theorem remaining_of_running (hl : m.limit = some l) (h : (m.step p out).1 = .running) :
    (m.step p out).2.1.remaining l < m.remaining l := by
  obtain ⟨s, hf⟩ := fetch_of_running h
  have hlt : m.steps < l := (of_fetch_ok hf).2.2 l hl
  have hsteps := steps_of_running h
  unfold remaining
  omega

/-- Induction on what the limit leaves: one more step than that is enough for a run to end. -/
theorem finished_of_remaining : ∀ {n : Nat} {m : Machine} {out : Sink}, m.limit = some l →
    m.remaining l ≤ n → (m.runFor p (n + 1) out).1 ≠ .unfinished
  | n, m, out, hl, hn => by
    by_cases hr : (m.step p out).1 = .running
    · have hlt := remaining_of_running hl hr
      obtain ⟨n, rfl⟩ : ∃ n', n = n' + 1 := ⟨n - 1, by omega⟩
      rw [runFor_of_running (n + 1) hr]
      exact finished_of_remaining ((limit_step p m out).trans hl) (by omega)
    · rw [runFor_of_ended n hr]
      exact fun h => hr (Step.ending_eq_unfinished.mp h)

theorem returns_of_limit (p : Program) (hl : m.limit = some l) (out : Sink) :
    ∃ r m' out', m.Returns p out r m' out' ∧ m.run p out = (r, m', out') := by
  have hpatience : m.patience = m.remaining l + 1 := by
    unfold patience remaining
    rw [hl]
  have hend : (m.run p out).1 ≠ .unfinished := by
    unfold run
    rw [hpatience]
    exact finished_of_remaining hl (Nat.le_refl _)
  exact ⟨_, _, _, ⟨hend, m.patience, rfl⟩, rfl⟩

/-! ## Statements of a run -/

/-- The run begins a statement with the step that has `k` steps in front of it. -/
def Begins (p : Program) (m : Machine) (out : Sink) (k : Nat) : Prop :=
  ∃ c o s, m.runFor p k out = (.unfinished, c, o) ∧ c.fetch p = .ok s

theorem Returns.steps_lt (h : Returns p m out r m' out') {s : Statement}
    (hf : m.fetch p = .ok s) : m.steps < m'.steps := by
  obtain ⟨hr, k, hk⟩ := h
  have hcount : (m.step p out).2.1.steps = m.steps + 1 := by
    rw [step_of_fetch_ok hf, steps_execute]
  have hle : (m.step p out).2.1.steps ≤ m'.steps := by
    cases k with
    | zero =>
      cases hk
      exact absurd rfl hr
    | succ k =>
      by_cases hrun : (m.step p out).1 = .running
      · rw [runFor_of_running k hrun] at hk
        have := steps_le_runFor p k (m.step p out).2.1 (m.step p out).2.2
        rwa [hk] at this
      · rw [runFor_of_ended k hrun] at hk
        exact Nat.le_of_eq (congrArg (fun c => c.2.1.steps) hk)
  omega

/-- The run begins its statements with its first steps, and each of them is counted. -/
theorem Returns.begins_iff (h : Returns p m out r m' out') (k : Nat) :
    m.Begins p out k ↔ m.steps + k < m'.steps := by
  constructor
  · rintro ⟨c, o, s, hk, hf⟩
    have hu : (m.runFor p k out).1 = .unfinished := by rw [hk]
    obtain ⟨hafter, hsteps⟩ := runFor_unfinished hu
    -- from where `k` steps lead, the run still returns, and it begins a statement there at once
    have hrest := h.resume hu
    obtain ⟨-, hc⟩ := Prod.mk.inj (hk.symm.trans hafter)
    rw [← hc] at hsteps hrest
    have hlt := hrest.steps_lt hf
    exact hsteps ▸ hlt
  · intro hlt
    have hu := h.unfinished hlt
    obtain ⟨hafter, hsteps⟩ := runFor_unfinished hu
    obtain ⟨s, hs⟩ := (h.resume hu).fetch_ok (hsteps ▸ hlt)
    exact ⟨_, _, s, hafter, hs⟩

/-! ## Counters -/

/-- How a step leads from one state to the next: the count goes up to a 64-bit number if it goes up
at all, and the program counter is only ever increased at a statement of the program. -/
structure Advances (p : Program) (m c : Machine) : Prop where
  steps : c.steps = m.steps ∨ c.steps = m.steps + 1 ∧ m.steps + 1 < 0x10000000000000000
  pc : c.pc = m.pc ∨ (c.pc = m.pc + 1 ∧ m.pc < p.size) ∨ ∃ name, p.labels.get? name = some c.pc

theorem advances_step (p : Program) (out : Sink) (hl : m.limit = some l)
    (hbound : l < 0x10000000000000000) : Advances p m (m.step p out).2.1 where
  steps := by
    cases hf : m.fetch p with
    | error e => exact .inl (by rw [step_of_fetch_error hf])
    | ok s =>
      have hlt : m.steps < l := (of_fetch_ok hf).2.2 l hl
      exact .inr ⟨by rw [step_of_fetch_ok hf, steps_execute], by omega⟩
  pc := by
    rcases pc_step_cases p m out with hpc | ⟨s, hs, -, ⟨-, hpc⟩ | ⟨j, -, -, hj⟩⟩
    · exact .inl hpc
    · exact .inr (.inl ⟨hpc, (Array.getElem?_eq_some_iff.mp hs).1⟩)
    · exact .inr (.inr ⟨j.label, hj⟩)

/-- A run under a limit returns, from whatever state. It begins at most as many statements as the
limit leaves and counts each of them, so that it ends with a count that is not above the limit or
is the one it had; and no step of it takes a counter out of 64 bits. -/
theorem run_returns_within_limit (p : Program) (hl : m.limit = some l)
    (hbound : l < 0x10000000000000000) (out : Sink) :
    ∃ r m' out', m.Returns p out r m' out' ∧ m.run p out = (r, m', out') ∧
      (∃ n ≤ l - m.steps, m'.steps = m.steps + n ∧ ∀ k, m.Begins p out k ↔ k < n) ∧
      m'.steps ≤ max m.steps l ∧
      ∀ k c o, m.runFor p k out = (.unfinished, c, o) → Advances p c (c.step p o).2.1 := by
  obtain ⟨r, m', out', hreturns, hrun⟩ := returns_of_limit p hl out
  have hmax : m'.steps ≤ max m.steps l := by
    have := steps_runFor_le p m.patience out hl
    rw [← run, hrun] at this
    exact this
  have hle := hreturns.steps_le
  refine ⟨r, m', out', hreturns, hrun, ⟨m'.steps - m.steps, by omega, by omega, fun k => ?_⟩, hmax,
    fun k c o hk => ?_⟩
  · rw [hreturns.begins_iff]
    omega
  · have hlimit : c.limit = m.limit := by
      have := limit_runFor p k m out
      rwa [hk] at this
    exact advances_step p o (hlimit.trans hl) hbound

/-- A program that never ends: of the limit 5 two steps are left. -/
theorem run_returns_within_limit_of_loop :
    let p : Program :=
      { statements := #[⟨.goto ⟨"a", ⟨8, 1⟩⟩, ⟨1, ⟨0, 9⟩⟩⟩], labels := ⟨[("a", 0)], by decide⟩ }
    let m : Machine := { steps := 3, limit := some 5 }
    ∃ m' out', m.run p {} = (.failed (.stepLimit 5 0), m', out') ∧ m'.steps = 5 ∧
      (∀ k, m.Begins p {} k ↔ k < 2) ∧
      ∀ k c o, m.runFor p k {} = (.unfinished, c, o) → Advances p c (c.step p o).2.1 := by
  intro p m
  obtain ⟨r, m', out', -, hrun, ⟨n, -, hsteps, hbegins⟩, -, hadvances⟩ :=
    run_returns_within_limit p (m := m) (l := 5) rfl (by decide) {}
  have hend : (m.run p {}).1 = .failed (.stepLimit 5 0) ∧ (m.run p {}).2.1.steps = 5 := by decide
  rw [hrun] at hend
  obtain ⟨rfl, hfive⟩ : r = .failed (.stepLimit 5 0) ∧ m'.steps = 5 := hend
  obtain rfl : n = 2 := by
    have : m'.steps = 3 + n := hsteps
    omega
  exact ⟨m', out', hrun, hfive, hbegins, hadvances⟩

end Ram.Machine
