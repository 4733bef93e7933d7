import Ram.Proofs.Machine.Run

/-!
# Step limits

A step limit only cuts a run short. A run that returns within its limit returns what it returns
without one (`Returns.run_withLimit`); a run that would count more steps stops in the state that
it has after as many steps as the limit allows (`StopsAt`), and goes on from there as if it had
never stopped. `run_limit_transparent` puts the two together.
-/

namespace Ram.Machine

variable {p : Program} {m m' : Machine} {out out' : Sink} {r : Ending} {limit : Option Nat}

/-- The limit, if there is one, admits this many steps. -/
def Admits (limit : Option Nat) (steps : Nat) : Prop := ∀ l, limit = some l → steps ≤ l

theorem Admits.mono {a b : Nat} (h : Admits limit b) (hab : a ≤ b) : Admits limit a :=
  fun l hl => Nat.le_trans hab (h l hl)

theorem admits_some {l n : Nat} (h : n ≤ l) : Admits (some l) n := by
  intro k hk
  cases hk
  exact h

/-! ## Within the limit -/

/-- A limit that admits the steps counted at its end does not touch a step. -/
theorem step_withLimit (hm : m.limit = none) (h : Admits limit (m.step p out).2.1.steps) :
    (m.withLimit limit).step p out =
      ((m.step p out).1, (m.step p out).2.1.withLimit limit, (m.step p out).2.2) := by
  rcases fetch_cases p m with ⟨hh, hf⟩ | ⟨hh, hs, hf⟩ | ⟨l, _, -, -, hl, -⟩ | ⟨s, hh, hs, -, hf⟩
  · rw [step_of_fetch_error hf, step_of_fetch_error (fetch_of_halted (m := m.withLimit limit) hh)]
  · rw [step_of_fetch_error hf,
      step_of_fetch_error (fetch_of_missing (m := m.withLimit limit) hh hs)]
    rfl
  · rw [hm] at hl; cases hl
  · rw [step_of_fetch_ok hf, steps_execute] at h
    have hf' : (m.withLimit limit).fetch p = .ok s := fetch_of_allowed hh hs h
    rw [step_of_fetch_ok hf, step_of_fetch_ok hf', execute_withLimit]

theorem runFor_withLimit : ∀ {k : Nat} {m : Machine} {out : Sink}, m.limit = none →
    Admits limit (m.runFor p k out).2.1.steps →
      (m.withLimit limit).runFor p k out =
        ((m.runFor p k out).1, (m.runFor p k out).2.1.withLimit limit, (m.runFor p k out).2.2)
  | 0, m, out, _, _ => rfl
  | k + 1, m, out, hm, h => by
    by_cases hr : (m.step p out).1 = .running
    · rw [runFor_of_running k hr] at h ⊢
      have hle := steps_le_runFor p k (m.step p out).2.1 (m.step p out).2.2
      have hstep := step_withLimit hm (h.mono hle)
      have hr' : ((m.withLimit limit).step p out).1 = .running := by rw [hstep]; exact hr
      rw [runFor_of_running k hr', hstep]
      exact runFor_withLimit (by rw [limit_step, hm]) h
    · rw [runFor_of_ended k hr] at h ⊢
      have hstep := step_withLimit hm h
      have hr' : ((m.withLimit limit).step p out).1 ≠ .running := by rw [hstep]; exact hr
      rw [runFor_of_ended k hr', hstep]

/-- A run is followed for long enough to see it end. -/
theorem Returns.lt_patience (h : Returns p m out r m' out')
    (hn : limit = none → m'.steps < m.steps + 0x10000000000000000) (hl : Admits limit m'.steps) :
    m'.steps < m.steps + (m.withLimit limit).patience := by
  have hle := h.steps_le
  cases limit with
  | none => exact hn rfl
  | some l =>
    have := hl l rfl
    simp only [patience, withLimit_limit, withLimit_steps]
    omega

/-- A run that returns does so under every limit that admits its steps. -/
theorem Returns.run_withLimit (h : Returns p m out r m' out') (hm : m.limit = none)
    (hn : limit = none → m'.steps < m.steps + 0x10000000000000000) (hl : Admits limit m'.steps) :
    (m.withLimit limit).run p out = (r, m'.withLimit limit, out') := by
  have heq := h.runFor_eq (h.lt_patience hn hl)
  rw [run, runFor_withLimit hm (by rw [heq]; exact hl), heq]

theorem steps_step_le (p : Program) (out : Sink) {l : Nat} (hl : m.limit = some l) :
    (m.step p out).2.1.steps ≤ max m.steps l := by
  cases h : m.fetch p with
  | ok s =>
    have : m.steps < l := (of_fetch_ok h).2.2 l hl
    rw [step_of_fetch_ok h, steps_execute]
    omega
  | error r =>
    rw [step_of_fetch_error h]
    exact Nat.le_max_left _ _

theorem steps_runFor_le (p : Program) {l : Nat} : ∀ (k : Nat) {m : Machine} (out : Sink),
    m.limit = some l → (m.runFor p k out).2.1.steps ≤ max m.steps l
  | 0, _, _, _ => Nat.le_max_left _ _
  | k + 1, m, out, hl => by
    have hstep := steps_step_le p out hl
    by_cases hr : (m.step p out).1 = .running
    · rw [runFor_of_running k hr]
      have hrest := steps_runFor_le p k (m.step p out).2.2 ((limit_step p m out).trans hl)
      omega
    · rw [runFor_of_ended k hr]
      exact hstep

/-- A run that returns is followed to its end, unless it has no limit and outlasts the counter. -/
theorem Returns.run_eq (h : Returns p m out r m' out')
    (hn : m.limit = none → m'.steps < m.steps + 0x10000000000000000) :
    m.run p out = (r, m', out') := by
  refine h.runFor_eq ?_
  cases hl : m.limit with
  | none =>
    simp only [patience, hl]
    exact hn hl
  | some l =>
    obtain ⟨-, k, hk⟩ := h
    have hle := steps_runFor_le p k out hl
    rw [hk] at hle
    have : m'.steps ≤ max m.steps l := hle
    simp only [patience, hl]
    omega

/-! ## At the limit -/

/-- Under the limit `n` the run stops after exactly `n` steps, in the state that the machine has
without a limit after as many. -/
def StopsAt (p : Program) (m : Machine) (n : Nat) : Prop :=
  (m.after p n {}).1.steps = n ∧
    (m.withLimit (some n)).run p {} =
      (.failed (.stepLimit n (m.after p n {}).1.pc), (m.after p n {}).1.withLimit (some n),
        (m.after p n {}).2)

theorem stopsAt_of_fetch {n : Nat} (hm : m.limit = none) (h0 : m.steps = 0)
    (hu : (m.runFor p n {}).1 = .unfinished)
    (hf : ∃ s, (m.after p n {}).1.fetch p = .ok s) : m.StopsAt p n := by
  obtain ⟨hrun, hsteps⟩ := runFor_unfinished hu
  rw [h0, Nat.zero_add] at hsteps
  refine ⟨hsteps, ?_⟩
  generalize m.after p n {} = c at hrun hsteps hf
  obtain ⟨c, out⟩ := c
  have hlim : (m.withLimit (some n)).runFor p n {} = (.unfinished, c.withLimit (some n), out) := by
    rw [runFor_withLimit hm (by rw [hrun]; exact admits_some (Nat.le_of_eq hsteps)), hrun]
  have hlast : (c.withLimit (some n)).fetch p = .error (.failed (.stepLimit n c.pc)) := by
    obtain ⟨s, hs⟩ := hf
    obtain ⟨hh, hat, -⟩ := of_fetch_ok hs
    exact fetch_of_reached hh hat rfl (Nat.le_of_eq hsteps.symm)
  have hpat : (m.withLimit (some n)).patience = n + 1 := by
    simp only [patience, withLimit_limit, withLimit_steps, h0, Nat.sub_zero]
  have hstep : (c.withLimit (some n)).step p out =
      (.failed (.stepLimit n c.pc), c.withLimit (some n), out) := step_of_fetch_error hlast
  rw [run, hpat, runFor_add 1 n (by rw [hlim]), hlim]
  rw [runFor_of_ended 0 (by rw [hstep]; simp), hstep]
  rfl

/-! ## Limits are transparent -/

theorem halted_after : ∀ {k : Nat} {m : Machine} {out : Sink}, m.halted = false →
    (m.runFor p k out).1 = .unfinished → (m.after p k out).1.halted = false
  | 0, m, out, hm, _ => hm
  | k + 1, m, out, _, h => by
    obtain ⟨hr, h⟩ := running_of_unfinished h
    exact halted_after (m := (m.step p out).2.1) (halted_of_running hr) h

theorem limit_after (p : Program) : ∀ (k : Nat) (m : Machine) (out : Sink),
    (m.after p k out).1.limit = m.limit
  | 0, m, out => rfl
  | k + 1, m, out => by rw [after, limit_after p k, limit_step]

theorem returns_missingEnd {k : Nat} (hm : m.halted = false)
    (hu : (m.runFor p k out).1 = .unfinished) (hpc : p.size ≤ (m.after p k out).1.pc) :
    Returns p m out (.failed (.missingEnd (m.after p k out).1.acc)) (m.after p k out).1
      (m.after p k out).2 := by
  obtain ⟨hrun, -⟩ := runFor_unfinished hu
  have hstep : (m.after p k out).1.step p (m.after p k out).2 =
      (.failed (.missingEnd (m.after p k out).1.acc), m.after p k out) :=
    step_of_fetch_error (fetch_of_missing (halted_after hm hu) (Array.getElem?_eq_none hpc))
  refine ⟨by simp, k + 1, ?_⟩
  rw [runFor_add 1 k hu, hrun, runFor_of_ended 0 (by rw [hstep]; simp), hstep]
  rfl

theorem Returns.stopsAt {n : Nat} (h : Returns p m {} r m' out') (hm : m.limit = none)
    (h0 : m.steps = 0) (hn : n < m'.steps) : m.StopsAt p n := by
  have hu := h.unfinished (n := n) (by omega)
  have hsteps := (runFor_unfinished hu).2
  exact stopsAt_of_fetch hm h0 hu ((h.resume hu).fetch_ok (by omega))

theorem stopsAt_of_unfinished {n : Nat} (hm : m.limit = none) (h0 : m.steps = 0)
    (hu : (m.runFor p (n + 1) {}).1 = .unfinished) : m.StopsAt p n := by
  have hn : (m.runFor p n {}).1 = .unfinished := by
    by_cases hn : (m.runFor p n {}).1 = .unfinished
    · exact hn
    · rwa [runFor_of_le (Nat.le_succ n) hn] at hu
  rw [runFor_add 1 n hn, (runFor_unfinished hn).1] at hu
  exact stopsAt_of_fetch hm h0 hn (fetch_of_running (running_of_unfinished hu).1)

/-- What is left of a run goes on into a sink of its own. -/
theorem Returns.resume_empty {n : Nat} (h : Returns p m {} r m' out')
    (hu : (m.runFor p n {}).1 = .unfinished) :
    ∃ rest, Returns p (m.after p n {}).1 {} r m' ⟨rest, none⟩ ∧
      (m.after p n {}).2.text ++ rest = out'.text := by
  have hsink : (m.after p n {}).2 = ⟨(m.after p n {}).2.text, none⟩ := by
    have := runFor_unbounded p n m ""
    rw [String.empty_append, (runFor_unfinished hu).1] at this
    exact congrArg (fun c => c.2.2) this
  obtain ⟨hr, k, hk⟩ := h.resume hu
  rw [hsink, runFor_unbounded] at hk
  have hempty := runFor_unbounded p k (m.after p n {}).1 ""
  rw [String.empty_append] at hempty
  refine ⟨((m.after p n {}).1.runFor p k {}).2.2.text, ⟨hr, k, ?_⟩, ?_⟩
  · rw [hempty]
    exact congrArg (fun c => (c.1, c.2.1, _)) hk
  · exact congrArg (fun c => c.2.2.text) hk

/-- Step limits are transparent and runs resumable. If the run without a limit returns, then under
a limit that admits its steps it returns the same, and under a smaller one it stops at the limit
and, taken up again under a limit that admits its steps, returns the same with the rest of the
output. If it does not return while a 64-bit counter counts, it stops at every limit that such a
counter passes. A program that is left behind its last statement is told so even if the limit is
reached. -/
theorem run_limit_transparent (p : Program) (regs : Registers) :
    let m : Machine := { regs }
    (∀ r m' out, m.Returns p {} r m' out → m'.steps < 0x10000000000000000 →
      m.run p {} = (r, m', out) ∧
      (∀ l, m'.steps ≤ l →
        (m.withLimit (some l)).run p {} = (r, m'.withLimit (some l), out)) ∧
      ∀ l, l < m'.steps → m.StopsAt p l ∧
        ∀ limit, Admits limit m'.steps → ∃ rest,
          (((m.withLimit (some l)).run p {}).2.1.withLimit limit).run p {} =
            (r, m'.withLimit limit, ⟨rest, none⟩) ∧
          ((m.withLimit (some l)).run p {}).2.2.text ++ rest = out.text) ∧
    ((∀ r m' out, m.Returns p {} r m' out → 0xFFFFFFFFFFFFFFFF < m'.steps) →
      ∀ l, l < 0xFFFFFFFFFFFFFFFF → m.StopsAt p l) ∧
    ∀ l, (m.runFor p l {}).1 = .unfinished → p.size ≤ (m.after p l {}).1.pc →
      ((m.withLimit (some l)).run p {}).1 = .failed (.missingEnd (m.after p l {}).1.acc) := by
  intro m
  have h0 : m.steps = 0 := rfl
  refine ⟨fun r m' out h hn => ⟨?_, fun l hl => ?_, fun l hl => ?_⟩, fun hnot l hl => ?_,
    fun l hu hpc => ?_⟩
  · have hm' : m'.limit = none := by
      obtain ⟨-, k, hk⟩ := h
      have := limit_runFor p k m {}
      rw [hk] at this
      exact this
    have hrun : (m.withLimit none).run p {} = (r, m'.withLimit none, out) :=
      h.run_withLimit rfl (fun _ => Nat.lt_add_left _ hn) (fun _ h => nomatch h)
    rwa [withLimit_self hm', withLimit_self rfl] at hrun
  · exact h.run_withLimit rfl (fun h => nomatch h) (admits_some hl)
  · have hstop := h.stopsAt rfl h0 hl
    have hu := h.unfinished (n := l) (by omega)
    obtain ⟨rest, hrest, htext⟩ := h.resume_empty hu
    refine ⟨hstop, fun limit hlimit => ⟨rest, ?_, ?_⟩⟩
    · rw [hstop.2]
      exact hrest.run_withLimit (limit_after p l m {}) (fun _ => Nat.lt_add_left _ hn) hlimit
    · rw [hstop.2]
      exact htext
  · -- without a return every step that the counter can count goes on
    refine stopsAt_of_unfinished rfl h0 (Classical.byContradiction fun hu => ?_)
    have hle := runFor_steps_le p (l + 1) m {}
    generalize hc : m.runFor p (l + 1) {} = c at hu hle
    obtain ⟨r, m', out⟩ := c
    have : 0xFFFFFFFFFFFFFFFF < m'.steps := hnot r m' out ⟨hu, l + 1, hc⟩
    have : m'.steps ≤ m.steps + (l + 1) := hle
    omega
  · have h := returns_missingEnd (m := m) rfl hu hpc
    have hsteps := (runFor_unfinished hu).2
    have hl : Admits (some l) (m.after p l {}).1.steps := admits_some (by omega)
    have hrun : (m.withLimit (some l)).run p {} = _ :=
      h.run_withLimit rfl (fun h => nomatch h) hl
    rw [hrun]

/-- A program of three statements under the limits 2 and 3, and taken up again after the first. -/
theorem run_limit_transparent_of_dump :
    let p : Program := { statements := #[⟨.compute .load (.const 5), ⟨1, ⟨0, 7⟩⟩⟩,
      ⟨.dump 1, ⟨2, ⟨8, 6⟩⟩⟩, ⟨.halt, ⟨3, ⟨15, 3⟩⟩⟩] }
    let m : Machine := {}
    let m' := (m.after p 3 {}).1
    m.Returns p {} .halted m' (m.after p 3 {}).2 ∧
      (m.withLimit (some 3)).run p {} = (.halted, m'.withLimit (some 3), (m.after p 3 {}).2) ∧
      m.StopsAt p 2 ∧
      ∃ rest, (((m.withLimit (some 2)).run p {}).2.1.withLimit none).run p {} =
          (.halted, m', ⟨rest, none⟩) ∧
        ((m.withLimit (some 2)).run p {}).2.2.text ++ rest =
          "--- DUMP (PC: 1) ---\nc(0): \t5\n" := by
  intro p m m'
  have hret : m.Returns p {} .halted m' (m.after p 3 {}).2 := ⟨by simp, 3, rfl⟩
  obtain ⟨hret', -⟩ := run_limit_transparent p {}
  obtain ⟨-, hwithin, hcut⟩ := hret' .halted m' (m.after p 3 {}).2 hret (by decide)
  obtain ⟨hstop, hresume⟩ := hcut 2 (by decide)
  obtain ⟨rest, hrun, htext⟩ := hresume none (fun _ h => nomatch h)
  exact ⟨hret, hwithin 3 (by decide), hstop, rest, hrun, htext.trans (by decide)⟩

end Ram.Machine
