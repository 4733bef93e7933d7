import Ram.Proofs.Machine.Calls
import Ram.Proofs.Machine.Output

/-!
# Steps that fail or halt

A step that fails changes nothing but the count, and that only if a statement was begun
(`step_failed`); nothing is printed unless it is the output that fails. What made it fail is still
there, so later calls fail in the same way (`FailsWith`), whatever happens in between. A machine
that has halted stands on an `END` and stays as it is (`Reachable.haltedAtEnd`, `calls_of_halted`).
-/

namespace Ram

/-- A statement was begun before the fault arose. -/
def Fault.counts : Fault → Bool
  | missingEnd _ | stepLimit _ _ => false
  | _ => true

theorem Fault.counts_of_ofStatement {f : Fault} (h : f.ofStatement = true) : f.counts = true := by
  cases f with
  | missingEnd a => cases h
  | stepLimit l pc => cases h
  | _ => rfl

namespace Machine

variable {p : Program} {m m' : Machine} {out out' : Sink} {f : Fault}

/-! ## One step -/

/-- The ways in which a step fails, in the order in which they are looked at. -/
theorem step_failed_cases (h : m.step p out = (.failed f, m', out')) :
    (m.halted = false ∧ p.statements[m.pc]? = none ∧ f = .missingEnd m.acc ∧ m' = m) ∨
    (∃ l s, m.halted = false ∧ p.statements[m.pc]? = some s ∧ m.limit = some l ∧ l ≤ m.steps ∧
      f = .stepLimit l m.pc ∧ m' = m) ∨
    (∃ s, m.halted = false ∧ p.statements[m.pc]? = some s ∧
      s.effect p.labels m.regs = .error f ∧ m' = m.counted) ∨
    (f = .output Sink.fullMessage ∧ m' = m.counted) := by
  rcases fetch_cases p m with
    ⟨-, hf⟩ | ⟨hh, hs, hf⟩ | ⟨l, s, hh, hs, hl, hle, hf⟩ | ⟨s, hh, hs, -, hf⟩
  · rw [step_of_fetch_error hf] at h
    cases h
  · rw [step_of_fetch_error hf] at h
    cases h
    exact .inl ⟨hh, hs, rfl, rfl⟩
  · rw [step_of_fetch_error hf] at h
    cases h
    exact .inr (.inl ⟨l, s, hh, hs, hl, hle, rfl, rfl⟩)
  · rw [step_of_fetch_ok hf] at h
    cases he : s.effect p.labels m.regs with
    | error g =>
      rw [execute_of_fault he] at h
      cases h
      exact .inr (.inr (.inl ⟨s, hh, hs, he, rfl⟩))
    | ok e =>
      rw [execute_of_effect he] at h
      cases e with
      | print count =>
        simp only [perform] at h
        split at h
        · cases h
        · cases h
          exact .inr (.inr (.inr ⟨rfl, rfl⟩))
      | write i v => cases h
      | jump target => cases h
      | next => cases h
      | stop => cases h

/-- A step that fails changes nothing but the count, and prints nothing unless the output fails. -/
theorem step_failed (h : m.step p out = (.failed f, m', out')) :
    m' = (if f.counts then m.counted else m) ∧ ((∀ cause, f ≠ .output cause) → out' = out) := by
  constructor
  · rcases step_failed_cases h with
      ⟨-, -, rfl, rfl⟩ | ⟨l, s, -, -, -, -, rfl, rfl⟩ | ⟨s, -, -, he, rfl⟩ | ⟨rfl, rfl⟩
    · rfl
    · rfl
    · have hcases := s.effect_cases p.labels m.regs
      rw [he] at hcases
      rw [Fault.counts_of_ofStatement hcases.ofStatement]
      rfl
    · rfl
  · intro hcause
    rcases step_prints p m with ⟨-, hstep⟩ | ⟨s, count, -, -, -, hstep⟩
    · rw [hstep] at h
      exact (congrArg (fun c => c.2.2) h).symm
    · rw [hstep] at h
      split at h
      · cases h
      · cases h
        exact absurd rfl (hcause _)

/-! ## The same fault again -/

/-- Every step and every run fails with this fault. -/
def FailsWith (p : Program) (m : Machine) (f : Fault) : Prop :=
  ∀ out, (m.step p out).1 = .failed f ∧ (m.run p out).1 = .failed f

theorem failsWith_of_step (h : ∀ out, (m.step p out).1 = .failed f) : m.FailsWith p f := by
  intro out
  have hne : (m.step p out).1 ≠ .running := by
    rw [h out]
    simp
  refine ⟨h out, ?_⟩
  rw [run_of_ended hne, h out]
  rfl

theorem failsWith_missingEnd (hh : m.halted = false) (hs : p.statements[m.pc]? = none)
    (cs : List Call) : (m.calls p cs).FailsWith p (.missingEnd m.acc) := by
  obtain ⟨hh', hs', hacc⟩ := calls_keep
    (P := fun c => c.halted = false ∧ p.statements[c.pc]? = none ∧ c.acc = m.acc)
    (fun c out hc => by rwa [step_of_fetch_error (fetch_of_missing hc.1 hc.2.1)])
    (fun c limit hc => hc) cs ⟨hh, hs, rfl⟩
  refine failsWith_of_step fun out => ?_
  rw [step_of_fetch_error (fetch_of_missing hh' hs'), hacc]

theorem calls_of_reached {s : Statement} {l : Nat} (hh : m.halted = false)
    (hs : p.statements[m.pc]? = some s) (hl : m.limit = some l) (hle : l ≤ m.steps) :
    ∀ cs : List Call, (∀ limit, .setLimit limit ∈ cs → limit = m.limit) → m.calls p cs = m
  | [], _ => rfl
  | c :: cs, hcs => by
    have hstep : ∀ out, m.step p out = (.failed (.stepLimit l m.pc), m, out) := fun out =>
      step_of_fetch_error (fetch_of_reached hh hs hl hle)
    have hc : m.call p c = m := by
      cases c with
      | step out => rw [call, hstep]
      | run out => rw [call, run_of_ended (by rw [hstep]; simp), hstep]
      | setLimit limit => exact withLimit_self (hcs limit List.mem_cons_self).symm
    rw [calls_cons, hc]
    exact calls_of_reached hh hs hl hle cs fun limit h => hcs limit (.tail _ h)

theorem failsWith_stepLimit {s : Statement} {l : Nat} (hh : m.halted = false)
    (hs : p.statements[m.pc]? = some s) (hl : m.limit = some l) (hle : l ≤ m.steps)
    (cs : List Call) (hcs : ∀ limit, .setLimit limit ∈ cs → limit = m.limit) :
    (m.calls p cs).FailsWith p (.stepLimit l m.pc) := by
  rw [calls_of_reached hh hs hl hle cs hcs]
  refine failsWith_of_step fun out => ?_
  rw [step_of_fetch_error (fetch_of_reached hh hs hl hle)]

/-- The machine is about to execute a statement that fails with its registers. -/
structure Blocked (p : Program) (f : Fault) (m : Machine) : Prop where
  running : m.halted = false
  statement : ∃ s, p.statements[m.pc]? = some s ∧ s.effect p.labels m.regs = .error f

namespace Blocked

/-- The fault arises, or the limit is reached; nothing else happens. -/
theorem step (h : Blocked p f m) (out : Sink) : Blocked p f (m.step p out).2.1 := by
  obtain ⟨hh, s, hs, he⟩ := h
  rcases fetch_cases p m with ⟨-, hf⟩ | ⟨-, -, hf⟩ | ⟨l, _, -, -, -, -, hf⟩ | ⟨s', -, hs', -, hf⟩
  · rw [step_of_fetch_error hf]; exact ⟨hh, s, hs, he⟩
  · rw [step_of_fetch_error hf]; exact ⟨hh, s, hs, he⟩
  · rw [step_of_fetch_error hf]; exact ⟨hh, s, hs, he⟩
  · obtain rfl : s = s' := Option.some.inj (hs ▸ hs')
    rw [step_of_fetch_ok hf, execute_of_fault he]
    exact ⟨hh, s, hs, he⟩

theorem calls (h : Blocked p f m) (cs : List Call) : Blocked p f (m.calls p cs) :=
  calls_keep (P := Blocked p f) (fun _ out hc => hc.step out)
    (fun _ _ hc => ⟨hc.running, hc.statement⟩) cs h

theorem failsWith (h : Blocked p f m) (hl : m.limit = none) : m.FailsWith p f := by
  obtain ⟨hh, s, hs, he⟩ := h
  have hf : m.fetch p = .ok s := fetch_of_allowed hh hs fun l hl' => by rw [hl] at hl'; cases hl'
  refine failsWith_of_step fun out => ?_
  rw [step_of_fetch_ok hf, execute_of_fault he]

end Blocked

/-! ## Machines that have halted -/

/-- A machine that has halted keeps everything but its limit. -/
theorem calls_of_halted (h : m.halted = true) (cs : List Call) :
    m.calls p cs = m.withLimit (m.calls p cs).limit := by
  refine (calls_keep (P := fun c => c.halted = true ∧ c = m.withLimit c.limit)
    (fun c out hc => ?_) (fun c limit hc => ?_) cs ⟨h, rfl⟩).2
  · rwa [step_of_fetch_error (fetch_of_halted hc.1)]
  · exact ⟨hc.1, by rw [hc.2]; rfl⟩

theorem step_of_halted (h : m.halted = true) (out : Sink) :
    m.step p out = (.halted, m, out) ∧ m.run p out = (.halted, m, out) := by
  have hstep : m.step p out = (.halted, m, out) := step_of_fetch_error (fetch_of_halted h)
  refine ⟨hstep, ?_⟩
  rw [run_of_ended (by rw [hstep]; simp), hstep]
  rfl

/-- A halted machine stands on an `END`. -/
def HaltedAtEnd (p : Program) (m : Machine) : Prop :=
  m.halted = true → ∃ s, p.statements[m.pc]? = some s ∧ s.instruction = .halt

theorem haltedAtEnd_step (h : m.HaltedAtEnd p) (out : Sink) :
    (m.step p out).2.1.HaltedAtEnd p := by
  cases hf : m.fetch p with
  | error r => rwa [step_of_fetch_error hf]
  | ok s =>
    obtain ⟨hh, hs, -⟩ := of_fetch_ok hf
    have hrun : ∀ c : Machine, c.halted = m.halted → c.HaltedAtEnd p := fun c hc hc' => by
      rw [hc, hh] at hc'
      cases hc'
    have hcases := s.effect_cases p.labels m.regs
    rw [step_of_fetch_ok hf]
    cases he : s.effect p.labels m.regs with
    | error g => rw [execute_of_fault he]; exact hrun _ rfl
    | ok e =>
      rw [he] at hcases
      rw [execute_of_effect he]
      cases e with
      | stop => exact fun _ => ⟨s, hs, hcases⟩
      | print count =>
        simp only [perform]
        split
        · exact hrun _ rfl
        · exact hrun _ rfl
      | write i v => exact hrun _ rfl
      | jump target => exact hrun _ rfl
      | next => exact hrun _ rfl

theorem Reachable.haltedAtEnd (h : Reachable p m) : m.HaltedAtEnd p :=
  h.induct (fun _ h => nomatch h) (fun _ out h => haltedAtEnd_step h out) (fun _ _ h => h)

theorem step_halted (h : m.step p out = (.halted, m', out')) :
    m'.halted = true ∧ m'.regs = m.regs ∧ m'.pc = m.pc ∧ m'.limit = m.limit ∧ out' = out := by
  rcases fetch_cases p m with ⟨hh, hf⟩ | ⟨-, -, hf⟩ | ⟨l, s, -, -, -, -, hf⟩ | ⟨s, -, -, -, hf⟩
  · rw [step_of_fetch_error hf] at h
    cases h
    exact ⟨hh, rfl, rfl, rfl, rfl⟩
  · rw [step_of_fetch_error hf] at h
    cases h
  · rw [step_of_fetch_error hf] at h
    cases h
  · rw [step_of_fetch_ok hf] at h
    cases he : s.effect p.labels m.regs with
    | error g => rw [execute_of_fault he] at h; cases h
    | ok e =>
      rw [execute_of_effect he] at h
      cases e with
      | stop => cases h; exact ⟨rfl, rfl, rfl, rfl, rfl⟩
      | print count =>
        simp only [perform] at h
        split at h <;> cases h
      | write i v => cases h
      | jump target => cases h
      | next => cases h

/-- Steps that fail or halt leave a reachable machine intact. A fault leaves registers, program
counter, flag and limit as they were and is counted if a statement was begun, and nothing is
printed unless the output failed. It arises again in every later step and run: a missing end
whatever is called in between, the step limit as long as it is not changed, and the fault of a
statement whenever no limit is set. After a step that halts the machine stands on an `END`, and
no later call changes anything but the limit. -/
theorem failure_leaves_intact (hm : Reachable p m) (out : Sink) :
    (∀ f m' out', m.step p out = (.failed f, m', out') →
      m' = (if f.counts then m.counted else m) ∧
      ((∀ cause, f ≠ .output cause) → out' = out) ∧
      (∀ acc, f = .missingEnd acc → ∀ cs, (m'.calls p cs).FailsWith p f) ∧
      (∀ l pc, f = .stepLimit l pc →
        ∀ cs, (∀ limit, .setLimit limit ∈ cs → limit = m.limit) →
          (m'.calls p cs).FailsWith p f) ∧
      (f.ofStatement = true →
        ∀ cs, (m'.calls p cs).limit = none → (m'.calls p cs).FailsWith p f)) ∧
    (∀ m' out', m.step p out = (.halted, m', out') →
      (∃ s, p.statements[m'.pc]? = some s ∧ s.instruction = .halt) ∧
      m'.regs = m.regs ∧ m'.pc = m.pc ∧ m'.limit = m.limit ∧ out' = out ∧
      ∀ cs, m'.calls p cs = m'.withLimit (m'.calls p cs).limit ∧
        ∀ out, (m'.calls p cs).step p out = (.halted, m'.calls p cs, out) ∧
          (m'.calls p cs).run p out = (.halted, m'.calls p cs, out)) := by
  refine ⟨fun f m' out' h => ?_, fun m' out' h => ?_⟩
  · obtain ⟨hm', hout⟩ := step_failed h
    refine ⟨hm', hout, ?_⟩
    rcases step_failed_cases h with
      ⟨hh, hs, rfl, rfl⟩ | ⟨l, s, hh, hs, hl, hle, rfl, rfl⟩ | ⟨s, hh, hs, he, rfl⟩ | ⟨rfl, rfl⟩
    · exact ⟨fun _ _ => failsWith_missingEnd hh hs, fun _ _ hf => (nomatch hf),
        fun hf => (nomatch hf)⟩
    · exact ⟨fun _ hf => (nomatch hf), fun _ _ _ => failsWith_stepLimit hh hs hl hle,
        fun hf => (nomatch hf)⟩
    · have hblocked : Blocked p f m.counted := ⟨hh, s, hs, he⟩
      have hcases := s.effect_cases p.labels m.regs
      rw [he] at hcases
      refine ⟨?_, ?_, fun _ cs hl => (hblocked.calls cs).failsWith hl⟩
      · rintro acc rfl
        cases hcases
      · rintro l pc rfl
        cases hcases
    · exact ⟨fun _ hf => (nomatch hf), fun _ _ hf => (nomatch hf), fun hf => (nomatch hf)⟩
  · obtain ⟨hh, hregs, hpc, hlimit, hout⟩ := step_halted h
    have hend : m'.HaltedAtEnd p := by
      have := haltedAtEnd_step hm.haltedAtEnd out
      rwa [h] at this
    refine ⟨hend hh, hregs, hpc, hlimit, hout, fun cs => ?_⟩
    have hcalls := calls_of_halted (p := p) hh cs
    exact ⟨hcalls, step_of_halted (by rw [hcalls]; exact hh)⟩

/-- A division by zero at the start of one program, and the end at the start of another. -/
theorem failure_leaves_intact_at_start :
    let site : Source.Site := ⟨1, ⟨0, 5⟩⟩
    let p : Program := { statements := #[⟨.compute .div (.cell ⟨.direct, 1⟩), site⟩] }
    let q : Program := { statements := #[⟨.halt, site⟩] }
    let m : Machine := {}
    let m' : Machine := { steps := 1, halted := true }
    Reachable p m ∧ m.step p {} = (.failed (.divisionByZero site), m.counted, {}) ∧
      (∀ cs, (m.counted.calls p cs).limit = none →
        (m.counted.calls p cs).FailsWith p (.divisionByZero site)) ∧
      Reachable q m ∧ m.step q {} = (.halted, m', {}) ∧
      ∀ cs, m'.calls q cs = m'.withLimit (m'.calls q cs).limit := by
  intro site p q m m'
  have hp : Reachable p m := ⟨{}, [], rfl⟩
  have hq : Reachable q m := ⟨{}, [], rfl⟩
  have hfail : m.step p {} = (.failed (.divisionByZero site), m.counted, {}) := by decide
  have hhalt : m.step q {} = (.halted, m', {}) := by decide
  obtain ⟨-, -, -, -, hagain⟩ := (failure_leaves_intact hp {}).1 _ _ _ hfail
  obtain ⟨-, -, -, -, -, hstays⟩ := (failure_leaves_intact hq {}).2 _ _ hhalt
  exact ⟨hp, hfail, hagain rfl, hq, hhalt, fun cs => (hstays cs).1⟩

end Machine

end Ram
