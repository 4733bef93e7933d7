import Ram.CommandLine.Session
import Ram.Proofs.Machine.Run

/-!
# What a run shows

A run that is followed turn by turn shows what the machine prints in one go, and behind it what
its ending adds (`Job.run_of_run_eq`). Whether it is traced decides on the lines of the trace alone:
there is one for every statement that begins, or none at all.
-/

namespace Ram.CommandLine.Job

variable {j : Job} {m : Machine}

/-- What is printed behind the program's own output, and how the session ends. -/
def finish (j : Job) (m : Machine) : Machine.Ending → String × Outcome
  | .halted => (j.closing m, .success)
  | .failed f => ("", .failure (.fault f j.file))
  | .unfinished => ("", .unfinished)

/-! ## One turn -/

theorem traceLine_step (j : Job) (m : Machine) :
    (j.step m).traceLine = (m.tracedStep j.program j.trace {}).1 := by
  unfold step
  generalize m.tracedStep j.program j.trace {} = c
  obtain ⟨line, r, m', out⟩ := c
  cases r <;> rfl

theorem step_of_running (h : (m.step j.program {}).1 = .running) :
    (j.step m).stdout = (m.step j.program {}).2.2.text ∧
      (j.step m).next = .ok (m.step j.program {}).2.1 := by
  rw [← m.tracedStep_snd j.program j.trace {}] at h ⊢
  unfold step
  generalize m.tracedStep j.program j.trace {} = c at h ⊢
  obtain ⟨line, r, m', out⟩ := c
  subst h
  exact ⟨rfl, rfl⟩

theorem step_of_ended (h : (m.step j.program {}).1 ≠ .running) :
    (j.step m).stdout = (m.step j.program {}).2.2.text ++
        (j.finish (m.step j.program {}).2.1 (m.step j.program {}).1.ending).1 ∧
      (j.step m).next =
        .error (j.finish (m.step j.program {}).2.1 (m.step j.program {}).1.ending).2 := by
  rw [← m.tracedStep_snd j.program j.trace {}] at h ⊢
  unfold step
  generalize m.tracedStep j.program j.trace {} = c at h ⊢
  obtain ⟨line, r, m', out⟩ := c
  cases r with
  | running => exact absurd rfl h
  | halted => exact ⟨rfl, rfl⟩
  | failed f => exact ⟨(String.append_empty).symm, rfl⟩

/-- A turn that is traced adds a line for the statement that it begins, and otherwise none. -/
theorem trace_add_step (j : Job) (m : Machine) (t : Transcript) :
    (j.trace = true → (t.add (j.step m)).trace.size + m.steps =
      t.trace.size + (m.step j.program {}).2.1.steps) ∧
    (j.trace = false → (t.add (j.step m)).trace = t.trace) := by
  unfold Transcript.add
  rw [traceLine_step]
  cases h : m.fetch j.program with
  | ok s =>
    rw [Machine.tracedStep_of_fetch_ok h, Machine.step_of_fetch_ok h, Machine.steps_execute]
    refine ⟨fun htrace => ?_, fun htrace => by simp [htrace]⟩
    simp only [htrace, ↓reduceIte, Array.size_push]
    omega
  | error r =>
    rw [Machine.tracedStep_of_fetch_error h, Machine.step_of_fetch_error h]
    exact ⟨fun _ => rfl, fun _ => rfl⟩

/-! ## All turns -/

theorem follow_collect_of_ok {m' : Machine} (h : (j.step m).next = .ok m') (n : Nat)
    (t : Transcript) : (j.follow Turn.collect (n + 1) m).run t =
      (j.follow Turn.collect n m').run (t.add (j.step m)) := by
  simp only [follow, Turn.collect, h, StateT.run_bind, StateT.run_modify, pure_bind]

theorem follow_collect_of_error {outcome : Outcome} (h : (j.step m).next = .error outcome)
    (n : Nat) (t : Transcript) :
    (j.follow Turn.collect (n + 1) m).run t = (outcome, t.add (j.step m)) := by
  simp only [follow, Turn.collect, h, StateT.run_bind, StateT.run_modify, StateT.run_pure,
    pure_bind]
  rfl

/-- What following a run from `m` adds to a transcript, when the run comes to `c`. -/
structure Adds (j : Job) (m : Machine) (c : Machine.Ending × Machine × Sink)
    (t t' : Transcript) : Prop where
  stdout : t'.stdout = t.stdout ++ c.2.2.text ++ (j.finish c.2.1 c.1).1
  traced : j.trace = true → t'.trace.size + m.steps = t.trace.size + c.2.1.steps
  untraced : j.trace = false → t'.trace = t.trace

theorem follow_collect (j : Job) (n : Nat) : ∀ (m : Machine) (t : Transcript)
    {c : Machine.Ending × Machine × Sink}, m.runFor j.program n {} = c →
      ∃ t', (j.follow Turn.collect n m).run t = ((j.finish c.2.1 c.1).2, t') ∧ j.Adds m c t t' := by
  induction n with
  | zero =>
    rintro m t _ rfl
    exact ⟨t, rfl, by simp [Machine.runFor, finish], fun _ => rfl, fun _ => rfl⟩
  | succ n ih =>
    rintro m t _ rfl
    obtain ⟨htraced, huntraced⟩ := j.trace_add_step m t
    by_cases hr : (m.step j.program {}).1 = .running
    · obtain ⟨hstdout, hnext⟩ := step_of_running hr
      obtain ⟨t', hrun, hadds⟩ := ih (m.step j.program {}).2.1 (t.add (j.step m)) rfl
      have hsink : (m.step j.program {}).2.2 = ⟨(m.step j.program {}).2.2.text, none⟩ :=
        congrArg (fun c => c.2.2) (m.step_unbounded j.program "")
      rw [Machine.runFor_of_running n hr, hsink, Machine.runFor_unbounded,
        follow_collect_of_ok hnext]
      refine ⟨t', hrun, ?_, fun h => ?_, fun h => (hadds.untraced h).trans (huntraced h)⟩
      · rw [hadds.stdout, Transcript.add, hstdout]
        simp only [String.append_assoc]
      · have := htraced h
        have := hadds.traced h
        dsimp only at this ⊢
        omega
    · obtain ⟨hstdout, hnext⟩ := step_of_ended hr
      rw [Machine.runFor_of_ended n hr]
      refine ⟨_, follow_collect_of_error hnext n t, ?_, htraced, huntraced⟩
      rw [Transcript.add, hstdout, ← String.append_assoc]

/-- A run that is followed shows what the machine prints and what its ending adds, whether or not
it is traced. A trace has one line for every statement that the run begins. -/
theorem run_of_run_eq {c : Machine.Ending × Machine × Sink}
    (h : j.machine.run j.program {} = c) :
    j.run.outcome = (j.finish c.2.1 c.1).2 ∧
      j.run.stdout = j.stdout ++ c.2.2.text ++ (j.finish c.2.1 c.1).1 ∧
      j.run.trace.size = if j.trace then c.2.1.steps - j.machine.steps else 0 := by
  obtain ⟨t, hrun, hstdout, htraced, huntraced⟩ :=
    j.follow_collect j.machine.patience j.machine { stdout := j.stdout } h
  unfold run
  rw [hrun]
  refine ⟨rfl, hstdout, ?_⟩
  cases htrace : j.trace with
  | false => exact congrArg Array.size (huntraced htrace)
  | true =>
    have := htraced htrace
    simp only [Array.size_empty, Nat.zero_add] at this
    exact Nat.eq_sub_of_add_eq this

end Ram.CommandLine.Job
