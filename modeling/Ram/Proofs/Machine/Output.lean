import Ram.Proofs.Machine.Step
import Ram.Proofs.Text.Ascii

/-!
# What a step prints

A dump is many writes, but together they are one write of its text (`Sink.writeDump_eq_write`), so
it makes no difference where the room in a sink runs out. `Machine.step_prints` says all that a
step has to do with its sink: nothing, or it executes a dump and the sink decides whether that
succeeds.
-/

namespace Ram

open Ram.Text

/-! ## Writes -/

theorem isAscii_dumpText (pc : Nat) (get : Nat → Int64) (count : Nat) :
    IsAscii (dumpText pc get count) := by
  unfold dumpText
  refine ((IsAscii.append ?_ (.toString_nat pc)).append ?_).append (.join fun s hs => ?_)
  · decide
  · decide
  · obtain ⟨i, -, rfl⟩ := List.mem_map.mp hs
    refine (((IsAscii.append ?_ (.toString_nat i)).append ?_).append (.toString_int _)).append ?_
    · decide
    · decide
    · decide

namespace Sink

theorem write_empty (out : Sink) : out.write "" = .ok out := by
  obtain ⟨t, room⟩ := out
  cases room with
  | none => rw [write_unbounded, String.append_empty]
  | some n => simp [write]

theorem write_of_le {s : String} {n : Nat} (h : s.length ≤ n) (t : String) :
    write ⟨t, some n⟩ s = .ok ⟨t ++ s, some (n - s.length)⟩ := by
  simp only [write, h, ↓reduceIte]

theorem write_of_lt {s : String} {n : Nat} (h : n < s.length) (t : String) :
    write ⟨t, some n⟩ s = .error ⟨t ++ cut s n, some 0⟩ := by
  simp only [write, Nat.not_le.mpr h, ↓reduceIte]
  rfl

/-- Two writes, of which the second is made if the first succeeds, are one. -/
theorem write_append (out : Sink) (a b : String) :
    out.write (a ++ b) = (out.write a).bind (·.write b) := by
  obtain ⟨t, room⟩ := out
  cases room with
  | none => simp only [write_unbounded, Except.bind, String.append_assoc]
  | some n =>
    have hlen : (a ++ b).length = a.length + b.length := String.length_append a b
    by_cases ha : a.length ≤ n
    · rw [write_of_le ha]
      simp only [Except.bind]
      by_cases hb : b.length ≤ n - a.length
      · rw [write_of_le hb, write_of_le (by omega), hlen, String.append_assoc, Nat.sub_add_eq]
      · -- the cut falls into the second text
        rw [write_of_lt (Nat.not_le.mp hb), write_of_lt (by omega), cut_append_of_le ha,
          String.append_assoc]
    · have ha : n < a.length := Nat.not_le.mp ha
      rw [write_of_lt ha, write_of_lt (by omega), cut_append_of_lt ha]
      rfl

theorem writeCells_eq_write (regs : Registers) (n : Nat) : ∀ (i : Nat) (out : Sink),
    writeCells regs i n out =
      out.write (String.join ((List.range' i n).map fun k => dumpCell k (regs.get k))) := by
  induction n with
  | zero => intro i out; exact (write_empty out).symm
  | succ n ih =>
    intro i out
    rw [writeCells, List.range'_succ, List.map_cons, String.join_cons, write_append]
    cases out.write (dumpCell i (regs.get i)) with
    | ok out => exact ih (i + 1) out
    | error out => rfl

/-- However a dump is cut into writes, it is one write of its text. -/
theorem writeDump_eq_write (out : Sink) (pc : Nat) (regs : Registers) (count : Nat) :
    out.writeDump pc regs count = out.write (dumpText pc regs.get count) := by
  have htext : dumpText pc regs.get count = dumpHeader pc ++
      String.join ((List.range' 0 count).map fun i => dumpCell i (regs.get i)) := by
    rw [← List.range_eq_range']
    rfl
  rw [writeDump, htext, write_append]
  cases out.write (dumpHeader pc) with
  | ok out => exact writeCells_eq_write regs count 0 out
  | error out => rfl

end Sink

namespace Machine

variable {p : Program} {m : Machine} {n : Nat}

/-! ## What a step prints -/

/-- The text that a step prints if all of it is taken. -/
def printed (p : Program) (m : Machine) : String := (m.step p {}).2.2.text

/-- The machine behind a dump that was written. -/
def dumped (m : Machine) : Machine := { m.counted with pc := m.pc + 1 }

/-- A step has nothing to do with the sink, or it executes a dump, of which the sink decides
whether it succeeds. -/
theorem step_prints (p : Program) (m : Machine) :
    (m.printed p = "" ∧ ∀ out, m.step p out = ((m.step p {}).1, (m.step p {}).2.1, out)) ∨
    (∃ s count, m.fetch p = .ok s ∧ s.instruction = .dump count ∧
      m.printed p = dumpText m.pc m.regs.get count ∧
      ∀ out, m.step p out =
        match out.write (m.printed p) with
        | .ok out => (.running, m.dumped, out)
        | .error out => (.failed (.output Sink.fullMessage), m.counted, out)) := by
  unfold printed
  cases hf : m.fetch p with
  | error r => exact .inl ⟨by rw [step_of_fetch_error hf], fun out => by
      simp only [step_of_fetch_error hf]⟩
  | ok s =>
    cases he : s.effect p.labels m.regs with
    | error f => exact .inl ⟨by rw [step_of_fetch_ok hf, execute_of_fault he], fun out => by
        simp only [step_of_fetch_ok hf, execute_of_fault he]⟩
    | ok e =>
      have hstep : ∀ out, m.step p out = m.counted.perform out e := fun out => by
        rw [step_of_fetch_ok hf, execute_of_effect he]
      cases e with
      | print count =>
        have hcases := s.effect_cases p.labels m.regs
        rw [he] at hcases
        have hdump : ∀ out, m.step p out = match out.write (dumpText m.pc m.regs.get count) with
            | .ok out => (.running, m.dumped, out)
            | .error out => (.failed (.output Sink.fullMessage), m.counted, out) := by
          intro out
          rw [hstep, perform, Sink.writeDump_eq_write]
          rfl
        have hprinted : (m.step p {}).2.2.text = dumpText m.pc m.regs.get count := by
          rw [hdump, Sink.write_unbounded]
          exact String.empty_append
        exact .inr ⟨s, count, rfl, hcases, hprinted, by rwa [hprinted]⟩
      | write i v => exact .inl ⟨by rw [hstep]; rfl, fun out => by simp only [hstep]; rfl⟩
      | jump target => exact .inl ⟨by rw [hstep]; rfl, fun out => by simp only [hstep]; rfl⟩
      | next => exact .inl ⟨by rw [hstep]; rfl, fun out => by simp only [hstep]; rfl⟩
      | stop => exact .inl ⟨by rw [hstep]; rfl, fun out => by simp only [hstep]; rfl⟩

theorem isAscii_printed (p : Program) (m : Machine) : IsAscii (m.printed p) := by
  rcases step_prints p m with ⟨hnone, -⟩ | ⟨s, count, -, -, htext, -⟩
  · rw [hnone]
    exact fun c hc => nomatch hc
  · rw [htext]
    exact isAscii_dumpText m.pc m.regs.get count

theorem step_of_fits (h : (m.printed p).utf8ByteSize ≤ n) (t : String) :
    m.step p ⟨t, some n⟩ = ((m.step p {}).1, (m.step p {}).2.1,
      ⟨t ++ m.printed p, some (n - (m.printed p).utf8ByteSize)⟩) := by
  rw [(isAscii_printed p m).utf8ByteSize_eq] at h ⊢
  rcases step_prints p m with ⟨hnone, hstep⟩ | ⟨s, count, -, -, -, hstep⟩
  · rw [hstep, hnone, String.append_empty]
    rfl
  · rw [hstep, hstep {}, Sink.write_of_le h, Sink.write_unbounded]

theorem step_of_overflow (h : n < (m.printed p).utf8ByteSize) (t : String) :
    (∃ s count, m.fetch p = .ok s ∧ s.instruction = .dump count ∧
      m.printed p = dumpText m.pc m.regs.get count) ∧
    m.step p ⟨t, some n⟩ = (.failed (.output Sink.fullMessage), m.counted,
      ⟨t ++ cut (m.printed p) n, some 0⟩) := by
  rw [(isAscii_printed p m).utf8ByteSize_eq] at h
  rcases step_prints p m with ⟨hnone, -⟩ | ⟨s, count, hf, hs, htext, hstep⟩
  · rw [hnone] at h
    exact absurd h (Nat.not_lt_zero n)
  · refine ⟨⟨s, count, hf, hs, htext⟩, ?_⟩
    rw [hstep, Sink.write_of_lt h]

end Machine

end Ram
