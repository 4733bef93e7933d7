import Ram.Proofs.Machine.Output
import Ram.Proofs.Machine.Run

/-!
# Output that is cut short

A sink with little room keeps what fits of the text that a machine prints and fails the write that
does not fit. A run into such a sink is the run into one without a bound as long as the text fits
(`runFor_of_fits`), and else it breaks off at the first dump that does not (`runFor_of_overflow`).
All that is printed is ASCII, so its characters are its bytes (`run_cut_short`).
-/

namespace Ram.Machine

open Ram.Text

variable {p : Program} {m : Machine} {n : Nat}

/-! ## Many steps -/

theorem step_sink (p : Program) (m : Machine) : (m.step p {}).2.2 = ⟨m.printed p, none⟩ := by
  have h := step_unbounded p m ""
  rw [String.empty_append] at h
  exact congrArg (fun c => c.2.2) h

theorem after_unbounded (p : Program) : ∀ (k : Nat) (m : Machine) (t : String),
    m.after p k ⟨t, none⟩ = ((m.after p k {}).1, ⟨t ++ (m.after p k {}).2.text, none⟩)
  | 0, m, t => by simp only [after, String.append_empty]
  | k + 1, m, t => by
    have ih := after_unbounded p k (m.step p {}).2.1
    have hstep := step_unbounded p m t
    rw [step_sink] at hstep
    simp only [after]
    rw [hstep, step_sink, ih, ih (m.printed p), String.append_assoc]

theorem runFor_succ_of_running (k : Nat) (h : (m.step p {}).1 = .running) :
    m.runFor p (k + 1) {} =
      (((m.step p {}).2.1.runFor p k {}).1, ((m.step p {}).2.1.runFor p k {}).2.1,
        ⟨m.printed p ++ ((m.step p {}).2.1.runFor p k {}).2.2.text, none⟩) := by
  rw [runFor_of_running k h, step_sink, runFor_unbounded]

theorem after_succ (p : Program) (m : Machine) (k : Nat) :
    m.after p (k + 1) {} = (((m.step p {}).2.1.after p k {}).1,
      ⟨m.printed p ++ ((m.step p {}).2.1.after p k {}).2.text, none⟩) := by
  rw [after, step_sink, after_unbounded]

/-- A text that fits is printed as if there were no bound. -/
theorem runFor_of_fits : ∀ {k n : Nat} {m : Machine} (t : String),
    (m.runFor p k {}).2.2.text.utf8ByteSize ≤ n →
      m.runFor p k ⟨t, some n⟩ = ((m.runFor p k {}).1, (m.runFor p k {}).2.1,
        ⟨t ++ (m.runFor p k {}).2.2.text, some (n - (m.runFor p k {}).2.2.text.utf8ByteSize)⟩)
  | 0, n, m, t, _ => by simp [runFor]
  | k + 1, n, m, t, h => by
    by_cases hr : (m.step p {}).1 = .running
    · rw [runFor_succ_of_running k hr] at h ⊢
      simp only [String.utf8ByteSize_append] at h ⊢
      have hstep := step_of_fits (p := p) (m := m) (n := n) (by omega) t
      have hr' : (m.step p ⟨t, some n⟩).1 = .running := by rw [hstep]; exact hr
      have ih := runFor_of_fits (k := k) (m := (m.step p {}).2.1)
        (n := n - (m.printed p).utf8ByteSize) (t ++ m.printed p) (by omega)
      rw [runFor_of_running k hr', hstep, ih, String.append_assoc, Nat.sub_add_eq]
    · rw [runFor_of_ended k hr] at h ⊢
      have hstep := step_of_fits (p := p) (m := m) (n := n) h t
      have hr' : (m.step p ⟨t, some n⟩).1 ≠ .running := by rw [hstep]; exact hr
      rw [runFor_of_ended k hr', hstep]
      rfl

/-- After `j` steps of the run that prints all, the next statement is the first dump that takes
the text over `n` bytes. -/
structure Overflows (p : Program) (m : Machine) (n j : Nat) : Prop where
  unfinished : (m.runFor p j {}).1 = .unfinished
  fits : (m.after p j {}).2.text.utf8ByteSize ≤ n
  dump : ∃ s count, (m.after p j {}).1.fetch p = .ok s ∧ s.instruction = .dump count ∧
    n < ((m.after p j {}).2.text ++
      dumpText (m.after p j {}).1.pc (m.after p j {}).1.regs.get count).utf8ByteSize

theorem overflows_zero (h : n < (m.printed p).utf8ByteSize) : Overflows p m n 0 where
  unfinished := rfl
  fits := Nat.zero_le n
  dump := by
    obtain ⟨⟨s, count, hf, hs, htext⟩, -⟩ := step_of_overflow h ""
    refine ⟨s, count, hf, hs, ?_⟩
    rw [htext] at h
    change n < ("" ++ dumpText m.pc m.regs.get count).utf8ByteSize
    rwa [String.empty_append]

theorem Overflows.succ {j : Nat} (hr : (m.step p {}).1 = .running)
    (hfit : (m.printed p).utf8ByteSize ≤ n)
    (h : Overflows p (m.step p {}).2.1 (n - (m.printed p).utf8ByteSize) j) :
    Overflows p m n (j + 1) where
  unfinished := by rw [runFor_succ_of_running j hr]; exact h.unfinished
  fits := by
    have := h.fits
    rw [after_succ, String.utf8ByteSize_append]
    omega
  dump := by
    obtain ⟨s, count, hf, hs, hlt⟩ := h.dump
    rw [after_succ]
    refine ⟨s, count, hf, hs, ?_⟩
    rw [String.append_assoc, String.utf8ByteSize_append]
    exact (Nat.sub_lt_iff_lt_add' hfit).mp hlt

/-- A text that does not fit is cut off. The run ends at the dump that takes it too far, in the
state that it has there, with the dump counted. -/
theorem runFor_of_overflow : ∀ {k n : Nat} {m : Machine} (t : String),
    n < (m.runFor p k {}).2.2.text.utf8ByteSize → ∃ j, j < k ∧ Overflows p m n j ∧
      m.runFor p k ⟨t, some n⟩ = (.failed (.output Sink.fullMessage), (m.after p j {}).1.counted,
        ⟨t ++ cut (m.runFor p k {}).2.2.text n, some 0⟩)
  | 0, n, m, t, h => absurd h (Nat.not_lt_zero n)
  | k + 1, n, m, t, h => by
    have hascii := (isAscii_printed p m).utf8ByteSize_eq
    by_cases hfit : (m.printed p).utf8ByteSize ≤ n
    · -- the first step fits, so it is not the last
      have hr : (m.step p {}).1 = .running := by
        refine Classical.byContradiction fun hr => ?_
        rw [runFor_of_ended k hr] at h
        exact absurd hfit (Nat.not_le.mpr h)
      have hstep := step_of_fits hfit t
      have hr' : (m.step p ⟨t, some n⟩).1 = .running := by rw [hstep]; exact hr
      rw [runFor_succ_of_running k hr] at h ⊢
      simp only [String.utf8ByteSize_append] at h
      obtain ⟨j, hj, hover, hrun⟩ := runFor_of_overflow (k := k) (m := (m.step p {}).2.1)
        (n := n - (m.printed p).utf8ByteSize) (t ++ m.printed p) (by omega)
      refine ⟨j + 1, by omega, hover.succ hr hfit, ?_⟩
      rw [runFor_of_running k hr', hstep, hrun, after_succ, cut_append_of_le (hascii ▸ hfit),
        hascii, String.append_assoc]
    · have hlt : n < (m.printed p).utf8ByteSize := Nat.not_le.mp hfit
      have hstep := (step_of_overflow hlt t).2
      have hr' : (m.step p ⟨t, some n⟩).1 ≠ .running := by rw [hstep]; simp
      have hcut : cut (m.runFor p (k + 1) {}).2.2.text n = cut (m.printed p) n := by
        by_cases hr : (m.step p {}).1 = .running
        · rw [runFor_succ_of_running k hr]
          exact cut_append_of_lt (hascii ▸ hlt) _
        · rw [runFor_of_ended k hr]
          rfl
      refine ⟨0, by omega, overflows_zero hlt, ?_⟩
      rw [runFor_of_ended k hr', hstep, hcut]
      rfl

theorem isAscii_runFor (p : Program) : ∀ (k : Nat) (m : Machine),
    IsAscii (m.runFor p k {}).2.2.text
  | 0, m => fun c hc => nomatch hc
  | k + 1, m => by
    by_cases hr : (m.step p {}).1 = .running
    · rw [runFor_succ_of_running k hr]
      exact (isAscii_printed p m).append (isAscii_runFor p k _)
    · rw [runFor_of_ended k hr]
      exact isAscii_printed p m

/-- A sink with room for `n` bytes only cuts the output short. If the text of at most `k` steps
fits, they end as they do without a bound. If it does not, the sink holds the first `n` bytes of
it, and the run fails at the first dump that takes the text too far, in the state that the run
without a bound has there and with the dump counted. -/
theorem run_cut_short (p : Program) (m : Machine) (k n : Nat) :
    let full := m.runFor p k {}
    let text := full.2.2.text
    (text.utf8ByteSize ≤ n →
      m.runFor p k { room := some n } =
        (full.1, full.2.1, ⟨text, some (n - text.utf8ByteSize)⟩)) ∧
    (n < text.utf8ByteSize →
      ∃ j, j < k ∧ Overflows p m n j ∧
        ∃ kept : String, kept.toByteArray = text.toByteArray.extract 0 n ∧
          m.runFor p k { room := some n } =
            (.failed (.output Sink.fullMessage), (m.after p j {}).1.counted, ⟨kept, some 0⟩)) := by
  intro full text
  have hascii := isAscii_runFor p k m
  refine ⟨fun h => ?_, fun h => ?_⟩
  · have hrun := runFor_of_fits "" h
    rwa [String.empty_append] at hrun
  · obtain ⟨j, hj, hover, hrun⟩ := runFor_of_overflow "" h
    rw [String.empty_append] at hrun
    refine ⟨j, hj, hover, cut text n, hascii.toByteArray_cut ?_, hrun⟩
    rw [← hascii.utf8ByteSize_eq]
    exact Nat.le_of_lt h

/-- Two dumps into a sink that is full in the middle of the first number. -/
theorem run_cut_short_in_number :
    let p : Program := { statements := #[⟨.compute .load (.const (-75)), ⟨1, ⟨0, 9⟩⟩⟩,
      ⟨.dump 1, ⟨2, ⟨10, 6⟩⟩⟩, ⟨.dump 0, ⟨3, ⟨17, 6⟩⟩⟩, ⟨.halt, ⟨4, ⟨24, 3⟩⟩⟩] }
    let m : Machine := {}
    29 < (m.runFor p 4 {}).2.2.text.utf8ByteSize ∧
      ∃ j, j < 4 ∧ Overflows p m 29 j ∧ ∃ kept : String,
        kept.toByteArray = (m.runFor p 4 {}).2.2.text.toByteArray.extract 0 29 ∧
        m.runFor p 4 { room := some 29 } =
          (.failed (.output Sink.fullMessage), (m.after p j {}).1.counted, ⟨kept, some 0⟩) := by
  intro p m
  have h : 29 < (m.runFor p 4 {}).2.2.text.utf8ByteSize := by decide
  exact ⟨h, (run_cut_short p m 4 29).2 h⟩

end Ram.Machine
