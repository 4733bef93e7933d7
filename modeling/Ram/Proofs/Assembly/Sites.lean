import Ram.Proofs.Assembly.Blame
import Ram.Proofs.Machine.Jumps

/-!
# Where statements and faults point

A statement keeps the site of its line, and a jump target the span of the last field of that line
(`jump_of_statement?`). So the text of a statement is found at its site, the statements follow one
another in the source, and a fault of a running program points at the text of the statement or of
the label that caused it (`sites_point_at_text`).
-/

namespace Ram

open Ram.Source

namespace Assembly

/-! ## Jump targets -/

theorem jump_of_statement? {l : Line} {s : Statement} {j : Jump} (h : statement? l = some s)
    (hj : s.instruction.jump? = some j) : ∃ f, l.fields.getLast? = some f ∧ j = jump f := by
  obtain ⟨head, args, hfields, houtcome⟩ :=
    outcome_of_instruction? (r := .ok s.instruction) (statement?_eq_some.mp h).1
  cases houtcome with
  | plain hnone =>
    rw [hnone] at hj
    cases hj
  | jump hlast hsome =>
    refine ⟨_, ?_, Option.some.inj (hj.symm.trans hsome)⟩
    rw [hfields, List.getLast?_cons, hlast]
    rfl

end Assembly

/-! ## Statements -/

section Assembled

variable {src : String} {p : Program} (h : assemble src = .ok p)
include h

theorem exists_line_of_statement {s : Statement} (hs : s ∈ p.statements.toList) :
    ∃ l ∈ lines src, Assembly.statement? l = some s := by
  rw [statements_of_assemble h] at hs
  exact List.mem_filterMap.mp hs

theorem pairwise_statements : p.statements.toList.Pairwise (·.site.Precedes ·.site) := by
  rw [statements_of_assemble h]
  refine (pairwise_lines src).filterMap _ fun l l' hlines s hs t ht => ?_
  rw [(Assembly.statement?_eq_some.mp hs).2, (Assembly.statement?_eq_some.mp ht).2]
  exact hlines

/-- The target of a jump is written at its span, where its statement ends. -/
theorem slice?_jump {s : Statement} (hs : s ∈ p.statements.toList) {j : Jump}
    (hj : s.instruction.jump? = some j) :
    slice? src j.span = some j.label ∧ j.span.stop = s.site.span.stop := by
  obtain ⟨l, hl, hstatement⟩ := exists_line_of_statement h hs
  obtain ⟨f, hf, rfl⟩ := Assembly.jump_of_statement? hstatement hj
  rw [(Assembly.statement?_eq_some.mp hstatement).2]
  exact ⟨(stands_field hl (List.mem_of_mem_getLast? hf)).slice, stop_getLast hl hf⟩

end Assembled

/-! ## Faults -/

/-- A fault that arises at this statement points at it, or at its label. -/
def Fault.Points (src : String) (p : Program) (pc : Nat) : Fault → Prop
  | unresolvedLabel label site => ∃ s, p.statements[pc]? = some s ∧
      s.instruction.jump? = some ⟨label, site.span⟩ ∧ site.line = s.site.line ∧
      slice? src site.span = some label ∧
      ∀ raw ∈ src.toList.splitOn '\n', ¬ Declares raw label
  | divisionByZero site | negativeRegister _ site | registerTooLarge _ site =>
    ∃ s, p.statements[pc]? = some s ∧ site = s.site
  | missingEnd _ | stepLimit _ _ | output _ => True

theorem points_of_step {src : String} {p : Program} (h : assemble src = .ok p) {m : Machine}
    {out : Sink} {f : Fault} (hf : (m.step p out).1 = .failed f) : f.Points src p m.pc := by
  cases f with
  | unresolvedLabel label site =>
    obtain ⟨s, hs, hj, -, hline, hlabel⟩ := Machine.tells_of_failed hf rfl
    have hmem : s ∈ p.statements.toList :=
      List.mem_of_getElem? (Array.getElem?_toList.trans hs)
    rw [get?_of_assemble h] at hlabel
    exact ⟨s, hs, hj, hline, (slice?_jump h hmem hj).1, boundTo_eq_none.mp hlabel⟩
  | divisionByZero site => exact Machine.tells_of_failed hf rfl
  | negativeRegister index site => exact Machine.tells_of_failed hf rfl
  | registerTooLarge index site =>
    obtain ⟨s, -, htells⟩ := Machine.tells_of_failed hf rfl
    cases htells
  | missingEnd acc => trivial
  | stepLimit limit pc => trivial
  | output cause => trivial

/-- Statements and faults point at the right text. The statements of an assembled program follow
one another, in lines and in bytes. Each stands at its site, with the text from the first to the
last field of its line, and the target of a jump stands at its own span and ends with it. Whatever
a machine does, a fault of a statement points at the statement at the program counter; one of a
jump points at its label there, which no line of the source declares. -/
theorem sites_point_at_text {src : String} {p : Program} (h : assemble src = .ok p) :
    p.statements.toList.Pairwise (·.site.Precedes ·.site) ∧
    (∀ s ∈ p.statements.toList,
      Stands src s.site (String.ofList (lineText src s.site.line)) ∧
      '\n' ∉ lineText src s.site.line ∧ '#' ∉ lineText src s.site.line ∧
      ∀ j, s.instruction.jump? = some j →
        slice? src j.span = some j.label ∧ j.span.stop = s.site.span.stop) ∧
    ∀ (m : Machine) (out : Sink) (f : Fault),
      ((m.step p out).1 = .failed f → f.Points src p m.pc) ∧
      ∀ n, (m.runFor p n out).1 = .failed f → f.Points src p (m.runFor p n out).2.1.pc := by
  refine ⟨pairwise_statements h, fun s hs => ?_, fun m out f => ⟨points_of_step h, fun n hf => ?_⟩⟩
  · obtain ⟨l, hl, hstatement⟩ := exists_line_of_statement h hs
    have hsite := (Assembly.statement?_eq_some.mp hstatement).2
    obtain ⟨hnewline, hcomment⟩ := notMem_lineText hl
    rw [← hsite] at hnewline hcomment
    refine ⟨?_, hnewline, hcomment, fun j => slice?_jump h hs⟩
    rw [hsite]
    exact (stands_line hl).1
  · obtain ⟨m', out', hstep, hpc⟩ := Machine.step_of_runFor_failed hf
    exact hpc ▸ points_of_step h hstep

/-- A jump behind a line with wide characters, to a label that only resembles the declared one. -/
theorem sites_point_at_text_of_wide :
    let src := "# ä\nlö: CLOAD 1\n  GOTO nö # x"
    let s : Statement := ⟨.goto ⟨"nö", ⟨25, 3⟩⟩, ⟨3, ⟨20, 8⟩⟩⟩
    let p : Program :=
      { statements := #[⟨.compute .load (.const 1), ⟨2, ⟨5, 12⟩⟩⟩, s]
        labels := ⟨[("lö", 0)], by decide⟩ }
    let m : Machine := { pc := 1 }
    let f : Fault := .unresolvedLabel "nö" ⟨3, ⟨25, 3⟩⟩
    assemble src = .ok p ∧ Stands src s.site "GOTO nö" ∧ slice? src ⟨25, 3⟩ = some "nö" ∧
      (m.step p {}).1 = .failed f ∧ f.Points src p 1 := by
  intro src s p m f
  have h : assemble src = .ok p := by decide
  have hstep : (m.step p {}).1 = .failed f := by decide
  obtain ⟨-, hstatements, hfaults⟩ := sites_point_at_text h
  obtain ⟨hstands, -, -, hjump⟩ := hstatements s (by simp [p])
  have htext : String.ofList (lineText src s.site.line) = "GOTO nö" := by decide
  exact ⟨h, htext ▸ hstands, (hjump _ rfl).1, hstep, (hfaults m {} f).1 hstep⟩

end Ram
