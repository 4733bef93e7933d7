import Ram.Proofs.Assembly.Pass
import Ram.Proofs.Source.Fields

/-!
# Where errors point

`Outcome` says what reading a statement comes to and where it points: a jump goes to the last
field, and an error is told at the field that is wrong or, for a wrong arrangement, at the whole
line. Since lines and fields stand where their spans say, every error of assembly points at the
offending text (`error_points_at_text`), and nothing behind its line has a part in it
(`assemble_of_take`).
-/

namespace Ram

open Ram.Source Ram.Text

namespace Assembly

open Ram.Grammar

/-! ## One statement -/

/-- What reading a statement with these fields can come to, and where that points. -/
inductive Outcome (site : Site) (head : Field) (args : List Field) :
    Except Error Instruction → Prop where
  | plain {i : Instruction} : i.jump? = none → Outcome site head args (.ok i)
  | jump {i : Instruction} {f : Field} : args.getLast? = some f → i.jump? = some (jump f) →
      Outcome site head args (.ok i)
  | shape (expected : Shape) : Outcome site head args (.error ⟨site, .shape expected⟩)
  | unknownInstruction : Outcome site head args
      (.error ⟨⟨site.line, head.span⟩, .unknownInstruction head.text⟩)
  | unknownComparison {f : Field} : f ∈ args → Outcome site head args
      (.error ⟨⟨site.line, f.span⟩, .unknownComparison f.text⟩)
  | literal {f : Field} {e : Literal.Error} : f ∈ args → Literal.parse f.text.toList = .error e →
      Outcome site head args (.error ⟨⟨site.line, f.span⟩, .literal e⟩)
  | negative {f : Field} {v : Int64} : f ∈ args → Literal.parse f.text.toList = .ok v →
      v.toInt < 0 →
      Outcome site head args (.error ⟨⟨site.line, f.span⟩, .negativeOperand head.text v⟩)

section Outcome

variable (site : Site) (head : Field)

theorem outcome_branch (args : List Field) : Outcome site head args (branch site args) := by
  unfold branch
  split
  · rename_i symbol value word target
    by_cases hword : word.text = "GOTO"
    · rw [if_pos hword]
      cases hv : Literal.parse value.text.toList with
      | error e =>
        rw [number_of_error hv]
        exact .literal (by simp) hv
      | ok v =>
        rw [number_of_ok hv]
        cases Comparison.ofSymbol? symbol.text with
        | none => exact .unknownComparison (by simp)
        | some cmp => exact .jump (f := target) rfl rfl
    · rw [if_neg hword]
      exact .shape .branch
  · exact .shape .branch

theorem outcome_operand {m : Mnemonic} (hm : head.text = m.name) (f : Field) :
    Outcome site head [f] (ofMnemonic site.line m f) := by
  cases hv : Literal.parse f.text.toList with
  | error e =>
    rw [ofMnemonic_of_error m hv]
    exact .literal List.mem_cons_self hv
  | ok v =>
    cases m with
    | const op =>
      rw [ofMnemonic, number_of_ok hv]
      exact .plain rfl
    | _ =>
      -- a constant may be negative, an index may not
      by_cases hneg : v.toInt < 0
      · rw [ofMnemonic_of_negative (by simp) hv hneg, ← hm]
        exact .negative List.mem_cons_self hv hneg
      · rw [ofMnemonic, index_of_ok hv (by omega)]
        exact .plain rfl

theorem outcome_instruction (args : List Field) :
    Outcome site head args (instruction site head args) := by
  by_cases hif : head.text = "IF"
  · rw [instruction_of_if site hif]
    exact outcome_branch site head args
  by_cases hgoto : head.text = "GOTO"
  · unfold instruction
    rw [if_neg hif, if_pos hgoto]
    rcases args with _ | ⟨target, _ | ⟨extra, rest⟩⟩
    · exact .shape .goto
    · exact .jump (f := target) rfl rfl
    · exact .shape .goto
  by_cases hend : head.text = "END"
  · unfold instruction
    rw [if_neg hif, if_neg hgoto, if_pos hend]
    rcases args with _ | ⟨extra, rest⟩
    · exact .plain rfl
    · exact .shape .halt
  cases hm : Mnemonic.ofName? head.text with
  | none =>
    unfold instruction
    rw [if_neg hif, if_neg hgoto, if_neg hend, hm]
    exact .unknownInstruction
  | some m =>
    have hname := (Mnemonic.name_of_ofName? hm).symm
    rw [instruction_of_mnemonic site hname]
    rcases args with _ | ⟨operand, _ | ⟨extra, rest⟩⟩
    · exact .shape .operand
    · exact outcome_operand site head hname operand
    · exact .shape .operand

end Outcome

/-- An instruction, or an error, is that of the fields of the line. -/
theorem outcome_of_instruction? {l : Line} {r : Except Error Instruction}
    (h : instruction? l = r.map some) :
    ∃ head args, l.fields = head :: args ∧ Outcome l.site head args r := by
  unfold instruction? at h
  cases hf : l.fields with
  | nil =>
    rw [hf] at h
    cases r <;> cases h
  | cons head args =>
    have hread := outcome_instruction l.site head args
    rw [hf] at h
    dsimp only at h
    refine ⟨head, args, rfl, ?_⟩
    cases hi : instruction l.site head args with
    | error e =>
      rw [hi] at h hread
      cases r <;> cases h
      exact hread
    | ok i =>
      rw [hi] at h hread
      cases r <;> cases h
      exact hread

theorem Outcome.line {site : Site} {head : Field} {args : List Field} {e : Error}
    (h : Outcome site head args (.error e)) : e.site.line = site.line := by
  cases h <;> rfl

/-! ## What comes behind has no part in it -/

theorem assemble_of_take {src src' : String} {e : Error} (h : assemble src = .error e)
    (htake : (src'.toList.splitOn '\n').take e.site.line =
      (src.toList.splitOn '\n').take e.site.line) : assemble src' = .error e := by
  -- a text is assembled up to a line, and then from there on
  have hcut : ∀ (s : String) (n : Nat), assemble s =
      (linesFrom 0 1 ((s.toList.splitOn '\n').take n)).foldlM addLine {} >>= fun p =>
        (linesFrom (0 + extent ((s.toList.splitOn '\n').take n))
          (1 + ((s.toList.splitOn '\n').take n).length)
          ((s.toList.splitOn '\n').drop n)).foldlM addLine p := by
    intro s n
    rw [← List.foldlM_append, ← linesFrom_append, List.take_append_drop]
    rfl
  rw [hcut src e.site.line] at h
  rw [hcut src' e.site.line, htake]
  cases hfront : (linesFrom 0 1 ((src.toList.splitOn '\n').take e.site.line)).foldlM addLine {} with
  | error e' =>
    rw [hfront] at h
    cases h
    rfl
  | ok p =>
    -- the error would have to be behind its own line
    rw [hfront] at h
    obtain ⟨l, hl, he⟩ := exists_line_of_foldlM h
    obtain ⟨head, args, -, hout⟩ := outcome_of_instruction? (r := .error e) he
    obtain ⟨before, raw, after, hdrop, hofChars⟩ := exists_of_mem_linesFrom hl
    have hline := hout.line.trans (Line.bounds_of_ofChars hofChars).1
    have hlength := congrArg List.length hdrop
    rw [List.length_take] at hline
    rw [List.length_drop, List.length_append, List.length_cons] at hlength
    omega

end Assembly

/-! ## Errors -/

/-- The cause fits the text that the error points at in this line. -/
def Assembly.Cause.Cites (src : String) (line : Nat) (text : String) : Assembly.Cause → Prop
  | literal error => Literal.parse text.toList = .error error
  | shape _ => text = String.ofList (lineText src line)
  | unknownInstruction name => text = name
  | unknownComparison symbol => text = symbol
  | negativeOperand mnemonic value => Literal.parse text.toList = .ok value ∧ value < 0 ∧
      (phrase (lineChars src line)).head? = some mnemonic
  | operandTooLarge _ _ => False

/-- Every error of assembly points at the offending text: that text stands on the line of the
error, before any comment, it is not empty, and it is what the cause is about. Any other source
with the same lines up to that one has the same error. -/
theorem error_points_at_text {src : String} {e : Assembly.Error} (h : assemble src = .error e) :
    (∃ text, Stands src e.site text ∧ 0 < e.site.span.length ∧
      e.cause.Cites src e.site.line text) ∧
    ∀ src' : String, (src'.toList.splitOn '\n').take e.site.line =
      (src.toList.splitOn '\n').take e.site.line → assemble src' = .error e := by
  refine ⟨?_, fun src' => Assembly.assemble_of_take h⟩
  obtain ⟨l, hl, he⟩ := exists_line_of_error h
  obtain ⟨head, args, hfields, houtcome⟩ := Assembly.outcome_of_instruction? (r := .error e) he
  have hfield : ∀ f ∈ head :: args,
      Stands src ⟨l.site.line, f.span⟩ f.text ∧ 0 < f.span.length := by
    intro f hf
    rw [← hfields] at hf
    have hstands := stands_field hl hf
    exact ⟨hstands, hstands.length_pos (by simpa [Field.text] using (isWord_of_mem_fields hl hf).1)⟩
  cases houtcome with
  | shape expected =>
    obtain ⟨hstands, hne⟩ := stands_line hl
    exact ⟨_, hstands, hstands.length_pos (by simpa using hne), rfl⟩
  | unknownInstruction =>
    obtain ⟨hstands, hpos⟩ := hfield head List.mem_cons_self
    exact ⟨_, hstands, hpos, rfl⟩
  | unknownComparison hf =>
    obtain ⟨hstands, hpos⟩ := hfield _ (.tail _ hf)
    exact ⟨_, hstands, hpos, rfl⟩
  | literal hf hparse =>
    obtain ⟨hstands, hpos⟩ := hfield _ (.tail _ hf)
    exact ⟨_, hstands, hpos, hparse⟩
  | @negative f v hf hparse hneg =>
    obtain ⟨hstands, hpos⟩ := hfield f (.tail _ hf)
    have hlt : v < 0 := by rwa [Int64.lt_iff_toInt_lt, Int64.toInt_zero]
    refine ⟨_, hstands, hpos, hparse, hlt, ?_⟩
    rw [phrase_lineChars hl, hfields]
    rfl

/-- A negative index on a line with a label and wide characters, and more lines behind it. -/
theorem error_points_at_text_of_negative :
    let src := "END # é\n\tlä: STORE -5 # é"
    let e : Assembly.Error := ⟨⟨2, ⟨21, 2⟩⟩, .negativeOperand "STORE" (-5)⟩
    assemble src = .error e ∧ Stands src e.site "-5" ∧ e.cause.Cites src 2 "-5" ∧
      assemble (src ++ "\nGOTO") = .error e := by
  intro src e
  have h : assemble src = .error e := by decide
  obtain ⟨⟨text, hstands, -, hcites⟩, hbehind⟩ := error_points_at_text h
  have htext : text = "-5" := Option.some.inj (hstands.slice.symm.trans (by decide))
  subst htext
  exact ⟨h, hstands, hcites, hbehind (src ++ "\nGOTO") (by decide)⟩

end Ram
