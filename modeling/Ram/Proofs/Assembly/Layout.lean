import Ram.Proofs.Assembly.Grammar
import Ram.Proofs.Machine.Places
import Ram.Proofs.Source.Layout

/-!
# Layout has no meaning

Assembly reads a line through its entry: but for places, what it adds to a program, or refuses, is
decided by the label and the words of the line (`addLine_outline`). So texts with the same entries
have the same outline (`assemble_outline`), and they behave alike: assembled with the same cause
of failure or to programs that are equal but for places, and run in the same way
(`layout_keeps_meaning`).
-/

namespace Ram

open Ram.Source

/-- A program without places. -/
def Program.outline (p : Program) : List Instruction × Labels := (p.bare, p.labels)

theorem Program.size_eq_of_outline {p q : Program} (h : p.outline = q.outline) :
    p.size = q.size := by
  rw [← p.length_bare, ← q.length_bare, (Prod.mk.inj h).1]

theorem Program.outline_declare {p q : Program} (h : p.outline = q.outline) (name : String) :
    (p.declare name).outline = (q.declare name).outline := by
  obtain ⟨hbare, hlabels⟩ := Prod.mk.inj h
  unfold outline declare
  rw [hlabels, size_eq_of_outline h]
  exact congrArg (·, _) hbare

theorem Program.outline_push {p q : Program} (h : p.outline = q.outline) {s t : Statement}
    (hst : s.instruction.bare = t.instruction.bare) :
    (p.push s).outline = (q.push t).outline := by
  obtain ⟨hbare, hlabels⟩ := Prod.mk.inj h
  unfold bare at hbare
  simp only [outline, bare, push, Array.toList_push, List.map_append, hbare, List.map_cons,
    List.map_nil, hst, hlabels]

namespace Assembly

open Ram.Grammar

/-- What assembly comes to, without places. -/
def outline : Except Error Program → Except Cause (List Instruction × Labels)
  | .ok p => .ok p.outline
  | .error e => .error e.cause

/-! ## Lines -/

theorem instruction?_of_nil {l : Line} (h : l.fields.map (·.text) = []) :
    instruction? l = .ok none := by
  unfold instruction?
  rw [List.map_eq_nil_iff.mp h]

theorem instruction?_of_denotes {l : Line} {i : Instruction}
    (h : Denotes (l.fields.map (·.text)) i) :
    ∃ i', instruction? l = .ok (some i') ∧ Denotes (l.fields.map (·.text)) i' ∧
      i'.bare = i.bare := by
  cases hf : l.fields with
  | nil => rw [hf] at h; cases h
  | cons head args =>
    rw [hf, List.map_cons] at h
    obtain ⟨i', hi', hden, hbare⟩ := instruction_of_denotes l.site h
    refine ⟨i', ?_, hden, hbare⟩
    unfold instruction?
    rw [hf]
    dsimp only
    rw [hi']
    rfl

theorem instruction?_of_offends {l : Line} {c : Cause} (h : Offends (l.fields.map (·.text)) c) :
    ∃ e, instruction? l = .error e ∧ e.cause = c := by
  cases hf : l.fields with
  | nil => rw [hf] at h; cases h
  | cons head args =>
    rw [hf, List.map_cons] at h
    obtain ⟨span, he⟩ := instruction_of_offends l.site h
    refine ⟨⟨⟨l.site.line, span⟩, c⟩, ?_, rfl⟩
    unfold instruction?
    rw [hf]
    dsimp only
    rw [he]
    rfl

theorem instruction?_reads (l : Line) :
    (l.fields.map (·.text) = [] ∧ instruction? l = .ok none) ∨
    (∃ i, Denotes (l.fields.map (·.text)) i ∧ instruction? l = .ok (some i)) ∨
    (∃ e, Offends (l.fields.map (·.text)) e.cause ∧ instruction? l = .error e) := by
  cases hws : l.fields.map (·.text) with
  | nil => exact .inl ⟨rfl, instruction?_of_nil hws⟩
  | cons head args =>
    rcases denotes_or_offends head args with ⟨i, hi⟩ | ⟨c, hc⟩
    · obtain ⟨i', hi', hden, -⟩ := instruction?_of_denotes (hws ▸ hi)
      exact .inr (.inl ⟨i', hws ▸ hden, hi'⟩)
    · obtain ⟨e, he, rfl⟩ := instruction?_of_offends (hws ▸ hc)
      exact .inr (.inr ⟨e, hc, he⟩)

/-- The words of a line decide which instruction it is, or what is wrong with it. -/
theorem instruction?_cases {l l' : Line} (h : l.fields.map (·.text) = l'.fields.map (·.text)) :
    (instruction? l = .ok none ∧ instruction? l' = .ok none) ∨
    (∃ i i', instruction? l = .ok (some i) ∧ instruction? l' = .ok (some i') ∧
      i.bare = i'.bare) ∨
    (∃ e e', instruction? l = .error e ∧ instruction? l' = .error e' ∧ e.cause = e'.cause) := by
  rcases instruction?_reads l with ⟨hnil, hi⟩ | ⟨i, hden, hi⟩ | ⟨e, hoff, he⟩
  · exact .inl ⟨hi, instruction?_of_nil (h ▸ hnil)⟩
  · obtain ⟨i', hi', -, hbare⟩ := instruction?_of_denotes (h ▸ hden)
    exact .inr (.inl ⟨i, i', hi, hi', hbare.symm⟩)
  · obtain ⟨e', he', hc⟩ := instruction?_of_offends (h ▸ hoff)
    exact .inr (.inr ⟨e, e', he, he', hc.symm⟩)

theorem outline_declareLabel {p q : Program} (h : p.outline = q.outline) {l l' : Line}
    (hl : l.label.map (·.text) = l'.label.map (·.text)) :
    (declareLabel p l).outline = (declareLabel q l').outline := by
  unfold declareLabel
  cases hlabel : l.label with
  | none =>
    rw [hlabel] at hl
    rw [Option.map_eq_none_iff.mp hl.symm]
    exact h
  | some f =>
    rw [hlabel] at hl
    obtain ⟨f', hf', htext⟩ := Option.map_eq_some_iff.mp hl.symm
    rw [hf']
    dsimp only at htext ⊢
    rw [htext]
    exact Program.outline_declare h f.text

/-- Lines that say the same do the same to programs that are the same but for places. -/
theorem addLine_outline {p q : Program} (h : p.outline = q.outline) {l l' : Line}
    (hl : l.entry = l'.entry) : outline (addLine p l) = outline (addLine q l') := by
  obtain ⟨hlabel, hphrase⟩ := Entry.mk.inj hl
  have hdeclare := outline_declareLabel h hlabel
  rcases instruction?_cases hphrase with ⟨hi, hi'⟩ | ⟨i, i', hi, hi', hbare⟩ | ⟨e, e', he, he', hc⟩
  · rw [addLine_of_none hi, addLine_of_none hi']
    exact congrArg Except.ok hdeclare
  · rw [addLine_of_some hi, addLine_of_some hi']
    exact congrArg Except.ok (Program.outline_push hdeclare hbare)
  · rw [addLine_of_error he, addLine_of_error he']
    exact congrArg Except.error hc

theorem foldlM_addLine_outline : ∀ {ls ls' : List Line}, ls.map Line.entry = ls'.map Line.entry →
    ∀ {p q : Program}, p.outline = q.outline →
      outline (ls.foldlM addLine p) = outline (ls'.foldlM addLine q)
  | [], ls', hls, p, q, h => by
    rw [List.map_eq_nil_iff.mp hls.symm]
    exact congrArg Except.ok h
  | l :: ls, ls', hls, p, q, h => by
    obtain ⟨l', ls', rfl, hl, hls⟩ := List.map_eq_cons_iff.mp hls.symm
    have hadd := addLine_outline h hl.symm
    rw [List.foldlM_cons, List.foldlM_cons]
    cases hp : addLine p l with
    | error e =>
      cases hq : addLine q l' with
      | error e' => rw [hp, hq] at hadd; exact hadd
      | ok q' => rw [hp, hq] at hadd; cases hadd
    | ok p' =>
      cases hq : addLine q l' with
      | error e' => rw [hp, hq] at hadd; cases hadd
      | ok q' =>
        rw [hp, hq] at hadd
        exact foldlM_addLine_outline hls.symm (Except.ok.inj hadd)

end Assembly

/-! ## Texts -/

/-- Texts that say the same are assembled to the same but for places. -/
theorem assemble_outline {a b : String}
    (h : (lines a).map Line.entry = (lines b).map Line.entry) :
    Assembly.outline (assemble a) = Assembly.outline (assemble b) :=
  Assembly.foldlM_addLine_outline h rfl

/-- Every machine does the same on both programs: step by step and in a run the states and outputs
are equal, and the answers are equal but for places. -/
structure Program.RunsLike (p q : Program) : Prop where
  step : ∀ (m : Machine) out, (m.step p out).1.bare = (m.step q out).1.bare
  after : ∀ (m : Machine) n out, m.after p n out = m.after q n out
  run : ∀ (m : Machine) out, (m.run p out).1.bare = (m.run q out).1.bare ∧
    (m.run p out).2 = (m.run q out).2

theorem Program.Alike.runsLike {p q : Program} (h : p.Alike q) : p.RunsLike q where
  step m out := (Machine.step_alike h m out).1
  after m n out := Machine.after_alike h n m out
  run m out := Machine.runFor_alike h m.patience m out

/-- Both texts are refused for the same cause, or both are assembled, to programs with the same
instructions but for places and the same label table, and these run alike. -/
def BehaveAlike (a b : String) : Prop :=
  match assemble a, assemble b with
  | .ok p, .ok q => p.bare = q.bare ∧ p.labels = q.labels ∧ p.RunsLike q
  | .error e, .error e' => e.cause = e'.cause
  | _, _ => False

theorem behaveAlike_of_outline {a b : String}
    (h : Assembly.outline (assemble a) = Assembly.outline (assemble b)) : BehaveAlike a b := by
  unfold BehaveAlike
  cases ha : assemble a with
  | ok p =>
    cases hb : assemble b with
    | ok q =>
      rw [ha, hb] at h
      obtain ⟨hbare, hlabels⟩ := Prod.mk.inj (Except.ok.inj h)
      have halike : p.Alike q := ⟨hbare, fun name => by rw [hlabels]⟩
      exact ⟨hbare, hlabels, halike.runsLike⟩
    | error e => rw [ha, hb] at h; cases h
  | error e =>
    cases hb : assemble b with
    | ok q => rw [ha, hb] at h; cases h
    | error e' => rw [ha, hb] at h; exact Except.error.inj h

/-- Layout never changes meaning: a text behaves like its normal layout, and so do any two texts
that have the same one. -/
theorem layout_keeps_meaning (a : String) :
    BehaveAlike a (layout a) ∧ ∀ b, layout a = layout b → BehaveAlike a b := by
  have hlayout : ∀ src,
      Assembly.outline (assemble src) = Assembly.outline (assemble (layout src)) :=
    fun src => assemble_outline (map_entry_layout src).symm
  refine ⟨behaveAlike_of_outline (hlayout a), fun b h => behaveAlike_of_outline ?_⟩
  rw [hlayout a, hlayout b, h]

/-- A text with tabs, comments, a carriage return and a wide blank, and the same laid out. -/
theorem layout_keeps_meaning_of_messy :
    let messy := "# a loop\r\n\n\tstart:\u3000 GOTO   start# again\r\n"
    layout messy = layout "start: GOTO start" ∧ BehaveAlike messy "start: GOTO start" := by
  intro messy
  have h : layout messy = layout "start: GOTO start" := by decide
  exact ⟨h, (layout_keeps_meaning messy).2 _ h⟩

end Ram
