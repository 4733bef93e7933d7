import Ram.Assembly.Basic
import Ram.Proofs.Labels
import Ram.Proofs.Source.Shift

/-!
# Assembling a text behind another

Assembly goes over the lines in order, so two texts with a newline between them are assembled one
after the other. `Program.IsConcat` says how the program of the whole is made from those of the
parts: the statements of the second follow with their places moved, its labels are moved by the
size of the first and take precedence. Every step of the assembly keeps this
(`addLine_shift`), and `assemble_append` is the law for whole texts.
-/

namespace Ram

open Ram.Source

/-! ## Moving what is assembled -/

def Jump.shift (j : Jump) (bytes : Nat) : Jump := ⟨j.label, j.span.shift bytes⟩

/-- Only the targets of jumps remember where they were written. -/
def Instruction.shift (bytes : Nat) : Instruction → Instruction
  | goto target => goto (target.shift bytes)
  | branch cmp value target => branch cmp value (target.shift bytes)
  | i => i

def Statement.shift (s : Statement) (lines bytes : Nat) : Statement :=
  ⟨s.instruction.shift bytes, s.site.shift lines bytes⟩

def Assembly.Error.shift (e : Assembly.Error) (lines bytes : Nat) : Assembly.Error :=
  ⟨e.site.shift lines bytes, e.cause⟩

namespace Assembly

/-- An instruction or an error, moved. -/
def moved (lines bytes : Nat) : Except Error Instruction → Except Error Instruction
  | .ok i => .ok (i.shift bytes)
  | .error e => .error (e.shift lines bytes)

/-! ## Instructions -/

theorem number_shift (line k b : Nat) (f : Field) :
    number (line + k) (f.shift b) = (number line f).mapError (·.shift k b) := by
  simp only [number, Field.shift_chars]
  cases Literal.parse f.chars <;> rfl

theorem index_shift (line k b : Nat) (mnemonic : String) (f : Field) :
    index (line + k) mnemonic (f.shift b) = (index line mnemonic f).mapError (·.shift k b) := by
  simp only [index, number_shift]
  cases number line f with
  | error e => rfl
  | ok v =>
    change (if v < 0 then Except.error _ else .ok _) =
      Except.mapError _ (if v < 0 then .error _ else .ok _)
    split <;> rfl

theorem ofMnemonic_shift (line k b : Nat) (m : Mnemonic) (f : Field) :
    ofMnemonic (line + k) m (f.shift b) = moved k b (ofMnemonic line m f) := by
  cases m with
  | const op =>
    simp only [ofMnemonic, number_shift]
    cases number line f <;> rfl
  | cell op mode =>
    simp only [ofMnemonic, index_shift]
    cases index line (Mnemonic.cell op mode).name f <;> rfl
  | store mode =>
    simp only [ofMnemonic, index_shift]
    cases index line (Mnemonic.store mode).name f <;> rfl
  | dump =>
    simp only [ofMnemonic, index_shift]
    cases index line Mnemonic.dump.name f <;> rfl

theorem branch_shift (site : Site) (k b : Nat) (args : List Field) :
    branch (site.shift k b) (args.map (·.shift b)) = moved k b (branch site args) := by
  rcases args with _ | ⟨symbol, _ | ⟨value, _ | ⟨word, _ | ⟨target, _ | ⟨extra, rest⟩⟩⟩⟩⟩
  · rfl
  · rfl
  · rfl
  · rfl
  · simp only [List.map_cons, List.map_nil, branch, Field.shift_text]
    by_cases hw : word.text = "GOTO"
    · simp only [hw, ↓reduceIte, Site.shift, number_shift]
      cases number site.line value with
      | error e => rfl
      | ok v => cases Comparison.ofSymbol? symbol.text <;> rfl
    · simp only [hw, ↓reduceIte]
      rfl
  · rfl

theorem instruction_shift (site : Site) (k b : Nat) (head : Field) (args : List Field) :
    instruction (site.shift k b) (head.shift b) (args.map (·.shift b)) =
      moved k b (instruction site head args) := by
  simp only [instruction, Field.shift_text]
  by_cases hif : head.text = "IF"
  · simp only [hif, ↓reduceIte, branch_shift]
  by_cases hgoto : head.text = "GOTO"
  · simp only [hgoto, ↓reduceIte]
    rcases args with _ | ⟨target, _ | ⟨extra, rest⟩⟩ <;> rfl
  by_cases hend : head.text = "END"
  · simp only [hend, ↓reduceIte]
    rcases args with _ | ⟨extra, rest⟩ <;> rfl
  simp only [hif, hgoto, hend, ↓reduceIte]
  cases Mnemonic.ofName? head.text with
  | none => rfl
  | some m =>
    rcases args with _ | ⟨operand, _ | ⟨extra, rest⟩⟩
    · rfl
    · exact ofMnemonic_shift site.line k b m operand
    · rfl

end Assembly

/-! ## Programs -/

namespace Program

/-- `r` is `p` followed by `q`, whose text stands `lines` lines and `bytes` bytes further down. -/
structure IsConcat (lines bytes : Nat) (p q r : Program) : Prop where
  statements : r.statements.toList =
    p.statements.toList ++ q.statements.toList.map (·.shift lines bytes)
  /-- The labels of `q` count from the end of `p` and win over those of `p`. -/
  get? : ∀ name, r.labels.get? name =
    match q.labels.get? name with
    | some i => some (i + p.size)
    | none => p.labels.get? name
  /-- The names of `p` come first, then those of `q` that are new. -/
  names : r.labels.names = p.labels.names ++ q.labels.names.filter (· ∉ p.labels.names)

namespace IsConcat

variable {lines bytes : Nat} {p q r : Program}

theorem empty (lines bytes : Nat) (p : Program) : IsConcat lines bytes p {} p where
  statements := by simp
  get? _ := rfl
  names := by simp

theorem size (h : IsConcat lines bytes p q r) : r.size = q.size + p.size := by
  have := congrArg List.length h.statements
  simp only [Array.length_toList, List.length_append, List.length_map] at this
  simp only [Program.size]
  omega

theorem mem_names (h : IsConcat lines bytes p q r) {name : String} :
    name ∈ r.labels.names ↔ name ∈ p.labels.names ∨ name ∈ q.labels.names := by
  simp only [h.names, List.mem_append, List.mem_filter, decide_eq_true_eq]
  constructor
  · rintro (hp | ⟨hq, -⟩)
    · exact .inl hp
    · exact .inr hq
  · intro hname
    by_cases hp : name ∈ p.labels.names
    · exact .inl hp
    · exact .inr ⟨hname.resolve_left hp, hp⟩

theorem push (h : IsConcat lines bytes p q r) (s : Statement) :
    IsConcat lines bytes p (q.push s) (r.push (s.shift lines bytes)) where
  statements := by
    simp only [Program.push, Array.toList_push, h.statements, List.map_append, List.append_assoc,
      List.map_cons, List.map_nil]
  get? := h.get?
  names := h.names

theorem declare (h : IsConcat lines bytes p q r) (name : String) :
    IsConcat lines bytes p (q.declare name) (r.declare name) where
  statements := h.statements
  get? k := by
    simp only [Program.declare, Labels.get?_insert]
    by_cases hk : name = k
    · simp only [hk, ↓reduceIte, h.size]
    · simp only [hk, ↓reduceIte, h.get?]
  names := by
    simp only [Program.declare, Labels.names_insert, h.mem_names]
    by_cases hq : name ∈ q.labels.names
    · simp only [hq, or_true, ↓reduceIte, h.names]
    by_cases hp : name ∈ p.labels.names
    · simp [hq, hp, h.names]
    · simp [hq, hp, h.names]

end IsConcat

end Program

/-! ## Lines -/

namespace Assembly

open Program

variable {lines bytes : Nat} {p q r : Program}

theorem instruction?_shift (l : Line) (k b : Nat) :
    instruction? (l.shift k b) =
      match instruction? l with
      | .ok i => .ok (i.map (·.shift b))
      | .error e => .error (e.shift k b) := by
  obtain ⟨site, label, fields⟩ := l
  cases fields with
  | nil => rfl
  | cons head args =>
    simp only [instruction?, Line.shift, List.map_cons, instruction_shift]
    cases instruction site head args <;> rfl

theorem declareLabel_shift (h : IsConcat lines bytes p q r) (l : Line) :
    IsConcat lines bytes p (declareLabel q l) (declareLabel r (l.shift lines bytes)) := by
  obtain ⟨site, label, fields⟩ := l
  cases label with
  | none => exact h
  | some label => exact h.declare label.text

/-- What a line adds to a program, and to one that `p` precedes. -/
theorem addLine_shift (h : IsConcat lines bytes p q r) (l : Line) :
    match addLine q l with
    | .ok q' => ∃ r', addLine r (l.shift lines bytes) = .ok r' ∧ IsConcat lines bytes p q' r'
    | .error e => addLine r (l.shift lines bytes) = .error (e.shift lines bytes) := by
  have hmoved := instruction?_shift l lines bytes
  have hlabel := declareLabel_shift h l
  cases hi : instruction? l with
  | error e =>
    rw [hi] at hmoved
    rw [addLine_of_error hi, addLine_of_error hmoved]
  | ok i =>
    rw [hi] at hmoved
    cases i with
    | none =>
      rw [addLine_of_none hi, addLine_of_none hmoved]
      exact ⟨_, rfl, hlabel⟩
    | some i =>
      rw [addLine_of_some hi, addLine_of_some hmoved]
      exact ⟨_, rfl, hlabel.push ⟨i, l.site⟩⟩

theorem foldlM_addLine_shift (ls : List Line) : ∀ {q r : Program}, IsConcat lines bytes p q r →
    match ls.foldlM addLine q with
    | .ok q' => ∃ r', (ls.map (·.shift lines bytes)).foldlM addLine r = .ok r' ∧
        IsConcat lines bytes p q' r'
    | .error e => (ls.map (·.shift lines bytes)).foldlM addLine r =
        .error (e.shift lines bytes) := by
  induction ls with
  | nil => intro q r h; exact ⟨r, rfl, h⟩
  | cons l ls ih =>
    intro q r h
    have hl := addLine_shift h l
    rw [List.foldlM_cons, List.map_cons, List.foldlM_cons]
    cases hq : addLine q l with
    | error e =>
      rw [hq] at hl
      rw [hl]
      rfl
    | ok q' =>
      rw [hq] at hl
      obtain ⟨r', hr', h'⟩ := hl
      rw [hr']
      exact ih h'

end Assembly

open Program in
/-- Assembly is compositional. A text with an error in its first part has that error; else an error
of the second part is told at its place in the whole; else the programs follow one another. -/
theorem assemble_append (a b : String) :
    let lines := a.toList.count '\n' + 1
    let bytes := a.utf8ByteSize + 1
    match assemble a, assemble b with
    | .error e, _ => assemble (a ++ "\n" ++ b) = .error e
    | .ok _, .error e => assemble (a ++ "\n" ++ b) = .error (e.shift lines bytes)
    | .ok p, .ok q => ∃ r, assemble (a ++ "\n" ++ b) = .ok r ∧ IsConcat lines bytes p q r := by
  intro lines bytes
  have hwhole : assemble (a ++ "\n" ++ b) = assemble a >>= fun p =>
      ((Source.lines b).map (·.shift lines bytes)).foldlM Assembly.addLine p := by
    rw [assemble, lines_append, List.foldlM_append]
    rfl
  cases ha : assemble a with
  | error e => rw [hwhole, ha]; rfl
  | ok p =>
    have hb := Assembly.foldlM_addLine_shift (Source.lines b) (IsConcat.empty lines bytes p)
    rw [hwhole, ha]
    change match assemble b with
      | .ok q' => _
      | .error e => _ at hb
    cases hq : assemble b with
    | error e => rw [hq] at hb; exact hb
    | ok q => rw [hq] at hb; exact hb

end Ram
