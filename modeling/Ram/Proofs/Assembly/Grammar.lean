import Mathlib.Data.List.Forall2
import Ram.Assembly.Basic
import Ram.Proofs.Program
import Ram.Proofs.Source.Words

/-!
# The grammar of a source text

`Denotes` lists the statements and `Offends` the ways to miss them, in the order in which they
are told; every phrase that is not empty is in exactly one of the two (`denotes_or_offends`,
`Offends.not_denotes`, `Offends.unique`). The words of the language are listed as they are written
(`map_name_mnemonics`, `map_symbol_comparisons`). Assembly accepts the texts whose lines all denote
something or nothing, and tells the first offence of the others (`assemble_grammar`).
-/

namespace Ram.Grammar

open Ram.Source Ram.Assembly

/-- The phrase spells the instruction. Where a jump target stands is no part of the meaning. -/
inductive Denotes : List String → Instruction → Prop where
  | halt : Denotes ["END"] .halt
  | goto (label : String) (span : Span) : Denotes ["GOTO", label] (.goto ⟨label, span⟩)
  | branch (cmp : Comparison) {value : String} {v : Int64} (label : String) (span : Span) :
      Literal.parse value.toList = .ok v →
      Denotes ["IF", cmp.symbol, value, "GOTO", label] (.branch cmp v ⟨label, span⟩)
  | const (op : Operation) {operand : String} {v : Int64} :
      Literal.parse operand.toList = .ok v →
      Denotes [(Mnemonic.const op).name, operand] (.compute op (.const v))
  | cell (op : Operation) (mode : Addressing) {operand : String} {v : Int64} :
      Literal.parse operand.toList = .ok v → 0 ≤ v.toInt →
      Denotes [(Mnemonic.cell op mode).name, operand]
        (.compute op (.cell ⟨mode, v.toInt.toNat⟩))
  | store (mode : Addressing) {operand : String} {v : Int64} :
      Literal.parse operand.toList = .ok v → 0 ≤ v.toInt →
      Denotes [(Mnemonic.store mode).name, operand] (.store ⟨mode, v.toInt.toNat⟩)
  | dump {operand : String} {v : Int64} :
      Literal.parse operand.toList = .ok v → 0 ≤ v.toInt →
      Denotes [Mnemonic.dump.name, operand] (.dump v.toInt.toNat)

/-- A line may be empty. -/
def WellFormed (ws : List String) : Prop := ws = [] ∨ ∃ i, Denotes ws i

/-- What is wrong with a phrase. A wrong arrangement comes first, then a bad number, then an
unknown comparison or a negative index; but a name that is unknown is told before anything is
said about what follows it. -/
inductive Offends : List String → Cause → Prop where
  | branchShape {args : List String} :
      (¬ ∃ symbol value label, args = [symbol, value, "GOTO", label]) →
      Offends ("IF" :: args) (.shape .branch)
  | branchLiteral (symbol : String) {value : String} (label : String) {e : Literal.Error} :
      Literal.parse value.toList = .error e →
      Offends ["IF", symbol, value, "GOTO", label] (.literal e)
  | branchComparison {symbol value : String} (label : String) {v : Int64} :
      Literal.parse value.toList = .ok v → (∀ cmp : Comparison, cmp.symbol ≠ symbol) →
      Offends ["IF", symbol, value, "GOTO", label] (.unknownComparison symbol)
  | gotoShape {args : List String} : args.length ≠ 1 → Offends ("GOTO" :: args) (.shape .goto)
  | haltShape {args : List String} : args ≠ [] → Offends ("END" :: args) (.shape .halt)
  | unknown {name : String} (args : List String) :
      name ∉ ["IF", "GOTO", "END"] → (∀ m : Mnemonic, m.name ≠ name) →
      Offends (name :: args) (.unknownInstruction name)
  | operandShape (m : Mnemonic) {args : List String} : args.length ≠ 1 →
      Offends (m.name :: args) (.shape .operand)
  | operandLiteral (m : Mnemonic) {operand : String} {e : Literal.Error} :
      Literal.parse operand.toList = .error e → Offends [m.name, operand] (.literal e)
  | negative (m : Mnemonic) {operand : String} {v : Int64} : (∀ op, m ≠ .const op) →
      Literal.parse operand.toList = .ok v → v.toInt < 0 →
      Offends [m.name, operand] (.negativeOperand m.name v)

/-! ## The words of the language -/

/-- Every mnemonic. -/
def mnemonics : List Mnemonic :=
  [Operation.load, .add, .sub, .mul, .div].flatMap
      (fun op => [.const op, .cell op .direct, .cell op .indirect]) ++
    [.store .direct, .store .indirect, .dump]

theorem mem_mnemonics (m : Mnemonic) : m ∈ mnemonics := by
  cases m with
  | const op => cases op <;> decide
  | cell op mode => cases op <;> cases mode <;> decide
  | store mode => cases mode <;> decide
  | dump => decide

/-- The names that take one numeric operand, as they are written. -/
theorem map_name_mnemonics : mnemonics.map Mnemonic.name =
    ["CLOAD", "LOAD", "INDLOAD", "CADD", "ADD", "INDADD", "CSUB", "SUB", "INDSUB",
      "CMUL", "MUL", "INDMUL", "CDIV", "DIV", "INDDIV", "STORE", "INDSTORE", "DUMP"] := by
  decide

theorem name_mem (m : Mnemonic) : m.name ∈ mnemonics.map Mnemonic.name :=
  List.mem_map_of_mem (mem_mnemonics m)

theorem name_not_keyword (m : Mnemonic) : m.name ∉ ["IF", "GOTO", "END"] := by
  have hnames : ∀ name ∈ mnemonics.map Mnemonic.name, name ∉ ["IF", "GOTO", "END"] := by
    rw [map_name_mnemonics]
    decide
  exact hnames m.name (name_mem m)

theorem ofName?_eq_none {name : String} :
    Mnemonic.ofName? name = none ↔ ∀ m : Mnemonic, m.name ≠ name := by
  constructor
  · intro h m hm
    rw [← hm, Mnemonic.ofName?_name] at h
    cases h
  · intro h
    cases hm : Mnemonic.ofName? name with
    | none => rfl
    | some m => exact absurd (Mnemonic.name_of_ofName? hm) (h m)

/-- Every comparison. -/
def comparisons : List Comparison := [.eq, .ne, .lt, .gt, .le, .ge]

theorem mem_comparisons (cmp : Comparison) : cmp ∈ comparisons := by
  cases cmp <;> decide

/-- The comparisons as they are written. -/
theorem map_symbol_comparisons :
    comparisons.map Comparison.symbol = ["=", "!=", "<", ">", "<=", ">="] := by
  decide

theorem symbol_mem (cmp : Comparison) : cmp.symbol ∈ comparisons.map Comparison.symbol :=
  List.mem_map_of_mem (mem_comparisons cmp)

theorem ofSymbol?_eq_none {symbol : String} :
    Comparison.ofSymbol? symbol = none ↔ ∀ cmp : Comparison, cmp.symbol ≠ symbol := by
  constructor
  · intro h cmp hcmp
    rw [← hcmp, Comparison.ofSymbol?_symbol] at h
    cases h
  · intro h
    cases hcmp : Comparison.ofSymbol? symbol with
    | none => rfl
    | some cmp => exact absurd (Comparison.symbol_of_ofSymbol? hcmp) (h cmp)

/-! ## Every phrase is accepted or offends -/

theorem denotes_or_offends_branch (args : List String) :
    (∃ i, Denotes ("IF" :: args) i) ∨ ∃ c, Offends ("IF" :: args) c := by
  by_cases hshape : ∃ symbol value label, args = [symbol, value, "GOTO", label]
  · obtain ⟨symbol, value, label, rfl⟩ := hshape
    cases hv : Literal.parse value.toList with
    | error e => exact .inr ⟨_, .branchLiteral symbol label hv⟩
    | ok v =>
      cases hs : Comparison.ofSymbol? symbol with
      | none => exact .inr ⟨_, .branchComparison label hv (ofSymbol?_eq_none.mp hs)⟩
      | some cmp =>
        obtain rfl := Comparison.symbol_of_ofSymbol? hs
        exact .inl ⟨_, .branch cmp label ⟨0, 0⟩ hv⟩
  · exact .inr ⟨_, .branchShape hshape⟩

theorem denotes_or_offends_operand (m : Mnemonic) (operand : String) :
    (∃ i, Denotes [m.name, operand] i) ∨ ∃ c, Offends [m.name, operand] c := by
  cases hv : Literal.parse operand.toList with
  | error e => exact .inr ⟨_, .operandLiteral m hv⟩
  | ok v =>
    by_cases hneg : v.toInt < 0
    · cases m with
      | const op => exact .inl ⟨_, .const op hv⟩
      | cell op mode => exact .inr ⟨_, .negative _ (fun _ h => nomatch h) hv hneg⟩
      | store mode => exact .inr ⟨_, .negative _ (fun _ h => nomatch h) hv hneg⟩
      | dump => exact .inr ⟨_, .negative _ (fun _ h => nomatch h) hv hneg⟩
    · have hpos : 0 ≤ v.toInt := by omega
      cases m with
      | const op => exact .inl ⟨_, .const op hv⟩
      | cell op mode => exact .inl ⟨_, .cell op mode hv hpos⟩
      | store mode => exact .inl ⟨_, .store mode hv hpos⟩
      | dump => exact .inl ⟨_, .dump hv hpos⟩

theorem denotes_or_offends (head : String) (args : List String) :
    (∃ i, Denotes (head :: args) i) ∨ ∃ c, Offends (head :: args) c := by
  by_cases hif : head = "IF"
  · subst hif
    exact denotes_or_offends_branch args
  by_cases hgoto : head = "GOTO"
  · subst hgoto
    rcases args with _ | ⟨label, _ | ⟨extra, rest⟩⟩
    · exact .inr ⟨_, .gotoShape (by simp)⟩
    · exact .inl ⟨_, .goto label ⟨0, 0⟩⟩
    · exact .inr ⟨_, .gotoShape (by simp)⟩
  by_cases hend : head = "END"
  · subst hend
    rcases args with _ | ⟨extra, rest⟩
    · exact .inl ⟨_, .halt⟩
    · exact .inr ⟨_, .haltShape (by simp)⟩
  cases hm : Mnemonic.ofName? head with
  | none =>
    exact .inr ⟨_, .unknown args (by simp [hif, hgoto, hend]) (ofName?_eq_none.mp hm)⟩
  | some m =>
    obtain rfl := Mnemonic.name_of_ofName? hm
    rcases args with _ | ⟨operand, _ | ⟨extra, rest⟩⟩
    · exact .inr ⟨_, .operandShape m (by simp)⟩
    · exact denotes_or_offends_operand m operand
    · exact .inr ⟨_, .operandShape m (by simp)⟩

/-! ## One statement -/

theorem toList_text (f : Field) : f.text.toList = f.chars := String.toList_ofList

theorem number_of_ok {f : Field} {v : Int64} (h : Literal.parse f.text.toList = .ok v)
    (line : Nat) : number line f = .ok v := by
  rw [toList_text] at h
  unfold number
  rw [h]

theorem number_of_error {f : Field} {e : Literal.Error}
    (h : Literal.parse f.text.toList = .error e) (line : Nat) :
    number line f = .error ⟨⟨line, f.span⟩, .literal e⟩ := by
  rw [toList_text] at h
  unfold number
  rw [h]

theorem index_of_ok {f : Field} {v : Int64} (h : Literal.parse f.text.toList = .ok v)
    (hv : 0 ≤ v.toInt) (line : Nat) (name : String) : index line name f = .ok v.toInt.toNat := by
  have hlt : ¬ v < 0 := by
    rw [Int64.lt_iff_toInt_lt, Int64.toInt_zero]
    omega
  unfold index
  rw [number_of_ok h line]
  exact if_neg hlt

theorem index_of_negative {f : Field} {v : Int64} (h : Literal.parse f.text.toList = .ok v)
    (hv : v.toInt < 0) (line : Nat) (name : String) :
    index line name f = .error ⟨⟨line, f.span⟩, .negativeOperand name v⟩ := by
  have hlt : v < 0 := by
    rw [Int64.lt_iff_toInt_lt, Int64.toInt_zero]
    exact hv
  unfold index
  rw [number_of_ok h line]
  exact if_pos hlt

theorem index_of_error {f : Field} {e : Literal.Error}
    (h : Literal.parse f.text.toList = .error e) (line : Nat) (name : String) :
    index line name f = .error ⟨⟨line, f.span⟩, .literal e⟩ := by
  unfold index
  rw [number_of_error h line]
  rfl

theorem map_text_eq_four {args : List Field} {a b c d : String}
    (h : args.map (·.text) = [a, b, c, d]) :
    ∃ f g k l : Field, args = [f, g, k, l] ∧
      f.text = a ∧ g.text = b ∧ k.text = c ∧ l.text = d := by
  obtain ⟨f, fs, rfl, hf, h⟩ := List.map_eq_cons_iff.mp h
  obtain ⟨g, gs, rfl, hg, h⟩ := List.map_eq_cons_iff.mp h
  obtain ⟨k, ks, rfl, hk, h⟩ := List.map_eq_cons_iff.mp h
  obtain ⟨l, rfl, hl⟩ := List.map_eq_singleton_iff.mp h
  exact ⟨f, g, k, l, rfl, hf, hg, hk, hl⟩

section Statement

variable {head : Field} {args : List Field} (site : Site)

theorem instruction_of_if (h : head.text = "IF") :
    instruction site head args = branch site args := by
  unfold instruction
  rw [if_pos h]

theorem instruction_of_mnemonic {m : Mnemonic} (h : head.text = m.name) :
    instruction site head args =
      match args with
      | [operand] => ofMnemonic site.line m operand
      | _ => .error ⟨site, .shape .operand⟩ := by
  have hkey := name_not_keyword m
  simp only [List.mem_cons, List.not_mem_nil, or_false, not_or] at hkey
  unfold instruction
  rw [h, if_neg hkey.1, if_neg hkey.2.1, if_neg hkey.2.2]
  rcases args with _ | ⟨operand, _ | ⟨extra, rest⟩⟩ <;> rw [Mnemonic.ofName?_name]

theorem instruction_of_operand {m : Mnemonic} {operand : String}
    (h : head.text :: args.map (·.text) = [m.name, operand]) :
    ∃ f : Field, f.text = operand ∧ instruction site head args = ofMnemonic site.line m f := by
  obtain ⟨hhead, hargs⟩ := List.cons.inj h
  obtain ⟨f, rfl, hf⟩ := List.map_eq_singleton_iff.mp hargs
  exact ⟨f, hf, instruction_of_mnemonic site hhead⟩

theorem ofMnemonic_of_error (m : Mnemonic) {f : Field} {e : Literal.Error}
    (h : Literal.parse f.text.toList = .error e) (line : Nat) :
    ofMnemonic line m f = .error ⟨⟨line, f.span⟩, .literal e⟩ := by
  unfold ofMnemonic
  cases m with
  | const op => dsimp only; rw [number_of_error h]; rfl
  | cell op mode => dsimp only; rw [index_of_error h]; rfl
  | store mode => dsimp only; rw [index_of_error h]; rfl
  | dump => dsimp only; rw [index_of_error h]; rfl

theorem ofMnemonic_of_negative {m : Mnemonic} (hm : ∀ op, m ≠ .const op) {f : Field} {v : Int64}
    (h : Literal.parse f.text.toList = .ok v) (hv : v.toInt < 0) (line : Nat) :
    ofMnemonic line m f = .error ⟨⟨line, f.span⟩, .negativeOperand m.name v⟩ := by
  unfold ofMnemonic
  cases m with
  | const op => exact absurd rfl (hm op)
  | cell op mode => dsimp only; rw [index_of_negative h hv]; rfl
  | store mode => dsimp only; rw [index_of_negative h hv]; rfl
  | dump => dsimp only; rw [index_of_negative h hv]; rfl

/-- A phrase that denotes something is read as that, but for the place of a jump target. -/
theorem instruction_of_denotes {i : Instruction}
    (h : Denotes (head.text :: args.map (·.text)) i) :
    ∃ i', instruction site head args = .ok i' ∧ Denotes (head.text :: args.map (·.text)) i' ∧
      i'.bare = i.bare := by
  generalize hws : head.text :: args.map (·.text) = ws at h ⊢
  cases h with
  | halt =>
    obtain ⟨hhead, hargs⟩ := List.cons.inj hws
    obtain rfl := List.map_eq_nil_iff.mp hargs
    refine ⟨.halt, ?_, .halt, rfl⟩
    unfold instruction
    rw [hhead]
    rfl
  | goto label span =>
    obtain ⟨hhead, hargs⟩ := List.cons.inj hws
    obtain ⟨target, rfl, rfl⟩ := List.map_eq_singleton_iff.mp hargs
    refine ⟨.goto (jump target), ?_, .goto target.text target.span, rfl⟩
    unfold instruction
    rw [hhead]
    rfl
  | branch cmp label span hv =>
    obtain ⟨hhead, hargs⟩ := List.cons.inj hws
    obtain ⟨symbol, value, word, target, rfl, hsymbol, rfl, hword, rfl⟩ := map_text_eq_four hargs
    refine ⟨.branch cmp _ (jump target), ?_, .branch cmp target.text target.span hv, rfl⟩
    rw [instruction_of_if site hhead]
    unfold branch
    dsimp only
    rw [if_pos hword, number_of_ok hv, hsymbol, Comparison.ofSymbol?_symbol]
    rfl
  | const op hv =>
    obtain ⟨f, rfl, hf⟩ := instruction_of_operand site hws
    refine ⟨_, ?_, .const op hv, rfl⟩
    rw [hf, ofMnemonic, number_of_ok hv]
    rfl
  | cell op mode hv hpos =>
    obtain ⟨f, rfl, hf⟩ := instruction_of_operand site hws
    refine ⟨_, ?_, .cell op mode hv hpos, rfl⟩
    rw [hf, ofMnemonic, index_of_ok hv hpos]
    rfl
  | store mode hv hpos =>
    obtain ⟨f, rfl, hf⟩ := instruction_of_operand site hws
    refine ⟨_, ?_, .store mode hv hpos, rfl⟩
    rw [hf, ofMnemonic, index_of_ok hv hpos]
    rfl
  | dump hv hpos =>
    obtain ⟨f, rfl, hf⟩ := instruction_of_operand site hws
    refine ⟨_, ?_, .dump hv hpos, rfl⟩
    rw [hf, ofMnemonic, index_of_ok hv hpos]
    rfl

/-- A phrase that offends is refused for its offence, in its own line. -/
theorem instruction_of_offends {c : Cause}
    (h : Offends (head.text :: args.map (·.text)) c) :
    ∃ span, instruction site head args = .error ⟨⟨site.line, span⟩, c⟩ := by
  generalize hws : head.text :: args.map (·.text) = ws at h
  cases h with
  | branchShape hshape =>
    obtain ⟨hhead, hargs⟩ := List.cons.inj hws
    refine ⟨site.span, ?_⟩
    rw [instruction_of_if site hhead]
    unfold branch
    split
    · rename_i symbol value word target
      have hword : word.text ≠ "GOTO" := by
        intro hword
        exact hshape ⟨symbol.text, value.text, target.text, by rw [← hargs, ← hword]; rfl⟩
      exact if_neg hword
    · rfl
  | branchLiteral symbol label he =>
    obtain ⟨hhead, hargs⟩ := List.cons.inj hws
    obtain ⟨symbol, value, word, target, rfl, -, rfl, hword, -⟩ := map_text_eq_four hargs
    refine ⟨value.span, ?_⟩
    rw [instruction_of_if site hhead]
    unfold branch
    dsimp only
    rw [if_pos hword, number_of_error he]
    rfl
  | branchComparison label hv hsymbol =>
    obtain ⟨hhead, hargs⟩ := List.cons.inj hws
    obtain ⟨symbol, value, word, target, rfl, rfl, rfl, hword, -⟩ := map_text_eq_four hargs
    refine ⟨symbol.span, ?_⟩
    rw [instruction_of_if site hhead]
    unfold branch
    dsimp only
    rw [if_pos hword, number_of_ok hv, ofSymbol?_eq_none.mpr hsymbol]
    rfl
  | gotoShape hlen =>
    obtain ⟨hhead, hargs⟩ := List.cons.inj hws
    rw [← hargs, List.length_map] at hlen
    refine ⟨site.span, ?_⟩
    unfold instruction
    rw [hhead]
    rcases args with _ | ⟨target, _ | ⟨extra, rest⟩⟩
    · rfl
    · exact absurd rfl hlen
    · rfl
  | haltShape hne =>
    obtain ⟨hhead, hargs⟩ := List.cons.inj hws
    refine ⟨site.span, ?_⟩
    unfold instruction
    rw [hhead]
    rcases args with _ | ⟨extra, rest⟩
    · exact absurd hargs.symm hne
    · rfl
  | unknown _ hkey hname =>
    obtain ⟨hhead, -⟩ := List.cons.inj hws
    simp only [List.mem_cons, List.not_mem_nil, or_false, not_or] at hkey
    refine ⟨head.span, ?_⟩
    unfold instruction
    rw [hhead, if_neg hkey.1, if_neg hkey.2.1, if_neg hkey.2.2, ofName?_eq_none.mpr hname]
  | operandShape m hlen =>
    obtain ⟨hhead, hargs⟩ := List.cons.inj hws
    rw [← hargs, List.length_map] at hlen
    refine ⟨site.span, ?_⟩
    rw [instruction_of_mnemonic site hhead]
    rcases args with _ | ⟨operand, _ | ⟨extra, rest⟩⟩
    · rfl
    · exact absurd rfl hlen
    · rfl
  | operandLiteral m he =>
    obtain ⟨f, rfl, hf⟩ := instruction_of_operand site hws
    exact ⟨f.span, by rw [hf, ofMnemonic_of_error m he]⟩
  | negative m hm hv hneg =>
    obtain ⟨f, rfl, hf⟩ := instruction_of_operand site hws
    exact ⟨f.span, by rw [hf, ofMnemonic_of_negative hm hv hneg]⟩

end Statement

/-! ## The two readings exclude each other -/

theorem exists_fields (ws : List String) : ∃ fs : List Field, fs.map (·.text) = ws := by
  refine ⟨ws.map fun w => ⟨0, w.toList⟩, ?_⟩
  simp [Field.text, Function.comp_def]

theorem Offends.exists_fields {ws : List String} {c : Cause} (h : Offends ws c) :
    ∃ (head : Field) (args : List Field), ws = head.text :: args.map (·.text) := by
  obtain ⟨fs, rfl⟩ := Grammar.exists_fields ws
  cases fs with
  | nil => cases h
  | cons head args => exact ⟨head, args, rfl⟩

theorem Offends.unique {ws : List String} {c c' : Cause} (h : Offends ws c)
    (h' : Offends ws c') : c = c' := by
  obtain ⟨head, args, rfl⟩ := h.exists_fields
  obtain ⟨span, hc⟩ := instruction_of_offends ⟨0, ⟨0, 0⟩⟩ h
  obtain ⟨span', hc'⟩ := instruction_of_offends ⟨0, ⟨0, 0⟩⟩ h'
  rw [hc] at hc'
  cases hc'
  rfl

theorem Offends.not_denotes {ws : List String} {c : Cause} (h : Offends ws c)
    (i : Instruction) : ¬ Denotes ws i := by
  intro hi
  obtain ⟨head, args, rfl⟩ := h.exists_fields
  obtain ⟨span, hc⟩ := instruction_of_offends ⟨0, ⟨0, 0⟩⟩ h
  obtain ⟨i', hi', -⟩ := instruction_of_denotes ⟨0, ⟨0, 0⟩⟩ hi
  rw [hc] at hi'
  cases hi'

theorem Offends.not_wellFormed {ws : List String} {c : Cause} (h : Offends ws c) :
    ¬ WellFormed ws := by
  rintro (rfl | ⟨i, hi⟩)
  · cases h
  · exact h.not_denotes i hi

/-! ## Lines -/

/-- The instructions of a program, without their sites. -/
def instructions (p : Program) : List Instruction := p.statements.toList.map (·.instruction)

theorem instructions_declareLabel (p : Program) (line : Line) :
    instructions (declareLabel p line) = instructions p := by
  unfold declareLabel
  cases line.label <;> rfl

theorem instructions_push (p : Program) (s : Statement) :
    instructions (p.push s) = instructions p ++ [s.instruction] := by
  simp [instructions, Program.push]

/-- What a phrase adds to a program: nothing, or the instruction it denotes. -/
inductive Adds : List String → List Instruction → Prop where
  | nothing : Adds [] []
  | one {ws : List String} {i : Instruction} : Denotes ws i → Adds ws [i]

theorem addLine_reads (p : Program) (line : Line) :
    match addLine p line with
    | .ok q => ∃ is, Adds (line.fields.map (·.text)) is ∧ instructions q = instructions p ++ is
    | .error e => Offends (line.fields.map (·.text)) e.cause ∧ e.site.line = line.site.line := by
  cases hf : line.fields with
  | nil =>
    have hi : instruction? line = .ok none := by
      unfold instruction?
      rw [hf]
    rw [addLine_of_none hi]
    exact ⟨[], .nothing, by rw [instructions_declareLabel, List.append_nil]⟩
  | cons head args =>
    rcases denotes_or_offends head.text (args.map (·.text)) with ⟨i, h⟩ | ⟨c, h⟩
    · obtain ⟨i', hi', hd, -⟩ := instruction_of_denotes line.site h
      have hi : instruction? line = .ok (some i') := by
        unfold instruction?
        rw [hf]
        dsimp only
        rw [hi']
        rfl
      rw [addLine_of_some hi]
      exact ⟨[i'], .one hd, by rw [instructions_push, instructions_declareLabel]⟩
    · obtain ⟨span, hc⟩ := instruction_of_offends line.site h
      have hi : instruction? line = .error ⟨⟨line.site.line, span⟩, c⟩ := by
        unfold instruction?
        rw [hf]
        dsimp only
        rw [hc]
        rfl
      rw [addLine_of_error hi]
      exact ⟨h, rfl⟩

theorem ofChars_reads (o n : Nat) (raw : List Char) (p : Program) :
    match (Line.ofChars o n raw).toList.foldlM addLine p with
    | .ok q => ∃ is, Adds (phrase raw) is ∧ instructions q = instructions p ++ is
    | .error e => Offends (phrase raw) e.cause ∧ e.site.line = n := by
  have hphrase := ofChars_phrase o n raw
  cases hline : Line.ofChars o n raw with
  | none =>
    rw [hline] at hphrase
    dsimp only at hphrase
    rw [hphrase]
    exact ⟨[], .nothing, by rw [List.append_nil]⟩
  | some line =>
    rw [hline] at hphrase
    dsimp only at hphrase
    rw [← hphrase.1, ← hphrase.2, Option.toList_some, List.foldlM_cons]
    have hadd := addLine_reads p line
    cases h : addLine p line with
    | ok q => rw [h] at hadd; exact hadd
    | error e => rw [h] at hadd; exact hadd

/-! ## Source texts -/

theorem Adds.wellFormed {ws : List String} {is : List Instruction} (h : Adds ws is) :
    WellFormed ws := by
  cases h with
  | nothing => exact .inl rfl
  | one hi => exact .inr ⟨_, hi⟩

theorem Adds.forall₂ {ws : List String} {is js : List Instruction} {rest : List (List String)}
    (h : Adds ws is) (hrest : List.Forall₂ Denotes (rest.filter (· ≠ [])) js) :
    List.Forall₂ Denotes ((ws :: rest).filter (· ≠ [])) (is ++ js) := by
  cases h with
  | nothing => exact hrest
  | one hi =>
    have hne : ws ≠ [] := by
      rintro rfl
      cases hi
    rw [List.filter_cons_of_pos (by simpa using hne)]
    exact .cons hi hrest

/-- Induction on the lines: each adds what its phrase denotes, up to the first that offends. -/
theorem linesFrom_reads (raws : List (List Char)) : ∀ (o n : Nat) (p : Program),
    match (linesFrom o n raws).foldlM addLine p with
    | .ok q => ∃ is, List.Forall₂ Denotes ((raws.map phrase).filter (· ≠ [])) is ∧
        instructions q = instructions p ++ is
    | .error e => ∃ before ws after, raws.map phrase = before ++ ws :: after ∧
        (∀ w ∈ before, WellFormed w) ∧ Offends ws e.cause ∧
        e.site.line = n + before.length := by
  induction raws with
  | nil =>
    intro o n p
    exact ⟨[], .nil, by rw [List.append_nil]⟩
  | cons raw raws ih =>
    intro o n p
    have hline := ofChars_reads o n raw p
    rw [linesFrom, List.foldlM_append, List.map_cons]
    cases h : (Line.ofChars o n raw).toList.foldlM addLine p with
    | error e =>
      rw [h] at hline
      obtain ⟨hoff, hn⟩ := hline
      exact ⟨[], phrase raw, raws.map phrase, rfl, by simp, hoff, hn⟩
    | ok q =>
      rw [h] at hline
      obtain ⟨is, hadds, hq⟩ := hline
      have hrest := ih (o + Text.byteSize raw + 1) (n + 1) q
      change match (linesFrom (o + Text.byteSize raw + 1) (n + 1) raws).foldlM addLine q with
        | .ok _ => _
        | .error _ => _
      cases h' : (linesFrom (o + Text.byteSize raw + 1) (n + 1) raws).foldlM addLine q with
      | ok q' =>
        rw [h'] at hrest
        obtain ⟨js, hjs, hq'⟩ := hrest
        exact ⟨is ++ js, hadds.forall₂ hjs, by rw [hq', hq, List.append_assoc]⟩
      | error e =>
        rw [h'] at hrest
        obtain ⟨before, ws, after, hsplit, hbefore, hoff, hn⟩ := hrest
        refine ⟨phrase raw :: before, ws, after, by rw [hsplit]; rfl, ?_, hoff, ?_⟩
        · rintro w (_ | ⟨_, hw⟩)
          · exact hadds.wellFormed
          · exact hbefore w hw
        · rw [hn, List.length_cons]
          omega

/-- The phrases of the lines of a text, empty ones included. -/
def phrases (src : String) : List (List String) := (src.toList.splitOn '\n').map phrase

theorem exists_denotes {ps : List (List String)} {is : List Instruction}
    (h : List.Forall₂ Denotes ps is) : ∀ ws ∈ ps, ∃ i, Denotes ws i := by
  induction h with
  | nil => exact fun ws hws => nomatch hws
  | cons hi _ ih =>
    rintro ws (_ | ⟨_, hws⟩)
    · exact ⟨_, hi⟩
    · exact ih ws hws

theorem wellFormed_of_forall₂ {ps : List (List String)} {is : List Instruction}
    (h : List.Forall₂ Denotes (ps.filter (· ≠ [])) is) : ∀ ws ∈ ps, WellFormed ws := by
  intro ws hws
  by_cases hne : ws = []
  · exact .inl hne
  · exact .inr (exists_denotes h ws (List.mem_filter.mpr ⟨hws, by simpa using hne⟩))

/-- Assembly accepts the texts whose lines are all well formed, with the instructions that the
lines denote, and tells the others the offence and the number of their first bad line. -/
theorem assemble_grammar (src : String) :
    ((∃ p, assemble src = .ok p) ↔ ∀ ws ∈ phrases src, WellFormed ws) ∧
    (∀ p, assemble src = .ok p →
      List.Forall₂ Denotes ((phrases src).filter (· ≠ [])) (instructions p)) ∧
    (∀ e, assemble src = .error e →
      ∃ before ws after, phrases src = before ++ ws :: after ∧
        (∀ w ∈ before, WellFormed w) ∧ ¬ WellFormed ws ∧
        e.site.line = before.length + 1 ∧ ∀ c, Offends ws c ↔ c = e.cause) := by
  have h := linesFrom_reads (src.toList.splitOn '\n') 0 1 {}
  change match assemble src with | .ok _ => _ | .error _ => _ at h
  cases hp : assemble src with
  | ok p =>
    rw [hp] at h
    obtain ⟨is, his, hp'⟩ := h
    have hden : List.Forall₂ Denotes ((phrases src).filter (· ≠ [])) (instructions p) := by
      rw [hp']
      exact his
    refine ⟨⟨fun _ => wellFormed_of_forall₂ hden, fun _ => ⟨p, rfl⟩⟩, ?_, fun e he => by cases he⟩
    rintro q ⟨⟩
    exact hden
  | error e =>
    rw [hp] at h
    obtain ⟨before, ws, after, hsplit, hbefore, hoff, hn⟩ := h
    have hsplit : phrases src = before ++ ws :: after := hsplit
    refine ⟨⟨fun ⟨p, hp⟩ => by (cases hp), fun hall => ?_⟩, fun p hp => by (cases hp), ?_⟩
    · exact absurd (hall ws (by rw [hsplit]; simp)) hoff.not_wellFormed
    · rintro e' ⟨⟩
      refine ⟨before, ws, after, hsplit, hbefore, hoff.not_wellFormed, by omega, fun c => ?_⟩
      exact ⟨fun hc => hc.unique hoff, fun hc => hc ▸ hoff⟩

end Ram.Grammar
