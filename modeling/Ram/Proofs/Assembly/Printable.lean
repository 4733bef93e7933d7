import Ram.Proofs.Assembly.Listing
import Ram.Proofs.Source.Fields

/-!
# Instructions that can be read again

An instruction can be written down whatever its operands are, but not every written form can be read
again: an index may be too large for a literal, and a label may be no word. `Instruction.Printable`
says which instructions are left. They are the ones that some phrase denotes (`Spoken.printable`,
`Instruction.Printable.spoken`), and their written form is a text of one line that has nothing else
in it (`lines_text`). So they are exactly the ones that are read back from their written form
(`reads_back_iff_printable`).
-/

namespace Ram

open Ram.Source Ram.Grammar Ram.Text

/-- The indices and counts are within the literals, and a jump is to a label that is one word: it is
not empty, and there is no blank and no `#` in it. -/
def Instruction.Printable : Instruction → Prop
  | compute _ (.const _) | halt => True
  | compute _ (.cell a) | store a => a.index ≤ 0x7FFFFFFFFFFFFFFF
  | dump count => count ≤ 0x7FFFFFFFFFFFFFFF
  | goto target | branch _ _ target => IsWord target.label.toList

instance Instruction.decidablePrintable : (i : Instruction) → Decidable i.Printable
  | compute _ (.const _) | halt => .isTrue trivial
  | compute _ (.cell a) | store a => inferInstanceAs (Decidable (a.index ≤ 0x7FFFFFFFFFFFFFFF))
  | dump count => inferInstanceAs (Decidable (count ≤ 0x7FFFFFFFFFFFFFFF))
  | goto target | branch _ _ target => inferInstanceAs (Decidable (IsWord target.label.toList))

theorem Instruction.printable_bare {i : Instruction} : i.bare.Printable ↔ i.Printable := by
  cases i with
  | compute op operand => exact Iff.rfl
  | store target => exact Iff.rfl
  | dump count => exact Iff.rfl
  | goto target => exact Iff.rfl
  | branch cmp value target => exact Iff.rfl
  | halt => exact Iff.rfl

/-! ## Phrases for an instruction -/

theorem toNat_toInt_le (v : Int64) : v.toInt.toNat ≤ 0x7FFFFFFFFFFFFFFF := by
  have := v.toInt_lt
  omega

theorem exists_toNat_toInt {n : Nat} (h : n ≤ 0x7FFFFFFFFFFFFFFF) :
    ∃ v : Int64, 0 ≤ v.toInt ∧ v.toInt.toNat = n := by
  have hv : (Int64.ofInt n).toInt = n := Int64.toInt_ofInt_of_le (by omega) (by omega)
  exact ⟨Int64.ofInt n, by omega, by omega⟩

theorem spoken_of_operand (m : Mnemonic) {v : Int64} {i : Instruction}
    (h : Denotes [m.name, toString v.toInt] i) : Spoken i := by
  refine ⟨_, h, ?_⟩
  simp only [List.forall_mem_cons]
  exact ⟨m.isHead_name.1, isWord_toString v.toInt, nofun⟩

theorem Spoken.printable {i : Instruction} (h : Spoken i) : i.Printable := by
  obtain ⟨ws, hden, hws⟩ := h
  cases hden with
  | halt => trivial
  | goto label span => exact hws label (by simp)
  | branch cmp label span _ => exact hws label (by simp)
  | const op _ => trivial
  | cell op mode _ _ => exact toNat_toInt_le _
  | store mode _ _ => exact toNat_toInt_le _
  | dump _ _ => exact toNat_toInt_le _

theorem Instruction.Printable.spoken {i : Instruction} (h : i.Printable) : Spoken i := by
  cases i with
  | compute op operand =>
    cases operand with
    | const v => exact spoken_of_operand (.const op) (.const op (Literal.parse_toString v))
    | cell a =>
      obtain ⟨mode, n⟩ := a
      obtain ⟨v, hv, rfl⟩ := exists_toNat_toInt h
      exact spoken_of_operand (.cell op mode) (.cell op mode (Literal.parse_toString v) hv)
  | store a =>
    obtain ⟨mode, n⟩ := a
    obtain ⟨v, hv, rfl⟩ := exists_toNat_toInt h
    exact spoken_of_operand (.store mode) (.store mode (Literal.parse_toString v) hv)
  | dump n =>
    obtain ⟨v, hv, rfl⟩ := exists_toNat_toInt h
    exact spoken_of_operand .dump (.dump (Literal.parse_toString v) hv)
  | goto target =>
    refine ⟨_, .goto target.label target.span, ?_⟩
    simp only [List.forall_mem_cons]
    exact ⟨by decide, h, nofun⟩
  | branch cmp v target =>
    refine ⟨_, .branch cmp target.label target.span (Literal.parse_toString v), ?_⟩
    have hsymbols : ∀ symbol ∈ comparisons.map Comparison.symbol, IsWord symbol.toList := by
      rw [map_symbol_comparisons]
      decide
    have hsymbol := hsymbols cmp.symbol (symbol_mem cmp)
    simp only [List.forall_mem_cons]
    exact ⟨by decide, hsymbol, isWord_toString v.toInt, by decide, h, nofun⟩
  | halt => exact ⟨_, .halt, by simp only [List.forall_mem_singleton]; decide⟩

/-! ## The line of a written instruction -/

namespace Source

theorem joinWords_ne_nil {w : List Char} {ws : List (List Char)} (h : IsWord w) :
    joinWords (w :: ws) ≠ [] := by
  cases ws with
  | nil =>
    rw [joinWords, List.intercalate_singleton]
    exact h.1
  | cons v ws =>
    rw [joinWords_cons_cons]
    exact List.append_ne_nil_of_left_ne_nil h.1 _

theorem head?_joinWords {w : List Char} {ws : List (List Char)} (h : IsWord w) :
    (joinWords (w :: ws)).head? = w.head? := by
  cases ws with
  | nil => rw [joinWords, List.intercalate_singleton]
  | cons v ws => rw [joinWords_cons_cons, List.head?_append_of_ne_nil _ h.1]

theorem isBlank_getLast?_joinWords : ∀ {ws : List (List Char)}, (∀ w ∈ ws, IsWord w) →
    ∀ c ∈ (joinWords ws).getLast?, isBlank c = false
  | [], _, c, hc => nomatch hc
  | [w], h, c, hc => by
    rw [joinWords, List.intercalate_singleton] at hc
    exact ((h w List.mem_cons_self).2 c (List.mem_of_mem_getLast? hc)).1
  | w :: v :: ws, h, c, hc => by
    have hrest : ∀ u ∈ v :: ws, IsWord u := fun u hu => h u (.tail _ hu)
    have hne : joinWords (v :: ws) ≠ [] := joinWords_ne_nil (hrest v List.mem_cons_self)
    rw [joinWords_cons_cons, List.getLast?_append_of_ne_nil _ (List.cons_ne_nil _ _),
      List.getLast?_cons_of_ne_nil hne] at hc
    exact isBlank_getLast?_joinWords hrest c hc

theorem trim_joinWords {w : List Char} {ws : List (List Char)} (h : ∀ u ∈ w :: ws, IsWord u) :
    trim (joinWords (w :: ws)) = joinWords (w :: ws) := by
  have hw := h w List.mem_cons_self
  have htrim : trim ([] ++ joinWords (w :: ws) ++ []) = joinWords (w :: ws) :=
    trim_append nofun nofun (joinWords_ne_nil hw)
      (fun c hc => (hw.2 c (List.mem_of_mem_head? (head?_joinWords hw ▸ hc))).1)
      (isBlank_getLast?_joinWords h)
  rwa [List.nil_append, List.append_nil] at htrim

/-- A text of words and nothing else is one line, which covers it. -/
theorem site_of_joinWords {src : String} {w : List Char} {ws : List (List Char)}
    (h : ∀ u ∈ w :: ws, IsWord u) (hsrc : src.toList = joinWords (w :: ws)) {l : Line}
    (hl : l ∈ lines src) : l.site = ⟨1, ⟨0, src.utf8ByteSize⟩⟩ := by
  have hsplit : src.toList.splitOn '\n' = [src.toList] := by
    refine List.splitOnP_eq_singleton fun c hc => ?_
    have hne : c ≠ '\n' := by
      rintro rfl
      exact newline_notMem_joinWords h (hsrc ▸ hc)
    simpa using hne
  rw [lines, hsplit, linesFrom, linesFrom, List.append_nil] at hl
  obtain ⟨pre, post, hcode, -, hsite, -⟩ := Line.site_of_ofChars (Option.mem_toList.mp hl)
  rw [hsrc, code_joinWords h, trim_joinWords h, ← hsrc] at hcode hsite
  have hsize := congrArg byteSize hcode
  simp only [byteSize_append] at hsize
  have hpre : byteSize pre = 0 := by omega
  rw [hsite, hpre, byteSize_toList]

end Source

/-- The written form of an instruction is a text of one line, and the line is the phrase. -/
theorem lines_text {i : Instruction} (h : Spoken i) :
    ∃ l, lines i.text = [l] ∧ l.label = none ∧ l.fields.map (·.text) = i.phrase ∧
      l.site = ⟨1, ⟨0, i.text.utf8ByteSize⟩⟩ := by
  let item : Item := .instruction i
  have hwords : ∀ w ∈ item.words, IsWord w := Item.Legible.isWord (x := item) h
  have htext : i.text = ofWordLines [item.words] := by
    rw [ofWordLines, List.map_singleton, List.intercalate_singleton, ← String.toList_inj,
      String.toList_ofList]
    exact item.toList_text
  have hentry : (lines i.text).map Line.entry = [item.entry] := by
    rw [htext, map_entry_ofWordLines (by simpa only [List.forall_mem_singleton] using hwords),
      List.filterMap_cons, item.ofWords_words, List.filterMap_nil]
  obtain ⟨l, hl, hline⟩ := List.map_eq_singleton_iff.mp hentry
  obtain ⟨hlabel, hphrase⟩ := Entry.mk.inj hline
  obtain ⟨head, args, hcons, -⟩ := i.phrase_eq_cons
  have hitem : item.words = head.toList :: args.map String.toList := by
    show i.phrase.map String.toList = _
    rw [hcons, List.map_cons]
  refine ⟨l, hl, Option.map_eq_none_iff.mp hlabel, hphrase, ?_⟩
  exact site_of_joinWords (hitem ▸ hwords) (hitem ▸ item.toList_text)
    (hl ▸ List.mem_singleton_self l)

/-! ## Reading back -/

/-- Assembled, the written form is a program of one statement and no label. -/
theorem assemble_text {i : Instruction} (h : Spoken i) :
    ∃ j, assemble i.text =
        .ok { statements := #[⟨j, ⟨1, ⟨0, i.text.utf8ByteSize⟩⟩⟩] } ∧ j.bare = i.bare := by
  obtain ⟨l, hl, hlabel, hphrase, hsite⟩ := lines_text h
  obtain ⟨ws, hden, -⟩ := h
  obtain ⟨j, hj, -, hbare⟩ := Assembly.instruction?_of_denotes (hphrase ▸ denotes_phrase hden)
  refine ⟨j, ?_, hbare⟩
  rw [assemble, hl, List.foldlM_cons, Assembly.addLine_of_some hj, Assembly.declareLabel, hlabel,
    hsite]
  rfl

theorem printable_of_assemble {src : String} {p : Program} {s : Statement} {i : Instruction}
    (h : assemble src = .ok p) (hs : s ∈ p.statements) (hbare : s.instruction.bare = i.bare) :
    i.Printable := by
  have hmem : s.instruction ∈ instructions p := List.mem_map_of_mem (Array.mem_toList_iff.mpr hs)
  have hprintable := ((assembled_of_assemble h).spoken _ hmem).printable
  rwa [← Instruction.printable_bare, hbare, Instruction.printable_bare] at hprintable

/-- Exactly the printable instructions are read back. Assembly makes of the written form of an
instruction a program of this one instruction, but for places, and no label, if and only if the
instruction is printable. The statement then stands on the first line and covers the text, and
printable instructions with the same written form are the same but for places. -/
theorem reads_back_iff_printable (i : Instruction) :
    ((∃ s, assemble i.text = .ok { statements := #[s] } ∧ s.instruction.bare = i.bare) ↔
      i.Printable) ∧
    (i.Printable → ∃ s, assemble i.text = .ok { statements := #[s] } ∧
      s.instruction.bare = i.bare ∧ s.site = ⟨1, ⟨0, i.text.utf8ByteSize⟩⟩) ∧
    ∀ k : Instruction, i.Printable → k.Printable → i.text = k.text → i.bare = k.bare := by
  have hreads : i.Printable → ∃ s, assemble i.text = .ok { statements := #[s] } ∧
      s.instruction.bare = i.bare ∧ s.site = ⟨1, ⟨0, i.text.utf8ByteSize⟩⟩ := fun h => by
    obtain ⟨j, hj, hbare⟩ := assemble_text h.spoken
    exact ⟨_, hj, hbare, rfl⟩
  refine ⟨⟨?_, fun h => ?_⟩, hreads, fun k hi hk htext => ?_⟩
  · rintro ⟨s, hs, hbare⟩
    exact printable_of_assemble hs (by simp) hbare
  · obtain ⟨s, hs, hbare, -⟩ := hreads h
    exact ⟨s, hs, hbare⟩
  · -- the one text is read as one program, which both instructions are read back in
    obtain ⟨a, ha, hbare⟩ := assemble_text hi.spoken
    obtain ⟨b, hb, hbare'⟩ := assemble_text hk.spoken
    rw [htext, hb] at ha
    have hab : b = a := by simpa using ha
    rw [← hbare, ← hbare', hab]

/-- A label may look like a declaration or a keyword, but it may not hold a newline, even though
what stands before the newline could be read. -/
example : Instruction.Printable (.goto ⟨"GOTO:", ⟨0, 0⟩⟩) ∧
    ¬ Instruction.Printable (.goto ⟨"x\n", ⟨0, 0⟩⟩) ∧
    assemble (Instruction.goto ⟨"x\n", ⟨0, 0⟩⟩).text =
      .ok { statements := #[⟨.goto ⟨"x", ⟨5, 1⟩⟩, ⟨1, ⟨0, 6⟩⟩⟩] } := by
  decide

end Ram
