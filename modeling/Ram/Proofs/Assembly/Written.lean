import Ram.Proofs.Assembly.Grammar
import Ram.Proofs.Numeral
import Ram.Proofs.Source.Layout

/-!
# Written instructions

The written form of an instruction is a phrase with single blanks between its words
(`Instruction.toList_text`). It is a phrase for that instruction whenever there is one at all, in
whatever base or with whatever sign its numbers were spelled (`denotes_phrase`), and its words
can stand in a line (`isWord_phrase`) without the first being taken for a label.
-/

namespace Ram

open Ram.Source Ram.Grammar

namespace Instruction

/-- The words of the written form. -/
def phrase : Instruction → List String
  | compute op (.const value) => [(Mnemonic.const op).name, toString value.toInt]
  | compute op (.cell a) => [(Mnemonic.cell op a.mode).name, toString a.index]
  | store a => [(Mnemonic.store a.mode).name, toString a.index]
  | dump count => [Mnemonic.dump.name, toString count]
  | goto target => ["GOTO", target.label]
  | branch cmp value target => ["IF", cmp.symbol, toString value.toInt, "GOTO", target.label]
  | halt => ["END"]

theorem toList_text (i : Instruction) :
    i.text.toList = joinWords (i.phrase.map String.toList) := by
  have htwo : ∀ a b : String, (a ++ " " ++ b).toList = joinWords [a.toList, b.toList] := by
    intro a b
    simp [joinWords, List.intercalate_cons_cons, String.toList_append]
  cases i with
  | compute op operand =>
    cases operand with
    | const value => exact htwo _ _
    | cell a => exact htwo _ _
  | store a => exact htwo _ _
  | dump count => exact htwo _ _
  | goto target => exact htwo "GOTO" _
  | branch cmp value target =>
    simp [text, phrase, joinWords, List.intercalate_cons_cons, String.toList_append]
  | halt => rfl

theorem text_bare (i : Instruction) : i.bare.text = i.text := by
  cases i <;> rfl

end Instruction

/-! ## Words -/

/-- A word that can open a phrase: it is not taken for a label. -/
def IsHead (w : String) : Prop := IsWord w.toList ∧ w.toList.getLast? ≠ some ':'

instance (w : String) : Decidable (IsHead w) :=
  inferInstanceAs (Decidable (IsWord w.toList ∧ w.toList.getLast? ≠ some ':'))

theorem Mnemonic.isHead_name (m : Mnemonic) : IsHead m.name := by
  have hnames : ∀ name ∈ mnemonics.map Mnemonic.name, IsHead name := by
    rw [map_name_mnemonics]
    decide
  exact hnames m.name (name_mem m)

theorem Instruction.phrase_eq_cons (i : Instruction) :
    ∃ head args, i.phrase = head :: args ∧ IsHead head := by
  cases i with
  | compute op operand =>
    cases operand with
    | const value => exact ⟨_, _, rfl, Mnemonic.isHead_name _⟩
    | cell a => exact ⟨_, _, rfl, Mnemonic.isHead_name _⟩
  | store a => exact ⟨_, _, rfl, Mnemonic.isHead_name _⟩
  | dump count => exact ⟨_, _, rfl, Mnemonic.isHead_name _⟩
  | goto target => exact ⟨_, _, rfl, by decide⟩
  | branch cmp value target => exact ⟨_, _, rfl, by decide⟩
  | halt => exact ⟨_, _, rfl, by decide⟩

theorem isWord_toString (z : Int) : IsWord (toString z).toList := by
  refine ⟨Numeral.toString_ne_nil z, fun c hc => ?_⟩
  rcases Numeral.of_mem_toString hc with rfl | hdigit
  · decide
  · obtain ⟨hlo, hhi⟩ := Char.isDigit_iff_toNat.mp hdigit
    have h0 : '0'.toNat = 48 := rfl
    have h9 : '9'.toNat = 57 := rfl
    refine ⟨?_, by rintro rfl; exact absurd hdigit (by decide)⟩
    simp only [Text.isBlank, Text.blankRanges, List.any_cons, List.any_nil, Bool.or_false,
      Bool.or_eq_false_iff, Bool.and_eq_false_iff, decide_eq_false_iff_not]
    omega

/-! ## Phrases -/

/-- What any phrase denotes, its written form denotes. -/
theorem denotes_phrase {ws : List String} {i : Instruction} (h : Denotes ws i) :
    Denotes i.phrase i := by
  have hindex : ∀ {v : Int64}, 0 ≤ v.toInt →
      Literal.parse (toString v.toInt.toNat).toList = .ok v := by
    intro v hv
    rw [Numeral.toString_toNat hv]
    exact Literal.parse_toString v
  cases h with
  | halt => exact .halt
  | goto label span => exact .goto label span
  | branch cmp label span _ => exact .branch cmp label span (Literal.parse_toString _)
  | const op _ => exact .const op (Literal.parse_toString _)
  | cell op mode _ hv => exact .cell op mode (hindex hv) hv
  | store mode _ hv => exact .store mode (hindex hv) hv
  | dump _ hv => exact .dump (hindex hv) hv

theorem isWord_phrase {ws : List String} {i : Instruction} (h : Denotes ws i)
    (hws : ∀ w ∈ ws, IsWord w.toList) : ∀ w ∈ i.phrase, IsWord w.toList := by
  have hoperand : ∀ (m : Mnemonic) {operand : String}, IsWord operand.toList →
      ∀ w ∈ [m.name, operand], IsWord w.toList := by
    intro m operand hop
    simp only [List.forall_mem_cons]
    exact ⟨m.isHead_name.1, hop, nofun⟩
  cases h with
  | halt => exact hws
  | goto label span => exact hws
  | branch cmp label span _ =>
    simp only [List.forall_mem_cons] at hws
    simp only [Instruction.phrase, List.forall_mem_cons]
    exact ⟨hws.1, hws.2.1, isWord_toString _, hws.2.2.2⟩
  | const op _ => exact hoperand _ (isWord_toString _)
  | cell op mode _ _ => exact hoperand _ (isWord_toString (Int.ofNat _))
  | store mode _ _ => exact hoperand _ (isWord_toString (Int.ofNat _))
  | dump _ _ => exact hoperand _ (isWord_toString (Int.ofNat _))

end Ram
