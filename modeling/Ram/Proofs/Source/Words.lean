import Ram.Source.Line

/-!
# Words of a line

`words` cuts a text at its blanks and forgets the empty pieces: what is left are the maximal runs
of non-blank characters. `runs` finds the same texts and adds where they stand (`map_chars_runs`).
`phrase` gives the words of a line that are read as a statement: the comment is dropped and a
first word that ends in a colon is set aside as a label. These are the fields of the line that
`Line.ofChars` reads (`ofChars_phrase`).
-/

namespace Ram.Source

open Ram.Text

/-- The maximal runs of non-blank characters of a text. -/
def words (cs : List Char) : List (List Char) := (cs.splitOnP isBlank).filter (· ≠ [])

/-- The words of a line behind its label. -/
def phrase (raw : List Char) : List String :=
  match words (raw.takeWhile (· ≠ '#')) with
  | [] => []
  | first :: rest =>
    (if first.getLast? = some ':' then rest else first :: rest).map String.ofList

/-! ## Runs -/

theorem splitOnP_cases (cs : List Char) :
    ∃ w ws, cs.splitOnP isBlank = w :: ws ∧ (w = [] ↔ cs.head?.all isBlank = true) := by
  cases cs with
  | nil => exact ⟨[], [], rfl, by simp⟩
  | cons c cs =>
    rw [List.splitOnP_cons_eq_if_modifyHead]
    by_cases hc : isBlank c = true
    · exact ⟨[], cs.splitOnP isBlank, by simp [hc], by simp [hc]⟩
    · obtain ⟨w, ws, hw⟩ := List.exists_cons_of_ne_nil (List.splitOnP_ne_nil isBlank cs)
      exact ⟨c :: w, ws, by simp [hc, hw], by simp [hc]⟩

theorem map_chars_runs (cs : List Char) : ∀ o, (runs o cs).map (·.chars) = words cs := by
  induction cs with
  | nil => intro o; rfl
  | cons c cs ih =>
    intro o
    have hrest := ih (o + c.utf8Size)
    obtain ⟨w, ws, hw, hempty⟩ := splitOnP_cases cs
    unfold words at hrest ⊢
    rw [List.splitOnP_cons_eq_if_modifyHead]
    simp only [runs]
    by_cases hc : isBlank c = true
    · simpa [hc] using hrest
    · rw [hw] at hrest ⊢
      by_cases hn : cs.head?.all isBlank = true
      · -- the run is a single character
        have hw0 : w = [] := hempty.mpr hn
        subst hw0
        simpa [hc, hn] using hrest
      · -- the run goes on in the first run of the rest
        have hw0 : w ≠ [] := fun h => hn (hempty.mp h)
        simp only [hc, hn, Bool.false_eq_true, ↓reduceIte, List.modifyHead_cons]
        rw [List.filter_cons_of_pos (by simpa using hw0)] at hrest
        rw [List.filter_cons_of_pos (by simp)]
        cases hr : runs (o + c.utf8Size) cs with
        | nil => rw [hr] at hrest; cases hrest
        | cons f fs =>
          rw [hr, List.map_cons, List.cons.injEq] at hrest
          rw [List.modifyHead_cons, List.map_cons, ← hrest.1, ← hrest.2]

/-! ## Lines -/

/-- A line that is read has the fields of its phrase; one that is not has none. -/
theorem ofChars_phrase (o n : Nat) (raw : List Char) :
    match Line.ofChars o n raw with
    | none => phrase raw = []
    | some l => l.fields.map (·.text) = phrase raw ∧ l.site.line = n := by
  have hruns := map_chars_runs (code raw) o
  have hcode : raw.takeWhile (· ≠ '#') = code raw := rfl
  unfold Line.ofChars phrase
  rw [hcode, ← hruns]
  cases runs o (code raw) with
  | nil => rfl
  | cons first rest =>
    have htext : (first :: rest).map (·.text) =
        ((first :: rest).map (·.chars)).map String.ofList := by
      rw [List.map_map]; rfl
    unfold Field.label?
    by_cases hl : first.chars.getLast? = some ':'
    · simp only [hl, ↓reduceIte, List.map_cons] at htext ⊢
      exact ⟨(List.cons.inj htext).2, trivial⟩
    · simp only [hl, ↓reduceIte, List.map_cons] at htext ⊢
      exact ⟨htext, trivial⟩

end Ram.Source
