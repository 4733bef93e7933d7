import Mathlib.Data.List.Basic
import Mathlib.Data.List.TakeWhile
import Ram.Proofs.Source.Words

/-!
# Texts made of words

An `Entry` is what a line says, wherever it stands: the label that it declares and the words behind
it. The lines of a text are read as the entries of their words (`map_entry_lines`). In the other
direction `ofWordLines` writes words with single blanks between them and lines with newlines
between them; reading finds the same entries again (`map_entry_ofWordLines`). `layout` is a text
written anew from its own words, without comments and empty lines.
-/

namespace Ram.Source

open Ram.Text

/-! ## Words -/

/-- Characters that can stand as a field. -/
def IsWord (w : List Char) : Prop := w ≠ [] ∧ ∀ c ∈ w, isBlank c = false ∧ c ≠ '#'

instance (w : List Char) : Decidable (IsWord w) :=
  decidable_of_iff (w ≠ [] ∧ w.all (fun c => !isBlank c && c != '#') = true) (by simp [IsWord])

theorem of_mem_splitOnP {p : Char → Bool} (cs : List Char) : ∀ {w : List Char},
    w ∈ cs.splitOnP p → ∀ c ∈ w, p c = false ∧ c ∈ cs := by
  induction cs with
  | nil =>
    intro w hw c hc
    rw [List.splitOnP_nil, List.mem_singleton] at hw
    subst hw
    cases hc
  | cons x cs ih =>
    intro w hw c hc
    rw [List.splitOnP_cons_eq_if_modifyHead] at hw
    by_cases hx : p x = true
    · rw [if_pos hx] at hw
      rcases List.mem_cons.mp hw with rfl | hw
      · cases hc
      · exact ⟨(ih hw c hc).1, .tail _ (ih hw c hc).2⟩
    · rw [if_neg hx] at hw
      obtain ⟨v, vs, hv⟩ := List.exists_cons_of_ne_nil (List.splitOnP_ne_nil p cs)
      rw [hv, List.modifyHead_cons] at hw
      rcases List.mem_cons.mp hw with rfl | hw
      · rcases List.mem_cons.mp hc with rfl | hc
        · exact ⟨by simpa using hx, List.mem_cons_self⟩
        · have := ih (hv ▸ List.mem_cons_self) c hc
          exact ⟨this.1, .tail _ this.2⟩
      · have := ih (hv ▸ .tail _ hw) c hc
        exact ⟨this.1, .tail _ this.2⟩

theorem newline_notMem_of_mem_splitOn {cs raw : List Char} (h : raw ∈ cs.splitOn '\n') :
    '\n' ∉ raw := by
  intro hmem
  have := (of_mem_splitOnP cs h '\n' hmem).1
  exact absurd this (by decide)

theorem isWord_of_mem_words {raw w : List Char} (h : w ∈ words (code raw)) : IsWord w := by
  obtain ⟨hw, hne⟩ := List.mem_filter.mp h
  refine ⟨by simpa using hne, fun c hc => ?_⟩
  obtain ⟨hblank, hmem⟩ := of_mem_splitOnP (code raw) hw c hc
  exact ⟨hblank, by simpa using List.mem_takeWhile_imp hmem⟩

theorem words_of_isWord {w : List Char} (h : IsWord w) : words w = [w] := by
  unfold words
  rw [List.splitOnP_eq_singleton fun c hc => (h.2 c hc).1]
  exact List.filter_cons_of_pos (by simpa using h.1)

theorem words_append_blank {c : Char} (hc : isBlank c = true) (as bs : List Char) :
    words (as ++ c :: bs) = words as ++ words bs := by
  unfold words
  rw [List.splitOnP_append_cons as bs hc, List.filter_append]

/-- Words with single blanks between them. -/
def joinWords (ws : List (List Char)) : List Char := [' '].intercalate ws

theorem joinWords_cons_cons (w v : List Char) (ws : List (List Char)) :
    joinWords (w :: v :: ws) = w ++ ' ' :: joinWords (v :: ws) := by
  simp [joinWords, List.intercalate_cons_cons]

theorem words_joinWords : ∀ {ws : List (List Char)}, (∀ w ∈ ws, IsWord w) →
    words (joinWords ws) = ws
  | [], _ => rfl
  | [w], h => by
    rw [joinWords, List.intercalate_singleton]
    exact words_of_isWord (h w List.mem_cons_self)
  | w :: v :: ws, h => by
    rw [joinWords_cons_cons, words_append_blank (by decide),
      words_of_isWord (h w List.mem_cons_self), words_joinWords fun u hu => h u (.tail _ hu)]
    rfl

theorem of_mem_joinWords {c : Char} : ∀ {ws : List (List Char)}, c ∈ joinWords ws →
    c = ' ' ∨ ∃ w ∈ ws, c ∈ w
  | [], h => nomatch h
  | [w], h => by
    rw [joinWords, List.intercalate_singleton] at h
    exact .inr ⟨w, List.mem_cons_self, h⟩
  | w :: v :: ws, h => by
    rw [joinWords_cons_cons] at h
    rcases List.mem_append.mp h with h | h
    · exact .inr ⟨w, List.mem_cons_self, h⟩
    · rcases List.mem_cons.mp h with h | h
      · exact .inl h
      · rcases of_mem_joinWords h with h | ⟨u, hu, h⟩
        · exact .inl h
        · exact .inr ⟨u, .tail _ hu, h⟩

theorem code_joinWords {ws : List (List Char)} (h : ∀ w ∈ ws, IsWord w) :
    code (joinWords ws) = joinWords ws := by
  refine List.takeWhile_eq_self_iff.mpr fun c hc => ?_
  rcases of_mem_joinWords hc with rfl | ⟨w, hw, hc⟩
  · decide
  · simpa using ((h w hw).2 c hc).2

theorem newline_notMem_joinWords {ws : List (List Char)} (h : ∀ w ∈ ws, IsWord w) :
    '\n' ∉ joinWords ws := by
  intro hc
  rcases of_mem_joinWords hc with hc | ⟨w, hw, hc⟩
  · exact absurd hc (by decide)
  · exact absurd ((h w hw).2 _ hc).1 (by decide)

/-! ## Entries -/

/-- The label that a line declares and the words behind it. -/
structure Entry where
  label : Option String
  phrase : List String
  deriving DecidableEq, Repr

def Entry.ofWords : List (List Char) → Option Entry
  | [] => none
  | first :: rest =>
    if first.getLast? = some ':' then
      some ⟨some (String.ofList first.dropLast), rest.map String.ofList⟩
    else some ⟨none, (first :: rest).map String.ofList⟩

def Line.entry (l : Line) : Entry := ⟨l.label.map (·.text), l.fields.map (·.text)⟩

theorem map_text_eq (fs : List Field) :
    fs.map (·.text) = (fs.map (·.chars)).map String.ofList := by
  rw [List.map_map]
  rfl

theorem map_entry_ofChars (o n : Nat) (raw : List Char) :
    (Line.ofChars o n raw).map Line.entry = Entry.ofWords (words (code raw)) := by
  have hruns := map_chars_runs (code raw) o
  unfold Line.ofChars Entry.ofWords
  rw [← hruns]
  cases runs o (code raw) with
  | nil => rfl
  | cons first rest =>
    simp only [List.map_cons, Field.label?]
    by_cases hl : first.chars.getLast? = some ':'
    · simp only [hl, ↓reduceIte, Option.map_some, Line.entry, map_text_eq]
      rfl
    · simp only [hl, ↓reduceIte, Option.map_some, Line.entry, map_text_eq, List.map_cons]
      rfl

/-- The words of the lines of a text, comments dropped. -/
def wordLines (src : String) : List (List (List Char)) :=
  (src.toList.splitOn '\n').map fun raw => words (code raw)

theorem map_entry_linesFrom (raws : List (List Char)) : ∀ o n,
    (linesFrom o n raws).map Line.entry =
      (raws.map fun raw => words (code raw)).filterMap Entry.ofWords := by
  induction raws with
  | nil => intro o n; rfl
  | cons raw raws ih =>
    intro o n
    have hline := map_entry_ofChars o n raw
    rw [linesFrom, List.map_append, ih, List.map_cons, List.filterMap_cons, ← hline]
    cases Line.ofChars o n raw <;> rfl

theorem map_entry_lines (src : String) :
    (lines src).map Line.entry = (wordLines src).filterMap Entry.ofWords :=
  map_entry_linesFrom _ 0 1

/-- The words of an entry can stand in a line; so can its label, with the colon behind it. -/
structure Entry.Legible (e : Entry) : Prop where
  label : ∀ name ∈ e.label, IsWord (name ++ ":").toList
  phrase : ∀ w ∈ e.phrase, IsWord w.toList

theorem Entry.legible_ofWords {ws : List (List Char)} {e : Entry} (hws : ∀ w ∈ ws, IsWord w)
    (h : Entry.ofWords ws = some e) : e.Legible := by
  have hmap : ∀ {vs : List (List Char)}, (∀ w ∈ vs, IsWord w) →
      ∀ w ∈ vs.map String.ofList, IsWord w.toList := by
    intro vs hvs w hw
    obtain ⟨v, hv, rfl⟩ := List.mem_map.mp hw
    rw [String.toList_ofList]
    exact hvs v hv
  cases ws with
  | nil => cases h
  | cons first rest =>
    obtain ⟨hfirst, hrest⟩ := List.forall_mem_cons.mp hws
    rw [Entry.ofWords] at h
    by_cases hcolon : first.getLast? = some ':'
    · rw [if_pos hcolon] at h
      cases h
      refine ⟨fun name hname => ?_, hmap hrest⟩
      cases hname
      rw [String.toList_append, String.toList_ofList]
      change IsWord (first.dropLast ++ [':'])
      rwa [List.dropLast_append_getLast? ':' hcolon]
    · rw [if_neg hcolon] at h
      cases h
      exact ⟨nofun, hmap hws⟩

theorem legible_of_mem_lines {src : String} {l : Line} (h : l ∈ lines src) : l.entry.Legible := by
  have hmem : l.entry ∈ (lines src).map Line.entry := List.mem_map_of_mem h
  rw [map_entry_lines] at hmem
  obtain ⟨ws, hws, hentry⟩ := List.mem_filterMap.mp hmem
  obtain ⟨raw, -, rfl⟩ := List.mem_map.mp hws
  exact Entry.legible_ofWords (fun w hw => isWord_of_mem_words hw) hentry

/-! ## Writing lines -/

/-- The text with these words in its lines. -/
def ofWordLines (wss : List (List (List Char))) : String :=
  String.ofList (['\n'].intercalate (wss.map joinWords))

theorem wordLines_ofWordLines {wss : List (List (List Char))} (hne : wss ≠ [])
    (h : ∀ ws ∈ wss, ∀ w ∈ ws, IsWord w) : wordLines (ofWordLines wss) = wss := by
  have hsplit : (ofWordLines wss).toList.splitOn '\n' = wss.map joinWords := by
    rw [ofWordLines, String.toList_ofList]
    refine List.splitOn_intercalate '\n' (fun raw hraw => ?_) (by simpa using hne)
    obtain ⟨ws, hws, rfl⟩ := List.mem_map.mp hraw
    exact newline_notMem_joinWords (h ws hws)
  rw [wordLines, hsplit, List.map_map]
  refine (List.map_congr_left fun ws hws => ?_).trans (List.map_id wss)
  rw [Function.comp, code_joinWords (h ws hws), words_joinWords (h ws hws)]
  rfl

theorem map_entry_ofWordLines {wss : List (List (List Char))}
    (h : ∀ ws ∈ wss, ∀ w ∈ ws, IsWord w) :
    (lines (ofWordLines wss)).map Line.entry = wss.filterMap Entry.ofWords := by
  by_cases hne : wss = []
  · subst hne
    rfl
  · rw [map_entry_lines, wordLines_ofWordLines hne h]

/-- The text with its comments deleted, its words separated by single blanks and its lines without
words dropped. -/
def layout (src : String) : String := ofWordLines ((wordLines src).filter (· ≠ []))

/-- A text says the same in its normal layout. -/
theorem map_entry_layout (src : String) :
    (lines (layout src)).map Line.entry = (lines src).map Line.entry := by
  have hwords : ∀ ws ∈ (wordLines src).filter (· ≠ []), ∀ w ∈ ws, IsWord w := by
    intro ws hws w hw
    obtain ⟨raw, -, rfl⟩ := List.mem_map.mp (List.mem_filter.mp hws).1
    exact isWord_of_mem_words hw
  rw [layout, map_entry_ofWordLines hwords, map_entry_lines, List.filterMap_filter]
  refine List.filterMap_congr fun ws _ => ?_
  cases ws <;> rfl

end Ram.Source
