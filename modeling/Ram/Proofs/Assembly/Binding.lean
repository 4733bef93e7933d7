import Ram.Proofs.Assembly.Pass
import Ram.Proofs.Labels.Declarations
import Ram.Proofs.Source.Shift

/-!
# Where labels are bound

A line of the source is an event in the history of the label table: it may declare a name, and it
gives the name the number of statements in front of it. The table of an assembled program keeps
this history as any table keeps its declarations, and the statement that a line spells has the
number that its labels are bound to (`labels_bind_to_next`).
-/

namespace Ram

open Ram.Source Ram.Grammar

namespace Assembly

theorem ofChars_statement {o n : Nat} {raw : List Char} {p q : Program}
    (h : (Line.ofChars o n raw).toList.foldlM addLine p = .ok q) (hraw : phrase raw ≠ []) :
    ∃ s, q.statements.toList = p.statements.toList ++ [s] ∧ s.site.line = n ∧
      Denotes (phrase raw) s.instruction := by
  have hphrase := ofChars_phrase o n raw
  rcases ofChars_cases h with ⟨hline, -⟩ | ⟨l, hline, hq⟩
  · rw [hline] at hphrase
    exact absurd hphrase hraw
  · rw [hline] at hphrase
    obtain ⟨htexts, hnumber⟩ := hphrase
    rcases addLine_cases hq with ⟨hnil, -, -⟩ | ⟨i, hdenotes, -, rfl⟩
    · rw [hnil] at htexts
      exact absurd htexts.symm hraw
    · refine ⟨⟨i, l.site⟩, ?_, hnumber, htexts ▸ hdenotes⟩
      rw [Program.push, statements_declareLabel, Array.toList_push]

theorem linesFrom_inOrder : ∀ {raws before : List (List Char)} {o n : Nat} {p q : Program},
    Labels.InOrder Declares before p.labels.names →
    (linesFrom o n raws).foldlM addLine p = .ok q →
    Labels.InOrder Declares (before ++ raws) q.labels.names
  | [], before, _, _, p, q, hp, h => by
    cases h
    rwa [List.append_nil]
  | raw :: raws, before, o, n, p, q, hp, h => by
    obtain ⟨p', hraw, hraws⟩ := exists_of_foldlM_append h
    have hstep : Labels.InOrder Declares (before ++ [raw]) p'.labels.names := by
      rcases ofChars_labels hraw with ⟨name, hname, hlabels⟩ | ⟨hnone, hlabels⟩
      · rw [hlabels]
        exact hp.insert hname p.size
      · rw [hlabels]
        exact hp.skip hnone
    have hrest := linesFrom_inOrder hstep hraws
    rwa [List.append_assoc] at hrest

end Assembly

section Assembled

variable {src : String} {p : Program} (h : assemble src = .ok p)
include h

theorem keeps_of_assemble :
    p.labels.Keeps Declares (fun before _ => spelled before) (src.toList.splitOn '\n') := by
  refine Labels.keeps_of_inOrder (fun name k => ?_) (Assembly.linesFrom_inOrder .empty h)
  rw [get?_of_assemble h, boundTo_eq_some]

/-- The statement of a line has the number of the statements in front of the line. -/
theorem statement_of_split {before after : List (List Char)} {raw : List Char}
    (hsplit : src.toList.splitOn '\n' = before ++ raw :: after) (hraw : phrase raw ≠ []) :
    ∃ s, p.statements[spelled before]? = some s ∧ s.site.line = before.length + 1 ∧
      Denotes (phrase raw) s.instruction := by
  have hlines := h
  rw [assemble, lines, hsplit, linesFrom_append, linesFrom] at hlines
  obtain ⟨p₁, hbefore, hrest⟩ := Assembly.exists_of_foldlM_append hlines
  obtain ⟨p₂, hline, hafter⟩ := Assembly.exists_of_foldlM_append hrest
  obtain ⟨s, hstatements, hnumber, hdenotes⟩ := Assembly.ofChars_statement hline hraw
  have hsize : p₁.statements.toList.length = spelled before := by
    rw [Array.length_toList]
    exact (Assembly.linesFrom_binds hbefore).1.trans (Nat.zero_add _)
  refine ⟨s, ?_, by omega, hdenotes⟩
  rw [← Array.getElem?_toList, Assembly.statements_foldlM hafter, hstatements, ← hsize]
  simp

end Assembled

/-- Labels are bound to the next statement. A name is in the table if and only if a line declares
it, with the number of statements in front of the last such line, which is the number of the
statement on that line if it has one; and the names come in the order of the lines that first
declare them. Insertions into an empty table are kept in the same way. -/
theorem labels_bind_to_next {src : String} {p : Program} (h : assemble src = .ok p) :
    p.labels.Keeps Declares (fun before _ => spelled before) (src.toList.splitOn '\n') ∧
    (∀ name k, p.labels.get? name = some k → k ≤ p.size) ∧
    (∀ before raw after, src.toList.splitOn '\n' = before ++ raw :: after → phrase raw ≠ [] →
      ∃ s, p.statements[spelled before]? = some s ∧ s.site.line = before.length + 1 ∧
        Denotes (phrase raw) s.instruction) ∧
    ∀ ds : List (String × Nat),
      (Labels.ofList ds).Keeps (fun d name => d.1 = name) (fun _ d => d.2) ds :=
  ⟨keeps_of_assemble h, fun _ _ => (assembled_of_assemble h).le_size,
    fun _ _ _ => statement_of_split h, Labels.keeps_ofList⟩

/-- One label is declared again behind all statements, another one shares its line with a
statement. -/
theorem labels_bind_to_next_of_rebound :
    let src := "x:\nEND\ny: END\nx: # again"
    let p : Program :=
      { statements := #[⟨.halt, ⟨2, ⟨3, 3⟩⟩⟩, ⟨.halt, ⟨3, ⟨7, 6⟩⟩⟩],
        labels := ⟨[("x", 2), ("y", 1)], by decide⟩ }
    assemble src = .ok p ∧
      p.labels.Keeps Declares (fun before _ => spelled before) (src.toList.splitOn '\n') ∧
      p.labels.get? "x" = some 2 ∧ ∃ s, p.statements[1]? = some s ∧ s.site.line = 3 := by
  intro src p
  have h : assemble src = .ok p := by decide
  obtain ⟨hkeeps, -, hstatement, -⟩ := labels_bind_to_next h
  refine ⟨h, hkeeps, (hkeeps.get?_eq_some "x" 2).mpr ?_, ?_⟩
  · exact ⟨["x:".toList, "END".toList, "y: END".toList], "x: # again".toList, [], by decide,
      by decide, nofun, by decide⟩
  · obtain ⟨s, hs, hline, -⟩ := hstatement ["x:".toList, "END".toList] "y: END".toList
      ["x: # again".toList] (by decide) (by decide)
    exact ⟨s, hs, hline⟩

end Ram
