import Ram.Proofs.Assembly.Layout
import Ram.Proofs.Labels

/-!
# Assembled programs

`Program.Assembled` is what assembly promises of a program: its instructions are denoted by
phrases, its label names can be written in front of a colon, and no label lies behind the end. Every
line keeps it (`Assembled.addLine`), so every program that is assembled has it
(`assembled_of_assemble`).
-/

namespace Ram

open Ram.Source Ram.Grammar

/-- The instruction is denoted by words that can stand in a line. -/
def Spoken (i : Instruction) : Prop := ∃ ws, Denotes ws i ∧ ∀ w ∈ ws, IsWord w.toList

structure Program.Assembled (p : Program) : Prop where
  spoken : ∀ i ∈ instructions p, Spoken i
  isWord : ∀ name ∈ p.labels.names, IsWord (name ++ ":").toList
  /-- A label may lie behind the last statement, but not further. -/
  le_size : ∀ {name : String} {index : Nat}, p.labels.get? name = some index → index ≤ p.size

namespace Program.Assembled

variable {p q : Program}

theorem empty : Assembled {} where
  spoken := nofun
  isWord := nofun
  le_size := nofun

theorem declare (h : p.Assembled) {name : String} (hname : IsWord (name ++ ":").toList) :
    (p.declare name).Assembled where
  spoken := h.spoken
  isWord k hk := by
    rw [Program.declare, Labels.mem_names] at hk
    obtain ⟨index, hk⟩ := hk
    rw [Labels.get?_insert] at hk
    split at hk
    · rename_i heq
      exact heq ▸ hname
    · exact h.isWord k (Labels.mem_names.mpr ⟨index, hk⟩)
  le_size {k index} hk := by
    rw [Program.declare, Labels.get?_insert] at hk
    split at hk
    · cases hk
      exact Nat.le_refl p.size
    · exact h.le_size hk

theorem push (h : p.Assembled) {s : Statement} (hs : Spoken s.instruction) :
    (p.push s).Assembled where
  spoken i hi := by
    rw [instructions_push, List.mem_append, List.mem_singleton] at hi
    rcases hi with hi | rfl
    · exact h.spoken i hi
    · exact hs
  isWord := h.isWord
  le_size hk := by
    have := h.le_size hk
    simp only [size, Program.push, Array.size_push] at this ⊢
    omega

theorem declareLabel (h : p.Assembled) {l : Line} (hl : l.entry.Legible) :
    (Assembly.declareLabel p l).Assembled := by
  unfold Assembly.declareLabel
  cases hlabel : l.label with
  | none => exact h
  | some f => exact h.declare (hl.label f.text (by rw [Line.entry, hlabel]; rfl))

end Program.Assembled

namespace Assembly

theorem addLine_cases {p q : Program} {l : Line} (h : addLine p l = .ok q) :
    (l.fields = [] ∧ instruction? l = .ok none ∧ q = declareLabel p l) ∨
    ∃ i, Denotes (l.fields.map (·.text)) i ∧ instruction? l = .ok (some i) ∧
      q = (declareLabel p l).push ⟨i, l.site⟩ := by
  rcases instruction?_reads l with ⟨hnil, hi⟩ | ⟨i, hden, hi⟩ | ⟨e, -, he⟩
  · rw [addLine_of_none hi] at h
    exact .inl ⟨List.map_eq_nil_iff.mp hnil, hi, (Except.ok.inj h).symm⟩
  · rw [addLine_of_some hi] at h
    exact .inr ⟨i, hden, hi, (Except.ok.inj h).symm⟩
  · rw [addLine_of_error he] at h
    cases h

end Assembly

theorem Program.Assembled.addLine {p q : Program} (h : p.Assembled) {l : Line}
    (hl : l.entry.Legible) (hq : Assembly.addLine p l = .ok q) : q.Assembled := by
  rcases Assembly.addLine_cases hq with ⟨-, -, rfl⟩ | ⟨i, hi, -, rfl⟩
  · exact h.declareLabel hl
  · exact (h.declareLabel hl).push ⟨_, hi, hl.phrase⟩

theorem Program.Assembled.foldlM_addLine {q : Program} : ∀ {ls : List Line} {p : Program},
    p.Assembled → (∀ l ∈ ls, l.entry.Legible) → ls.foldlM Assembly.addLine p = .ok q → q.Assembled
  | [], p, h, _, hq => by
    cases hq
    exact h
  | l :: ls, p, h, hls, hq => by
    obtain ⟨hl, hls⟩ := List.forall_mem_cons.mp hls
    rw [List.foldlM_cons] at hq
    cases hp : Assembly.addLine p l with
    | error e => rw [hp] at hq; cases hq
    | ok p' =>
      rw [hp] at hq
      exact foldlM_addLine (h.addLine hl hp) hls hq

theorem assembled_of_assemble {src : String} {p : Program} (h : assemble src = .ok p) :
    p.Assembled :=
  Program.Assembled.empty.foldlM_addLine (fun _ hl => legible_of_mem_lines hl) h

end Ram
