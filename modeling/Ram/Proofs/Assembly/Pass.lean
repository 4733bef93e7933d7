import Ram.Proofs.Assembly.Assembled

/-!
# What the pass over the lines collects

The statements of an assembled program are those of the lines that spell one, in the order of the
lines (`statements_of_assemble`), and an error is that of a line (`exists_line_of_error`). A label
is bound to the number of statements in front of the last line that declares it
(`get?_of_assemble`): it is declared if and only if some line declares it, and it lies behind the
last statement if and only if no line from there on spells one.
-/

namespace Ram

open Ram.Source Ram.Grammar

namespace Assembly

/-! ## Statements and errors -/

/-- The statement that a line adds to a program. -/
def statement? (l : Line) : Option Statement :=
  match instruction? l with
  | .ok (some i) => some ⟨i, l.site⟩
  | _ => none

theorem statement?_eq_some {l : Line} {s : Statement} :
    statement? l = some s ↔ instruction? l = .ok (some s.instruction) ∧ s.site = l.site := by
  unfold statement?
  split
  · rename_i i hi
    obtain ⟨j, site⟩ := s
    simp only [hi, Option.some.injEq, Statement.mk.injEq, Except.ok.injEq, eq_comm]
  · rename_i hne
    simp only [reduceCtorEq, false_iff, not_and]
    intro hi
    exact absurd hi (hne _)

theorem statements_declareLabel (p : Program) (l : Line) :
    (declareLabel p l).statements = p.statements := by
  unfold declareLabel
  cases l.label <;> rfl

/-- What an accepted line adds to a program. It adds a statement if there is anything behind the
label. -/
theorem addLine_adds {p q : Program} {l : Line} (h : addLine p l = .ok q) :
    q.statements.toList = p.statements.toList ++ (statement? l).toList ∧
      q.labels = (declareLabel p l).labels ∧ ((statement? l).isSome = true ↔ l.fields ≠ []) := by
  rcases addLine_cases h with ⟨hnil, hi, rfl⟩ | ⟨i, hden, hi, rfl⟩
  · rw [statements_declareLabel, statement?, hi]
    simpa using hnil
  · have hne : l.fields ≠ [] := by
      intro hnil
      rw [hnil] at hden
      cases hden
    rw [Program.push, statements_declareLabel, statement?, hi]
    simpa using hne

theorem instruction?_of_addLine {p : Program} {l : Line} {e : Error}
    (h : addLine p l = .error e) : instruction? l = .error e := by
  rcases instruction?_reads l with ⟨-, hi⟩ | ⟨i, -, hi⟩ | ⟨e', -, he⟩
  · rw [addLine_of_none hi] at h
    cases h
  · rw [addLine_of_some hi] at h
    cases h
  · rw [addLine_of_error he] at h
    cases h
    exact he

theorem statements_foldlM : ∀ {ls : List Line} {p q : Program}, ls.foldlM addLine p = .ok q →
    q.statements.toList = p.statements.toList ++ ls.filterMap statement?
  | [], p, q, h => by
    cases h
    exact (List.append_nil _).symm
  | l :: ls, p, q, h => by
    rw [List.foldlM_cons] at h
    cases hp : addLine p l with
    | error e => rw [hp] at h; cases h
    | ok p' =>
      rw [hp] at h
      rw [statements_foldlM h, (addLine_adds hp).1, List.append_assoc, List.filterMap_cons]
      cases statement? l <;> rfl

theorem exists_line_of_foldlM {e : Error} : ∀ {ls : List Line} {p : Program},
    ls.foldlM addLine p = .error e → ∃ l ∈ ls, instruction? l = .error e
  | [], _, h => nomatch h
  | l :: ls, p, h => by
    rw [List.foldlM_cons] at h
    cases hp : addLine p l with
    | ok p' =>
      rw [hp] at h
      obtain ⟨l', hl', he⟩ := exists_line_of_foldlM h
      exact ⟨l', .tail _ hl', he⟩
    | error e' =>
      rw [hp] at h
      cases h
      exact ⟨l, List.mem_cons_self, instruction?_of_addLine hp⟩

end Assembly

theorem statements_of_assemble {src : String} {p : Program} (h : assemble src = .ok p) :
    p.statements.toList = (lines src).filterMap Assembly.statement? :=
  Assembly.statements_foldlM h

theorem exists_line_of_error {src : String} {e : Assembly.Error} (h : assemble src = .error e) :
    ∃ l ∈ lines src, Assembly.instruction? l = .error e :=
  Assembly.exists_line_of_foldlM h

/-! ## Declarations -/

namespace Source

/-- The line declares the label: its first word is the name with a colon behind it. -/
def Declares (raw : List Char) (name : String) : Prop :=
  (words (code raw)).head? = some (name.toList ++ [':'])

instance (raw : List Char) (name : String) : Decidable (Declares raw name) :=
  inferInstanceAs (Decidable (_ = _))

theorem Entry.label_ofWords {ws : List (List Char)} {name : String} :
    (Entry.ofWords ws).bind (·.label) = some name ↔ ws.head? = some (name.toList ++ [':']) := by
  cases ws with
  | nil => simp [Entry.ofWords]
  | cons first rest =>
    rw [Entry.ofWords, List.head?_cons, Option.some.injEq]
    by_cases hcolon : first.getLast? = some ':'
    · rw [if_pos hcolon, Option.bind_some, Option.some.injEq]
      have hfirst := List.dropLast_append_getLast? ':' hcolon
      constructor
      · rintro rfl
        rw [String.toList_ofList, hfirst]
      · intro h
        rw [h, List.dropLast_concat, String.ofList_toList]
    · rw [if_neg hcolon]
      constructor
      · intro h
        cases h
      · intro h
        rw [h] at hcolon
        simp at hcolon

theorem declares_iff (o n : Nat) (raw : List Char) (name : String) :
    Declares raw name ↔ ∃ l, Line.ofChars o n raw = some l ∧ l.label.map (·.text) = some name := by
  rw [Declares, ← Entry.label_ofWords, ← map_entry_ofChars o n raw, Option.bind_map,
    Option.bind_eq_some_iff]
  rfl

/-- The number of lines that have words behind their label. -/
def spelled (raws : List (List Char)) : Nat := raws.countP (phrase · ≠ [])

theorem spelled_append (as bs : List (List Char)) : spelled (as ++ bs) = spelled as + spelled bs :=
  List.countP_append

theorem spelled_cons (raw : List Char) (raws : List (List Char)) :
    spelled (raw :: raws) = spelled [raw] + spelled raws :=
  spelled_append [raw] raws

theorem spelled_eq_zero {raws : List (List Char)} :
    spelled raws = 0 ↔ ∀ raw ∈ raws, phrase raw = [] := by
  simp [spelled]

/-- The number of statements in front of the last line that declares the label, if one does. -/
def boundTo (name : String) : List (List Char) → Option Nat
  | [] => none
  | raw :: raws =>
    ((boundTo name raws).map (spelled [raw] + ·)).or
      (if Declares raw name then some 0 else none)

theorem boundTo_eq_none {name : String} {raws : List (List Char)} :
    boundTo name raws = none ↔ ∀ raw ∈ raws, ¬ Declares raw name := by
  induction raws with
  | nil => simp [boundTo]
  | cons raw raws ih => simp [boundTo, ih, and_comm]

theorem boundTo_eq_some {name : String} {k : Nat} : ∀ {raws : List (List Char)},
    boundTo name raws = some k ↔ ∃ before raw after, raws = before ++ raw :: after ∧
      Declares raw name ∧ (∀ r ∈ after, ¬ Declares r name) ∧ k = spelled before
  | [] => by simp [boundTo]
  | raw :: raws => by
    rw [boundTo]
    constructor
    · intro h
      cases hrest : boundTo name raws with
      | some j =>
        rw [hrest, Option.map_some, Option.some_or] at h
        obtain ⟨before, r, after, rfl, hr, hafter, rfl⟩ := boundTo_eq_some.mp hrest
        refine ⟨raw :: before, r, after, rfl, hr, hafter, ?_⟩
        rw [spelled_cons raw before, ← Option.some.inj h]
      | none =>
        rw [hrest, Option.map_none, Option.none_or] at h
        split at h
        · rename_i hraw
          cases h
          exact ⟨[], raw, raws, rfl, hraw, boundTo_eq_none.mp hrest, rfl⟩
        · cases h
    · rintro ⟨before, r, after, heq, hr, hafter, rfl⟩
      cases before with
      | nil =>
        obtain ⟨rfl, rfl⟩ := List.cons.inj heq
        rw [boundTo_eq_none.mpr hafter, if_pos hr]
        rfl
      | cons first before =>
        obtain ⟨rfl, hraws⟩ := List.cons.inj heq
        rw [boundTo_eq_some.mpr ⟨before, r, after, hraws, hr, hafter, rfl⟩, spelled_cons raw before]
        rfl

end Source

namespace Assembly

theorem exists_of_foldlM_append {as bs : List Line} {p q : Program}
    (h : (as ++ bs).foldlM addLine p = .ok q) :
    ∃ p', as.foldlM addLine p = .ok p' ∧ bs.foldlM addLine p' = .ok q := by
  rw [List.foldlM_append] at h
  cases hp : as.foldlM addLine p with
  | error e => rw [hp] at h; cases h
  | ok p' =>
    rw [hp] at h
    exact ⟨p', rfl, h⟩

section OneLine

-- One line of the text, which may have no field at all.
variable {o n : Nat} {raw : List Char} {p q : Program}
  (h : (Line.ofChars o n raw).toList.foldlM addLine p = .ok q)
include h

theorem ofChars_cases : (Line.ofChars o n raw = none ∧ q = p) ∨
    ∃ l, Line.ofChars o n raw = some l ∧ addLine p l = .ok q := by
  cases hline : Line.ofChars o n raw with
  | none =>
    rw [hline] at h
    cases h
    exact .inl ⟨rfl, rfl⟩
  | some l =>
    rw [hline, Option.toList_some, List.foldlM_cons] at h
    cases hq : addLine p l with
    | error e => rw [hq] at h; cases h
    | ok q' =>
      rw [hq] at h
      cases h
      exact .inr ⟨l, rfl, hq⟩

theorem ofChars_labels :
    (∃ name, (∀ k, Declares raw k ↔ name = k) ∧ q.labels = p.labels.insert name p.size) ∨
    ((∀ name, ¬ Declares raw name) ∧ q.labels = p.labels) := by
  simp only [declares_iff o n raw]
  rcases ofChars_cases h with ⟨hline, rfl⟩ | ⟨l, hline, hq⟩
  · exact .inr ⟨by simp [hline], rfl⟩
  · rw [(addLine_adds hq).2.1, declareLabel]
    cases hlabel : l.label with
    | none => exact .inr ⟨by simp [hline, hlabel], rfl⟩
    | some f => exact .inl ⟨f.text, by simp [hline, hlabel], rfl⟩

theorem ofChars_binds : q.size = p.size + spelled [raw] ∧
    ∀ name, q.labels.get? name = if Declares raw name then some p.size
      else p.labels.get? name := by
  constructor
  · have hphrase := ofChars_phrase o n raw
    rcases ofChars_cases h with ⟨hline, rfl⟩ | ⟨l, hline, hq⟩
    · rw [hline] at hphrase
      rw [spelled_eq_zero.mpr (by simpa using hphrase), Nat.add_zero]
    · rw [hline] at hphrase
      obtain ⟨hstatements, -, hadds⟩ := addLine_adds hq
      have hsize := congrArg List.length hstatements
      rw [List.length_append, Array.length_toList, Array.length_toList] at hsize
      rw [Program.size, hsize, Program.size]
      have hnil : phrase raw = [] ↔ l.fields = [] := by rw [← hphrase.1, List.map_eq_nil_iff]
      cases hs : statement? l with
      | none =>
        rw [hs] at hadds
        have hfields : l.fields = [] := by simpa using hadds
        simp [spelled, hnil.mpr hfields]
      | some s =>
        rw [hs] at hadds
        have hfields : l.fields ≠ [] := hadds.mp rfl
        simp [spelled, mt hnil.mp hfields]
  · intro name
    rcases ofChars_labels h with ⟨label, hlabel, hlabels⟩ | ⟨hnone, hlabels⟩
    · simp only [hlabels, Labels.get?_insert, hlabel]
    · rw [hlabels, if_neg (hnone name)]

end OneLine

theorem linesFrom_binds : ∀ {raws : List (List Char)} {o n : Nat} {p q : Program},
    (linesFrom o n raws).foldlM addLine p = .ok q →
      q.size = p.size + spelled raws ∧
      ∀ name, q.labels.get? name = ((boundTo name raws).map (p.size + ·)).or (p.labels.get? name)
  | [], _, _, p, q, h => by
    cases h
    exact ⟨rfl, fun _ => rfl⟩
  | raw :: raws, o, n, p, q, h => by
    obtain ⟨p', hp, h⟩ := exists_of_foldlM_append h
    obtain ⟨hsize, hget⟩ := ofChars_binds hp
    obtain ⟨hsize', hget'⟩ := linesFrom_binds h
    constructor
    · rw [hsize', hsize, spelled_cons raw raws, Nat.add_assoc]
    · intro name
      rw [hget', hget, hsize, boundTo]
      cases boundTo name raws with
      | some j => simp [Nat.add_assoc]
      | none => by_cases hraw : Declares raw name <;> simp [hraw]

end Assembly

section Assembled

variable {src : String} {p : Program} (h : assemble src = .ok p)
include h

theorem size_of_assemble : p.size = spelled (src.toList.splitOn '\n') := by
  rw [(Assembly.linesFrom_binds h).1]
  exact Nat.zero_add _

theorem get?_of_assemble (name : String) :
    p.labels.get? name = boundTo name (src.toList.splitOn '\n') := by
  rw [(Assembly.linesFrom_binds h).2 name, Labels.get?_empty, Option.or_none]
  cases boundTo name (src.toList.splitOn '\n') with
  | none => rfl
  | some k => exact congrArg some (Nat.zero_add k)

end Assembled

end Ram
