import Mathlib.Data.List.Forall2
import Ram.Registers

/-!
# Words as register values

Words are read as values if each of them is a literal (`readValues_eq_ok_iff`), and otherwise the
first one that is none is to blame (`readValues_eq_error_iff`). `ofArguments_cases` puts both
together.
-/

namespace Ram.Registers

variable {word : String} {words : List String}

/-- The words are literals of these values, one by one. -/
def ReadAs (words : List String) (values : List Int64) : Prop :=
  List.Forall₂ (fun w v => Literal.parse w.toList = .ok v) words values

theorem readAs_cons_iff {values : List Int64} : ReadAs (word :: words) values ↔
    ∃ v vs, Literal.parse word.toList = .ok v ∧ ReadAs words vs ∧ values = v :: vs :=
  List.forall₂_cons_left_iff

theorem ReadAs.unique {values values' : List Int64} (h : ReadAs words values)
    (h' : ReadAs words values') : values = values' := by
  have hunique : Relator.RightUnique fun (w : String) (v : Int64) =>
      Literal.parse w.toList = .ok v := fun _ _ _ hv hv' => Except.ok.inj (hv.symm.trans hv')
  exact List.right_unique_forall₂' hunique h h'

theorem ReadAs.exists_of_mem {values : List Int64} (h : ReadAs words values)
    (hw : word ∈ words) : ∃ v, Literal.parse word.toList = .ok v :=
  ((List.forall₂_and_left (p := fun w => ∃ v, Literal.parse w.toList = .ok v) words values).mp
    (h.imp fun _ v hv => ⟨⟨v, hv⟩, hv⟩)).1 word hw

theorem readValues_cons_of_error {e : Literal.Error} (h : Literal.parse word.toList = .error e)
    (i : Nat) : readValues i (word :: words) = .error ⟨i, word, e⟩ := by
  rw [readValues, h]

theorem readValues_cons_of_ok {v : Int64} (h : Literal.parse word.toList = .ok v) (i : Nat) :
    readValues i (word :: words) = (readValues (i + 1) words).map (v :: ·) := by
  rw [readValues, h]
  cases readValues (i + 1) words <;> rfl

theorem readValues_eq_ok_iff : ∀ {words : List String} {i : Nat} {values : List Int64},
    readValues i words = .ok values ↔ ReadAs words values
  | [], i, values => by
    rw [ReadAs, List.forall₂_nil_left_iff, readValues, Except.ok.injEq, eq_comm]
  | word :: words, i, values => by
    rw [readAs_cons_iff]
    cases hword : Literal.parse word.toList with
    | error e => simp [readValues_cons_of_error hword]
    | ok v =>
      simp only [← readValues_eq_ok_iff (i := i + 1)]
      rw [readValues_cons_of_ok hword]
      cases readValues (i + 1) words with
      | error e => simp [Except.map]
      | ok vs => simp [Except.map, eq_comm]

/-- The error is that of the first word that is no literal, where the words are meant for the
registers from `i` on. -/
def FirstRefused (i : Nat) (words : List String) (e : SeedError) : Prop :=
  ∃ before after, words = before ++ e.value :: after ∧
    (∀ w ∈ before, ∃ v, Literal.parse w.toList = .ok v) ∧
    Literal.parse e.value.toList = .error e.error ∧ e.register = i + before.length

theorem firstRefused_cons_of_error {err : Literal.Error} {i : Nat} {e : SeedError}
    (h : Literal.parse word.toList = .error err) :
    FirstRefused i (word :: words) e ↔ e = ⟨i, word, err⟩ := by
  constructor
  · rintro ⟨before, after, hwords, hbefore, herror, hregister⟩
    cases before with
    | nil =>
      obtain ⟨register, value, error⟩ := e
      obtain ⟨rfl, -⟩ := List.cons.inj hwords
      rw [h] at herror
      obtain rfl : register = i := hregister
      rw [Except.error.inj herror]
    | cons first before =>
      obtain ⟨rfl, -⟩ := List.cons.inj hwords
      obtain ⟨v, hv⟩ := hbefore word List.mem_cons_self
      rw [h] at hv
      cases hv
  · rintro rfl
    exact ⟨[], words, rfl, nofun, h, rfl⟩

theorem firstRefused_cons_of_ok {v : Int64} {i : Nat} {e : SeedError}
    (h : Literal.parse word.toList = .ok v) :
    FirstRefused i (word :: words) e ↔ FirstRefused (i + 1) words e := by
  constructor
  · rintro ⟨before, after, hwords, hbefore, herror, hregister⟩
    cases before with
    | nil =>
      obtain ⟨rfl, -⟩ := List.cons.inj hwords
      rw [h] at herror
      cases herror
    | cons first before =>
      refine ⟨before, after, (List.cons.inj hwords).2, fun w hw => hbefore w (.tail _ hw),
        herror, ?_⟩
      rw [List.length_cons] at hregister
      omega
  · rintro ⟨before, after, rfl, hbefore, herror, hregister⟩
    refine ⟨word :: before, after, rfl, List.forall_mem_cons.mpr ⟨⟨v, h⟩, hbefore⟩, herror, ?_⟩
    rw [List.length_cons]
    omega

theorem readValues_eq_error_iff {e : SeedError} : ∀ {words : List String} {i : Nat},
    readValues i words = .error e ↔ FirstRefused i words e
  | [], i => by
    refine iff_of_false nofun ?_
    rintro ⟨before, after, hwords, -⟩
    exact absurd hwords (by simp)
  | word :: words, i => by
    cases hword : Literal.parse word.toList with
    | error err =>
      rw [firstRefused_cons_of_error hword, readValues_cons_of_error hword, Except.error.injEq,
        eq_comm]
    | ok v =>
      rw [firstRefused_cons_of_ok hword, ← readValues_eq_error_iff, readValues_cons_of_ok hword]
      cases readValues (i + 1) words <;> simp [Except.map]

theorem ofArguments_eq (words : List String) :
    ofArguments words = (readValues 1 words).map ofValues := by
  unfold ofArguments
  cases readValues 1 words <;> rfl

theorem ofArguments_eq_ok_iff {r : Registers} :
    ofArguments words = .ok r ↔ ∃ values, ReadAs words values ∧ r = ofValues values := by
  simp only [ofArguments_eq, ← readValues_eq_ok_iff (i := 1)]
  cases readValues 1 words with
  | ok values => simp [Except.map, eq_comm]
  | error e => simp [Except.map]

theorem ofArguments_of_readAs {values : List Int64} (h : ReadAs words values) :
    ofArguments words = .ok (ofValues values) :=
  ofArguments_eq_ok_iff.mpr ⟨values, h, rfl⟩

theorem ofArguments_eq_error_iff {e : SeedError} :
    ofArguments words = .error e ↔ FirstRefused 1 words e := by
  rw [ofArguments_eq, ← readValues_eq_error_iff]
  cases readValues 1 words <;> simp [Except.map]

/-- Either every word is a literal, and the registers are seeded with their values, or one of them
is none. -/
theorem ofArguments_cases (words : List String) :
    (∃ values, ReadAs words values ∧ ofArguments words = .ok (ofValues values)) ∨
    ∃ e, ofArguments words = .error e ∧ ∃ w ∈ words, Literal.parse w.toList = .error e.error := by
  cases hread : readValues 1 words with
  | ok values =>
    have hvalues := readValues_eq_ok_iff.mp hread
    exact .inl ⟨values, hvalues, ofArguments_of_readAs hvalues⟩
  | error e =>
    have hrefused := readValues_eq_error_iff.mp hread
    have ⟨before, after, hwords, _, herror, _⟩ := hrefused
    exact .inr ⟨e, ofArguments_eq_error_iff.mpr hrefused, e.value, by simp [hwords], herror⟩

end Ram.Registers
