import Ram.Proofs.Numeral.Reading
import Ram.Proofs.Source.Fields
import Ram.Settings

/-!
# What the variables ask for

The variable for tracing asks for it if it holds the text `1`. The variable for the step limit asks
for a number of steps (`Asks`): digits with at most a plus in front of them and blanks around them
(`Counts`); a variable without a text asks for no limit. Any other value of it is refused. The
settings that are read are the ones that the variables ask for, and they are read whenever the
variables ask for any (`ofVariables_cases`).
-/

namespace Ram.Settings

open Ram.Text Ram.Numeral

/-! ## Numbers of steps -/

/-- The text is this number: digits with at most a plus in front of them and blanks around. -/
def Counts (text : String) (n : Nat) : Prop :=
  ∃ pre sign digits post, text.toList = pre ++ (sign ++ digits) ++ post ∧
    (∀ c ∈ pre, isBlank c = true) ∧ (∀ c ∈ post, isBlank c = true) ∧
    (sign = [] ∨ sign = ['+']) ∧ digits ≠ [] ∧ Spells 10 digits n

theorem of_isDigit {c : Char} {d : Nat} (h : IsDigit 10 c d) : isBlank c = false ∧ c ≠ '+' := by
  have hplain : (smallDigits.take 10).all (fun c => !isBlank c && c != '+') = true := by decide
  have hsame : capitalDigits.take 10 = smallDigits.take 10 := by decide
  have hmem : c ∈ smallDigits.take 10 := by
    rcases h.2 with hc | hc
    · exact List.mem_of_getElem? ((List.getElem?_take_of_lt h.1).trans hc)
    · exact hsame ▸ List.mem_of_getElem? ((List.getElem?_take_of_lt h.1).trans hc)
  simpa using List.all_eq_true.mp hplain c hmem

theorem of_mem_digits {digits : List Char} {n : Nat} (h : Spells 10 digits n) :
    ∀ c ∈ digits, isBlank c = false ∧ c ≠ '+' := by
  obtain ⟨ds, hds, -⟩ := h
  exact ((List.forall₂_and_left digits ds).mp (hds.imp fun _ _ hd => ⟨of_isDigit hd, hd⟩)).1

/-- Where there are no negative numbers, a numeral is digits with at most a plus in front. -/
theorem denotes_unsigned_iff {t : List Char} {v : Int} :
    Denotes .unsigned64 10 t v ↔ ∃ sign digits n, t = sign ++ digits ∧
      (sign = [] ∨ sign = ['+']) ∧ digits ≠ [] ∧ Spells 10 digits n ∧ v = (n : Int) := by
  constructor
  · rintro ⟨sign, cs, n, hsigned, hne, hn, rfl⟩
    cases hsigned with
    | plus => exact ⟨['+'], cs, n, rfl, .inr rfl, hne, hn, Int.one_mul _⟩
    | minus hlo => exact absurd hlo (by decide)
    | bare _ _ => exact ⟨[], _, n, rfl, .inl rfl, hne, hn, Int.one_mul _⟩
  · rintro ⟨sign, digits, n, rfl, rfl | rfl, hne, hn, rfl⟩
    · obtain ⟨c, cs, rfl⟩ := List.exists_cons_of_ne_nil hne
      have hplus := (of_mem_digits hn c List.mem_cons_self).2
      exact ⟨1, _, n, .bare hplus fun hlo => absurd hlo (by decide), hne, hn, (Int.one_mul _).symm⟩
    · exact ⟨1, digits, n, .plus, hne, hn, (Int.one_mul _).symm⟩

theorem counts_iff {text : String} {n : Nat} :
    Counts text n ↔ Denotes .unsigned64 10 (trim text.toList) n := by
  rw [denotes_unsigned_iff]
  constructor
  · rintro ⟨pre, sign, digits, post, htext, hpre, hpost, hsign, hne, hn⟩
    have hblank : ∀ c ∈ sign ++ digits, isBlank c = false := by
      intro c hc
      rcases List.mem_append.mp hc with hc | hc
      · rcases hsign with rfl | rfl
        · cases hc
        · rw [List.mem_singleton.mp hc]
          decide
      · exact (of_mem_digits hn c hc).1
    have htrim : trim text.toList = sign ++ digits := by
      rw [htext]
      exact trim_append hpre hpost (List.append_ne_nil_of_right_ne_nil _ hne)
        (fun c hc => hblank c (List.mem_of_mem_head? hc))
        (fun c hc => hblank c (List.mem_of_mem_getLast? hc))
    exact ⟨sign, digits, n, htrim, hsign, hne, hn, rfl⟩
  · rintro ⟨sign, digits, m, htrim, hsign, hne, hm, hnm⟩
    obtain rfl : n = m := by exact_mod_cast hnm
    obtain ⟨pre, post, htext, hpre, hpost⟩ := exists_eq_trim text.toList
    rw [htrim] at htext
    exact ⟨pre, sign, digits, post, htext, hpre, hpost, hsign, hne, hm⟩

theorem readMaxSteps_eq_ok_iff {text : String} {limit : Option Nat} :
    readMaxSteps text = .ok limit ↔
      ∃ n, Counts text n ∧ n < 0x10000000000000000 ∧ limit = if n = 0 then none else some n := by
  have hzero : Bounds.unsigned64.Contains 0 := ⟨by decide, by decide⟩
  have hcontains : ∀ n : Nat, Bounds.unsigned64.Contains n ↔ n < 0x10000000000000000 := by
    intro n
    have hlo : Bounds.unsigned64.lo = 0 := rfl
    have hhi : Bounds.unsigned64.hi = 0xFFFFFFFFFFFFFFFF := rfl
    rw [Bounds.Contains, hlo, hhi]
    omega
  unfold readMaxSteps
  constructor
  · intro h
    split at h
    · rename_i v hread
      obtain ⟨hin, hdenotes⟩ := (read_eq_ok_iff hzero).mp hread
      obtain ⟨n, rfl⟩ : ∃ n : Nat, v = n := ⟨v.toNat, (Int.toNat_of_nonneg hin.1).symm⟩
      refine ⟨n, counts_iff.mpr hdenotes, (hcontains n).mp hin, ?_⟩
      simpa [eq_comm] using h
    · cases h
  · rintro ⟨n, hn, hlt, rfl⟩
    have hread := (read_eq_ok_iff hzero).mpr ⟨(hcontains n).mpr hlt, counts_iff.mp hn⟩
    rw [hread]
    simp

/-! ## Variables -/

/-- The value of the variable for the step limit asks for this limit. Zero asks for none, and so
does a variable that is unset or has no text in it. -/
inductive Asks : Option ByteArray → Option Nat → Prop where
  | unset : Asks none none
  | noText {bytes : ByteArray} : ¬ bytes.IsValidUTF8 → Asks (some bytes) none
  | number {text : String} {n : Nat} : Counts text n → n < 0x10000000000000000 →
      Asks (some text.toUTF8) (if n = 0 then none else some n)

/-- The variables ask for something; the one for tracing always does. -/
def WellFormed (vars : Variables) : Prop := ∃ limit, Asks vars.maxSteps limit

/-- The settings are what the variables ask for. -/
structure ReadFrom (vars : Variables) (s : Settings) : Prop where
  trace_iff : s.trace = true ↔ vars.trace = some "1".toUTF8
  maxSteps : Asks vars.maxSteps s.maxSteps

theorem text?_eq_some_iff {value : Option ByteArray} {text : String} :
    text? value = some text ↔ value = some text.toUTF8 := by
  cases value with
  | none => simp [text?]
  | some bytes =>
    have hinj : ∀ h : bytes.IsValidUTF8, String.fromUTF8 bytes h = text ↔ bytes = text.toUTF8 :=
      fun h => String.toByteArray_inj.symm
    simp only [text?, Option.bind_some, String.fromUTF8?, Option.some.injEq]
    split
    · rename_i h
      rw [Option.some.injEq, hinj h]
    · rename_i h
      simp only [reduceCtorEq, false_iff]
      rintro rfl
      exact h text.isValidUTF8

theorem text?_eq_none_iff {value : Option ByteArray} :
    text? value = none ↔ value = none ∨ ∃ bytes, value = some bytes ∧ ¬ bytes.IsValidUTF8 := by
  cases value with
  | none => simp [text?]
  | some bytes => simp [text?, String.fromUTF8?]

theorem asks_iff {value : Option ByteArray} {limit : Option Nat} : Asks value limit ↔
    (match text? value with | some text => readMaxSteps text | none => .ok none) = .ok limit := by
  cases htext : text? value with
  | none =>
    rcases text?_eq_none_iff.mp htext with rfl | ⟨bytes, rfl, hbytes⟩
    · constructor
      · rintro ⟨⟩
        rfl
      · intro h
        cases h
        exact .unset
    · constructor
      · intro h
        cases h with
        | noText => rfl
        | @number text => exact absurd text.isValidUTF8 hbytes
      · intro h
        cases h
        exact .noText hbytes
  | some text =>
    obtain rfl := text?_eq_some_iff.mp htext
    simp only [readMaxSteps_eq_ok_iff]
    constructor
    · -- `Asks` has the value as an index, and `text.toUTF8` is none that a case split could match
      generalize hvalue : some text.toUTF8 = value
      rintro (_ | hbytes | ⟨hn, hlt⟩)
      · cases hvalue
      · cases hvalue
        exact absurd text.isValidUTF8 hbytes
      · obtain rfl := String.toByteArray_inj.mp (Option.some.inj hvalue)
        exact ⟨_, hn, hlt, rfl⟩
    · rintro ⟨n, hn, hlt, rfl⟩
      exact .number hn hlt

/-- The variables are read as what they ask for, or else the text of the one for the step limit is
quoted in the error. -/
theorem ofVariables_cases (vars : Variables) :
    (∃ s, ReadFrom vars s ∧ ofVariables vars = .ok s) ∨
    (¬ WellFormed vars ∧
      ∃ e, vars.maxSteps = some e.value.toUTF8 ∧ ofVariables vars = .error e) := by
  unfold WellFormed ofVariables
  simp only [asks_iff]
  cases htext : text? vars.maxSteps with
  | none =>
    refine .inl ⟨⟨text? vars.trace == some "1", none⟩, ⟨?_, ?_⟩, rfl⟩
    · rw [beq_iff_eq, text?_eq_some_iff]
    · rw [asks_iff, htext]
  | some text =>
    dsimp only [bind, Except.bind]
    cases hread : readMaxSteps text with
    | ok limit =>
      refine .inl ⟨⟨text? vars.trace == some "1", limit⟩, ⟨?_, ?_⟩, rfl⟩
      · rw [beq_iff_eq, text?_eq_some_iff]
      · rw [asks_iff, htext]
        exact hread
    | error e =>
      have hvalue : e.value = text := by
        unfold readMaxSteps at hread
        split at hread
        · cases hread
        · cases hread
          rfl
      refine .inr ⟨by simp, e, ?_, rfl⟩
      rw [hvalue, text?_eq_some_iff.mp htext]

theorem wellFormed_iff {vars : Variables} : WellFormed vars ↔ (ofVariables vars).isOk = true := by
  rcases ofVariables_cases vars with ⟨s, hs, hread⟩ | ⟨hno, e, -, hread⟩
  · rw [hread]
    exact ⟨fun _ => rfl, fun _ => ⟨s.maxSteps, hs.maxSteps⟩⟩
  · rw [hread]
    exact ⟨fun h => absurd h hno, fun h => nomatch h⟩

instance (vars : Variables) : Decidable (WellFormed vars) := decidable_of_iff _ wellFormed_iff.symm

end Ram.Settings
