import Ram.Proofs.Numeral.Reading

/-!
# Which texts are literals

A literal is a base mark and a numeral of that base, or a decimal numeral without a zero in front
of other characters (`Denotes`). `parse_eq_ok_iff` says that `parse` takes exactly the literals
whose value is a 64-bit word, as that word. `parse_eq_error_iff` says of every other text which
error it has: a second character that marks no base, or else the leftmost fault of the numeral.
-/

namespace Ram.Literal

open Numeral

/-! ## Base marks -/

/-- The radix that the base mark of a text stands for and what is behind the mark. A text without
a mark is decimal, and it has no zero in front of other characters. -/
inductive Marked : List Char → Nat → List Char → Prop where
  | hexadecimal {t : List Char} : Marked ('0' :: 'x' :: t) 16 t
  | octal {t : List Char} : Marked ('0' :: 'o' :: t) 8 t
  | binary {t : List Char} : Marked ('0' :: 'b' :: t) 2 t
  | decimal {t : List Char} : (∀ c cs, t ≠ '0' :: c :: cs) → Marked t 10 t

/-- A zero in front of a character that marks no base. -/
def Unmarked (s : List Char) : Prop :=
  ∃ c cs, s = '0' :: c :: cs ∧ c ≠ 'x' ∧ c ≠ 'o' ∧ c ≠ 'b'

theorem splitBase_of_marked {s t : List Char} {radix : Nat} (h : Marked s radix t) :
    splitBase s = .ok (radix, t) := by
  cases h with
  | hexadecimal => rfl
  | octal => rfl
  | binary => rfl
  | decimal hzero =>
    unfold splitBase
    split
    · exact absurd rfl (hzero _ _)
    · exact absurd rfl (hzero _ _)
    · exact absurd rfl (hzero _ _)
    · exact absurd rfl (hzero _ _)
    · rfl

theorem splitBase_of_unmarked {s : List Char} (h : Unmarked s) :
    splitBase s = .error (.unknownBase (String.ofList (s.take 2))) := by
  obtain ⟨c, cs, rfl, hx, ho, hb⟩ := h
  unfold splitBase
  split
  · rename_i heq
    exact absurd (List.cons.inj (List.cons.inj heq).2).1 hx
  · rename_i heq
    exact absurd (List.cons.inj (List.cons.inj heq).2).1 ho
  · rename_i heq
    exact absurd (List.cons.inj (List.cons.inj heq).2).1 hb
  · rename_i heq
    cases heq
    rfl
  · rename_i hne
    exact absurd rfl (hne c cs)

theorem marked_or_unmarked (s : List Char) : (∃ radix t, Marked s radix t) ∨ Unmarked s := by
  by_cases hzero : ∃ c cs, s = '0' :: c :: cs
  · obtain ⟨c, cs, rfl⟩ := hzero
    by_cases hx : c = 'x'
    · exact .inl ⟨16, cs, hx ▸ .hexadecimal⟩
    · by_cases ho : c = 'o'
      · exact .inl ⟨8, cs, ho ▸ .octal⟩
      · by_cases hb : c = 'b'
        · exact .inl ⟨2, cs, hb ▸ .binary⟩
        · exact .inr ⟨c, cs, rfl, hx, ho, hb⟩
  · exact .inl ⟨10, s, .decimal fun c cs h => hzero ⟨c, cs, h⟩⟩

/-! ## Literals -/

/-- The text is a literal of this value, however large that is. -/
def Denotes (s : List Char) (v : Int) : Prop :=
  ∃ radix t, Marked s radix t ∧ Numeral.Denotes .signed64 radix t v

/-- The error is the one that the text has: it tells the first two characters if they are no base
mark, and else the radix and the leftmost fault of the numeral. -/
def Error.Blames (s : List Char) : Error → Prop
  | unknownBase lead => Unmarked s ∧ lead.toList = s.take 2
  | malformed radix fault => ∃ t, Marked s radix t ∧ Spoils .signed64 radix t fault

theorem contains_zero : Bounds.signed64.Contains 0 := ⟨by decide, by decide⟩

theorem contains_iff {v : Int} : Bounds.signed64.Contains v ↔ -2 ^ 63 ≤ v ∧ v < 2 ^ 63 := by
  have hlo : Bounds.signed64.lo = -2 ^ 63 := rfl
  have hhi : Bounds.signed64.hi = 2 ^ 63 - 1 := rfl
  rw [Bounds.Contains, hlo, hhi]
  omega

theorem parse_of_ok {s t : List Char} {radix : Nat} {v : Int} (h : Marked s radix t)
    (hread : read .signed64 radix t = .ok v) : (parse s).map (·.toInt) = .ok v := by
  have hrange := contains_iff.mp ((read_eq_ok_iff contains_zero).mp hread).1
  have hword : (Int64.ofInt v).toInt = v := Int64.toInt_ofInt_of_le hrange.1 hrange.2
  unfold parse
  rw [splitBase_of_marked h]
  dsimp only [bind, Except.bind]
  rw [hread]
  exact congrArg _ hword

theorem parse_of_error {s t : List Char} {radix : Nat} {fault : Numeral.Fault}
    (h : Marked s radix t) (hread : read .signed64 radix t = .error fault) :
    parse s = .error (.malformed radix fault) := by
  unfold parse
  rw [splitBase_of_marked h]
  dsimp only [bind, Except.bind]
  rw [hread]

theorem parse_of_unmarked {s : List Char} (h : Unmarked s) :
    parse s = .error (.unknownBase (String.ofList (s.take 2))) := by
  unfold parse
  rw [splitBase_of_unmarked h]
  rfl

/-- A text is parsed as a value if and only if it is a literal of that value and the value is a
64-bit word. -/
theorem parse_eq_ok_iff (s : String) (v : Int) :
    (parse s.toList).map (·.toInt) = .ok v ↔
      (-2 ^ 63 ≤ v ∧ v < 2 ^ 63) ∧ Denotes s.toList v := by
  constructor
  · intro h
    rcases marked_or_unmarked s.toList with ⟨radix, t, hmarked⟩ | hunmarked
    · cases hread : read .signed64 radix t with
      | ok w =>
        rw [parse_of_ok hmarked hread] at h
        cases h
        obtain ⟨hrange, hdenotes⟩ := (read_eq_ok_iff contains_zero).mp hread
        exact ⟨contains_iff.mp hrange, radix, t, hmarked, hdenotes⟩
      | error fault =>
        rw [parse_of_error hmarked hread] at h
        cases h
    · rw [parse_of_unmarked hunmarked] at h
      cases h
  · rintro ⟨hrange, radix, t, hmarked, hdenotes⟩
    exact parse_of_ok hmarked
      ((read_eq_ok_iff contains_zero).mpr ⟨contains_iff.mpr hrange, hdenotes⟩)

/-- A text is refused with the one error that is to blame: its first two characters, if they are a
zero and no base mark, and else the leftmost fault of the numeral, which is a character that is no
digit or a digit that takes the value out of the 64-bit words. -/
theorem parse_eq_error_iff (s : String) (e : Error) :
    parse s.toList = .error e ↔ e.Blames s.toList := by
  constructor
  · intro h
    rcases marked_or_unmarked s.toList with ⟨radix, t, hmarked⟩ | hunmarked
    · cases hread : read .signed64 radix t with
      | ok w =>
        have hok := parse_of_ok hmarked hread
        rw [h] at hok
        cases hok
      | error fault =>
        rw [parse_of_error hmarked hread] at h
        cases h
        exact ⟨t, hmarked, (read_eq_error_iff contains_zero).mp hread⟩
    · rw [parse_of_unmarked hunmarked] at h
      cases h
      exact ⟨hunmarked, String.toList_ofList⟩
  · intro h
    cases e with
    | unknownBase lead =>
      obtain ⟨hunmarked, hlead⟩ := h
      rw [parse_of_unmarked hunmarked, ← hlead, String.ofList_toList]
    | malformed radix fault =>
      obtain ⟨t, hmarked, hspoils⟩ := h
      exact parse_of_error hmarked ((read_eq_error_iff contains_zero).mpr hspoils)

/-- The letter is to blame behind the greatest word, and the last digit behind one more. -/
example : parse "9223372036854775807z".toList = .error (.malformed 10 .invalidDigit) ∧
    parse "9223372036854775808z".toList = .error (.malformed 10 .tooLarge) := ⟨rfl, rfl⟩

end Ram.Literal
