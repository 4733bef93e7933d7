import Mathlib.Data.List.Forall2
import Mathlib.Data.List.Induction
import Mathlib.Data.Nat.Digits.Defs
import Ram.Numeral

/-!
# What a numeral reads as

`Spells radix cs n` says that the characters are digits of the radix and that `n` is the number
with these digits. Reading digits from left to right comes to one of three things (`Reading`): the
number that they spell, a character that is no digit, or a number that is out of bounds; the
leftmost place where one of the last two happens decides. `extend_eq_iff` says that this is all
there is to `extend`, and `read_eq_ok_iff` and `read_eq_error_iff` say the same of a numeral with
its sign.
-/

namespace Ram.Numeral

/-! ## Digits -/

/-- The digits in ascending order, with small letters. -/
def smallDigits : List Char := "0123456789abcdefghijklmnopqrstuvwxyz".toList

/-- The digits in ascending order, with capital letters. -/
def capitalDigits : List Char := "0123456789ABCDEFGHIJKLMNOPQRSTUVWXYZ".toList

/-- The character is the digit `d` of the radix; letters count in either case. -/
def IsDigit (radix : Nat) (c : Char) (d : Nat) : Prop :=
  d < radix ∧ (smallDigits[d]? = some c ∨ capitalDigits[d]? = some c)

theorem digit?_eq_some_iff {radix : Nat} {c : Char} {d : Nat} :
    digit? radix c = some d ↔ d < radix ∧ digit? 36 c = some d := by
  unfold digit?
  simp only [Option.filter_eq_some_iff]
  grind

theorem lt_of_digit? {c : Char} {d : Nat} (h : digit? 36 c = some d) : c.toNat < 123 := by
  unfold digit? at h
  simp only [Option.filter_eq_some_iff] at h
  grind

theorem digit?_of_getElem? {digits : List Char} {c : Char} {d : Nat}
    (hdigits : digits.map (digit? 36) = (List.range 36).map some) (h : digits[d]? = some c) :
    digit? 36 c = some d := by
  have hd : digits.length = 36 := by simpa using congrArg List.length hdigits
  have hlt : d < 36 := hd ▸ (List.getElem?_eq_some_iff.mp h).1
  have hget := congrArg (fun l => l[d]?) hdigits
  simpa [h, hlt] using hget

theorem isDigit_iff {radix : Nat} {c : Char} {d : Nat} :
    IsDigit radix c d ↔ digit? radix c = some d := by
  have hvalue : ∀ n < 123, ∀ d ∈ digit? 36 (Char.ofNat n),
      smallDigits[d]? = some (Char.ofNat n) ∨ capitalDigits[d]? = some (Char.ofNat n) := by decide
  rw [digit?_eq_some_iff, IsDigit]
  refine and_congr_right fun _ => ⟨?_, fun h => ?_⟩
  · rintro (h | h)
    · exact digit?_of_getElem? (by decide) h
    · exact digit?_of_getElem? (by decide) h
  · have := hvalue c.toNat (lt_of_digit? h) d
    rw [Char.ofNat_toNat] at this
    exact this h

theorem IsDigit.unique {radix : Nat} {c : Char} {d e : Nat} (hd : IsDigit radix c d)
    (he : IsDigit radix c e) : d = e :=
  Option.some.inj ((isDigit_iff.mp hd).symm.trans (isDigit_iff.mp he))

/-! ## Numbers -/

/-- The characters are digits of the radix, the most significant one first, and `n` is the number
with these digits. -/
def Spells (radix : Nat) (cs : List Char) (n : Nat) : Prop :=
  ∃ ds, List.Forall₂ (IsDigit radix) cs ds ∧ n = Nat.ofDigits radix ds.reverse

theorem spells_nil (radix : Nat) : Spells radix [] 0 := ⟨[], .nil, rfl⟩

theorem spells_concat {radix : Nat} {cs : List Char} {c : Char} {n : Nat} :
    Spells radix (cs ++ [c]) n ↔
      ∃ m d, Spells radix cs m ∧ IsDigit radix c d ∧ n = m * radix + d := by
  constructor
  · rintro ⟨ds, hds, rfl⟩
    rw [← List.forall₂_reverse_iff, List.reverse_append, List.reverse_singleton,
      List.singleton_append, List.forall₂_cons_left_iff] at hds
    obtain ⟨d, es, hd, hes, hreverse⟩ := hds
    refine ⟨Nat.ofDigits radix es, d, ⟨es.reverse, ?_, by rw [List.reverse_reverse]⟩, hd, ?_⟩
    · rwa [← List.forall₂_reverse_iff, List.reverse_reverse]
    · rw [hreverse, Nat.ofDigits_cons]
      ring
  · rintro ⟨m, d, ⟨ds, hds, rfl⟩, hd, rfl⟩
    refine ⟨ds ++ [d], List.rel_append hds (.cons hd .nil), ?_⟩
    rw [List.reverse_append, List.reverse_singleton, List.singleton_append, Nat.ofDigits_cons]
    ring

namespace Spells

variable {radix : Nat} {cs front : List Char} {c : Char} {n m : Nat}

theorem unique (h : Spells radix cs n) (h' : Spells radix cs m) : n = m := by
  obtain ⟨ds, hds, rfl⟩ := h
  obtain ⟨es, hes, rfl⟩ := h'
  have hunique : Relator.RightUnique (IsDigit radix) := fun _ _ _ hd he => hd.unique he
  rw [List.right_unique_forall₂' hunique hds hes]

theorem of_append : ∀ {rest : List Char} {n : Nat}, Spells radix (front ++ rest) n →
    ∃ m ≤ n, Spells radix front m := by
  intro rest
  induction rest using List.reverseRecOn with
  | nil =>
    intro n h
    exact ⟨n, Nat.le_refl n, List.append_nil front ▸ h⟩
  | append_singleton rest c ih =>
    intro n h
    rw [← List.append_assoc] at h
    obtain ⟨k, d, hk, hd, rfl⟩ := spells_concat.mp h
    obtain ⟨m, hle, hm⟩ := ih hk
    have hradix : 0 < radix := Nat.zero_lt_of_lt hd.1
    have hgrow : k ≤ k * radix := Nat.le_mul_of_pos_right k hradix
    exact ⟨m, by omega, hm⟩

end Spells

/-! ## Reading digits -/

/-- The value is within the bounds. -/
def Bounds.Contains (b : Bounds) (v : Int) : Prop := b.lo ≤ v ∧ v ≤ b.hi

/-- The characters spell a number that is within the bounds if it is taken with the sign. -/
def Fits (b : Bounds) (radix : Nat) (sign : Int) (cs : List Char) : Prop :=
  ∃ n, Spells radix cs n ∧ b.Contains (sign * n)

/-- Up to the character behind `front` everything fits. -/
structure Reaches (b : Bounds) (radix : Nat) (sign : Int) (cs front : List Char) (c : Char) :
    Prop where
  here : front ++ [c] <+: cs
  fits : ∀ part, part <+: front → Fits b radix sign part

/-- The fault of a number that is out of bounds. -/
def overflow (sign : Int) : Fault := if sign < 0 then .tooSmall else .tooLarge

/-- What characters with this sign in front of them read as. -/
inductive Reading (b : Bounds) (radix : Nat) (sign : Int) (cs : List Char) :
    Except Fault Int → Prop where
  | value {n : Nat} : Spells radix cs n → b.Contains (sign * n) →
      Reading b radix sign cs (.ok (sign * n))
  | stranger {front : List Char} {c : Char} : Reaches b radix sign cs front c →
      (∀ d, ¬ IsDigit radix c d) → Reading b radix sign cs (.error .invalidDigit)
  | beyond {front : List Char} {c : Char} {n : Nat} : Reaches b radix sign cs front c →
      Spells radix (front ++ [c]) n → ¬ b.Contains (sign * n) →
      Reading b radix sign cs (.error (overflow sign))

section Extend

variable {b : Bounds} (hb : b.Contains 0) {radix : Nat} {sign : Int}

include hb in
/-- The digits in front have been read; the number that they spell is the value so far. -/
theorem reading_extend_append (hsign : sign = 1 ∨ sign = -1) (cs : List Char) :
    ∀ {front : List Char} {n : Nat}, Spells radix front n →
      (∀ part, part <+: front → Fits b radix sign part) →
      Reading b radix sign (front ++ cs) (extend b radix sign (sign * n) cs) := by
  induction cs with
  | nil =>
    intro front n hn hfits
    obtain ⟨m, hm, hin⟩ := hfits front List.prefix_rfl
    obtain rfl := hn.unique hm
    rw [List.append_nil]
    exact .value hn hin
  | cons c cs ih =>
    intro front n hn hfits
    have hreach : Reaches b radix sign (front ++ c :: cs) front c :=
      ⟨⟨cs, by simp⟩, hfits⟩
    rw [extend]
    cases hdigit : digit? radix c with
    | none =>
      exact .stranger hreach fun d hd => by rw [isDigit_iff.mp hd] at hdigit; cases hdigit
    | some d =>
      have hnext : sign * (n : Int) * (radix : Int) + sign * (d : Int) =
          sign * ((n * radix + d : Nat) : Int) := by
        push_cast
        ring
      have hspells : Spells radix (front ++ [c]) (n * radix + d) :=
        spells_concat.mpr ⟨n, d, hn, isDigit_iff.mpr hdigit, rfl⟩
      simp only [hnext]
      generalize n * radix + d = next at hspells
      obtain ⟨hlo, hhi⟩ := hb
      split
      · -- below the bounds there are only negative numbers
        have hneg : sign = -1 := by
          rcases hsign with rfl | rfl
          · omega
          · rfl
        subst hneg
        exact .beyond hreach hspells fun h => by unfold Bounds.Contains at h; omega
      · split
        · have hpos : sign = 1 := by
            rcases hsign with rfl | rfl
            · rfl
            · omega
          subst hpos
          exact .beyond hreach hspells fun h => by unfold Bounds.Contains at h; omega
        · have hfit : Fits b radix sign (front ++ [c]) := ⟨next, hspells, by omega, by omega⟩
          have := ih hspells fun part hpart => by
            rcases List.prefix_concat_iff.mp hpart with rfl | hpart
            · exact hfit
            · exact hfits part hpart
          rwa [List.append_assoc, List.singleton_append] at this

include hb in
theorem reading_extend (hsign : sign = 1 ∨ sign = -1) (cs : List Char) :
    Reading b radix sign cs (extend b radix sign 0 cs) := by
  have hfits : ∀ part, part <+: [] → Fits b radix sign part := by
    intro part hpart
    rw [List.prefix_nil.mp hpart]
    exact ⟨0, spells_nil radix, by simpa using hb⟩
  simpa using reading_extend_append hb hsign cs (spells_nil radix) hfits

end Extend

/-! ## One reading -/

section Unique

variable {b : Bounds} {radix : Nat} {sign : Int} {cs front front' : List Char} {c c' : Char}

theorem not_fits_of_stranger (h : ∀ d, ¬ IsDigit radix c d) :
    ¬ Fits b radix sign (front ++ [c]) := by
  rintro ⟨n, hn, -⟩
  obtain ⟨_, d, -, hd, -⟩ := spells_concat.mp hn
  exact h d hd

theorem not_fits_of_beyond {n : Nat} (hn : Spells radix cs n) (h : ¬ b.Contains (sign * n)) :
    ¬ Fits b radix sign cs := by
  rintro ⟨m, hm, hin⟩
  rw [hm.unique hn] at hin
  exact h hin

/-- There is one place at most up to which everything fits and at which it no longer does. -/
theorem Reaches.unique (h : Reaches b radix sign cs front c)
    (h' : Reaches b radix sign cs front' c') (hno : ¬ Fits b radix sign (front ++ [c]))
    (hno' : ¬ Fits b radix sign (front' ++ [c'])) : front = front' ∧ c = c' := by
  have heq : front ++ [c] = front' ++ [c'] := by
    rcases List.prefix_or_prefix_of_prefix h.here h'.here with hle | hle
    · rcases List.prefix_concat_iff.mp hle with heq | hle
      · exact heq
      · exact absurd (h'.fits _ hle) hno
    · rcases List.prefix_concat_iff.mp hle with heq | hle
      · exact heq.symm
      · exact absurd (h.fits _ hle) hno'
  obtain ⟨hfront, hc⟩ := List.append_inj' heq rfl
  exact ⟨hfront, List.singleton_inj.mp hc⟩

theorem contains_of_le (hb : b.Contains 0) (hsign : sign = 1 ∨ sign = -1) {m n : Nat}
    (hle : m ≤ n) (h : b.Contains (sign * n)) : b.Contains (sign * m) := by
  unfold Bounds.Contains at *
  rcases hsign with rfl | rfl <;> omega

theorem fits_of_append (hb : b.Contains 0) (hsign : sign = 1 ∨ sign = -1)
    (h : Fits b radix sign cs) (hle : front <+: cs) : Fits b radix sign front := by
  obtain ⟨n, hn, hin⟩ := h
  obtain ⟨rest, rfl⟩ := hle
  obtain ⟨m, hmn, hm⟩ := hn.of_append
  exact ⟨m, hm, contains_of_le hb hsign hmn hin⟩

theorem Reading.unique (hb : b.Contains 0) (hsign : sign = 1 ∨ sign = -1) {r r' : Except Fault Int}
    (h : Reading b radix sign cs r) (h' : Reading b radix sign cs r') : r = r' := by
  cases h with
  | value hn hin =>
    have hfits : Fits b radix sign cs := ⟨_, hn, hin⟩
    cases h' with
    | value hm _ => rw [hn.unique hm]
    | stranger hreach hc =>
      exact absurd (fits_of_append hb hsign hfits hreach.here) (not_fits_of_stranger hc)
    | beyond hreach hm hno =>
      exact absurd (fits_of_append hb hsign hfits hreach.here) (not_fits_of_beyond hm hno)
  | stranger hreach hc =>
    cases h' with
    | value hm hin =>
      exact absurd (fits_of_append hb hsign ⟨_, hm, hin⟩ hreach.here) (not_fits_of_stranger hc)
    | stranger => rfl
    | beyond hreach' hm hno =>
      obtain ⟨rfl, rfl⟩ :=
        hreach.unique hreach' (not_fits_of_stranger hc) (not_fits_of_beyond hm hno)
      obtain ⟨_, d, -, hd, -⟩ := spells_concat.mp hm
      exact absurd hd (hc d)
  | beyond hreach hn hno =>
    cases h' with
    | value hm hin =>
      exact absurd (fits_of_append hb hsign ⟨_, hm, hin⟩ hreach.here) (not_fits_of_beyond hn hno)
    | stranger hreach' hc =>
      obtain ⟨rfl, rfl⟩ :=
        hreach.unique hreach' (not_fits_of_beyond hn hno) (not_fits_of_stranger hc)
      obtain ⟨_, d, -, hd, -⟩ := spells_concat.mp hn
      exact absurd hd (hc d)
    | beyond => rfl

theorem extend_eq_iff (hb : b.Contains 0) (hsign : sign = 1 ∨ sign = -1) {r : Except Fault Int} :
    extend b radix sign 0 cs = r ↔ Reading b radix sign cs r := by
  constructor
  · rintro rfl
    exact reading_extend hb hsign cs
  · exact (reading_extend hb hsign cs).unique hb hsign

end Unique

/-! ## Signs -/

/-- The sign of a numeral and what stands behind it. A minus is a sign only where the bounds go
below zero. -/
inductive Signed (b : Bounds) : List Char → Int → List Char → Prop where
  | plus {cs : List Char} : Signed b ('+' :: cs) 1 cs
  | minus {cs : List Char} : b.lo < 0 → Signed b ('-' :: cs) (-1) cs
  | bare {c : Char} {cs : List Char} : c ≠ '+' → (b.lo < 0 → c ≠ '-') →
      Signed b (c :: cs) 1 (c :: cs)

/-- The text is at most one sign and at least one digit, and this is its value. -/
def Denotes (b : Bounds) (radix : Nat) (t : List Char) (v : Int) : Prop :=
  ∃ sign cs n, Signed b t sign cs ∧ cs ≠ [] ∧ Spells radix cs n ∧ v = sign * n

/-- At the first place at which the digits do not fit any more, the number is out of bounds. -/
def Overflows (b : Bounds) (radix : Nat) (sign : Int) (cs : List Char) : Prop :=
  ∃ front c n, Reaches b radix sign cs front c ∧ Spells radix (front ++ [c]) n ∧
    ¬ b.Contains (sign * n)

/-- The text is no numeral, for this reason. -/
def Spoils (b : Bounds) (radix : Nat) (t : List Char) : Fault → Prop
  | .empty => t = []
  | .invalidDigit => ∃ sign cs, Signed b t sign cs ∧
      (cs = [] ∨ ∃ front c, Reaches b radix sign cs front c ∧ ∀ d, ¬ IsDigit radix c d)
  | .tooLarge => ∃ cs, Signed b t 1 cs ∧ Overflows b radix 1 cs
  | .tooSmall => ∃ cs, Signed b t (-1) cs ∧ Overflows b radix (-1) cs

section Signs

variable {b : Bounds} {radix : Nat} {t cs : List Char} {sign : Int}

theorem exists_signed (b : Bounds) (c : Char) (cs : List Char) :
    ∃ sign ds, Signed b (c :: cs) sign ds := by
  by_cases hplus : c = '+'
  · exact ⟨1, cs, hplus ▸ .plus⟩
  · by_cases hminus : b.lo < 0 ∧ c = '-'
    · exact ⟨-1, cs, hminus.2 ▸ .minus hminus.1⟩
    · exact ⟨1, c :: cs, .bare hplus fun hlo hc => hminus ⟨hlo, hc⟩⟩

theorem Signed.sign_eq (h : Signed b t sign cs) : sign = 1 ∨ sign = -1 := by
  cases h with
  | plus => exact .inl rfl
  | minus => exact .inr rfl
  | bare => exact .inl rfl

theorem read_of_signed (h : Signed b t sign cs) :
    read b radix t = readSigned b radix sign cs := by
  cases h with
  | plus => rw [read, if_pos rfl]
  | minus hlo => rw [read, if_neg (by decide), if_pos ⟨rfl, hlo⟩]
  | bare hplus hminus =>
    rw [read, if_neg hplus, if_neg fun h => hminus h.2 h.1, readSigned]
    exact fun h => nomatch h

theorem readSigned_of_ne_nil (h : cs ≠ []) :
    readSigned b radix sign cs = extend b radix sign 0 cs := by
  cases cs with
  | nil => exact absurd rfl h
  | cons c cs => rfl

theorem read_eq_iff (hb : b.Contains 0) (h : Signed b t sign cs) (hne : cs ≠ [])
    {r : Except Fault Int} : read b radix t = r ↔ Reading b radix sign cs r := by
  rw [read_of_signed h, readSigned_of_ne_nil hne, extend_eq_iff hb h.sign_eq]

theorem Reaches.ne_nil {front : List Char} {c : Char} (h : Reaches b radix sign cs front c) :
    cs ≠ [] := by
  rintro rfl
  simpa using h.here

/-- A numeral is read as its value, if that is within the bounds. -/
theorem read_eq_ok_iff (hb : b.Contains 0) {v : Int} :
    read b radix t = .ok v ↔ b.Contains v ∧ Denotes b radix t v := by
  constructor
  · intro h
    cases t with
    | nil => cases h
    | cons c cs =>
      obtain ⟨sign, ds, hsigned⟩ := exists_signed b c cs
      have hne : ds ≠ [] := by
        rintro rfl
        rw [read_of_signed hsigned] at h
        cases h
      cases (read_eq_iff hb hsigned hne).mp h with
      | value hn hin => exact ⟨hin, sign, ds, _, hsigned, hne, hn, rfl⟩
  · rintro ⟨hin, sign, ds, n, hsigned, hne, hn, rfl⟩
    exact (read_eq_iff hb hsigned hne).mpr (.value hn hin)

/-- A text is refused for the reason that its leftmost fault gives. -/
theorem read_eq_error_iff (hb : b.Contains 0) {f : Fault} :
    read b radix t = .error f ↔ Spoils b radix t f := by
  constructor
  · intro h
    cases t with
    | nil =>
      cases h
      rfl
    | cons c cs =>
      obtain ⟨sign, ds, hsigned⟩ := exists_signed b c cs
      by_cases hne : ds = []
      · subst hne
        rw [read_of_signed hsigned] at h
        cases h
        exact ⟨sign, [], hsigned, .inl rfl⟩
      · cases (read_eq_iff hb hsigned hne).mp h with
        | stranger hreach hc => exact ⟨sign, ds, hsigned, .inr ⟨_, _, hreach, hc⟩⟩
        | beyond hreach hn hout =>
          have hover : Overflows b radix sign ds := ⟨_, _, _, hreach, hn, hout⟩
          rcases hsigned.sign_eq with rfl | rfl
          · exact ⟨ds, hsigned, hover⟩
          · exact ⟨ds, hsigned, hover⟩
  · intro h
    cases f with
    | empty => rw [show t = [] from h]; rfl
    | invalidDigit =>
      obtain ⟨sign, ds, hsigned, rfl | ⟨front, c, hreach, hc⟩⟩ := h
      · exact read_of_signed hsigned
      · exact (read_eq_iff hb hsigned hreach.ne_nil).mpr (.stranger hreach hc)
    | tooLarge =>
      obtain ⟨ds, hsigned, front, c, n, hreach, hn, hout⟩ := h
      exact (read_eq_iff hb hsigned hreach.ne_nil).mpr (.beyond hreach hn hout)
    | tooSmall =>
      obtain ⟨ds, hsigned, front, c, n, hreach, hn, hout⟩ := h
      exact (read_eq_iff hb hsigned hreach.ne_nil).mpr (.beyond hreach hn hout)

end Signs

end Ram.Numeral
