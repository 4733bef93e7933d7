import Ram.Proofs.Literal

/-!
# Written numbers

The decimal text of a number has digits only, and a minus in front of a negative one. It is a
numeral of that number (`denotes_toString`), and since it has no zero in front of other digits no
base mark is seen in it: as a literal it is the word that was written (`parse_toString`).
-/

namespace Ram.Numeral

theorem isDigit_of_mem_repr {n : Nat} {c : Char} (h : c ∈ n.repr.toList) : c.isDigit = true := by
  rw [Nat.toList_repr] at h
  exact Nat.isDigit_of_mem_toDigits (by omega) (by omega) h

theorem of_mem_toString {z : Int} {c : Char} (h : c ∈ (toString z).toList) :
    c = '-' ∨ c.isDigit = true := by
  rw [Int.toString_eq_repr, Int.repr_eq_if] at h
  split at h
  · exact .inr (isDigit_of_mem_repr h)
  · rcases List.mem_append.mp (String.toList_append ▸ h) with h | h
    · exact .inl (List.mem_singleton.mp h)
    · exact .inr (isDigit_of_mem_repr h)

/-! ## Digits -/

theorem isDigit_digitChar : ∀ d < 10, IsDigit 10 d.digitChar d := by
  intro d hd
  have hvalue : ∀ d < 10, digit? 10 d.digitChar = some d := by decide
  exact isDigit_iff.mpr (hvalue d hd)

theorem spells_toDigits (n : Nat) : Spells 10 (Nat.toDigits 10 n) n := by
  induction n using Nat.strongRecOn with
  | _ n ih =>
    by_cases h : n < 10
    · rw [Nat.toDigits_of_lt_base h, ← List.nil_append [n.digitChar]]
      exact spells_concat.mpr ⟨0, n, spells_nil 10, isDigit_digitChar n h, by omega⟩
    · rw [Nat.toDigits_of_base_le (by omega) (by omega)]
      exact spells_concat.mpr ⟨n / 10, n % 10, ih (n / 10) (by omega),
        isDigit_digitChar (n % 10) (by omega), by omega⟩

theorem repr_cons (n : Nat) : ∃ c cs, n.repr.toList = c :: cs ∧ c.isDigit = true := by
  cases h : n.repr.toList with
  | nil => rw [Nat.toList_repr] at h; exact absurd h Nat.toDigits_ne_nil
  | cons c cs => exact ⟨c, cs, rfl, isDigit_of_mem_repr (h ▸ List.mem_cons_self)⟩

theorem toString_ne_nil (z : Int) : (toString z).toList ≠ [] := by
  rw [Int.toString_eq_repr, Int.repr_eq_if]
  split
  · obtain ⟨c, cs, hcs, -⟩ := repr_cons z.toNat
    rw [hcs]
    exact List.cons_ne_nil c cs
  · rw [String.toList_append]
    exact List.cons_ne_nil _ _

theorem toString_toNat {z : Int} (h : 0 ≤ z) : toString z.toNat = toString z := by
  rw [Int.toString_eq_repr, Int.repr_eq_if, if_pos h]
  rfl

theorem denotes_toString {b : Bounds} {z : Int} (hlo : b.lo ≤ z) :
    Denotes b 10 (toString z).toList z := by
  rw [Int.toString_eq_repr, Int.repr_eq_if]
  split
  · obtain ⟨c, cs, hcs, hc⟩ := repr_cons z.toNat
    have hplus : c ≠ '+' := by rintro rfl; exact absurd hc (by decide)
    have hminus : c ≠ '-' := by rintro rfl; exact absurd hc (by decide)
    refine ⟨1, z.toNat.repr.toList, z.toNat, ?_, by simp [hcs], ?_, by omega⟩
    · rw [hcs]
      exact .bare hplus fun _ => hminus
    · rw [Nat.toList_repr]
      exact spells_toDigits z.toNat
  · obtain ⟨c, cs, hcs, -⟩ := repr_cons (-z).toNat
    refine ⟨-1, (-z).toNat.repr.toList, (-z).toNat, ?_, by simp [hcs], ?_, by omega⟩
    · rw [String.toList_append]
      exact .minus (by omega)
    · rw [Nat.toList_repr]
      exact spells_toDigits (-z).toNat

end Ram.Numeral

namespace Ram.Literal

open Numeral

/-! ## Literals -/

theorem head?_toDigits (n : Nat) (hn : 0 < n) : (Nat.toDigits 10 n).head? ≠ some '0' := by
  induction n using Nat.strongRecOn with
  | _ n ih =>
    by_cases h : n < 10
    · rw [Nat.toDigits_of_lt_base h, List.head?_cons]
      intro h0
      have := Nat.digitChar_eq_zero.mp (Option.some.inj h0)
      omega
    · have hrest := ih (n / 10) (by omega) (by omega)
      rw [Nat.toDigits_of_base_le (by omega) (by omega), List.head?_append]
      cases hd : (Nat.toDigits 10 (n / 10)).head? with
      | none => exact absurd (List.head?_eq_none_iff.mp hd) Nat.toDigits_ne_nil
      | some c => rw [hd] at hrest; exact hrest

theorem marked_toString (z : Int) : Marked (toString z).toList 10 (toString z).toList := by
  refine .decimal fun c cs h => ?_
  rw [Int.toString_eq_repr, Int.repr_eq_if] at h
  split at h
  · rw [Nat.toList_repr] at h
    rcases Nat.eq_zero_or_pos z.toNat with hz | hz
    · rw [hz, Nat.toDigits_zero] at h
      cases h
    · exact head?_toDigits _ hz (by rw [h]; rfl)
  · rw [String.toList_append] at h
    cases h

/-- The decimal text of a word is a literal of that word. -/
theorem parse_toString (v : Int64) : parse (toString v.toInt).toList = .ok v := by
  have hin : Bounds.signed64.Contains v.toInt := contains_iff.mpr ⟨v.le_toInt, v.toInt_lt⟩
  have hparse := parse_of_ok (marked_toString v.toInt)
    ((read_eq_ok_iff contains_zero).mpr ⟨hin, denotes_toString hin.1⟩)
  cases h : parse (toString v.toInt).toList with
  | error e =>
    rw [h] at hparse
    cases hparse
  | ok w =>
    rw [h] at hparse
    rw [Int64.toInt_inj.mp (Except.ok.inj hparse)]

end Ram.Literal
