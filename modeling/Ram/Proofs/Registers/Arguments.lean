import Mathlib.Order.Interval.Finset.Nat
import Ram.Proofs.Registers.Layout

/-!
# Registers seeded from arguments

Values that are written from register 1 on stand there in their order (`get_ofValues`), and so many
cells are stored, whichever part they fall into (`size_ofValues`). Seeding from words takes all of
them or tells the first one that is no literal (`ofArguments_all_or_first`).
-/

namespace Ram.Registers

/-! ## Values -/

theorem get_setFrom (values : List Int64) : ∀ (r : Registers) (i k : Nat),
    (r.setFrom i values).get k =
      if i ≤ k then values[k - i]?.getD (r.get k) else r.get k := by
  induction values with
  | nil =>
    intro r i k
    simp [setFrom]
  | cons v vs ih =>
    intro r i k
    rw [setFrom, ih, get_set]
    by_cases hlt : i + 1 ≤ k
    · have hsub : k - i = k - (i + 1) + 1 := by omega
      rw [if_pos hlt, if_pos (Nat.le_of_lt hlt), if_neg (Nat.ne_of_lt hlt), hsub,
        List.getElem?_cons_succ]
    · rw [if_neg hlt]
      by_cases heq : i = k
      · simp [heq]
      · rw [if_neg heq, if_neg (by omega)]

theorem get_ofValues_zero (values : List Int64) : (ofValues values).get 0 = 0 := by
  rw [ofValues, get_setFrom, if_neg (by decide), get_empty]

theorem get_ofValues_succ (values : List Int64) (k : Nat) :
    (ofValues values).get (k + 1) = values[k]?.getD 0 := by
  rw [ofValues, get_setFrom, if_pos (by omega), get_empty, Nat.add_sub_cancel]

/-! ## Cells -/

theorem mem_indices_seedsFrom {i k : Nat} {values : List Int64} :
    k ∈ indices (seedsFrom i values) ↔ i ≤ k ∧ k < i + values.length := by
  have hindices : indices (seedsFrom i values) = List.range' i values.length := by
    rw [indices, seedsFrom, List.map_map, ← List.zipIdx_map_snd]
    rfl
  rw [hindices, List.mem_range'_1]

theorem highestLow_seedsFrom {values : List Int64} (h : values ≠ []) :
    highestLow (seedsFrom 1 values) = some (min values.length (lowBound - 1)) := by
  have hlength := List.length_pos_iff.mpr h
  simp only [highestLow_eq_some, mem_indices_seedsFrom, lowBound_eq]
  exact ⟨by omega, fun k hk hlow => by omega⟩

theorem farWritten_seedsFrom (values : List Int64) :
    farWritten (seedsFrom 1 values) = Finset.Ico lowBound (values.length + 1) := by
  ext k
  rw [mem_farWritten, mem_indices_seedsFrom, Finset.mem_Ico, lowBound_eq]
  omega

/-- The accumulator has its cell as soon as there is a value. -/
theorem size_ofValues (values : List Int64) :
    (ofValues values).size = if values.length = 0 then 0 else values.length + 1 := by
  by_cases h : values = []
  · subst h
    rfl
  · have hlength := List.length_pos_iff.mpr h
    rw [if_neg (by omega), ofValues_eq_ofWrites, size_ofWrites, highestLow_seedsFrom h,
      farWritten_seedsFrom, Nat.card_Ico, Option.elim_some, lowBound_eq]
    omega

/-! ## Words -/

theorem ReadAs.parse_getElem? {words : List String} {values : List Int64} (h : ReadAs words values)
    {k : Nat} {w : String} (hw : words[k]? = some w) :
    Literal.parse w.toList = .ok (values[k]?.getD 0) := by
  obtain ⟨hk, rfl⟩ := List.getElem?_eq_some_iff.mp hw
  obtain ⟨hlength, hget⟩ := List.forall₂_iff_get.mp h
  have hk' : k < values.length := hlength ▸ hk
  rw [List.getElem?_eq_getElem hk', Option.getD_some]
  exact hget k hk hk'

theorem exists_ofArguments_iff {words : List String} :
    (∃ r, ofArguments words = .ok r) ↔ ∀ w ∈ words, ∃ v, Literal.parse w.toList = .ok v := by
  rcases ofArguments_cases words with ⟨values, hread, hok⟩ | ⟨e, herror, w, hw, hparse⟩
  · exact iff_of_true ⟨_, hok⟩ fun w hw => hread.exists_of_mem hw
  · refine iff_of_false (fun ⟨r, hr⟩ => ?_) (fun hall => ?_)
    · rw [herror] at hr
      cases hr
    · obtain ⟨v, hv⟩ := hall w hw
      rw [hparse] at hv
      cases hv

/-- Words seed registers all together or not at all. If every one is a literal, the k-th one gives
the value of register k, and no other register holds anything. Otherwise the error is that of the
first one that is no literal, whatever comes behind it. -/
theorem ofArguments_all_or_first (words : List String) :
    ((∃ r, ofArguments words = .ok r) ↔
      ∀ w ∈ words, ∃ v, Literal.parse w.toList = .ok v) ∧
    (∀ r, ofArguments words = .ok r →
      (∃ values, ReadAs words values ∧ r = ofValues values) ∧
      r.get 0 = 0 ∧
      (∀ k w, words[k]? = some w → Literal.parse w.toList = .ok (r.get (k + 1))) ∧
      (∀ i, words.length < i → r.get i = 0) ∧
      r.size = if words.length = 0 then 0 else words.length + 1) ∧
    ∀ e, ofArguments words = .error e ↔ FirstRefused 1 words e := by
  refine ⟨exists_ofArguments_iff, fun r hr => ?_, fun e => ofArguments_eq_error_iff⟩
  obtain ⟨values, hread, rfl⟩ := ofArguments_eq_ok_iff.mp hr
  have hlength : words.length = values.length := List.Forall₂.length_eq hread
  refine ⟨⟨values, hread, rfl⟩, get_ofValues_zero values, fun k w hw => ?_, fun i hi => ?_, ?_⟩
  · rw [get_ofValues_succ]
    exact hread.parse_getElem? hw
  · obtain ⟨k, rfl⟩ : ∃ k, i = k + 1 := ⟨i - 1, by omega⟩
    rw [get_ofValues_succ, List.getElem?_eq_none (by omega), Option.getD_none]
  · rw [size_ofValues, hlength]

/-- Words in two bases, and words of which the second one is the first to be refused. -/
theorem ofArguments_all_or_first_of_bases :
    (∃ r, ofArguments ["0x10", "-7"] = .ok r ∧ r.get 1 = 16 ∧ r.get 2 = -7 ∧ r.size = 3) ∧
    ofArguments ["1", "07", "x"] = .error ⟨2, "07", .unknownBase "07"⟩ := by
  obtain ⟨hiff, hseeded, -⟩ := ofArguments_all_or_first ["0x10", "-7"]
  obtain ⟨-, -, herror⟩ := ofArguments_all_or_first ["1", "07", "x"]
  have hhex : Literal.parse "0x10".toList = .ok 16 := by rfl
  have hminus : Literal.parse "-7".toList = .ok (-7) := by rfl
  obtain ⟨r, hr⟩ := hiff.mpr (by simpa using ⟨⟨_, hhex⟩, ⟨_, hminus⟩⟩)
  obtain ⟨-, -, hget, -, hsize⟩ := hseeded r hr
  refine ⟨⟨r, hr, ?_, ?_, hsize⟩, (herror _).mpr ?_⟩
  · exact (Except.ok.inj (hhex.symm.trans (hget 0 "0x10" rfl))).symm
  · exact (Except.ok.inj (hminus.symm.trans (hget 1 "-7" rfl))).symm
  · exact ⟨["1"], ["x"], rfl, by simpa using ⟨1, by rfl⟩, by rfl, rfl⟩

end Ram.Registers
