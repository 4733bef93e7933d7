import Mathlib.Data.Finset.Card
import Ram.Proofs.Registers.History

/-!
# The layout of registers

Equality of registers sees how they are kept, and a history of writes says how that is. The low
block ends behind the highest of its registers that was written (`size_low_ofWrites`), and the
other cells are the far registers that were written, zeros included (`mem_far_ofWrites`).
Registers with the same block size, the same far cells and the same values are equal
(`Divided.ext`), so a history counts only through these three (`ofWrites_eq_iff`).
-/

namespace Ram.Registers

variable {r r' : Registers} {i j : Nat} {v : Int64} {ws ws' : List Write}

/-! ## What a history leaves -/

/-- The registers that were written, one for each write. -/
def indices (ws : List Write) : List Nat := ws.map Prod.fst

/-- The highest register of the low block that was written. -/
def highestLow (ws : List Write) : Option Nat := ((indices ws).filter (· < lowBound)).max?

/-- The registers behind the low block that were written. -/
def farWritten (ws : List Write) : Finset Nat := ((indices ws).filter (lowBound ≤ ·)).toFinset

@[simp] theorem indices_nil : indices [] = [] := rfl

@[simp] theorem indices_cons (w : Write) (ws : List Write) :
    indices (w :: ws) = w.1 :: indices ws := rfl

@[simp] theorem indices_append (ws ws' : List Write) :
    indices (ws ++ ws') = indices ws ++ indices ws' :=
  List.map_append

theorem mem_indices_insert {before : List Write} {w : Write} {after : List Write} :
    i ∈ indices (before ++ w :: after) ↔ i = w.1 ∨ i ∈ indices (before ++ after) := by
  simp only [indices_append, indices_cons, List.mem_append, List.mem_cons]
  exact or_left_comm

theorem mem_farWritten : i ∈ farWritten ws ↔ i ∈ indices ws ∧ lowBound ≤ i := by
  simp [farWritten]

theorem highestLow_eq_some : highestLow ws = some i ↔
    (i ∈ indices ws ∧ i < lowBound) ∧ ∀ j ∈ indices ws, j < lowBound → j ≤ i := by
  simp [highestLow, List.max?_eq_some_iff]

theorem highestLow_concat (ws : List Write) (w : Write) : highestLow (ws ++ [w]) =
    if w.1 < lowBound then some ((highestLow ws).elim w.1 (max · w.1)) else highestLow ws := by
  simp only [highestLow, indices_append, indices_cons, indices_nil, List.filter_append]
  by_cases h : w.1 < lowBound
  · rw [List.filter_cons_of_pos (by simpa using h), if_pos h]
    cases (indices ws).filter (· < lowBound) with
    | nil => rfl
    | cons a as =>
      rw [List.cons_append, List.max?_cons', List.max?_cons']
      exact congrArg some (List.foldl_concat max a w.1 as)
  · rw [List.filter_cons_of_neg (by simpa using h), if_neg h, List.filter_nil, List.append_nil]

theorem size_low_ofWrites (ws : List Write) :
    (ofWrites ws).low.size = (highestLow ws).elim 0 (· + 1) := by
  induction ws using List.reverseRecOn with
  | nil => rfl
  | append_singleton ws w ih =>
    rw [ofWrites_concat, size_low_set, highestLow_concat, ih]
    split
    · cases highestLow ws with
      | none => exact Nat.zero_max _
      | some i => exact Nat.add_max_add_right i w.1 1
    · rfl

theorem mem_far_ofWrites (ws : List Write) : i ∈ (ofWrites ws).far ↔ i ∈ farWritten ws := by
  induction ws using List.reverseRecOn with
  | nil => exact iff_of_false Std.ExtTreeMap.not_mem_empty (Finset.notMem_empty i)
  | append_singleton ws w ih =>
    rw [ofWrites_concat, mem_far_set, ih, mem_farWritten, mem_farWritten, mem_indices_insert,
      List.append_nil]
    grind

theorem size_far_ofWrites (ws : List Write) : (ofWrites ws).far.size = (farWritten ws).card := by
  have hkeys : (ofWrites ws).far.keys.toFinset = farWritten ws := by
    ext i
    rw [List.mem_toFinset, Std.ExtTreeMap.mem_keys, mem_far_ofWrites]
  rw [← hkeys, List.toFinset_card_of_nodup Std.ExtTreeMap.nodup_keys, Std.ExtTreeMap.length_keys]

theorem size_ofWrites (ws : List Write) :
    (ofWrites ws).size = (highestLow ws).elim 0 (· + 1) + (farWritten ws).card := by
  rw [size, size_low_ofWrites, size_far_ofWrites]

/-! ## Growth -/

theorem size_le_concat (ws : List Write) (w : Write) :
    (ofWrites ws).size ≤ (ofWrites (ws ++ [w])).size := by
  have hlow : (ofWrites ws).low.size ≤ (ofWrites (ws ++ [w])).low.size := by
    rw [ofWrites_concat, size_low_set]
    split <;> omega
  have hfar : (ofWrites ws).far.size ≤ (ofWrites (ws ++ [w])).far.size := by
    rw [size_far_ofWrites, size_far_ofWrites]
    refine Finset.card_le_card fun i hi => ?_
    rw [mem_farWritten] at hi ⊢
    rw [indices_append]
    exact ⟨List.mem_append_left _ hi.1, hi.2⟩
  exact Nat.add_le_add hlow hfar

theorem size_le_append (ws more : List Write) :
    (ofWrites ws).size ≤ (ofWrites (ws ++ more)).size := by
  induction more using List.reverseRecOn with
  | nil => rw [List.append_nil]
  | append_singleton more w ih =>
    rw [← List.append_assoc]
    exact ih.trans (size_le_concat _ w)

theorem size_ofWrites_le (ws : List Write) :
    (ofWrites ws).size ≤ lowBound + ws.countP (lowBound ≤ ·.1) := by
  have hcard : (farWritten ws).card ≤ ws.countP (lowBound ≤ ·.1) := by
    refine (List.toFinset_card_le _).trans (Nat.le_of_eq ?_)
    rw [indices, List.filter_map, List.length_map, List.countP_eq_length_filter]
    rfl
  rw [size, size_far_ofWrites]
  exact Nat.add_le_add (divided_ofWrites ws).size_low_le hcard

/-! ## Equality -/

theorem Divided.ext (h : Divided r) (h' : Divided r') (hlow : r.low.size = r'.low.size)
    (hfar : ∀ i, i ∈ r.far ↔ i ∈ r'.far) (hget : ∀ i, r.get i = r'.get i) : r = r' := by
  have hcells : r.low = r'.low := by
    refine Array.ext hlow fun i hi hi' => ?_
    have hbound : i < lowBound := Nat.lt_of_lt_of_le hi h.size_low_le
    have hcell := hget i
    simp only [get, hbound, ↓reduceIte] at hcell
    simpa [hi, hi'] using hcell
  have hothers : r.far = r'.far := by
    refine Std.ExtTreeMap.ext_getElem? fun i => ?_
    by_cases hi : i ∈ r.far
    · have hbound : ¬ i < lowBound := Nat.not_lt.mpr (h.lowBound_le i hi)
      have hcell := hget i
      simp only [get, hbound, ↓reduceIte] at hcell
      rw [Std.ExtTreeMap.getD_eq_getD_getElem?, Std.ExtTreeMap.getD_eq_getD_getElem?,
        Std.ExtTreeMap.getElem?_eq_some_getElem hi,
        Std.ExtTreeMap.getElem?_eq_some_getElem ((hfar i).mp hi)] at hcell
      rw [Std.ExtTreeMap.getElem?_eq_some_getElem hi,
        Std.ExtTreeMap.getElem?_eq_some_getElem ((hfar i).mp hi)]
      exact congrArg some hcell
    · rw [Std.ExtTreeMap.getElem?_eq_none hi,
        Std.ExtTreeMap.getElem?_eq_none (mt (hfar i).mpr hi)]
  obtain ⟨low, far⟩ := r
  obtain ⟨low', far'⟩ := r'
  exact congr (congrArg Registers.mk hcells) hothers

theorem ofWrites_eq_iff : ofWrites ws = ofWrites ws' ↔
    highestLow ws = highestLow ws' ∧ farWritten ws = farWritten ws' ∧
      ∀ i, (ofWrites ws).get i = (ofWrites ws').get i := by
  constructor
  · intro h
    refine ⟨?_, Finset.ext fun i => ?_, fun i => by rw [h]⟩
    · have hsize : (highestLow ws).elim 0 (· + 1) = (highestLow ws').elim 0 (· + 1) := by
        rw [← size_low_ofWrites, ← size_low_ofWrites, h]
      cases hws : highestLow ws <;> cases hws' : highestLow ws' <;> simp_all
    · rw [← mem_far_ofWrites, ← mem_far_ofWrites, h]
  · rintro ⟨hhighest, hfar, hget⟩
    refine (divided_ofWrites ws).ext (divided_ofWrites ws') ?_ (fun i => ?_) hget
    · rw [size_low_ofWrites, size_low_ofWrites, hhighest]
    · rw [mem_far_ofWrites, mem_far_ofWrites, hfar]

/-- Histories that write the same registers and leave the same values make the same registers. -/
theorem ofWrites_congr (hmem : ∀ i, i ∈ indices ws ↔ i ∈ indices ws')
    (hlast : ∀ i, lastWrite ws i = lastWrite ws' i) : ofWrites ws = ofWrites ws' := by
  refine ofWrites_eq_iff.mpr ⟨Option.ext fun i => ?_, Finset.ext fun i => ?_, fun i => ?_⟩
  · rw [highestLow_eq_some, highestLow_eq_some]
    simp only [hmem]
  · rw [mem_farWritten, mem_farWritten, hmem]
  · rw [get_ofWrites, get_ofWrites, hlast]

/-! ## A write more -/

theorem lastWrite_of_notMem (h : i ∉ indices ws) : lastWrite ws i = 0 := by
  have hnone : ws.reverse.lookup i = none := by
    refine List.lookup_eq_none_iff.mpr fun w hw => ?_
    have hne : i ≠ w.1 := fun hi => h (List.mem_map.mpr ⟨w, List.mem_reverse.mp hw, hi.symm⟩)
    simpa using hne
  rw [lastWrite, hnone]
  rfl

theorem lastWrite_insert (before : List Write) (w : Write) (after : List Write) (i : Nat) :
    lastWrite (before ++ w :: after) i =
      if w.1 = i ∧ i ∉ indices after then w.2 else lastWrite (before ++ after) i := by
  induction after using List.reverseRecOn with
  | nil =>
    rw [lastWrite_concat, List.append_nil]
    simp
  | append_singleton after last ih =>
    rw [← List.cons_append, ← List.append_assoc, ← List.append_assoc, lastWrite_concat,
      lastWrite_concat, ih, indices_append]
    grind [indices_cons, indices_nil]

theorem ofWrites_swap (before after : List Write) {w w' : Write} (h : w.1 ≠ w'.1) :
    ofWrites (before ++ w :: w' :: after) = ofWrites (before ++ w' :: w :: after) := by
  refine ofWrites_congr (fun i => ?_) (fun i => ?_)
  · simp only [mem_indices_insert]
    exact or_left_comm
  · rw [lastWrite_insert, lastWrite_insert, lastWrite_insert, lastWrite_insert]
    grind [indices_cons]

theorem ofWrites_absorb (before : List Write) {w : Write} {after : List Write}
    (h : w.1 ∈ indices after) : ofWrites (before ++ w :: after) = ofWrites (before ++ after) := by
  refine ofWrites_congr (fun i => ?_) (fun i => ?_)
  · rw [mem_indices_insert, or_iff_right_of_imp]
    rintro rfl
    rw [indices_append]
    exact List.mem_append_right _ h
  · rw [lastWrite_insert, if_neg]
    rintro ⟨rfl, hi⟩
    exact hi h

theorem get_insert_zero {before after : List Write} (h : i ∉ indices (before ++ after)) (k : Nat) :
    (ofWrites (before ++ (i, 0) :: after)).get k = (ofWrites (before ++ after)).get k := by
  rw [get_ofWrites, get_ofWrites, lastWrite_insert]
  split
  · rename_i hk
    rw [← hk.1, lastWrite_of_notMem h]
  · rfl

/-- Below the end of the low block a zero is there before it is written. -/
theorem ofWrites_insert_low {before after : List Write}
    (hj : highestLow (before ++ after) = some j) (hij : i < j)
    (hi : i ∉ indices (before ++ after)) :
    ofWrites (before ++ (i, 0) :: after) = ofWrites (before ++ after) := by
  obtain ⟨⟨hmem, hlow⟩, hmax⟩ := highestLow_eq_some.mp hj
  refine ofWrites_eq_iff.mpr ⟨?_, Finset.ext fun k => ?_, get_insert_zero hi⟩
  · rw [hj, highestLow_eq_some]
    refine ⟨⟨mem_indices_insert.mpr (.inr hmem), hlow⟩, fun k hk hklow => ?_⟩
    rcases mem_indices_insert.mp hk with rfl | hk
    · exact Nat.le_of_lt hij
    · exact hmax k hk hklow
  · rw [mem_farWritten, mem_farWritten, mem_indices_insert]
    constructor
    · rintro ⟨rfl | hk, hfar⟩
      · omega
      · exact ⟨hk, hfar⟩
    · rintro ⟨hk, hfar⟩
      exact ⟨.inr hk, hfar⟩

theorem ofWrites_insert_far {before after : List Write} (hfar : lowBound ≤ i) (v : Int64)
    (hi : i ∉ indices (before ++ after)) :
    ofWrites (before ++ (i, v) :: after) ≠ ofWrites (before ++ after) := by
  intro h
  have hmem : i ∈ farWritten (before ++ (i, v) :: after) :=
    mem_farWritten.mpr ⟨mem_indices_insert.mpr (.inl rfl), hfar⟩
  rw [(ofWrites_eq_iff.mp h).2.1, mem_farWritten] at hmem
  exact hi hmem.1

/-- The history of writes decides how registers are kept. It gives their size, which never gets
smaller, and two histories make equal registers if and only if they agree on the highest low
register, on the far registers and on the values. So writes to different registers can be swapped,
a write is lost to a later one to the same register, and a zero that is written below the highest
low register is as good as none, while one that is written behind the low block is kept. -/
theorem layout_of_history (ws ws' : List Write) :
    (ofWrites ws).size = (highestLow ws).elim 0 (· + 1) + (farWritten ws).card ∧
    (∀ more, (ofWrites ws).size ≤ (ofWrites (ws ++ more)).size) ∧
    (ofWrites ws).size ≤ lowBound + ws.countP (lowBound ≤ ·.1) ∧
    (ofWrites ws = ofWrites ws' ↔
      highestLow ws = highestLow ws' ∧ farWritten ws = farWritten ws' ∧
        ∀ i, (ofWrites ws).get i = (ofWrites ws').get i) ∧
    (∀ before after i j v w, i ≠ j →
      ofWrites (before ++ (i, v) :: (j, w) :: after) =
        ofWrites (before ++ (j, w) :: (i, v) :: after)) ∧
    (∀ before between after i v w,
      ofWrites (before ++ (i, v) :: (between ++ (i, w) :: after)) =
        ofWrites (before ++ (between ++ (i, w) :: after))) ∧
    (∀ before after i j, highestLow (before ++ after) = some j → i < j →
      i ∉ indices (before ++ after) →
      ofWrites (before ++ (i, 0) :: after) = ofWrites (before ++ after)) ∧
    ∀ before after i, lowBound ≤ i → i ∉ indices (before ++ after) →
      ofWrites (before ++ (i, 0) :: after) ≠ ofWrites (before ++ after) ∧
        ∀ k, (ofWrites (before ++ (i, 0) :: after)).get k = (ofWrites (before ++ after)).get k := by
  refine ⟨size_ofWrites ws, size_le_append ws, size_ofWrites_le ws, ofWrites_eq_iff,
    fun before after i j v w hne => ofWrites_swap before after hne,
    fun before between after i v w => ofWrites_absorb before (by simp),
    fun before after i j => ofWrites_insert_low,
    fun before after i hfar hi => ⟨ofWrites_insert_far hfar 0 hi, get_insert_zero hi⟩⟩

/-- The block ends behind register 3, so the zero in register 1 is not news; the one in register
65537 is. -/
theorem layout_of_history_at_bound :
    let ws : List Write := [(3, 5), (65536, 7)]
    (ofWrites ws).size = 5 ∧
      ofWrites [(65536, 7), (3, 5)] = ofWrites ws ∧
      ofWrites [(3, 5), (1, 0), (65536, 7)] = ofWrites ws ∧
      ofWrites [(3, 5), (65536, 7), (65537, 0)] ≠ ofWrites ws := by
  intro ws
  obtain ⟨hsize, -, -, -, hswap, -, hlow, hfar⟩ := layout_of_history ws ws
  refine ⟨hsize.trans (by decide), hswap [] [] 65536 3 7 5 (by decide), ?_, ?_⟩
  · exact hlow [(3, 5)] [(65536, 7)] 1 3 (by decide) (by decide) (by decide)
  · exact (hfar ws [] 65537 (by decide) (by decide)).1

end Ram.Registers
