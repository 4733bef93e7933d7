import Ram.Machine.Basic

/-!
# Words and integers

`wrap z` is the representative of an integer modulo `2^64` in `[-2^63, 2^63)` and `word z` the
word with that value. The operations and the comparisons of the machine are those of the
integers: an operation takes the exact result and wraps it (`Operation.apply_eq_exact`), a
comparison compares the values (`Comparison.holds_eq_compare`). A `Cell` is what a memory is made
of, words or integers without a bound.
-/

namespace Ram

/-- The representative of `z` modulo `2^64` that lies in `[-2^63, 2^63)`. -/
def wrap (z : Int) : Int := (z + 0x8000000000000000) % 0x10000000000000000 - 0x8000000000000000

/-- The word with the wrapped value. -/
def word (z : Int) : Int64 := Int64.ofInt (wrap z)

theorem wrap_range (z : Int) :
    -0x8000000000000000 ≤ wrap z ∧ wrap z < 0x8000000000000000 := by
  unfold wrap
  omega

theorem wrap_eq_bmod (z : Int) : wrap z = z.bmod 0x10000000000000000 := by
  rw [Int.bmod_def]
  unfold wrap
  omega

@[simp] theorem toInt_word (z : Int) : (word z).toInt = wrap z :=
  Int64.toInt_ofInt_of_le (wrap_range z).1 (wrap_range z).2

theorem eq_word {v : Int64} {z : Int} (h : v.toInt = z.bmod 0x10000000000000000) : v = word z := by
  rw [← Int64.toInt_inj, toInt_word, wrap_eq_bmod, h]

@[simp] theorem word_toInt (v : Int64) : word v.toInt = v :=
  (eq_word (Int64.toInt_bmod v).symm).symm

/-! ## Cells -/

/-- What the cells of a memory hold: a number is read off a cell, and brought into one. -/
class Cell (C : Type) where
  toInt : C → Int
  ofInt : Int → C

/-- A cell for words wraps what is brought into it. -/
instance : Cell Int64 where
  toInt := Int64.toInt
  ofInt := word

/-- A cell without a bound. -/
instance : Cell Int where
  toInt z := z
  ofInt z := z

/-! ## Operations -/

/-- The exact result of an operation, none for a division by zero. Division truncates toward
zero. -/
def Operation.exact : Operation → Int → Int → Option Int
  | load, _, b => some b
  | add, a, b => some (a + b)
  | sub, a, b => some (a - b)
  | mul, a, b => some (a * b)
  | div, a, b => if b = 0 then none else some (a.tdiv b)

theorem Operation.apply_eq_exact (op : Operation) (a b : Int64) :
    op.apply a b = (op.exact a.toInt b.toInt).map word := by
  cases op with
  | load => exact congrArg some (eq_word (Int64.toInt_bmod b).symm)
  | add => exact congrArg some (eq_word (Int64.toInt_add a b))
  | sub => exact congrArg some (eq_word (Int64.toInt_sub a b))
  | mul => exact congrArg some (eq_word (Int64.toInt_mul a b))
  | div =>
    have hb : b = 0 ↔ b.toInt = 0 := by rw [← Int64.toInt_inj, Int64.toInt_zero]
    simp only [apply, exact, hb]
    split
    · rfl
    · -- the least word over -1 is the one quotient that wraps
      exact congrArg some (eq_word (Int64.toInt_div a b))

/-! ## Comparisons -/

/-- The comparison of integers. -/
def Comparison.compare : Comparison → Int → Int → Bool
  | eq, a, b => decide (a = b)
  | ne, a, b => decide (a ≠ b)
  | lt, a, b => decide (a < b)
  | gt, a, b => decide (a > b)
  | le, a, b => decide (a ≤ b)
  | ge, a, b => decide (a ≥ b)

theorem Comparison.holds_eq_compare (c : Comparison) (a b : Int64) :
    c.holds a b = c.compare a.toInt b.toInt := by
  have heq : (a == b) = decide (a.toInt = b.toInt) := by
    rw [Bool.eq_iff_iff, beq_iff_eq, decide_eq_true_eq, Int64.toInt_inj]
  cases c with
  | eq => exact heq
  | ne => simp only [holds, compare, bne, heq, decide_not]
  | lt => simp only [holds, compare, Int64.lt_iff_toInt_lt]
  | gt => simp only [holds, compare, Int64.lt_iff_toInt_lt, gt_iff_lt]
  | le => simp only [holds, compare, Int64.le_iff_toInt_le]
  | ge => simp only [holds, compare, Int64.le_iff_toInt_le, ge_iff_le]

end Ram
