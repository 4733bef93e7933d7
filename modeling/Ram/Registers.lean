import Std.Data.ExtTreeMap
import Ram.Numeral

/-!
# Registers

A register file is a total map from indices to 64-bit words that is zero where nothing was
written. Registers below `lowBound` lie in one block, which grows to the highest index written;
the others are kept one by one. Equality sees this layout: a far register that was written
with 0 differs from one that was never written. `Registers.get_set` is the law of the map.

A file can be seeded from the words of an argument list. They are number literals, and the k-th one
gives the value of register k. The first word that is no literal is the error.
-/

namespace Ram

structure Registers where
  low : Array Int64 := #[]
  far : Std.ExtTreeMap Nat Int64 := ∅
  deriving DecidableEq

namespace Registers

/-- The first index that is not in the low block. -/
def lowBound : Nat := 65536

theorem lowBound_eq : lowBound = 65536 := rfl

def get (r : Registers) (i : Nat) : Int64 :=
  if i < lowBound then r.low.getD i 0 else r.far.getD i 0

/-- Writes a cell of a block, which is filled up with zeros if the cell lies behind it. -/
def setLow (cells : Array Int64) (i : Nat) (v : Int64) : Array Int64 :=
  if h : i < cells.size then cells.set i v h
  else (cells ++ Array.replicate (i - cells.size) 0).push v

def set (r : Registers) (i : Nat) (v : Int64) : Registers :=
  if i < lowBound then { r with low := setLow r.low i v }
  else { r with far := r.far.insert i v }

def acc (r : Registers) : Int64 := r.get 0

def setAcc (r : Registers) (v : Int64) : Registers := r.set 0 v

/-- The number of cells that are stored. -/
def size (r : Registers) : Nat := r.low.size + r.far.size

def isEmpty (r : Registers) : Bool := r.size == 0

/-- The first `n` registers with their indices. -/
def cells (r : Registers) (n : Nat) : List (Nat × Int64) :=
  (List.range n).map fun i => (i, r.get i)

/-- Writes consecutive registers from index `i` on. -/
def setFrom (r : Registers) (i : Nat) : List Int64 → Registers
  | [] => r
  | v :: vs => (r.set i v).setFrom (i + 1) vs

/-- The registers 1, 2, ... hold the values, and the accumulator is 0. -/
def ofValues (values : List Int64) : Registers := setFrom {} 1 values

/-! ## The map -/

theorem getD_setLow (cells : Array Int64) (i : Nat) (v : Int64) (j : Nat) :
    (setLow cells i v).getD j 0 = if i = j then v else cells.getD j 0 := by
  simp only [setLow, Array.getD_eq_getD_getElem?]
  split
  · rw [Array.getElem?_set]; grind
  · rw [Array.getElem?_push, Array.getElem?_append, Array.getElem?_replicate]; grind

@[simp] theorem get_empty (i : Nat) : ({} : Registers).get i = 0 := by
  simp [get]

theorem get_set (r : Registers) (i : Nat) (v : Int64) (j : Nat) :
    (r.set i v).get j = if i = j then v else r.get j := by
  by_cases hi : i < lowBound
  · by_cases hj : j < lowBound
    · simp only [set, get, hi, hj, ↓reduceIte, getD_setLow]
    · have : i ≠ j := by omega
      simp [set, get, hi, hj, this]
  · by_cases hj : j < lowBound
    · have : i ≠ j := by omega
      simp [set, get, hi, hj, this]
    · simp only [set, get, hi, hj, ↓reduceIte, Std.ExtTreeMap.getD_insert, Nat.compare_eq_eq]

/-! ## Seeding from arguments -/

structure SeedError where
  /-- The register that the word was meant for. -/
  register : Nat
  value : String
  error : Literal.Error
  deriving DecidableEq, Repr

def SeedError.message (e : SeedError) : String :=
  "argument cannot be converted to a number: `" ++ e.value ++ "` (" ++ e.error.message ++ ")"

/-- The values of words of which the first is meant for register `i`. -/
def readValues (i : Nat) : List String → Except SeedError (List Int64)
  | [] => .ok []
  | word :: words =>
    match Literal.parse word.toList with
    | .error e => .error ⟨i, word, e⟩
    | .ok v => do return v :: (← readValues (i + 1) words)

def ofArguments (words : List String) : Except SeedError Registers := do
  return ofValues (← readValues 1 words)

end Registers

end Ram
