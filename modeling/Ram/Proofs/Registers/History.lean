import Mathlib.Data.List.Induction
import Ram.Proofs.Registers.Seed

/-!
# Registers as a total map

Registers are what a history of writes makes of fresh ones (`ofWrites`). A write keeps the low
block within its bound and the other cells behind it (`Divided.set`), so both parts together are
one map, and a register holds the value that was last written to it (`get_ofWrites`). Seeding is a
history as well (`Starts.eq_ofWrites`), and of all calls only the writes are left in it
(`calls_ofWrites`).
-/

namespace Ram.Registers

variable {r : Registers} {i j : Nat} {v : Int64}

/-! ## One write -/

/-- The block with zeros behind it, up to `n` cells if it had less. -/
def grow (cells : Array Int64) (n : Nat) : Array Int64 :=
  cells ++ Array.replicate (n - cells.size) 0

theorem size_grow (cells : Array Int64) (n : Nat) : (grow cells n).size = max cells.size n := by
  rw [grow, Array.size_append, Array.size_replicate]
  omega

theorem setLow_eq_set (cells : Array Int64) (i : Nat) (v : Int64) :
    ∃ h : i < (grow cells (i + 1)).size, setLow cells i v = (grow cells (i + 1)).set i v h := by
  have hlt : i < (grow cells (i + 1)).size := by
    rw [size_grow]
    omega
  refine ⟨hlt, Array.ext_getElem? fun j => ?_⟩
  rw [Array.getElem?_set]
  unfold setLow grow
  split
  · rename_i hi
    have hzero : i + 1 - cells.size = 0 := by omega
    rw [Array.getElem?_set, hzero]
    simp
  · rename_i hi
    rw [Array.getElem?_push, Array.getElem?_append, Array.getElem?_append,
      Array.getElem?_replicate, Array.getElem?_replicate, Array.size_append, Array.size_replicate]
    grind

theorem size_setLow (cells : Array Int64) (i : Nat) (v : Int64) :
    (setLow cells i v).size = max cells.size (i + 1) := by
  obtain ⟨hlt, hset⟩ := setLow_eq_set cells i v
  rw [hset, Array.size_set, size_grow]

theorem size_low_set (r : Registers) (i : Nat) (v : Int64) :
    (r.set i v).low.size = if i < lowBound then max r.low.size (i + 1) else r.low.size := by
  unfold set
  split
  · exact size_setLow r.low i v
  · rfl

theorem mem_far_set : j ∈ (r.set i v).far ↔ (lowBound ≤ i ∧ i = j) ∨ j ∈ r.far := by
  unfold set
  split
  · rename_i hi
    simp only [Nat.not_le.mpr hi, false_and, false_or]
  · rename_i hi
    simp only [Std.ExtTreeMap.mem_insert, Nat.compare_eq_eq, Nat.not_lt.mp hi, true_and]

/-- Each register is kept in the part that its index belongs to. -/
structure Divided (r : Registers) : Prop where
  size_low_le : r.low.size ≤ lowBound
  lowBound_le : ∀ i ∈ r.far, lowBound ≤ i

theorem divided_empty : Divided {} where
  size_low_le := Nat.zero_le _
  lowBound_le _ hi := absurd hi Std.ExtTreeMap.not_mem_empty

theorem Divided.set (h : Divided r) (i : Nat) (v : Int64) : Divided (r.set i v) where
  size_low_le := by
    have := h.size_low_le
    rw [size_low_set]
    split <;> omega
  lowBound_le j hj := by
    rcases mem_far_set.mp hj with ⟨hi, rfl⟩ | hj
    · exact hi
    · exact h.lowBound_le j hj

/-! ## Histories -/

/-- The index of a register and the value that is written to it. -/
abbrev Write := Nat × Int64

variable {ws : List Write}

/-- Fresh registers after writes, the first one first. -/
def ofWrites (ws : List Write) : Registers := ws.foldl (fun r w => r.set w.1 w.2) {}

/-- The value that was last written to a register, and 0 if none was. -/
def lastWrite (ws : List Write) (i : Nat) : Int64 := (ws.reverse.lookup i).getD 0

theorem ofWrites_concat (ws : List Write) (w : Write) :
    ofWrites (ws ++ [w]) = (ofWrites ws).set w.1 w.2 :=
  List.foldl_concat _ _ w ws

theorem lastWrite_concat (ws : List Write) (w : Write) (i : Nat) :
    lastWrite (ws ++ [w]) i = if w.1 = i then w.2 else lastWrite ws i := by
  rw [lastWrite, List.reverse_concat, List.lookup_cons]
  by_cases h : w.1 = i
  · simp [h]
  · have hne : (i == w.1) = false := by simpa using fun h' => h h'.symm
    rw [hne, if_neg h]
    rfl

theorem divided_ofWrites (ws : List Write) : Divided (ofWrites ws) := by
  induction ws using List.reverseRecOn with
  | nil => exact divided_empty
  | append_singleton ws w ih =>
    rw [ofWrites_concat]
    exact ih.set w.1 w.2

theorem get_ofWrites (ws : List Write) (i : Nat) : (ofWrites ws).get i = lastWrite ws i := by
  induction ws using List.reverseRecOn with
  | nil => exact get_empty i
  | append_singleton ws w ih => rw [ofWrites_concat, get_set, lastWrite_concat, ih]

/-! ## Seeds -/

/-- The writes that seed the registers from index `i` on. -/
def seedsFrom (i : Nat) (values : List Int64) : List Write := (values.zipIdx i).map Prod.swap

theorem setFrom_ofWrites (ws : List Write) : ∀ (i : Nat) (values : List Int64),
    (ofWrites ws).setFrom i values = ofWrites (ws ++ seedsFrom i values)
  | i, [] => by
    rw [seedsFrom, List.zipIdx_nil, List.map_nil, List.append_nil]
    rfl
  | i, v :: vs => by
    have hrest := setFrom_ofWrites (ws ++ [(i, v)]) (i + 1) vs
    rw [ofWrites_concat, List.append_assoc] at hrest
    exact hrest

theorem ofValues_eq_ofWrites (values : List Int64) :
    ofValues values = ofWrites (seedsFrom 1 values) :=
  setFrom_ofWrites [] 1 values

/-- The registers that one can start with, and the writes that they have seen. -/
inductive Starts : Registers → List Write → Prop where
  | fresh : Starts {} []
  | values (values : List Int64) : Starts (ofValues values) (seedsFrom 1 values)
  | arguments {words : List String} {values : List Int64} {r : Registers} :
      ReadAs words values → ofArguments words = .ok r → Starts r (seedsFrom 1 values)

theorem Starts.eq_ofWrites (h : Starts r ws) : r = ofWrites ws := by
  cases h with
  | fresh => rfl
  | values values => exact ofValues_eq_ofWrites values
  | arguments hread hr =>
    rw [ofArguments_of_readAs hread] at hr
    rw [← Except.ok.inj hr, ofValues_eq_ofWrites]

/-! ## Calls -/

/-- A call on registers. -/
inductive Call where
  | set (i : Nat) (v : Int64)
  | setAcc (v : Int64)
  | get (i : Nat)
  | acc
  | size
  | isEmpty
  | cells (n : Nat)

/-- What a call answers. -/
inductive Answer where
  | done
  | word (v : Int64)
  | count (n : Nat)
  | flag (b : Bool)
  | cells (cs : List (Nat × Int64))
  deriving DecidableEq

/-- The answer of a call, and the registers behind it. -/
def call (r : Registers) : Call → Answer × Registers
  | .set i v => (.done, r.set i v)
  | .setAcc v => (.done, r.setAcc v)
  | .get i => (.word (r.get i), r)
  | .acc => (.word r.acc, r)
  | .size => (.count r.size, r)
  | .isEmpty => (.flag r.isEmpty, r)
  | .cells n => (.cells (r.cells n), r)

/-- The registers after calls one after the other. -/
def calls (r : Registers) (cs : List Call) : Registers := cs.foldl (fun r c => (r.call c).2) r

def Call.write? : Call → Option Write
  | set i v => some (i, v)
  | setAcc v => some (0, v)
  | _ => none

theorem call_of_read {c : Call} (h : c.write? = none) (r : Registers) : (r.call c).2 = r := by
  cases c with
  | set i v => cases h
  | setAcc v => cases h
  | _ => rfl

theorem call_of_write {c : Call} {w : Write} (h : c.write? = some w) (r : Registers) :
    (r.call c).2 = r.set w.1 w.2 := by
  cases c with
  | set i v => cases h; rfl
  | setAcc v => cases h; rfl
  | _ => cases h

theorem calls_ofWrites (cs : List Call) : ∀ ws : List Write,
    (ofWrites ws).calls cs = ofWrites (ws ++ cs.filterMap Call.write?) := by
  induction cs with
  | nil =>
    intro ws
    rw [List.filterMap_nil, List.append_nil]
    rfl
  | cons c cs ih =>
    intro ws
    change ((ofWrites ws).call c).2.calls cs = _
    rw [List.filterMap_cons]
    cases hc : c.write? with
    | none => rw [call_of_read hc, ih]
    | some w => rw [call_of_write hc, ← ofWrites_concat, ih, List.append_assoc]; rfl

/-- Registers are one total map in two parts. Whatever they start with and whatever is called, the
low block has at most `lowBound` cells and no other cell lies below that bound, a read answers what
was last written and changes nothing, and a write to the low block falls into the block. -/
theorem total_map {r₀ : Registers} {seeds : List Write} (h : Starts r₀ seeds) (cs : List Call) :
    let r := r₀.calls cs
    let ws := seeds ++ cs.filterMap Call.write?
    Divided r ∧
    (∀ i, r.call (.get i) = (.word (lastWrite ws i), r)) ∧
    r.call .acc = (.word (lastWrite ws 0), r) ∧
    (∀ n, r.call (.cells n) = (.cells ((List.range n).map fun i => (i, lastWrite ws i)), r)) ∧
    (∀ c, c.write? = none → (r.call c).2 = r) ∧
    ∀ i v, i < lowBound → ∃ hi : i < (grow r.low (i + 1)).size,
      r.set i v = { r with low := (grow r.low (i + 1)).set i v hi } := by
  intro r ws
  have hr : r = ofWrites ws := by rw [← calls_ofWrites, ← h.eq_ofWrites]
  have hget : ∀ i, r.get i = lastWrite ws i := fun i => by rw [hr, get_ofWrites]
  refine ⟨hr ▸ divided_ofWrites ws, fun i => ?_, ?_, fun n => ?_, fun c hc => call_of_read hc r,
    fun i v hi => ?_⟩
  · rw [call, hget]
  · rw [call, acc, hget]
  · simp only [call, Registers.cells, hget]
  · obtain ⟨hlt, hset⟩ := setLow_eq_set r.low i v
    refine ⟨hlt, ?_⟩
    rw [Registers.set, if_pos hi, hset]

/-- Seeded from words, then written on both sides of the bound with reads in between. -/
theorem total_map_of_seeded :
    let seeded := ofValues [16, -1]
    let r := seeded.calls [.set 65536 5, .get 65536, .set 65535 4, .setAcc 7, .set 65536 6]
    ofArguments ["0x10", "-1"] = .ok seeded ∧ Divided r ∧
      r.call (.get 65536) = (.word 6, r) ∧ r.call .acc = (.word 7, r) ∧
      r.call (.cells 4) = (.cells [(0, 7), (1, 16), (2, -1), (3, 0)], r) := by
  intro seeded r
  have hread : ReadAs ["0x10", "-1"] [16, -1] := .cons rfl (.cons rfl .nil)
  have hseeded : ofArguments ["0x10", "-1"] = .ok seeded := ofArguments_of_readAs hread
  obtain ⟨hdivided, hget, hacc, hcells, -⟩ := total_map (.arguments hread hseeded)
    [.set 65536 5, .get 65536, .set 65535 4, .setAcc 7, .set 65536 6]
  exact ⟨hseeded, hdivided, hget 65536, hacc, hcells 4⟩

end Ram.Registers
