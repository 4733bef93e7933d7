import Mathlib.Data.Int.ModEq
import Ram.Proofs.Machine.Ideal

/-!
# Wrapping once is enough

An ideal machine whose cells hold integers, however large, never wraps a result. `Ideal.reduced`
wraps all its cells at once. Wrapping commutes with sums, differences and products
(`Operation.exact_word`), so it commutes with every step of a program that does nothing else with
values than to compute such results and move them (`Program.Oblivious`, `reduced_step`). The
machine that wraps every single result thus goes the same way and ends with the same residues
(`residues_survive_wrapping`).
-/

namespace Ram

open Ram.Source

/-! ## Words as residues -/

theorem eq_word_iff {v : Int64} {z : Int} : v = word z ↔ v.toInt ≡ z [ZMOD 2 ^ 64] := by
  have hlo := v.le_toInt
  have hhi := v.toInt_lt
  rw [← Int64.toInt_inj, toInt_word, wrap, Int.ModEq]
  omega

theorem toInt_word_modEq (z : Int) : (word z).toInt ≡ z [ZMOD 2 ^ 64] := eq_word_iff.mp rfl

theorem word_eq_of_modEq {a b : Int} (h : a ≡ b [ZMOD 2 ^ 64]) : word a = word b :=
  eq_word_iff.mpr ((toInt_word_modEq a).trans h)

/-- The operations other than division give the same word from operands that were wrapped before. -/
theorem Operation.exact_word {op : Operation} (hop : op ≠ .div) (a b : Int) :
    ∃ z z', op.exact a b = some z ∧ op.exact (word a).toInt (word b).toInt = some z' ∧
      word z' = word z := by
  have ha := toInt_word_modEq a
  have hb := toInt_word_modEq b
  cases op with
  | load => exact ⟨_, _, rfl, rfl, word_eq_of_modEq hb⟩
  | add => exact ⟨_, _, rfl, rfl, word_eq_of_modEq (ha.add hb)⟩
  | sub => exact ⟨_, _, rfl, rfl, word_eq_of_modEq (ha.sub hb)⟩
  | mul => exact ⟨_, _, rfl, rfl, word_eq_of_modEq (ha.mul hb)⟩
  | div => exact absurd rfl hop

/-! ## Programs that do not look at values -/

/-- The instruction takes values for sums, differences and products and moves them. Neither where
they are nor what comes next is a matter of values. -/
inductive Instruction.Oblivious : Instruction → Prop where
  | const {op : Operation} (value : Int64) : op ≠ .div → Oblivious (.compute op (.const value))
  | cell {op : Operation} (n : Nat) : op ≠ .div → Oblivious (.compute op (.cell ⟨.direct, n⟩))
  | store (n : Nat) : Oblivious (.store ⟨.direct, n⟩)
  | dump (count : Nat) : Oblivious (.dump count)
  | goto (target : Jump) : Oblivious (.goto target)
  | halt : Oblivious .halt

def Program.Oblivious (p : Program) : Prop := ∀ s ∈ p.statements, s.instruction.Oblivious

namespace Ideal

variable {p : Program}

/-! ## Wrapping all cells -/

/-- The machine with wrapped cells; `text` is what it has printed of them. -/
def reduced (u : Ideal Int) (text : String) : Ideal Int64 where
  mem i := word (u.mem i)
  pc := u.pc
  steps := u.steps
  halted := u.halted
  text := text

/-- The outcome of a step on the machine with wrapped cells. -/
def reducedStep (r : Step × Ideal Int) (text : String) : Step × Ideal Int64 :=
  (r.1, r.2.reduced text)

/-! ## Statements -/

theorem reduced_assign (u : Ideal Int) (t : String) (i : Nat) (z : Int) :
    (u.reduced t).assign i (word z) = reducedStep (u.assign i z) t := by
  have hmem : (fun j => if i = j then word z else word (u.mem j)) =
      fun j => word (if i = j then z else u.mem j) :=
    funext fun j => (apply_ite word (i = j) z (u.mem j)).symm
  simp only [assign, next, reducedStep, reduced, hmem]

theorem reduced_compute (u : Ideal Int) (t : String) (site : Site) {op : Operation}
    (hop : op ≠ .div) (rhs : Int) :
    (u.reduced t).compute site op (word rhs).toInt = reducedStep (u.compute site op rhs) t := by
  obtain ⟨z, z', hz, hz', hword⟩ := Operation.exact_word hop (u.value 0) rhs
  have hright : u.compute site op rhs = u.assign 0 z := by
    rw [compute, hz]
    rfl
  have hleft : (u.reduced t).compute site op (word rhs).toInt =
      (u.reduced t).assign 0 (word z') := by
    have hvalue : (u.reduced t).value 0 = (word (u.value 0)).toInt := rfl
    rw [compute, hvalue, hz']
    rfl
  rw [hleft, hright, hword, reduced_assign]

theorem reduced_jump (u : Ideal Int) (t : String) (site : Site) (target : Jump) :
    (u.reduced t).jump p site target = reducedStep (u.jump p site target) t := by
  unfold jump
  cases p.labels.get? target.label <;> rfl

/-- A statement does to wrapped cells what it does to the cells themselves, and may print. -/
theorem reduced_execute (u : Ideal Int) (t : String) (site : Site) {i : Instruction}
    (hi : i.Oblivious) :
    ∃ t', (u.reduced t).execute p site i = reducedStep (u.execute p site i) t' := by
  cases hi with
  | const value hop =>
    refine ⟨t, ?_⟩
    have := reduced_compute u t site hop value.toInt
    rwa [word_toInt] at this
  | cell n hop => exact ⟨t, reduced_compute u t site hop (u.value n)⟩
  | store n => exact ⟨t, reduced_assign u t n (u.mem 0)⟩
  | dump count => exact ⟨_, rfl⟩
  | goto target => exact ⟨t, reduced_jump u t site target⟩
  | halt => exact ⟨t, rfl⟩

/-! ## Steps and runs -/

theorem reduced_step (hp : p.Oblivious) (u : Ideal Int) (t : String) :
    ∃ t', (u.reduced t).step p = reducedStep (u.step p) t' := by
  have hhalted : (u.reduced t).halted = u.halted := rfl
  have hpc : (u.reduced t).pc = u.pc := rfl
  have hacc : word ((u.reduced t).value 0) = word (u.value 0) := word_toInt _
  unfold step
  rw [hhalted, hpc, hacc]
  split
  · exact ⟨t, rfl⟩
  · cases hs : p.statements[u.pc]? with
    | none => exact ⟨t, rfl⟩
    | some s =>
      have hi := hp s (Array.mem_of_getElem? hs)
      exact reduced_execute { u with steps := u.steps + 1 } t s.site hi

theorem reduced_after (hp : p.Oblivious) (n : Nat) : ∀ (u : Ideal Int) (t : String),
    ∃ t', (u.reduced t).after p n = (u.after p n).reduced t' := by
  induction n with
  | zero => exact fun u t => ⟨t, rfl⟩
  | succ n ih =>
    intro u t
    obtain ⟨t', hstep⟩ := reduced_step hp u t
    rw [after, after, hstep]
    exact ih (u.step p).2 t'

end Ideal

/-- Wrapping on the way never spoils the residue at the end. Of a program that only takes values for
sums, differences and products and moves them, the machine and the one of integers go through the
same statements with the same answers, which tell a number by its word, and after any number of
steps a register of the machine holds the one word that has the residue of the integer in that
register of the other. -/
theorem residues_survive_wrapping (p : Program) (hp : p.Oblivious) (regs : Registers) (t : String)
    (n : Nat) :
    let c := ({ regs } : Machine).after p n ⟨t, none⟩
    let u := ({ mem := fun i => (regs.get i).toInt } : Ideal Int).after p n
    c.1.pc = u.pc ∧ c.1.halted = u.halted ∧ c.1.steps = u.steps ∧
      (c.1.step p c.2).1 = (u.step p).1 ∧
      ∀ i v, v = c.1.regs.get i ↔ v.toInt ≡ u.mem i [ZMOD 2 ^ 64] := by
  intro c u
  let start : Ideal Int := { mem := fun i => (regs.get i).toInt }
  have hstart : ({ regs } : Machine).view ⟨t, none⟩ = start.reduced t := by
    simp only [Machine.view, Ideal.reduced, start, word_toInt]
  obtain ⟨hview, hlimit, hroom⟩ := Machine.view_after p n (m := { regs }) (t := t) rfl
  obtain ⟨t', hafter⟩ := Ideal.reduced_after hp n start t
  -- both machines stand for one ideal machine
  have hboth : c.1.view c.2 = u.reduced t' := by rw [← hafter, ← hstart, hview]
  have hget : ∀ i, c.1.regs.get i = word (u.mem i) := fun i => congrArg (·.mem i) hboth
  refine ⟨congrArg (·.pc) hboth, congrArg (·.halted) hboth, congrArg (·.steps) hboth, ?_,
    fun i v => ?_⟩
  · have hsink : c.2 = ⟨c.2.text, none⟩ := by rw [← hroom]
    have hstep := Machine.view_step p hlimit c.2.text
    obtain ⟨t'', hreduced⟩ := Ideal.reduced_step hp u t'
    rw [← hsink, hboth, hreduced] at hstep
    exact (congrArg Prod.fst hstep).symm
  · rw [hget, eq_word_iff]

/-- The product of the second statement is 2^64, which the machine takes for 0. Three less than that
is stored as -3. -/
theorem residues_survive_wrapping_of_product :
    let site : Site := ⟨1, ⟨0, 1⟩⟩
    let p : Program := { statements := #[⟨.compute .load (.const 0x4000000000000000), site⟩,
      ⟨.compute .mul (.const 4), site⟩, ⟨.compute .sub (.const 3), site⟩,
      ⟨.store ⟨.direct, 1⟩, site⟩, ⟨.halt, site⟩] }
    let regs : Registers := {}
    let c := ({ regs } : Machine).after p 4 ⟨"", none⟩
    let u := ({ mem := fun i => (regs.get i).toInt } : Ideal Int).after p 4
    p.Oblivious ∧ u.mem 1 = 0x10000000000000000 - 3 ∧ c.1.regs.get 1 = -3 ∧ c.1.pc = 4 ∧
      (c.1.step p c.2).1 = .halted := by
  intro site p regs c u
  have hp : p.Oblivious := by
    intro s hs
    simp only [p, List.mem_toArray, List.mem_cons, List.not_mem_nil, or_false] at hs
    rcases hs with rfl | rfl | rfl | rfl | rfl
    · exact .const _ (by decide)
    · exact .const _ (by decide)
    · exact .const _ (by decide)
    · exact .store 1
    · exact .halt
  have hu : u.mem 1 = 0x10000000000000000 - 3 := by decide
  have hend : u.pc = 4 ∧ (u.step p).1 = .halted := by decide
  have hresidue : (-3 : Int64).toInt ≡ u.mem 1 [ZMOD 2 ^ 64] := by
    rw [hu]
    decide
  obtain ⟨hpc, -, -, hanswer, hget⟩ := residues_survive_wrapping p hp regs "" 4
  exact ⟨hp, hu, ((hget 1 (-3)).mpr hresidue).symm, hpc.trans hend.1, hanswer.trans hend.2⟩

/-- A branch looks at the value: the machine sees the 0 and jumps, to a label that nothing
declares. -/
example :
    let site : Site := ⟨1, ⟨0, 1⟩⟩
    let p : Program := { statements := #[⟨.compute .load (.const 0x4000000000000000), site⟩,
      ⟨.compute .mul (.const 4), site⟩, ⟨.branch .eq 0 ⟨"e", ⟨0, 1⟩⟩, site⟩] }
    let c := Machine.after p 2 {} {}
    (c.1.step p c.2).1 = .failed (.unresolvedLabel "e" ⟨1, ⟨0, 1⟩⟩) ∧
      ((({ mem := fun _ => 0 } : Ideal Int).after p 2).step p).1 = .running := by
  decide

end Ram
