import Ram.Proofs.Machine.Step
import Ram.Proofs.Word

/-!
# The ideal machine

The machine of the textbook: its memory is a total map from indices to cells, its arithmetic is
that of the integers, brought into a cell at the end, and its output is a text. It has no register
file with two areas, no sink that may refuse a write and no step limit. `Ideal.step` says
instruction by instruction what happens, whatever the cells hold; an error tells a number by its
word. `Machine.view` is the ideal machine of words that a machine stands for; stepping commutes with
it (`view_step`), and so the machine simulates the ideal one for any number of steps
(`machine_simulates_ideal`).
-/

namespace Ram

open Ram.Source

structure Ideal (C : Type) where
  mem : Nat → C
  pc : Nat := 0
  steps : Nat := 0
  halted : Bool := false
  text : String := ""

namespace Ideal

variable {C : Type}

/-- Go on with the next statement. -/
def next (s : Ideal C) : Step × Ideal C := (.running, { s with pc := s.pc + 1 })

/-- Write a cell and go on. -/
def assign (s : Ideal C) (i : Nat) (v : C) : Step × Ideal C :=
  next { s with mem := fun j => if i = j then v else s.mem j }

def jump (p : Program) (s : Ideal C) (site : Site) (target : Jump) : Step × Ideal C :=
  match p.labels.get? target.label with
  | some k => (.running, { s with pc := k })
  | none => (.failed (.unresolvedLabel target.label ⟨site.line, target.span⟩), s)

variable [Cell C]

/-- The number in a cell. -/
def value (s : Ideal C) (i : Nat) : Int := Cell.toInt (s.mem i)

/-- Replace the accumulator by the result of an operation. -/
def compute (s : Ideal C) (site : Site) (op : Operation) (rhs : Int) : Step × Ideal C :=
  match op.exact (s.value 0) rhs with
  | some z => s.assign 0 (Cell.ofInt z)
  | none => (.failed (.divisionByZero site), s)

/-- Go on with the index that cell `n` holds. -/
def through (s : Ideal C) (site : Site) (n : Nat) (go : Nat → Step × Ideal C) : Step × Ideal C :=
  if s.value n < 0 then (.failed (.negativeRegister (word (s.value n)) site), s)
  else go (s.value n).toNat

/-- What a statement does, in a state that has counted it already. -/
def execute (p : Program) (s : Ideal C) (site : Site) : Instruction → Step × Ideal C
  | .compute op (.const n) => s.compute site op n.toInt
  | .compute op (.cell ⟨.direct, n⟩) => s.compute site op (s.value n)
  | .compute op (.cell ⟨.indirect, n⟩) => s.through site n fun i => s.compute site op (s.value i)
  | .store ⟨.direct, n⟩ => s.assign n (s.mem 0)
  | .store ⟨.indirect, n⟩ => s.through site n fun i => s.assign i (s.mem 0)
  | .dump n => next { s with text := s.text ++ dumpText s.pc s.mem n }
  | .goto target => s.jump p site target
  | .branch cmp n target =>
    if cmp.compare (s.value 0) n.toInt then s.jump p site target else s.next
  | .halt => (.halted, { s with halted := true })

def step (p : Program) (s : Ideal C) : Step × Ideal C :=
  if s.halted then (.halted, s)
  else
    match p.statements[s.pc]? with
    | none => (.failed (.missingEnd (word (s.value 0))), s)
    | some ⟨i, site⟩ => execute p { s with steps := s.steps + 1 } site i

/-- The state after `n` steps, whatever they answer. -/
def after (p : Program) : Nat → Ideal C → Ideal C
  | 0, s => s
  | n + 1, s => after p n (s.step p).2

end Ideal

namespace Machine

/-- The ideal machine that a machine stands for. -/
def view (m : Machine) (out : Sink) : Ideal Int64 where
  mem := m.regs.get
  pc := m.pc
  steps := m.steps
  halted := m.halted
  text := out.text

/-- The answer of a step and the ideal machine that it leads to. -/
def viewStep (r : Step × Machine × Sink) : Step × Ideal Int64 := (r.1, r.2.1.view r.2.2)

variable {p : Program} {m : Machine} {out : Sink} {site : Site}

/-! ## Effects -/

theorem viewStep_write (m : Machine) (out : Sink) (i : Nat) (v : Int64) :
    viewStep (m.perform out (.write i v)) = (m.view out).assign i v := by
  have hget : (m.regs.set i v).get = fun j => if i = j then v else m.regs.get j :=
    funext fun j => Registers.get_set m.regs i v j
  simp only [perform, viewStep, view, Ideal.assign, Ideal.next, hget]

theorem viewStep_print (m : Machine) (t : String) (n : Nat) :
    viewStep (m.perform ⟨t, none⟩ (.print n)) =
      Ideal.next { m.view ⟨t, none⟩ with text := t ++ dumpText m.pc m.regs.get n } := by
  simp only [perform, Sink.writeDump_unbounded]
  rfl

theorem viewStep_fault {s : Statement} {f : Fault} (h : s.effect p.labels m.regs = .error f) :
    viewStep (m.execute p s out) = (.failed f, m.counted.view out) := by
  rw [execute_of_fault h]
  rfl

/-! ## Statements -/

theorem viewStep_compute {op : Operation} {operand : Operand} {rhs : Int64}
    (h : operand.value m.regs site = .ok rhs) :
    viewStep (m.execute p ⟨.compute op operand, site⟩ out) =
      (m.counted.view out).compute site op rhs.toInt := by
  have happly : op.apply m.regs.acc rhs = (op.exact m.regs.acc.toInt rhs.toInt).map word :=
    op.apply_eq_exact m.regs.acc rhs
  unfold Ideal.compute
  change _ = match op.exact m.regs.acc.toInt rhs.toInt with
    | some z => (m.counted.view out).assign 0 (word z)
    | none => (.failed (.divisionByZero site), m.counted.view out)
  cases hz : op.exact m.regs.acc.toInt rhs.toInt with
  | some z =>
    have heff : Statement.effect ⟨.compute op operand, site⟩ p.labels m.regs =
        .ok (.write 0 (word z)) := by
      simp only [Statement.effect, h, bind, Except.bind, happly, hz, Option.map_some]; rfl
    rw [execute_of_effect heff, viewStep_write]
  | none =>
    have heff : Statement.effect ⟨.compute op operand, site⟩ p.labels m.regs =
        .error (.divisionByZero site) := by
      simp only [Statement.effect, h, bind, Except.bind, happly, hz, Option.map_none]
    exact viewStep_fault heff

theorem viewStep_store {a : Address} {i : Nat} (h : a.resolve m.regs site = .ok i) :
    viewStep (m.execute p ⟨.store a, site⟩ out) = (m.counted.view out).assign i m.regs.acc := by
  have heff : Statement.effect ⟨.store a, site⟩ p.labels m.regs = .ok (.write i m.regs.acc) := by
    simp only [Statement.effect, h, bind, Except.bind]; rfl
  rw [execute_of_effect heff, viewStep_write]

theorem viewStep_jump {i : Instruction} {target : Jump}
    (h : Statement.effect ⟨i, site⟩ p.labels m.regs =
      (target.resolve p.labels site.line).map .jump) :
    viewStep (m.execute p ⟨i, site⟩ out) = (m.counted.view out).jump p site target := by
  unfold Ideal.jump
  cases hk : p.labels.get? target.label with
  | some k =>
    have heff : Statement.effect ⟨i, site⟩ p.labels m.regs = .ok (.jump k) := by
      rw [h]; simp only [Jump.resolve, hk, Except.map]
    rw [execute_of_effect heff]; rfl
  | none =>
    have heff : Statement.effect ⟨i, site⟩ p.labels m.regs =
        .error (.unresolvedLabel target.label ⟨site.line, target.span⟩) := by
      rw [h]; simp only [Jump.resolve, hk, Except.map]
    exact viewStep_fault heff

theorem resolve_indirect (regs : Registers) (n : Nat) (site : Site) :
    Address.resolve ⟨.indirect, n⟩ regs site =
      if (regs.get n).toInt < 0 then .error (.negativeRegister (regs.get n) site)
      else .ok (regs.get n).toInt.toNat := by
  simp only [Address.resolve, Int64.lt_iff_toInt_lt, Int64.toInt_zero]

/-- A statement that begins by resolving an indirect address, fails if that does and else goes on
with the index. -/
theorem viewStep_through {i : Instruction} {n : Nat} {go : Nat → Step × Ideal Int64}
    (hfault : ∀ f, Address.resolve ⟨.indirect, n⟩ m.regs site = .error f →
      Statement.effect ⟨i, site⟩ p.labels m.regs = .error f)
    (hgo : ∀ k, Address.resolve ⟨.indirect, n⟩ m.regs site = .ok k →
      viewStep (m.execute p ⟨i, site⟩ out) = go k) :
    viewStep (m.execute p ⟨i, site⟩ out) = (m.counted.view out).through site n go := by
  have hr := resolve_indirect m.regs n site
  have hvalue : (m.counted.view out).value n = (m.regs.get n).toInt := rfl
  rw [Ideal.through, hvalue, word_toInt]
  by_cases hneg : (m.regs.get n).toInt < 0
  · rw [if_pos hneg] at hr ⊢
    exact viewStep_fault (hfault _ hr)
  · rw [if_neg hneg] at hr ⊢
    exact hgo _ hr

/-- The two machines execute a statement alike. -/
theorem viewStep_execute (p : Program) (m : Machine) (t : String) (i : Instruction) (site : Site) :
    viewStep (m.execute p ⟨i, site⟩ ⟨t, none⟩) =
      (m.counted.view ⟨t, none⟩).execute p site i := by
  cases i with
  | compute op operand =>
    cases operand with
    | const n => exact viewStep_compute rfl
    | cell a =>
      obtain ⟨mode, n⟩ := a
      cases mode with
      | direct => exact viewStep_compute rfl
      | indirect =>
        refine viewStep_through (fun f hf => ?_) (fun k hk => viewStep_compute ?_)
        · simp only [Statement.effect, Operand.value, hf, bind, Except.bind]
        · simp only [Operand.value, hk, bind, Except.bind]
          rfl
  | store a =>
    obtain ⟨mode, n⟩ := a
    cases mode with
    | direct => exact viewStep_store rfl
    | indirect =>
      refine viewStep_through (fun f hf => ?_) (fun k hk => viewStep_store hk)
      simp only [Statement.effect, hf, bind, Except.bind]
  | dump count => exact viewStep_print m.counted t count
  | goto target =>
    refine viewStep_jump ?_
    simp only [Statement.effect, bind, Except.bind, Except.map]
    rfl
  | branch cmp n target =>
    change _ = if cmp.compare m.regs.acc.toInt n.toInt then _ else _
    rw [← Comparison.holds_eq_compare]
    cases hc : cmp.holds m.regs.acc n with
    | true =>
      refine viewStep_jump ?_
      simp only [Statement.effect, hc, ↓reduceIte, bind, Except.bind, Except.map]
      rfl
    | false =>
      have heff : Statement.effect ⟨.branch cmp n target, site⟩ p.labels m.regs = .ok .next := by
        simp only [Statement.effect, hc, Bool.false_eq_true, ↓reduceIte]
      rw [execute_of_effect heff]
      rfl
  | halt => rfl

/-! ## Steps and runs -/

/-- Stepping commutes with the view, as long as there is no limit and the sink takes all. -/
theorem view_step (p : Program) {m : Machine} (h : m.limit = none) (t : String) :
    (m.view ⟨t, none⟩).step p = viewStep (m.step p ⟨t, none⟩) := by
  rcases fetch_cases p m with
    ⟨hh, hf⟩ | ⟨hh, hs, hf⟩ | ⟨l, _, -, -, hl, -⟩ | ⟨⟨i, site⟩, hh, hs, -, hf⟩
  · rw [step_of_fetch_error hf]
    simp only [Ideal.step, view, hh, ↓reduceIte, viewStep]
  · have hacc : word ((m.view ⟨t, none⟩).value 0) = m.acc := word_toInt m.acc
    rw [step_of_fetch_error hf, ← hacc]
    simp only [Ideal.step, view, hh, hs, Bool.false_eq_true, ↓reduceIte, viewStep]
  · rw [h] at hl; cases hl
  · rw [step_of_fetch_ok hf, viewStep_execute]
    simp only [Ideal.step, view, counted, hh, hs, Bool.false_eq_true, ↓reduceIte]

theorem view_after (p : Program) (n : Nat) :
    ∀ {m : Machine} {t : String}, m.limit = none →
      (m.view ⟨t, none⟩).after p n = (m.after p n ⟨t, none⟩).1.view (m.after p n ⟨t, none⟩).2 ∧
        (m.after p n ⟨t, none⟩).1.limit = none ∧ (m.after p n ⟨t, none⟩).2.room = none := by
  induction n with
  | zero => intro m t h; exact ⟨rfl, h, rfl⟩
  | succ n ih =>
    intro m t h
    have hstep := view_step p h t
    have hsink : (m.step p ⟨t, none⟩).2.2 = ⟨(m.step p ⟨t, none⟩).2.2.text, none⟩ := by
      rw [step_unbounded]
    have hlimit : (m.step p ⟨t, none⟩).2.1.limit = none := by rw [limit_step, h]
    have := ih (t := (m.step p ⟨t, none⟩).2.2.text) hlimit
    rw [← hsink] at this
    simp only [Ideal.after, after, hstep, viewStep]
    exact this

end Machine

/-- Whatever the program, the registers and the number of steps, the machine without a limit
does what the ideal machine does: the two agree in program counter, halted flag, step count, every
cell and the text printed, and the next step gives the same answer. -/
theorem machine_simulates_ideal (p : Program) (regs : Registers) (t : String) (n : Nat) :
    let c := ({ regs } : Machine).after p n ⟨t, none⟩
    let s := Ideal.after p n { mem := regs.get, text := t }
    c.1.pc = s.pc ∧ c.1.halted = s.halted ∧ c.1.steps = s.steps ∧
      (∀ i, c.1.regs.get i = s.mem i) ∧ c.2.text = s.text ∧
      (c.1.step p c.2).1 = (s.step p).1 := by
  intro c s
  obtain ⟨hview, hlimit, hroom⟩ := Machine.view_after p n (m := { regs }) (t := t) rfl
  have hs : s = c.1.view c.2 := hview
  have hsink : c.2 = ⟨c.2.text, none⟩ := by
    rw [← hroom]
  have hstep := Machine.view_step p hlimit c.2.text
  rw [← hsink] at hstep
  rw [hs]
  refine ⟨rfl, rfl, rfl, fun _ => rfl, rfl, ?_⟩
  rw [hstep]
  rfl

end Ram
