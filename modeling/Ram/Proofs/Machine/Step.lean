import Ram.Proofs.Word

/-!
# What a step can do

`Machine.fetch_cases` lists the four ways in which a step begins: the machine has halted, the
program counter is behind the program, the limit is reached, or a statement is executed.
`Statement.effect_cases` lists what a statement can do, by whether it jumps (`Instruction.taken`),
and what a fault tells of the statement that it comes from (`Fault.Tells`). An executed statement
counts once and leaves the limit alone (`steps_execute`, `limit_execute`).
`Machine.after` is the state that a number of steps leads to, whatever they answer. Into a sink
without a bound a step writes the same text wherever the sink stands (`step_unbounded`).
-/

namespace Ram

/-! ## Dumps into a sink without a bound -/

/-- What a dump prints of a memory. -/
def dumpText {C : Type} [Cell C] (pc : Nat) (get : Nat → C) (count : Nat) : String :=
  "--- DUMP (PC: " ++ toString pc ++ ") ---\n" ++
    String.join ((List.range count).map fun i =>
      "c(" ++ toString i ++ "): \t" ++ toString (Cell.toInt (get i)) ++ "\n")

namespace Sink

theorem write_unbounded (t s : String) : write ⟨t, none⟩ s = .ok ⟨t ++ s, none⟩ := rfl

theorem writeCells_unbounded (regs : Registers) (n : Nat) :
    ∀ (i : Nat) (t : String), writeCells regs i n ⟨t, none⟩ =
      .ok ⟨t ++ String.join ((List.range' i n).map fun k => dumpCell k (regs.get k)), none⟩ := by
  induction n with
  | zero => intro i t; simp [writeCells]
  | succ n ih =>
    intro i t
    rw [writeCells, write_unbounded]
    simp only [ih, List.range'_succ, List.map_cons, String.join_cons, String.append_assoc]

theorem writeDump_unbounded (t : String) (pc : Nat) (regs : Registers) (count : Nat) :
    writeDump ⟨t, none⟩ pc regs count = .ok ⟨t ++ dumpText pc regs.get count, none⟩ := by
  have htext : dumpText pc regs.get count = dumpHeader pc ++
      String.join ((List.range count).map fun i => dumpCell i (regs.get i)) := rfl
  rw [writeDump, write_unbounded, htext, List.range_eq_range']
  simp only [writeCells_unbounded, String.append_assoc]

end Sink

/-! ## Effects -/

/-- The fault is decided by the statement and the registers alone. -/
def Fault.ofStatement : Fault → Bool
  | unresolvedLabel _ _ | divisionByZero _ | negativeRegister _ _ | registerTooLarge _ _ => true
  | missingEnd _ | stepLimit _ _ | output _ => false

/-- The instruction jumps if the accumulator is so. -/
def Instruction.taken : Instruction → Int64 → Bool
  | goto _, _ => true
  | branch cmp value _, acc => cmp.holds acc value
  | _, _ => false

/-- What a fault tells of the statement that it comes from. -/
def Fault.Tells (labels : Labels) (acc : Int64) (s : Statement) : Fault → Prop
  | unresolvedLabel label site =>
    s.instruction.jump? = some ⟨label, site.span⟩ ∧ s.instruction.taken acc = true ∧
      site.line = s.site.line ∧ labels.get? label = none
  | divisionByZero site | negativeRegister _ site => site = s.site
  | _ => False

/-- What can come of a statement, and which statements it comes of. -/
def Statement.ComesTo (s : Statement) (labels : Labels) (acc : Int64) : Except Fault Effect → Prop
  | .ok (.write _ _) | .ok .next => s.instruction.taken acc = false
  | .ok (.print count) => s.instruction = .dump count
  | .ok (.jump k) => ∃ j, s.instruction.jump? = some j ∧ s.instruction.taken acc = true ∧
      labels.get? j.label = some k
  | .ok .stop => s.instruction = .halt
  | .error f => f.Tells labels acc s

section Effect

variable {s : Statement} {labels : Labels} {regs : Registers}

theorem Fault.Tells.ofStatement {acc : Int64} : ∀ {f : Fault}, f.Tells labels acc s →
    f.ofStatement = true
  | unresolvedLabel .., _ | divisionByZero _, _ | negativeRegister .., _ => rfl

theorem Address.tells_of_error {a : Address} {f : Fault} (h : a.resolve regs s.site = .error f) :
    f.Tells labels regs.acc s := by
  unfold Address.resolve at h
  split at h
  · cases h
  · dsimp only at h
    split at h
    · cases h; rfl
    · cases h

theorem Operand.tells_of_error {o : Operand} {f : Fault} (h : o.value regs s.site = .error f) :
    f.Tells labels regs.acc s := by
  cases o with
  | const v => cases h
  | cell a =>
    cases hr : a.resolve regs s.site with
    | ok i => simp only [Operand.value, hr, bind, Except.bind] at h; cases h
    | error g =>
      simp only [Operand.value, hr, bind, Except.bind] at h
      cases h
      exact Address.tells_of_error hr

/-- A jump that is taken leads to the statement of its label, or there is none. -/
theorem Statement.effect_of_taken {j : Jump} (hj : s.instruction.jump? = some j)
    (ht : s.instruction.taken regs.acc = true) :
    s.effect labels regs = (j.resolve labels s.site.line).map .jump := by
  obtain ⟨i, site⟩ := s
  cases i with
  | goto target => cases hj; rfl
  | branch cmp v target =>
    cases hj
    exact if_pos ht
  | compute op operand => cases hj
  | store target => cases hj
  | dump count => cases hj
  | halt => cases hj

theorem Jump.resolve_cases (j : Jump) (labels : Labels) (line : Nat) :
    (∃ k, labels.get? j.label = some k ∧ j.resolve labels line = .ok k) ∨
    (labels.get? j.label = none ∧
      j.resolve labels line = .error (.unresolvedLabel j.label ⟨line, j.span⟩)) := by
  unfold Jump.resolve
  cases labels.get? j.label with
  | some k => exact .inl ⟨k, rfl, rfl⟩
  | none => exact .inr ⟨rfl, rfl⟩

theorem Statement.comesTo_of_taken {j : Jump} (hj : s.instruction.jump? = some j)
    (ht : s.instruction.taken regs.acc = true) :
    s.ComesTo labels regs.acc (s.effect labels regs) := by
  rw [effect_of_taken hj ht]
  rcases Jump.resolve_cases j labels s.site.line with ⟨k, hk, hr⟩ | ⟨hk, hr⟩
  · rw [hr]
    exact ⟨j, hj, ht, hk⟩
  · rw [hr]
    exact ⟨hj, ht, rfl, hk⟩

theorem Statement.effect_cases (s : Statement) (labels : Labels) (regs : Registers) :
    s.ComesTo labels regs.acc (s.effect labels regs) := by
  obtain ⟨i, site⟩ := s
  cases i with
  | compute op operand =>
    unfold Statement.effect
    dsimp only
    cases hv : operand.value regs site with
    | error f => exact Operand.tells_of_error hv
    | ok v =>
      simp only [bind, Except.bind]
      cases op.apply regs.acc v <;> rfl
  | store target =>
    unfold Statement.effect
    dsimp only
    cases hr : target.resolve regs site with
    | error f => exact Address.tells_of_error hr
    | ok k => rfl
  | dump count => rfl
  | goto target => exact comesTo_of_taken (j := target) rfl rfl
  | branch cmp v target =>
    by_cases hc : cmp.holds regs.acc v = true
    · exact comesTo_of_taken (j := target) rfl hc
    · unfold Statement.effect
      dsimp only
      rw [if_neg hc]
      exact eq_false_of_ne_true hc
  | halt => rfl

end Effect

namespace Machine

/-! ## Limits -/

/-- The machine under another step limit. -/
def withLimit (m : Machine) (limit : Option Nat) : Machine := { m with limit }

@[simp] theorem withLimit_regs (m : Machine) (l : Option Nat) : (m.withLimit l).regs = m.regs := rfl
@[simp] theorem withLimit_pc (m : Machine) (l : Option Nat) : (m.withLimit l).pc = m.pc := rfl
@[simp] theorem withLimit_steps (m : Machine) (l : Option Nat) :
    (m.withLimit l).steps = m.steps := rfl
@[simp] theorem withLimit_halted (m : Machine) (l : Option Nat) :
    (m.withLimit l).halted = m.halted := rfl
@[simp] theorem withLimit_limit (m : Machine) (l : Option Nat) : (m.withLimit l).limit = l := rfl

theorem withLimit_self {m : Machine} {l : Option Nat} (h : m.limit = l) : m.withLimit l = m := by
  subst h; rfl

/-- The machine may begin another statement. -/
def Allowed (m : Machine) : Prop := ∀ l, m.limit = some l → m.steps < l

theorem reachedLimit?_eq_none {m : Machine} : m.reachedLimit? = none ↔ m.Allowed := by
  simp only [reachedLimit?, Allowed, Option.filter_eq_none_iff, decide_eq_true_eq, Nat.not_le]

/-! ## Fetching -/

variable {p : Program} {m : Machine} {out : Sink}

theorem fetch_of_halted (h : m.halted = true) : m.fetch p = .error .halted := by
  simp [fetch, h]

theorem fetch_of_missing (h : m.halted = false) (hs : p.statements[m.pc]? = none) :
    m.fetch p = .error (.failed (.missingEnd m.acc)) := by
  simp [fetch, h, hs]

theorem fetch_of_reached {s : Statement} {l : Nat} (h : m.halted = false)
    (hs : p.statements[m.pc]? = some s) (hl : m.limit = some l) (hle : l ≤ m.steps) :
    m.fetch p = .error (.failed (.stepLimit l m.pc)) := by
  have hr : m.reachedLimit? = some l := by simp [reachedLimit?, hl, hle]
  simp [fetch, h, hs, hr]

theorem fetch_of_allowed {s : Statement} (h : m.halted = false)
    (hs : p.statements[m.pc]? = some s) (ha : m.Allowed) : m.fetch p = .ok s := by
  simp [fetch, h, hs, reachedLimit?_eq_none.mpr ha]

/-- How a step begins, in the order in which the conditions are looked at. -/
theorem fetch_cases (p : Program) (m : Machine) :
    (m.halted = true ∧ m.fetch p = .error .halted) ∨
    (m.halted = false ∧ p.statements[m.pc]? = none ∧
      m.fetch p = .error (.failed (.missingEnd m.acc))) ∨
    (∃ l s, m.halted = false ∧ p.statements[m.pc]? = some s ∧ m.limit = some l ∧ l ≤ m.steps ∧
      m.fetch p = .error (.failed (.stepLimit l m.pc))) ∨
    (∃ s, m.halted = false ∧ p.statements[m.pc]? = some s ∧ m.Allowed ∧ m.fetch p = .ok s) := by
  cases h : m.halted with
  | true => exact .inl ⟨rfl, fetch_of_halted h⟩
  | false =>
    cases hs : p.statements[m.pc]? with
    | none => exact .inr (.inl ⟨rfl, rfl, fetch_of_missing h hs⟩)
    | some s =>
      by_cases ha : m.Allowed
      · exact .inr (.inr (.inr ⟨s, rfl, rfl, ha, fetch_of_allowed h hs ha⟩))
      · obtain ⟨l, hl, hle⟩ : ∃ l, m.limit = some l ∧ l ≤ m.steps := by
          simpa only [Allowed, Classical.not_forall, Nat.not_lt, exists_prop] using ha
        exact .inr (.inr (.inl ⟨l, s, rfl, rfl, hl, hle, fetch_of_reached h hs hl hle⟩))

theorem of_fetch_ok {s : Statement} (h : m.fetch p = .ok s) :
    m.halted = false ∧ p.statements[m.pc]? = some s ∧ m.Allowed := by
  rcases fetch_cases p m with ⟨-, hf⟩ | ⟨-, -, hf⟩ | ⟨_, _, -, -, -, -, hf⟩ | ⟨s', hh, hs, ha, hf⟩
  · rw [hf] at h; cases h
  · rw [hf] at h; cases h
  · rw [hf] at h; cases h
  · rw [hf] at h; cases h
    exact ⟨hh, hs, ha⟩

theorem tracedStep_of_fetch_ok {s : Statement} (h : m.fetch p = .ok s) (traced : Bool) :
    m.tracedStep p traced out =
      (if traced then some (traceLine m.pc s.instruction) else none, m.execute p s out) := by
  simp only [tracedStep, h]

theorem tracedStep_of_fetch_error {r : Step} (h : m.fetch p = .error r) (traced : Bool) :
    m.tracedStep p traced out = (none, r, m, out) := by
  simp only [tracedStep, h]

theorem step_of_fetch_ok {s : Statement} (h : m.fetch p = .ok s) :
    m.step p out = m.execute p s out := by
  rw [step, tracedStep_of_fetch_ok h]

theorem step_of_fetch_error {r : Step} (h : m.fetch p = .error r) : m.step p out = (r, m, out) := by
  rw [step, tracedStep_of_fetch_error h]

/-- Tracing a step changes nothing of what the step does. -/
theorem tracedStep_snd (p : Program) (traced : Bool) (m : Machine) (out : Sink) :
    (m.tracedStep p traced out).2 = m.step p out := by
  cases h : m.fetch p with
  | ok s => rw [tracedStep_of_fetch_ok h, step_of_fetch_ok h]
  | error r => rw [tracedStep_of_fetch_error h, step_of_fetch_error h]

/-! ## Executing -/

/-- The machine with one more step counted. -/
def counted (m : Machine) : Machine := { m with steps := m.steps + 1 }

@[simp] theorem counted_steps (m : Machine) : m.counted.steps = m.steps + 1 := rfl
@[simp] theorem counted_limit (m : Machine) : m.counted.limit = m.limit := rfl

theorem execute_of_effect {s : Statement} {e : Effect} (h : s.effect p.labels m.regs = .ok e) :
    m.execute p s out = m.counted.perform out e := by
  simp only [execute, h]; rfl

theorem execute_of_fault {s : Statement} {f : Fault} (h : s.effect p.labels m.regs = .error f) :
    m.execute p s out = (.failed f, m.counted, out) := by
  simp only [execute, h]; rfl

theorem steps_perform (m : Machine) (out : Sink) (e : Effect) :
    (m.perform out e).2.1.steps = m.steps := by
  cases e <;> simp only [perform]
  split <;> rfl

theorem limit_perform (m : Machine) (out : Sink) (e : Effect) :
    (m.perform out e).2.1.limit = m.limit := by
  cases e <;> simp only [perform]
  split <;> rfl

theorem perform_withLimit (m : Machine) (out : Sink) (e : Effect) (l : Option Nat) :
    (m.withLimit l).perform out e =
      ((m.perform out e).1, (m.perform out e).2.1.withLimit l, (m.perform out e).2.2) := by
  cases e with
  | print count =>
    simp only [perform, withLimit_pc, withLimit_regs]
    cases out.writeDump m.pc m.regs count <;> rfl
  | write i v => rfl
  | jump target => rfl
  | next => rfl
  | stop => rfl

theorem steps_execute (p : Program) (m : Machine) (s : Statement) (out : Sink) :
    (m.execute p s out).2.1.steps = m.steps + 1 := by
  cases h : s.effect p.labels m.regs with
  | ok e => rw [execute_of_effect h, steps_perform, counted_steps]
  | error f => rw [execute_of_fault h, counted_steps]

theorem limit_execute (p : Program) (m : Machine) (s : Statement) (out : Sink) :
    (m.execute p s out).2.1.limit = m.limit := by
  cases h : s.effect p.labels m.regs with
  | ok e => rw [execute_of_effect h, limit_perform, counted_limit]
  | error f => rw [execute_of_fault h, counted_limit]

theorem execute_withLimit (p : Program) (m : Machine) (s : Statement) (out : Sink)
    (l : Option Nat) : (m.withLimit l).execute p s out =
      ((m.execute p s out).1, (m.execute p s out).2.1.withLimit l, (m.execute p s out).2.2) := by
  cases h : s.effect p.labels m.regs with
  | ok e =>
    rw [execute_of_effect (m := m.withLimit l) h, execute_of_effect h]
    exact perform_withLimit m.counted out e l
  | error f =>
    rw [execute_of_fault (m := m.withLimit l) h, execute_of_fault h]
    rfl

theorem limit_step (p : Program) (m : Machine) (out : Sink) :
    (m.step p out).2.1.limit = m.limit := by
  cases h : m.fetch p with
  | ok s => rw [step_of_fetch_ok h, limit_execute]
  | error r => rw [step_of_fetch_error h]

theorem steps_le_step (p : Program) (m : Machine) (out : Sink) :
    m.steps ≤ (m.step p out).2.1.steps := by
  cases h : m.fetch p with
  | ok s => rw [step_of_fetch_ok h, steps_execute]; omega
  | error r => exact Nat.le_of_eq (by rw [step_of_fetch_error h])

theorem step_le_succ_steps (p : Program) (m : Machine) (out : Sink) :
    (m.step p out).2.1.steps ≤ m.steps + 1 := by
  cases h : m.fetch p with
  | ok s => exact Nat.le_of_eq (by rw [step_of_fetch_ok h, steps_execute])
  | error r => rw [step_of_fetch_error h]; exact Nat.le_succ _

theorem fetch_of_running (h : (m.step p out).1 = .running) : ∃ s, m.fetch p = .ok s := by
  rcases fetch_cases p m with ⟨-, hf⟩ | ⟨-, -, hf⟩ | ⟨_, _, -, -, -, -, hf⟩ | ⟨s, -, -, -, hf⟩
  · rw [step_of_fetch_error hf] at h; cases h
  · rw [step_of_fetch_error hf] at h; cases h
  · rw [step_of_fetch_error hf] at h; cases h
  · exact ⟨s, hf⟩

theorem halted_of_running (h : (m.step p out).1 = .running) :
    (m.step p out).2.1.halted = false := by
  obtain ⟨s, hf⟩ := fetch_of_running h
  have hh : m.counted.halted = false := (of_fetch_ok hf).1
  rw [step_of_fetch_ok hf] at h ⊢
  cases he : s.effect p.labels m.regs with
  | error f => rw [execute_of_fault he] at h; cases h
  | ok e =>
    rw [execute_of_effect he] at h ⊢
    cases e with
    | print count =>
      simp only [perform] at h ⊢
      split at h
      · exact hh
      · cases h
    | stop => cases h
    | write i v => exact hh
    | jump target => exact hh
    | next => exact hh

theorem steps_of_running (h : (m.step p out).1 = .running) :
    (m.step p out).2.1.steps = m.steps + 1 := by
  obtain ⟨s, hf⟩ := fetch_of_running h
  rw [step_of_fetch_ok hf, steps_execute]

/-! ## Steps into a sink without a bound -/

/-- A step into a sink without a bound appends what it writes into an empty one. -/
theorem step_unbounded (p : Program) (m : Machine) (t : String) :
    m.step p ⟨t, none⟩ =
      ((m.step p {}).1, (m.step p {}).2.1, ⟨t ++ (m.step p {}).2.2.text, none⟩) := by
  cases h : m.fetch p with
  | error r => simp only [step_of_fetch_error h, String.append_empty]
  | ok s =>
    simp only [step_of_fetch_ok h, execute]
    cases s.effect p.labels m.regs with
    | error f => simp only [String.append_empty]
    | ok e =>
      cases e with
      | print count =>
        simp only [perform, Sink.writeDump_unbounded, String.empty_append]
      | write i v => simp only [perform, String.append_empty]
      | jump target => simp only [perform, String.append_empty]
      | next => simp only [perform, String.append_empty]
      | stop => simp only [perform, String.append_empty]

/-! ## Many steps -/

/-- The state after `n` steps, whatever they answer. -/
def after (p : Program) : Nat → Machine → Sink → Machine × Sink
  | 0, m, out => (m, out)
  | n + 1, m, out => after p n (m.step p out).2.1 (m.step p out).2.2

end Machine

end Ram
