import Ram.Proofs.Machine.Run

/-!
# Calls on a machine

A machine is driven from outside by calls: a step, a run, or a new step limit, in any order and
whatever they answer. `Reachable` are the states that such calls lead to from the start of a
program. What a step and a new limit keep is kept by every sequence of calls (`calls_keep`), and
what also holds at the start holds of every reachable state (`Reachable.induct`,
`Reachable.induct_reachable`).
-/

namespace Ram.Machine

variable {p : Program} {m : Machine} {out : Sink}

/-- A call on a machine. Every step and every run is given a sink of its own. -/
inductive Call where
  | step (out : Sink)
  | run (out : Sink)
  | setLimit (limit : Option Nat)

/-- The machine after a call. -/
def call (p : Program) (m : Machine) : Call → Machine
  | .step out => (m.step p out).2.1
  | .run out => (m.run p out).2.1
  | .setLimit limit => m.withLimit limit

/-- The machine after calls one after the other. -/
def calls (p : Program) (m : Machine) (cs : List Call) : Machine := cs.foldl (call p) m

theorem calls_cons (p : Program) (m : Machine) (c : Call) (cs : List Call) :
    m.calls p (c :: cs) = (m.call p c).calls p cs := rfl

/-! ## Runs that end at once -/

theorem patience_pos (m : Machine) : ∃ k, m.patience = k + 1 := by
  unfold patience
  cases m.limit with
  | some l => exact ⟨l - m.steps, rfl⟩
  | none => exact ⟨0xFFFFFFFFFFFFFFFF, rfl⟩

theorem run_of_ended (h : (m.step p out).1 ≠ .running) :
    m.run p out = ((m.step p out).1.ending, (m.step p out).2) := by
  obtain ⟨k, hk⟩ := m.patience_pos
  rw [run, hk, runFor_of_ended k h]

/-! ## What calls keep -/

theorem runFor_keeps {P : Machine → Prop} (hstep : ∀ m out, P m → P (m.step p out).2.1) :
    ∀ (k : Nat) {m : Machine} (out : Sink), P m → P (m.runFor p k out).2.1
  | 0, _, _, h => h
  | k + 1, m, out, h => by
    by_cases hr : (m.step p out).1 = .running
    · rw [runFor_of_running k hr]
      exact runFor_keeps hstep k _ (hstep m out h)
    · rw [runFor_of_ended k hr]
      exact hstep m out h

theorem calls_keep {P : Machine → Prop} (hstep : ∀ m out, P m → P (m.step p out).2.1)
    (hlimit : ∀ m limit, P m → P (m.withLimit limit)) (cs : List Call) :
    ∀ {m : Machine}, P m → P (m.calls p cs) := by
  induction cs with
  | nil => exact fun h => h
  | cons c cs ih =>
    intro m h
    refine ih ?_
    cases c with
    | step out => exact hstep m out h
    | run out => exact runFor_keeps hstep m.patience out h
    | setLimit limit => exact hlimit m limit h

/-- Calls lead to the state from the start of the program with some registers. -/
def Reachable (p : Program) (m : Machine) : Prop :=
  ∃ (regs : Registers) (cs : List Call), m = ({ regs } : Machine).calls p cs

theorem Reachable.induct {P : Machine → Prop} (hstart : ∀ regs, P { regs })
    (hstep : ∀ m out, P m → P (m.step p out).2.1)
    (hlimit : ∀ m limit, P m → P (m.withLimit limit)) (h : Reachable p m) : P m := by
  obtain ⟨regs, cs, rfl⟩ := h
  exact calls_keep hstep hlimit cs (hstart regs)

theorem Reachable.call (h : Reachable p m) (c : Call) : Reachable p (m.call p c) := by
  obtain ⟨regs, cs, rfl⟩ := h
  refine ⟨regs, cs ++ [c], ?_⟩
  rw [calls, calls, List.foldl_append]
  rfl

/-- Induction over reachable states, which may be used as such. -/
theorem Reachable.induct_reachable {P : Machine → Prop} (hstart : ∀ regs, P { regs })
    (hstep : ∀ m out, Reachable p m → P m → P (m.step p out).2.1)
    (hlimit : ∀ m limit, Reachable p m → P m → P (m.withLimit limit)) (h : Reachable p m) :
    P m :=
  (h.induct (P := fun m => Reachable p m ∧ P m) (fun regs => ⟨⟨regs, [], rfl⟩, hstart regs⟩)
    (fun m out hm => ⟨hm.1.call (.step out), hstep m out hm.1 hm.2⟩)
    (fun m limit hm => ⟨hm.1.call (.setLimit limit), hlimit m limit hm.1 hm.2⟩)).2

end Ram.Machine
