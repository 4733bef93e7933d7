import Mathlib.Data.List.Forall2
import Ram.Proofs.Machine.Jumps

/-!
# Jumps that cannot be resolved

`Program.undefinedJumps` is found by looking through the statements, while labels are looked up
only when a jump is taken. The two agree: the listed jumps are those of the statements at
`undefinedAt`, one by one and in order, a step that takes one of them fails (`FailsAt`), and
nothing else does (`undefinedJumps_exact`).
-/

namespace Ram

open Ram.Source

namespace Program

/-- The jump of the statement at an index, if nothing declares its label. -/
def undefinedAt? (p : Program) (k : Nat) : Option Jump :=
  ((p.statements[k]?).bind (·.instruction.jump?)).filter fun j => !p.labels.contains j.label

/-- Where the statements stand that jump to a label that nothing declares. -/
def undefinedAt (p : Program) : List Nat :=
  (List.range p.size).filter fun k => (p.undefinedAt? k).isSome

theorem undefinedAt?_eq_some {p : Program} {k : Nat} {j : Jump} :
    p.undefinedAt? k = some j ↔ ∃ s, p.statements[k]? = some s ∧
      s.instruction.jump? = some j ∧ p.labels.get? j.label = none := by
  simp only [undefinedAt?, Option.filter_eq_some_iff, Option.bind_eq_some_iff,
    Labels.contains_eq_isSome_get?, Bool.not_eq_true', Option.isSome_eq_false_iff,
    Option.isNone_iff_eq_none]
  constructor
  · rintro ⟨⟨s, hs, hj⟩, hl⟩
    exact ⟨s, hs, hj, hl⟩
  · rintro ⟨s, hs, hj, hl⟩
    exact ⟨⟨s, hs, hj⟩, hl⟩

theorem mem_undefinedAt {p : Program} {k : Nat} :
    k ∈ p.undefinedAt ↔ ∃ s j, p.statements[k]? = some s ∧
      s.instruction.jump? = some j ∧ p.labels.get? j.label = none := by
  rw [undefinedAt, List.mem_filter, Option.isSome_iff_exists, List.mem_range]
  constructor
  · rintro ⟨-, j, hj⟩
    obtain ⟨s, h⟩ := undefinedAt?_eq_some.mp hj
    exact ⟨s, j, h⟩
  · rintro ⟨s, j, hs, h⟩
    exact ⟨(Array.getElem?_eq_some_iff.mp hs).1, j, undefinedAt?_eq_some.mpr ⟨s, hs, h⟩⟩

/-! ## The list -/

theorem filterMap_getElem?_range {α : Type} (l : List α) :
    (List.range l.length).filterMap (l[·]?) = l := by
  induction l with
  | nil => rfl
  | cons a l ih =>
    rw [List.length_cons, List.range_succ_eq_map, List.filterMap_cons, List.filterMap_map]
    exact congrArg (a :: ·) ih

theorem undefinedJumps_eq (p : Program) :
    p.undefinedJumps = (List.range p.size).filterMap p.undefinedAt? := by
  have hlist := filterMap_getElem?_range p.statements.toList
  rw [undefinedJumps, jumps, ← hlist, List.filterMap_filterMap, List.filter_filterMap]
  simp only [Array.length_toList, Array.getElem?_toList]
  rfl

theorem forall₂_filterMap {α β : Type} (g : α → Option β) (l : List α) :
    List.Forall₂ (fun a b => g a = some b) (l.filter fun a => (g a).isSome) (l.filterMap g) := by
  induction l with
  | nil => exact .nil
  | cons a l ih =>
    cases h : g a with
    | none => simpa [List.filter_cons, List.filterMap_cons, h] using ih
    | some b => simpa [List.filter_cons, List.filterMap_cons, h] using ih

theorem pairwise_undefinedAt (p : Program) : p.undefinedAt.Pairwise (· < ·) :=
  List.pairwise_lt_range.filter _

/-! ## Steps and runs -/

/-- The statement at `k` makes a jump of this label, in this place, that nothing declares. -/
def UnresolvedAt (p : Program) (k : Nat) (label : String) (site : Site) : Prop :=
  ∃ s, p.statements[k]? = some s ∧ s.instruction.jump? = some ⟨label, site.span⟩ ∧
    site.line = s.site.line ∧ ⟨label, site.span⟩ ∈ p.undefinedJumps

/-- The statement at `k` makes the jump `j`, and it fails whenever that is taken. -/
def FailsAt (p : Program) (k : Nat) (j : Jump) : Prop :=
  ∃ s, p.statements[k]? = some s ∧ s.instruction.jump? = some j ∧
    ∀ (m : Machine) (out : Sink), m.halted = false → m.pc = k → m.Allowed →
      s.instruction.taken m.acc = true →
        m.step p out = (.failed (.unresolvedLabel j.label ⟨s.site.line, j.span⟩), m.counted, out)

variable {p : Program} {m : Machine} {out : Sink} {label : String} {site : Site}

theorem unresolvedAt_of_step (h : (m.step p out).1 = .failed (.unresolvedLabel label site)) :
    p.UnresolvedAt m.pc label site := by
  obtain ⟨s, hs, hj, -, hline, hl⟩ := Machine.tells_of_failed h rfl
  refine ⟨s, hs, hj, hline, ?_⟩
  rw [undefinedJumps_eq, List.mem_filterMap]
  exact ⟨m.pc, List.mem_range.mpr (Array.getElem?_eq_some_iff.mp hs).1,
    undefinedAt?_eq_some.mpr ⟨s, hs, hj, hl⟩⟩

theorem unresolvedAt_of_runFor {n : Nat}
    (h : (m.runFor p n out).1 = .failed (.unresolvedLabel label site)) :
    p.UnresolvedAt (m.runFor p n out).2.1.pc label site := by
  obtain ⟨m', out', hstep, hpc⟩ := Machine.step_of_runFor_failed h
  exact hpc ▸ unresolvedAt_of_step hstep

theorem failsAt_of_undefinedAt? {k : Nat} {j : Jump} (h : p.undefinedAt? k = some j) :
    p.FailsAt k j := by
  obtain ⟨s, hs, hj, hl⟩ := undefinedAt?_eq_some.mp h
  refine ⟨s, hs, hj, fun m out hh hpc ha ht => ?_⟩
  subst hpc
  have he : s.effect p.labels m.regs =
      .error (.unresolvedLabel j.label ⟨s.site.line, j.span⟩) := by
    rw [Statement.effect_of_taken hj ht, Jump.resolve, hl]
    rfl
  rw [Machine.step_of_fetch_ok (Machine.fetch_of_allowed hh hs ha), Machine.execute_of_fault he]

/-- The listed jumps are exactly those that can fail to resolve. A step or a run that fails with
an unresolved label stands on a jump that is listed, so without any listed jump none does. The
list has the jumps of the statements at `undefinedAt`, which are those whose label nothing
declares, one for each and in program order; and each of them fails whenever it is taken. -/
theorem undefinedJumps_exact (p : Program) :
    (∀ (m : Machine) out label site, (m.step p out).1 = .failed (.unresolvedLabel label site) →
      p.UnresolvedAt m.pc label site) ∧
    (∀ n (m : Machine) out label site,
      (m.runFor p n out).1 = .failed (.unresolvedLabel label site) →
        p.UnresolvedAt (m.runFor p n out).2.1.pc label site) ∧
    (p.undefinedJumps = [] → ∀ n (m : Machine) out label site,
      (m.step p out).1 ≠ .failed (.unresolvedLabel label site) ∧
      (m.runFor p n out).1 ≠ .failed (.unresolvedLabel label site)) ∧
    List.Forall₂ p.FailsAt p.undefinedAt p.undefinedJumps ∧
    p.undefinedAt.Pairwise (· < ·) ∧
    ∀ k, k ∈ p.undefinedAt ↔ ∃ s j, p.statements[k]? = some s ∧
      s.instruction.jump? = some j ∧ p.labels.get? j.label = none := by
  refine ⟨fun _ _ _ _ => unresolvedAt_of_step, fun _ _ _ _ _ => unresolvedAt_of_runFor, ?_, ?_,
    pairwise_undefinedAt p, fun _ => mem_undefinedAt⟩
  · intro hnil n m out label site
    have hnone : ∀ k, ¬ p.UnresolvedAt k label site := by
      rintro k ⟨s, -, -, -, hmem⟩
      rw [hnil] at hmem
      cases hmem
    exact ⟨fun h => hnone _ (unresolvedAt_of_step h), fun h => hnone _ (unresolvedAt_of_runFor h)⟩
  · rw [undefinedJumps_eq]
    exact (forall₂_filterMap p.undefinedAt? _).imp fun _ _ => failsAt_of_undefinedAt?

-- two jumps to one label are two entries, each in its place
example :
    let p : Program :=
      { statements := #[⟨.goto ⟨"x", ⟨5, 1⟩⟩, ⟨1, ⟨0, 6⟩⟩⟩, ⟨.goto ⟨"a", ⟨12, 1⟩⟩, ⟨2, ⟨7, 6⟩⟩⟩,
          ⟨.branch .lt 0 ⟨"x", ⟨26, 1⟩⟩, ⟨3, ⟨14, 13⟩⟩⟩],
        labels := ⟨[("a", 3)], by decide⟩ }
    p.undefinedAt = [0, 2] ∧ p.undefinedJumps = [⟨"x", ⟨5, 1⟩⟩, ⟨"x", ⟨26, 1⟩⟩] := by
  decide

end Program

end Ram
