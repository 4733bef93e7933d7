import Ram.Proofs.CommandLine.Job
import Ram.Proofs.Machine.Limit
import Ram.Proofs.Registers.Seed

/-!
# What flags change

A `Request` is a run of a file but for how it is shown. It fails, because a register word is no
number, because the file has no program or because of a fault, or the program reaches its `END`
(`Course`). The course is the same whether or not the run is traced and whether or not it is
minimal; status lines only stand around what a minimal run prints (`flags_change_presentation`).
-/

namespace Ram.CommandLine

/-! ## Answers -/

/-- The answer to an invocation. -/
def Invocation.answer (host : Host) (i : Invocation) : Transcript :=
  match settingsFor host i with
  | .ok settings => i.perform host settings
  | .error e => { stdout := "", outcome := .failure (.settings e) }

theorem respond_of_ok {host : Host} {args : List String} {i : Invocation}
    (h : Invocation.ofArguments args = .ok i) : respond host args = .ok (i.answer host) := by
  unfold respond Invocation.answer
  rw [h]
  dsimp only [bind, Except.bind]
  cases settingsFor host i <;> rfl

/-- The variable for tracing has no part in whether the settings are well formed, nor in the
limit. -/
theorem ofVariables_trace {limit : Option ByteArray} {s : Settings}
    (h : Settings.ofVariables { maxSteps := limit } = .ok s) (trace : Option ByteArray) :
    Settings.ofVariables ⟨trace, limit⟩ =
      .ok ⟨Settings.text? trace == some "1", s.maxSteps⟩ := by
  unfold Settings.ofVariables at h ⊢
  dsimp only [bind, Except.bind] at h ⊢
  cases htext : Settings.text? limit with
  | none =>
    rw [htext] at h
    cases h
    rfl
  | some value =>
    rw [htext] at h
    dsimp only at h ⊢
    cases hread : Settings.readMaxSteps value with
    | error e => rw [hread] at h; cases h
    | ok n =>
      rw [hread] at h
      cases h
      rfl

/-! ## Requests -/

/-- A run of a file: the words on the command line and the variable for the step limit, but not
what is said about showing the run. -/
structure Request where
  files : String → Option ByteArray
  path : String
  registers : List String
  maxSteps : Option Nat
  limitVariable : Option ByteArray

namespace Request

/-- The answer to a request that is made with these flags, and with this value of the variable for
tracing. -/
def shown (q : Request) (minimal trace : Bool) (traceVariable : Option ByteArray) : Transcript :=
  (Invocation.run q.path q.registers ⟨minimal, trace, q.maxSteps⟩).answer
    ⟨q.files, ⟨traceVariable, q.limitVariable⟩⟩

/-- The text of the file, if it can be read as one. -/
def text? (q : Request) : Option String := (q.files q.path).bind String.fromUTF8?

def program? (q : Request) : Option Program := q.text?.bind fun text => (assemble text).toOption

/-- The program of the file and the machine that runs it, with the values of the words in its
registers. -/
structure Starts (q : Request) (limit : Option Nat) (p : Program) (m : Machine) : Prop where
  program : q.program? = some p
  machine : ∃ values, Registers.ReadAs q.registers values ∧
    m = { regs := .ofValues values, limit := limit }

/-- The program reaches its `END`, in this state and with this output. -/
def Completes (q : Request) (limit : Option Nat) (m' : Machine) (out : Sink) : Prop :=
  ∃ p m, q.Starts limit p m ∧ m.Returns p {} .halted m' out

/-- If the program starts, it ends, and does so before a 64-bit counter of its steps. -/
def Ends (q : Request) (limit : Option Nat) : Prop :=
  ∀ p m, q.Starts limit p m →
    ∃ r m' out, m.Returns p {} r m' out ∧ m'.steps < 0x10000000000000000

def assemblingLine (q : Request) : String := statusLine "Assembling" ("target " ++ q.path)

def runningLine : String := statusLine "Running" "assembled program"

def completedLine (q : Request) (steps : Nat) : String :=
  statusLine "Completed" (q.path ++ " after " ++ toString steps ++ " steps")

/-- The status lines in front of what the program prints. -/
def opening (q : Request) : String :=
  if q.registers.all fun w => (Literal.parse w.toList).isOk then
    q.assemblingLine ++ if q.program?.isSome then runningLine else ""
  else ""

/-- The run that is asked for: a program from a text, and the machine that runs it. -/
def job (q : Request) (text : String) (p : Program) (m : Machine) (minimal trace : Bool) : Job where
  file := ⟨q.path, text⟩
  program := p
  machine := m
  minimal := minimal
  trace := trace
  stdout := if minimal then "" else q.opening

/-- Whatever the flags, the answer has this outcome. A minimal run prints the body; any other one
prints the opening in front of it and the tail behind it. -/
def Shows (q : Request) (body tail : String) (outcome : Outcome) : Prop :=
  ∀ minimal trace traceVariable, (q.shown minimal trace traceVariable).outcome = outcome ∧
    (q.shown minimal trace traceVariable).stdout =
      if minimal then body else q.opening ++ body ++ tail

/-- What comes of a request. -/
inductive Course (q : Request) (limit : Option Nat) : Prop where
  | failed {body : String} {e : Failure} : (∀ m' out, ¬q.Completes limit m' out) →
      (∀ w ∈ q.registers, (∀ v, Literal.parse w.toList ≠ .ok v) → body = "") →
      q.Shows body "" (.failure e) → Course q limit
  | completed {p : Program} {m m' : Machine} {out : Sink} :
      q.Starts limit p m → m.Returns p {} .halted m' out →
      q.Shows (out.text ++ haltText m'.acc) (q.completedLine m'.steps) .success → Course q limit

section

variable {q : Request} {limit : Option Nat} {p p' : Program} {m m' : Machine}

theorem Starts.unique (h : q.Starts limit p m) (h' : q.Starts limit p' m') : p = p' ∧ m = m' := by
  obtain ⟨hp, values, hvalues, rfl⟩ := h
  obtain ⟨hp', values', hvalues', rfl⟩ := h'
  exact ⟨Option.some.inj (hp.symm.trans hp'), by rw [hvalues.unique hvalues']⟩

theorem Starts.exists_parse_eq_ok (h : q.Starts limit p m) {w : String} (hw : w ∈ q.registers) :
    ∃ v, Literal.parse w.toList = .ok v := by
  obtain ⟨-, values, hvalues, -⟩ := h
  exact hvalues.exists_of_mem hw

theorem Starts.completes_iff (h : q.Starts limit p m) {r : Machine.Ending} {m' m'' : Machine}
    {out out' : Sink} (hreturns : m.Returns p {} r m' out) :
    q.Completes limit m'' out' ↔ r = .halted ∧ m'' = m' ∧ out' = out := by
  constructor
  · rintro ⟨p₂, m₂, hstarts, hhalted⟩
    obtain ⟨rfl, rfl⟩ := h.unique hstarts
    have := hreturns.unique hhalted
    cases this
    exact ⟨rfl, rfl, rfl⟩
  · rintro ⟨rfl, rfl, rfl⟩
    exact ⟨p, m, h, hreturns⟩

theorem opening_of_readAs {values : List Int64} (h : Registers.ReadAs q.registers values) :
    q.opening = q.assemblingLine ++ if q.program?.isSome then runningLine else "" := by
  have hall : ∀ w ∈ q.registers, (Literal.parse w.toList).isOk = true := by
    intro w hw
    obtain ⟨v, hv⟩ := h.exists_of_mem hw
    rw [hv]
    rfl
  rw [opening, if_pos (List.all_eq_true.mpr hall)]

theorem opening_of_mem {w : String} (hw : w ∈ q.registers)
    (h : ∀ v, Literal.parse w.toList ≠ .ok v) : q.opening = "" := by
  refine if_neg fun hall => ?_
  have hok := List.all_eq_true.mp hall w hw
  cases hparse : Literal.parse w.toList with
  | ok v => exact h v hparse
  | error e =>
    rw [hparse] at hok
    cases hok

theorem Shows.independent {body tail : String} {outcome : Outcome} (h : q.Shows body tail outcome)
    (minimal trace : Bool) (traceVariable : Option ByteArray) :
    (q.shown minimal trace traceVariable).outcome = (q.shown false false none).outcome ∧
    (q.shown minimal trace traceVariable).stdout =
      (if minimal then q.shown true false none else q.shown false false none).stdout := by
  refine ⟨(h _ _ _).1.trans (h _ _ _).1.symm, ?_⟩
  cases minimal <;> simp [(h _ _ _).2]

theorem load_cases (q : Request) :
    (∃ text p, q.program? = some p ∧
      ∀ vars, load ⟨q.files, vars⟩ q.path = .ok (⟨q.path, text⟩, p)) ∨
    ∃ e, q.program? = none ∧ ∀ vars, load ⟨q.files, vars⟩ q.path = .error e := by
  unfold program? text? load
  dsimp only
  cases (q.files q.path).bind String.fromUTF8? with
  | none => exact .inr ⟨_, rfl, fun _ => rfl⟩
  | some text =>
    simp only [Option.bind_some]
    cases assemble text with
    | ok p => exact .inl ⟨text, p, rfl, fun _ => rfl⟩
    | error e => exact .inr ⟨_, rfl, fun _ => rfl⟩

variable {settings : Settings}
  (hvars : Settings.ofVariables { maxSteps := q.limitVariable } = .ok settings)
include hvars

theorem shown_eq (minimal trace : Bool) (traceVariable : Option ByteArray) :
    q.shown minimal trace traceVariable =
      match prepare ⟨q.files, ⟨traceVariable, q.limitVariable⟩⟩
        ⟨Settings.text? traceVariable == some "1", settings.maxSteps⟩ q.path q.registers
        ⟨minimal, trace, q.maxSteps⟩ with
      | .ok job => job.run
      | .error t => t := by
  have hsettings : settingsFor ⟨q.files, ⟨traceVariable, q.limitVariable⟩⟩
        (.run q.path q.registers ⟨minimal, trace, q.maxSteps⟩) =
      .ok ⟨Settings.text? traceVariable == some "1", settings.maxSteps⟩ :=
    ofVariables_trace hvars traceVariable
  rw [shown, Invocation.answer, hsettings]
  rfl

theorem course_of_seed_error {e : Registers.SeedError} {w : String}
    (hseed : Registers.ofArguments q.registers = .error e) (hw : w ∈ q.registers)
    (hbad : ∀ v, Literal.parse w.toList ≠ .ok v) : q.Course limit := by
  have hshows : q.Shows "" "" (.failure (.seed e)) := by
    intro minimal trace traceVariable
    rw [shown_eq hvars]
    simp [prepare, hseed, opening_of_mem hw hbad]
  refine .failed (fun m' out ⟨p, m, hstarts, _⟩ => ?_) (fun _ _ _ => rfl) hshows
  obtain ⟨v, hv⟩ := hstarts.exists_parse_eq_ok hw
  exact hbad v hv

theorem course_of_load_error {values : List Int64} {e : Failure}
    (hvalues : Registers.ReadAs q.registers values) (hp : q.program? = none)
    (hload : ∀ vars, load ⟨q.files, vars⟩ q.path = .error e) : q.Course limit := by
  have hseed := Registers.ofArguments_of_readAs hvalues
  have hshows : q.Shows "" "" (.failure e) := by
    intro minimal trace traceVariable
    rw [shown_eq hvars]
    simp only [prepare, hseed, hload]
    cases minimal <;> simp [opening_of_readAs hvalues, hp, assemblingLine]
  refine .failed (fun m' out ⟨p, m, hstarts, _⟩ => ?_) (fun _ _ _ => rfl) hshows
  rw [hstarts.program] at hp
  cases hp

/-- A request whose words are numbers and whose file has a program is a run of that program. Only
whether it is traced depends on more than the request and `minimal`. -/
theorem shown_of_load {values : List Int64} {text : String}
    (hvalues : Registers.ReadAs q.registers values) (hp : q.program? = some p)
    (hload : ∀ vars, load ⟨q.files, vars⟩ q.path = .ok (⟨q.path, text⟩, p))
    (hm : m = { regs := .ofValues values, limit := q.maxSteps <|> settings.maxSteps })
    (minimal trace : Bool) (traceVariable : Option ByteArray) :
    ∃ traced, q.shown minimal trace traceVariable = (q.job text p m minimal traced).run := by
  refine ⟨trace || (Settings.text? traceVariable == some "1"), ?_⟩
  have hseed := Registers.ofArguments_of_readAs hvalues
  rw [shown_eq hvars, job, opening_of_readAs hvalues, hp, hm]
  simp only [prepare, hseed, hload]
  cases minimal <;> rfl

theorem course_of_returns {values : List Int64} {text : String} {r : Machine.Ending} {out : Sink}
    (hvalues : Registers.ReadAs q.registers values) (hp : q.program? = some p)
    (hload : ∀ vars, load ⟨q.files, vars⟩ q.path = .ok (⟨q.path, text⟩, p))
    (hm : m = { regs := .ofValues values, limit := q.maxSteps <|> settings.maxSteps })
    (hreturns : m.Returns p {} r m' out) (hlt : m'.steps < 0x10000000000000000) :
    q.Course (q.maxSteps <|> settings.maxSteps) := by
  have hstarts : q.Starts (q.maxSteps <|> settings.maxSteps) p m := ⟨hp, values, hvalues, hm⟩
  have hrun : m.run p {} = (r, m', out) := hreturns.run_eq fun _ => by simpa [hm] using hlt
  have hshown := shown_of_load hvars hvalues hp hload hm
  have hjob : ∀ minimal traced,
      (q.job text p m minimal traced).machine.run (q.job text p m minimal traced).program {} =
        (r, m', out) := fun _ _ => hrun
  cases r with
  | halted =>
    have hshows : q.Shows (out.text ++ haltText m'.acc) (q.completedLine m'.steps) .success := by
      intro minimal trace traceVariable
      obtain ⟨traced, hrun⟩ := hshown minimal trace traceVariable
      obtain ⟨houtcome, hstdout, -⟩ := Job.run_of_run_eq (hjob minimal traced)
      rw [hrun]
      refine ⟨houtcome, hstdout.trans ?_⟩
      cases minimal <;> simp [job, Job.finish, Job.closing, completedLine, String.append_assoc]
    exact .completed hstarts hreturns hshows
  | failed f =>
    have hshows : q.Shows out.text "" (.failure (.fault f ⟨q.path, text⟩)) := by
      intro minimal trace traceVariable
      obtain ⟨traced, hrun⟩ := hshown minimal trace traceVariable
      obtain ⟨houtcome, hstdout, -⟩ := Job.run_of_run_eq (hjob minimal traced)
      rw [hrun]
      refine ⟨houtcome, hstdout.trans ?_⟩
      cases minimal <;> simp [job, Job.finish]
    refine .failed (fun m'' out' h => ?_) (fun w hw hbad => ?_) hshows
    · cases ((hstarts.completes_iff hreturns).mp h).1
    · obtain ⟨v, hv⟩ := hstarts.exists_parse_eq_ok hw
      exact absurd hv (hbad v)
  | unfinished => exact absurd rfl hreturns.1

theorem course (hends : q.Ends (q.maxSteps <|> settings.maxSteps)) :
    q.Course (q.maxSteps <|> settings.maxSteps) := by
  rcases Registers.ofArguments_cases q.registers with
    ⟨values, hvalues, -⟩ | ⟨e, hseed, w, hw, herror⟩
  · rcases load_cases q with ⟨text, p, hp, hload⟩ | ⟨e, hp, hload⟩
    · obtain ⟨r, m', out, hreturns, hlt⟩ := hends p _ ⟨hp, values, hvalues, rfl⟩
      exact course_of_returns hvars hvalues hp hload rfl hreturns hlt
    · exact course_of_load_error hvars hvalues hp hload
  · exact course_of_seed_error hvars hseed hw (by simp [herror])

end

end Request

/-- Flags change only what is shown of a run. If the variable for the step limit is well formed and
the run ends before a 64-bit counter does, then with and without `minimal` and tracing it has the
same outcome, and so the same exit code and diagnostic, and tracing changes nothing of what is
printed. A run that is not minimal prints what the minimal one does behind its opening lines, and
one line more behind it if and only if the exit code is 0; it prints nothing if a register word is
no number. The exit code is 0 if and only if the words are numbers, the file has a program and the
program reaches its `END`. -/
theorem flags_change_presentation (q : Request) {settings : Settings}
    (hvars : Settings.ofVariables { maxSteps := q.limitVariable } = .ok settings)
    (hends : q.Ends (q.maxSteps <|> settings.maxSteps)) :
    let limit := q.maxSteps <|> settings.maxSteps
    let full := q.shown false false none
    let bare := q.shown true false none
    (∀ args minimal trace traceVariable,
      Invocation.ofArguments args = .ok (.run q.path q.registers ⟨minimal, trace, q.maxSteps⟩) →
        respond ⟨q.files, ⟨traceVariable, q.limitVariable⟩⟩ args =
          .ok (q.shown minimal trace traceVariable)) ∧
    (∀ minimal trace traceVariable,
      (q.shown minimal trace traceVariable).outcome = full.outcome ∧
      (q.shown minimal trace traceVariable).stdout = (if minimal then bare else full).stdout) ∧
    ((∃ w ∈ q.registers, ∀ v, Literal.parse w.toList ≠ .ok v) →
      full.stdout = "" ∧ bare.stdout = "") ∧
    (full.outcome.exitCode = 0 ↔ ∃ m' out, q.Completes limit m' out) ∧
    (full.outcome.exitCode ≠ 0 → full.stdout = q.opening ++ bare.stdout) ∧
    ∀ m' out, q.Completes limit m' out →
      bare.stdout = out.text ++ ("--- END ---\nc(0) = " ++ toString m'.acc.toInt ++ "\n") ∧
      full.stdout = q.opening ++ bare.stdout ++ q.completedLine m'.steps := by
  have hcourse := Request.course hvars hends
  clear hends
  dsimp only
  generalize (q.maxSteps <|> settings.maxSteps) = limit at hcourse ⊢
  refine ⟨fun args minimal trace traceVariable h => respond_of_ok h, ?_⟩
  cases hcourse with
  | failed hnone hempty hshows =>
    obtain ⟨houtcome, hfull⟩ := hshows false false none
    obtain ⟨-, hbare⟩ := hshows true false none
    refine ⟨hshows.independent, fun ⟨w, hw, hbad⟩ => ?_, ?_, fun _ => ?_,
      fun m' out h => absurd h (hnone m' out)⟩
    · simp [hfull, hbare, hempty w hw hbad, Request.opening_of_mem hw hbad]
    · simp [houtcome, Outcome.exitCode, hnone]
    · simp [hfull, hbare]
  | completed hstarts hreturns hshows =>
    obtain ⟨houtcome, hfull⟩ := hshows false false none
    obtain ⟨-, hbare⟩ := hshows true false none
    refine ⟨hshows.independent, fun ⟨w, hw, hbad⟩ => ?_, ?_, fun hcode => ?_, fun m' out h => ?_⟩
    · obtain ⟨v, hv⟩ := hstarts.exists_parse_eq_ok hw
      exact absurd hv (hbad v)
    · simp only [houtcome, Outcome.exitCode, true_iff]
      exact ⟨_, _, _, _, hstarts, hreturns⟩
    · simp [houtcome, Outcome.exitCode] at hcode
    · obtain ⟨-, hm', hout⟩ := (hstarts.completes_iff hreturns).mp h
      subst hm' hout
      exact ⟨hbare, by rw [hfull, hbare]; rfl⟩

/-- A file that loads the value of the one register word, prints it and ends. -/
theorem flags_change_presentation_of_dump :
    let q : Request :=
      { files := fun path => if path = "a.ram" then some "LOAD 1\nDUMP 1\nEND".toUTF8 else none
        path := "a.ram", registers := ["0x10"], maxSteps := none
        limitVariable := some " 3".toUTF8 }
    let text := "--- DUMP (PC: 1) ---\nc(0): \t16\n--- END ---\nc(0) = 16\n"
    Settings.ofVariables { maxSteps := q.limitVariable } = .ok { maxSteps := some 3 } ∧
      q.Ends (some 3) ∧
      respond ⟨q.files, ⟨some "1".toUTF8, q.limitVariable⟩⟩ ["run", "-m", "a.ram", "0x10"] =
        .ok (q.shown true false (some "1".toUTF8)) ∧
      (q.shown true false (some "1".toUTF8)).stdout = text ∧
      (q.shown false true none).stdout =
        "  Assembling target a.ram\n     Running assembled program\n" ++ text ++
          "   Completed a.ram after 3 steps\n" := by
  intro q text
  let p : Program :=
    { statements := #[⟨.compute .load (.cell ⟨.direct, 1⟩), ⟨1, ⟨0, 6⟩⟩⟩,
        ⟨.dump 1, ⟨2, ⟨7, 6⟩⟩⟩, ⟨.halt, ⟨3, ⟨14, 3⟩⟩⟩] }
  let m : Machine := { regs := .ofValues [16], limit := some 3 }
  have hvars : Settings.ofVariables { maxSteps := q.limitVariable } = .ok { maxSteps := some 3 } :=
    rfl
  have hstarts : q.Starts (some 3) p m := ⟨by decide, [16], .cons rfl .nil, rfl⟩
  have hreturns : m.Returns p {} .halted (m.after p 3 {}).1 (m.after p 3 {}).2 :=
    ⟨by simp, 3, rfl⟩
  have hends : q.Ends (some 3) := by
    intro p' m' hstarts'
    obtain ⟨rfl, rfl⟩ := hstarts.unique hstarts'
    exact ⟨_, _, _, hreturns, by decide⟩
  obtain ⟨hrespond, hflags, -, -, -, hcompletes⟩ := flags_change_presentation q hvars hends
  obtain ⟨hbare, hfull⟩ := hcompletes _ _ ⟨p, m, hstarts, hreturns⟩
  refine ⟨hvars, hends, hrespond _ _ _ _ rfl, ?_, ?_⟩
  · rw [(hflags true false _).2, if_pos rfl, hbare]
    decide
  · rw [(hflags false true none).2, if_neg Bool.false_ne_true, hfull, hbare]
    decide

end Ram.CommandLine
