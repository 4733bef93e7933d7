import Mathlib.Data.List.Induction
import Ram.Diagnostic
import Ram.Proofs.Settings

/-!
# The configuration over a history of calls

The variables can change at any time, and the configuration is only read from them where it is
initialised. So it is decided by the variables at the latest initialisation that they were well
formed at (`latest`): a call keeps the configuration to that (`Follows.call`), and so does any
history of calls (`follows_calls`).
-/

namespace Ram

open Settings

/-- What the calls of a process work on: its variables and its configuration. -/
structure Process where
  vars : Variables := {}
  config : Configuration := {}

namespace Process

/-- Variables are set to bytes, or unset; the last two calls read the configuration. -/
inductive Call where
  | setTrace (value : Option ByteArray)
  | setMaxSteps (value : Option ByteArray)
  | init
  | trace
  | maxSteps

/-- How a call ends. -/
inductive Answer where
  | done
  | rejected (error : Settings.Error)
  | panicked (message : String)
  | trace (on : Bool)
  | maxSteps (limit : Option Nat)
  deriving DecidableEq

def ofInitResult : Configuration.InitResult → Answer
  | .ok => .done
  | .rejected e => .rejected e
  | .repeated => .panicked Configuration.repeatedMessage

/-- What is answered from the settings in force. -/
def ofSettings (c : Configuration) (answer : Settings → Answer) : Answer :=
  match c.read with
  | .ok s => answer s
  | .error message => .panicked message

/-- The variables behind a call. -/
def Call.set (vars : Variables) : Call → Variables
  | setTrace value => { vars with trace := value }
  | setMaxSteps value => { vars with maxSteps := value }
  | init | trace | maxSteps => vars

/-- The answer of a call, and the process behind it. -/
def call (p : Process) : Call → Answer × Process
  | .init =>
    let (result, config) := p.config.init p.vars
    (ofInitResult result, { p with config })
  | .trace => (ofSettings p.config fun s => .trace s.trace, p)
  | .maxSteps => (ofSettings p.config fun s => .maxSteps s.maxSteps, p)
  | c => (.done, { p with vars := c.set p.vars })

/-- The process after calls one after the other. -/
def calls (p : Process) (cs : List Call) : Process := cs.foldl (fun p c => (p.call c).2) p

variable {p : Process} {c : Call}

theorem calls_concat (p : Process) (cs : List Call) (c : Call) :
    p.calls (cs ++ [c]) = ((p.calls cs).call c).2 :=
  List.foldl_concat _ _ c cs

theorem vars_call (p : Process) (c : Call) : (p.call c).2.vars = c.set p.vars := by
  cases c <;> rfl

theorem config_call_of_ne_init (hc : c ≠ .init) (p : Process) : (p.call c).2.config = p.config := by
  cases c with
  | init => exact absurd rfl hc
  | _ => rfl

theorem config_calls_of_no_init {cs : List Call} (hcs : .init ∉ cs) (p : Process) :
    (p.calls cs).config = p.config := by
  induction cs using List.reverseRecOn with
  | nil => rfl
  | append_singleton cs c ih =>
    simp only [List.mem_append, List.mem_singleton, not_or] at hcs
    rw [calls_concat, config_call_of_ne_init (Ne.symm hcs.2), ih hcs.1]

/-! ## Initialisations -/

/-- Initialising reads what the variables ask for, also if it then panics; where they are not well
formed, it leaves the process as it is. -/
theorem call_init_cases (p : Process) :
    (WellFormed p.vars ∧ ∃ s, ReadFrom p.vars s ∧
      p.call .init = (if p.config.current.isSome then .panicked Configuration.repeatedMessage
        else .done, { p with config := ⟨some s⟩ })) ∨
    (¬ WellFormed p.vars ∧ ∃ e, p.vars.maxSteps = some e.value.toUTF8 ∧
      p.call .init = (.rejected e, p)) := by
  rcases ofVariables_cases p.vars with ⟨s, hs, hread⟩ | ⟨hno, e, hvalue, hread⟩
  · refine .inl ⟨⟨s.maxSteps, hs.maxSteps⟩, s, hs, ?_⟩
    simp only [call, Configuration.init, hread]
    split <;> rfl
  · refine .inr ⟨hno, e, hvalue, ?_⟩
    simp only [call, Configuration.init, hread]
    rfl

/-- The variables after calls one after the other. -/
def varsAfter (vars : Variables) (cs : List Call) : Variables := cs.foldl Call.set vars

/-- The variables at each initialisation, the first one first. -/
def inits (vars : Variables) : List Call → List Variables
  | [] => []
  | .init :: cs => vars :: inits vars cs
  | c :: cs => inits (c.set vars) cs

/-- The variables at the latest initialisation that they were well formed at. -/
def latest (vars : Variables) (cs : List Call) : Option Variables :=
  ((inits vars cs).filter (WellFormed ·)).getLast?

theorem vars_calls (p : Process) (cs : List Call) : (p.calls cs).vars = varsAfter p.vars cs := by
  induction cs using List.reverseRecOn with
  | nil => rfl
  | append_singleton cs c ih =>
    rw [calls_concat, vars_call, ih]
    exact (List.foldl_concat _ _ c cs).symm

theorem inits_append (cs ds : List Call) : ∀ vars : Variables,
    inits vars (cs ++ ds) = inits vars cs ++ inits (varsAfter vars cs) ds := by
  induction cs with
  | nil => intro vars; rfl
  | cons c cs ih =>
    intro vars
    have hrest := ih (c.set vars)
    cases c with
    | init => exact congrArg (vars :: ·) hrest
    | _ => exact hrest

theorem latest_concat_init (vars : Variables) (cs : List Call) :
    latest vars (cs ++ [.init]) =
      if WellFormed (varsAfter vars cs) then some (varsAfter vars cs) else latest vars cs := by
  rw [latest, inits_append, List.filter_append, List.getLast?_append]
  change (([varsAfter vars cs].filter _).getLast?.or (latest vars cs)) = _
  split
  · rename_i h
    simp [h]
  · rename_i h
    simp [h]

theorem latest_concat_of_ne_init (hc : c ≠ .init) (vars : Variables) (cs : List Call) :
    latest vars (cs ++ [c]) = latest vars cs := by
  have hinits : inits (varsAfter vars cs) [c] = [] := by
    cases c with
    | init => exact absurd rfl hc
    | _ => rfl
  rw [latest, inits_append, hinits, List.append_nil]
  rfl

/-! ## Histories -/

/-- The configuration holds what these variables ask for, and nothing if there are none. -/
inductive Follows : Option Variables → Configuration → Prop where
  | unread : Follows none ⟨none⟩
  | read {vars : Variables} {s : Settings} : ReadFrom vars s → Follows (some vars) ⟨some s⟩

namespace Follows

variable {vars : Variables} {config : Configuration}

theorem isSome_eq {vars : Option Variables} (h : Follows vars config) :
    config.current.isSome = vars.isSome := by
  cases h <;> rfl

theorem read_of_none (h : Follows none config) :
    config.read = .error Configuration.unreadMessage := by
  cases h
  rfl

theorem read_of_some (h : Follows (some vars) config) :
    ∃ s, ReadFrom vars s ∧ config.read = .ok s := by
  cases h with
  | read hs => exact ⟨_, hs, rfl⟩

/-- One call. Only an initialisation of well-formed variables matters. -/
theorem call {cs : List Call} (h : Follows (latest vars cs) p.config)
    (hvars : p.vars = varsAfter vars cs) (c : Call) :
    Follows (latest vars (cs ++ [c])) (p.call c).2.config := by
  by_cases hc : c = .init
  · subst hc
    rw [latest_concat_init, ← hvars]
    rcases call_init_cases p with ⟨hwf, s, hs, hcall⟩ | ⟨hno, e, -, hcall⟩
    · rw [if_pos hwf, hcall]
      exact .read hs
    · rw [if_neg hno, hcall]
      exact h
  · rw [latest_concat_of_ne_init hc, config_call_of_ne_init hc]
    exact h

end Follows

theorem follows_calls (vars : Variables) (cs : List Call) :
    Follows (latest vars cs) (calls { vars } cs).config := by
  induction cs using List.reverseRecOn with
  | nil => exact .unread
  | append_singleton cs c ih =>
    rw [calls_concat]
    exact ih.call (vars_calls _ cs) c

/-- The configuration follows its latest well-formed initialisation. To initialise from variables
that are not well formed is refused with the text of the step limit, and changes nothing. From
well-formed ones their settings come into force; the first time that is all, and every later time
it panics as well. Until then it panics to read the configuration, and from then on what is read is
what the variables asked for at that time, whatever they are by now. -/
theorem follows_latest_init (vars : Variables) (cs : List Call) :
    let p := calls { vars } cs
    p.vars = varsAfter vars cs ∧
    (¬ WellFormed p.vars → ∃ e, p.call .init = (.rejected e, p) ∧
      e.diagnostic.code = some "env::max_steps" ∧ p.vars.maxSteps = some e.value.toUTF8) ∧
    (WellFormed p.vars → ∃ s, ReadFrom p.vars s ∧
      p.call .init = (if (latest vars cs).isSome then .panicked Configuration.repeatedMessage
        else .done, { p with config := ⟨some s⟩ })) ∧
    (latest vars cs = none →
      p.call .trace = (.panicked Configuration.unreadMessage, p) ∧
      p.call .maxSteps = (.panicked Configuration.unreadMessage, p)) ∧
    (∀ v, latest vars cs = some v → ∃ s, ReadFrom v s ∧
      p.call .trace = (.trace s.trace, p) ∧ p.call .maxSteps = (.maxSteps s.maxSteps, p)) ∧
    ∀ rest, .init ∉ rest → (p.calls rest).config = p.config := by
  intro p
  have hfollows : Follows (latest vars cs) p.config := follows_calls vars cs
  refine ⟨vars_calls _ cs, fun hno => ?_, fun hwf => ?_, fun hnone => ?_, fun v hsome => ?_,
    fun rest hrest => config_calls_of_no_init hrest p⟩
  · rcases call_init_cases p with ⟨hwf, -⟩ | ⟨-, e, hvalue, hcall⟩
    · exact absurd hwf hno
    · exact ⟨e, hcall, rfl, hvalue⟩
  · rcases call_init_cases p with ⟨-, s, hs, hcall⟩ | ⟨hno, -⟩
    · rw [hfollows.isSome_eq] at hcall
      exact ⟨s, hs, hcall⟩
    · exact absurd hwf hno
  · rw [hnone] at hfollows
    have hread := hfollows.read_of_none
    exact ⟨by rw [call, ofSettings, hread], by rw [call, ofSettings, hread]⟩
  · rw [hsome] at hfollows
    obtain ⟨s, hs, hread⟩ := hfollows.read_of_some
    exact ⟨s, hs, by rw [call, ofSettings, hread], by rw [call, ofSettings, hread]⟩

/-- The second initialisation panics with its limit stored, and the third one is rejected. -/
example :
    let p := calls {} [.init, .setMaxSteps (some " +7\n".toUTF8), .init,
      .setMaxSteps (some "-1".toUTF8), .init]
    (p.call .init).1 = .rejected ⟨"-1", .invalidDigit⟩ ∧
      (p.call .maxSteps).1 = .maxSteps (some 7) :=
  ⟨rfl, rfl⟩

end Process

end Ram
