import Ram.Machine.Fault
import Ram.Program
import Ram.Registers
import Ram.Text

/-!
# The machine

A `Machine` is the state of a program that is being run, and a `Sink` takes what it prints. `step`
executes the statement at the program counter; `run` steps until the program halts or fails. What a
statement does is decided from the registers alone (`effect`), before anything changes, so a
statement that fails leaves the registers and the program counter as they were and only counts as a
step. A step that is traced tells of its statement in a line (`tracedStep`).
-/

namespace Ram

open Ram.Source

/-! ## Sinks -/

/-- Collects the text that a program prints, with room for a limited number of bytes perhaps: it
then takes all that fits, and the write that does not fit fails. Printed text is ASCII, so its
characters are its bytes. -/
structure Sink where
  text : String := ""
  /-- How many more bytes are taken, if that is limited. -/
  room : Option Nat := none
  deriving DecidableEq, Repr

namespace Sink

/-- What a write that finds no room fails with. -/
def fullMessage : String := "sink is full"

/-- Appends a text. On failure the sink holds as much of the text as fitted. -/
def write (out : Sink) (t : String) : Except Sink Sink :=
  match out.room with
  | none => .ok { out with text := out.text ++ t }
  | some n =>
    if t.length ≤ n then .ok ⟨out.text ++ t, some (n - t.length)⟩
    else .error ⟨out.text ++ String.ofList (t.toList.take n), some 0⟩

end Sink

/-! ## The state -/

structure Machine where
  regs : Registers := {}
  pc : Nat := 0
  /-- The statements begun so far, a failing one and the final `END` included. -/
  steps : Nat := 0
  halted : Bool := false
  /-- The number of steps after which the machine refuses to go on. -/
  limit : Option Nat := none
  deriving DecidableEq

/-! ## Effects -/

/-- The new accumulator, none for a division by zero. Results wrap around to 64 bits, and
division truncates toward zero. -/
def Operation.apply : Operation → Int64 → Int64 → Option Int64
  | load, _, b => some b
  | add, a, b => some (a + b)
  | sub, a, b => some (a - b)
  | mul, a, b => some (a * b)
  | div, a, b => if b = 0 then none else some (a / b)

/-- The register that an address names. -/
def Address.resolve (a : Address) (regs : Registers) (site : Site) : Except Fault Nat :=
  match a.mode with
  | .direct => .ok a.index
  | .indirect =>
    let i := regs.get a.index
    if i < 0 then .error (.negativeRegister i site) else .ok i.toInt.toNat

def Operand.value (o : Operand) (regs : Registers) (site : Site) : Except Fault Int64 :=
  match o with
  | .const v => .ok v
  | .cell a => do return regs.get (← a.resolve regs site)

/-- The statement that a jump leads to. -/
def Jump.resolve (j : Jump) (labels : Labels) (line : Nat) : Except Fault Nat :=
  match labels.get? j.label with
  | some i => .ok i
  | none => .error (.unresolvedLabel j.label ⟨line, j.span⟩)

inductive Effect where
  /-- Write a register and go on. -/
  | write (index : Nat) (value : Int64)
  /-- Print the first registers and go on. -/
  | print (count : Nat)
  | jump (target : Nat)
  | next
  | stop
  deriving DecidableEq, Repr

/-- What a statement does to a machine with these registers. -/
def Statement.effect (s : Statement) (labels : Labels) (regs : Registers) : Except Fault Effect :=
  match s.instruction with
  | .compute op operand => do
    let rhs ← operand.value regs s.site
    match op.apply regs.acc rhs with
    | some v => return .write 0 v
    | none => .error (.divisionByZero s.site)
  | .store target => do return .write (← target.resolve regs s.site) regs.acc
  | .dump count => .ok (.print count)
  | .goto target => do return .jump (← target.resolve labels s.site.line)
  | .branch cmp value target =>
    if cmp.holds regs.acc value then do return .jump (← target.resolve labels s.site.line)
    else .ok .next
  | .halt => .ok .stop

/-! ## Dumps -/

def dumpHeader (pc : Nat) : String := "--- DUMP (PC: " ++ toString pc ++ ") ---\n"

def dumpCell (i : Nat) (v : Int64) : String :=
  "c(" ++ toString i ++ "): \t" ++ toString v.toInt ++ "\n"

/-- Writes `n` cells from index `i` on, up to the first write that fails. -/
def Sink.writeCells (regs : Registers) (i : Nat) : Nat → Sink → Except Sink Sink
  | 0, out => .ok out
  | n + 1, out =>
    match out.write (dumpCell i (regs.get i)) with
    | .ok out => out.writeCells regs (i + 1) n
    | .error out => .error out

def Sink.writeDump (out : Sink) (pc : Nat) (regs : Registers) (count : Nat) : Except Sink Sink :=
  match out.write (dumpHeader pc) with
  | .ok out => out.writeCells regs 0 count
  | .error out => .error out

/-! ## Steps -/

/-- The outcome of one step. -/
inductive Step where
  | running
  | halted
  | failed (fault : Fault)
  deriving DecidableEq, Repr

namespace Machine

def acc (m : Machine) : Int64 := m.regs.acc

/-- The step limit, once it is reached. -/
def reachedLimit? (m : Machine) : Option Nat := m.limit.filter (· ≤ m.steps)

/-- Carries out an effect. -/
def perform (m : Machine) (out : Sink) : Effect → Step × Machine × Sink
  | .write i v => (.running, { m with regs := m.regs.set i v, pc := m.pc + 1 }, out)
  | .print count =>
    match out.writeDump m.pc m.regs count with
    | .ok out => (.running, { m with pc := m.pc + 1 }, out)
    | .error out => (.failed (.output Sink.fullMessage), m, out)
  | .jump target => (.running, { m with pc := target }, out)
  | .next => (.running, { m with pc := m.pc + 1 }, out)
  | .stop => (.halted, { m with halted := true }, out)

/-- Executes a statement, which counts as a step whether or not it succeeds. -/
def execute (p : Program) (m : Machine) (s : Statement) (out : Sink) : Step × Machine × Sink :=
  let m := { m with steps := m.steps + 1 }
  match s.effect p.labels m.regs with
  | .ok e => m.perform out e
  | .error fault => (.failed fault, m, out)

/-- The statement that the next step executes, or how the step ends without one: a machine that
has halted stays so, then a missing `END` is told, then the step limit. -/
def fetch (p : Program) (m : Machine) : Except Step Statement :=
  if m.halted then .error .halted
  else
    match p.statements[m.pc]? with
    | none => .error (.failed (.missingEnd m.acc))
    | some s =>
      match m.reachedLimit? with
      | some limit => .error (.failed (.stepLimit limit m.pc))
      | none => .ok s

/-- What a trace tells of a statement: the program counter with at least four digits, and the
instruction. -/
def traceLine (pc : Nat) (i : Instruction) : String :=
  Text.padLeft 6 ' ' (Text.padLeft 4 '0' (toString pc)) ++ " " ++ i.text

/-- One step. If it is traced and a statement begins, the line for that statement comes with it. -/
def tracedStep (p : Program) (traced : Bool) (m : Machine) (out : Sink) :
    Option String × Step × Machine × Sink :=
  match m.fetch p with
  | .ok s => (if traced then some (traceLine m.pc s.instruction) else none, m.execute p s out)
  | .error e => (none, e, m, out)

/-- One step that is not traced. -/
def step (p : Program) (m : Machine) (out : Sink) : Step × Machine × Sink :=
  (m.tracedStep p false out).2

/-! ## Runs -/

/-- How a run ended. -/
inductive Ending where
  | halted
  | failed (fault : Fault)
  /-- The run was given up before it ended. -/
  | unfinished
  deriving DecidableEq, Repr

/-- Steps until the program halts or fails, at most `n` times. -/
def runFor (p : Program) : Nat → Machine → Sink → Ending × Machine × Sink
  | 0, m, out => (.unfinished, m, out)
  | n + 1, m, out =>
    match m.step p out with
    | (.running, m, out) => runFor p n m out
    | (.halted, m, out) => (.halted, m, out)
    | (.failed fault, m, out) => (.failed fault, m, out)

/-- A number of steps in which a limited run is sure to end. Without a limit a run is followed
for as many steps as a 64-bit counter counts. -/
def patience (m : Machine) : Nat :=
  match m.limit with
  | some limit => limit - m.steps + 1
  | none => 0x10000000000000000

def run (p : Program) (m : Machine) (out : Sink) : Ending × Machine × Sink :=
  runFor p m.patience m out

end Machine

end Ram
