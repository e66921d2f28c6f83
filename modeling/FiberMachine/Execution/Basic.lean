import FiberMachine.Execution.Config
import FiberMachine.Machine.Dispatch

/-!
# Executing a program

An execution is a program together with the machine it runs on. One step executes one instruction
of the context whose turn it is. The execution is over when an instruction fails, when the main
context has ended and no other context can run, or when no context can run at all; if the main
context is then still waiting, that is a deadlock. Contexts that are still blocked at the end are
abandoned.
-/

namespace FiberMachine

/-- A program in execution. -/
structure Execution where
  code : Array Instruction
  config : Config
  machine : Machine
  /-- The main context. -/
  main : Addr
  /-- Instructions executed by all contexts. -/
  executed : Nat
  mainDone : Bool
  finished : Bool

/-- An action on an execution. -/
abbrev ExecutionM := EStateM MachineFailure Execution

/-- What a step did. -/
inductive StepOutcome where
  /-- One instruction, fetched from `pc`, was executed in `context`. -/
  | executed (context : Addr) (pc : Nat)
  /-- The execution is over, and no instruction was executed. -/
  | finished
  deriving DecidableEq

/-- An execution that could not be set up, with the journal up to then. -/
structure Stillborn where
  failure : HeapFailure
  journal : Journal

namespace Execution

/-! ### Setting up -/

/-- Make the main context, which starts at instruction 0 without variables. -/
def createMain : HeapM Addr := do
  let env ← Scope.newEnvironment
  let main ← Context.create 0 env 0
  Heap.registerContext main
  return main

/-- The execution of a program whose main context has been made. -/
def ofMain (code : Array Instruction) (config : Config) (heap : Heap) (main : Addr) : Execution :=
  let m := Machine.create heap config.timeSlice (config.selectSeed.getD 0)
  let m := { m with nextId := 1 }.enqueue "spawn" main
  let m := m.record .debug fun _ =>
    s!"process created: {code.size} instructions, {heap.capacity} heap words"
  { code := code
    config := config
    machine := m
    main := main
    executed := 0
    mainDone := false
    finished := false }

/-- Set up the execution of a program. -/
def start (code : Array Instruction) (config : Config) (journal : Journal) :
    Except Stillborn Execution :=
  match Heap.create config.heapWords journal with
  | .error e => .error ⟨e, journal⟩
  | .ok heap =>
    match createMain heap with
    | .error e heap => .error ⟨e, heap.journal⟩
    | .ok main heap => .ok (ofMain code config heap main)

/-! ### Actions -/

/-- Run an action on the machine of the execution. -/
@[inline] def onMachine {α : Type} (action : MachineM α) : ExecutionM α := fun e =>
  match action e.machine with
  | .ok a m => .ok a { e with machine := m }
  | .error f m => .error f { e with machine := m }

instance : MonadLift MachineM ExecutionM where
  monadLift := onMachine

/-- Add a record to the journal. -/
def note (severity : Severity) (text : Unit → String) : ExecutionM Unit :=
  modify fun e => { e with machine := e.machine.record severity text }

/-- Change the scheduler. -/
def schedule (f : Scheduler → Scheduler) : ExecutionM Unit :=
  modify fun e => { e with machine := { e.machine with scheduler := f e.machine.scheduler } }

/-- Abort the program. -/
def abort {α : Type} (cause : MachineError) : ExecutionM α := throw (.error cause)

/-! ### The end of an execution -/

/-- End the execution. -/
def finish : ExecutionM Unit := do
  let abandoned := (← get).machine.heap.contexts.length
  if 0 < abandoned then
    note .debug fun _ => s!"process finished, abandoning {abandoned} blocked contexts"
  modify fun e => { e with finished := true }

/-- Those of the given contexts that are blocked. -/
def blockedAmong : List Addr → HeapReader (List Addr)
  | [] => pure []
  | context :: rest => do
    let blocked ← Context.isBlocked context
    let others ← blockedAmong rest
    return if blocked then context :: others else others

/-- All blocked contexts in the order of their creation. -/
def blockedContexts : HeapReader (List Addr) := do
  blockedAmong (← Heap.itself).contexts

/-- A blocked context and the instruction at which it blocked. Its program counter already points
past that instruction. -/
def describeBlocked (code : Array Instruction) (context : Addr) : HeapReader BlockedContext := do
  let pc := (← Context.pc context) - 1
  let id ← Context.id context
  return ⟨id, pc, code[pc]?⟩

/-- The given blocked contexts, each with the instruction at which it blocked. -/
def deadlockReport (code : Array Instruction) (blocked : List Addr) :
    HeapReader (List BlockedContext) :=
  blocked.mapM (describeBlocked code)

/-- No context can run: the program is over, or the main context can never go on. -/
def stall : ExecutionM StepOutcome := do
  let e ← get
  if !e.mainDone then
    let blocked ← blockedContexts
    if e.config.detectDeadlock && !blocked.isEmpty then
      abort (.deadlock (← deadlockReport e.code blocked))
  finish
  return .finished

/-- End a context. -/
def terminate (context : Addr) : ExecutionM Unit := do
  schedule .dropCurrent
  Heap.retireContext context
  let id ← Context.id context
  note .debug fun _ => s!"context {id} terminated"
  modify fun e => { e with mainDone := e.mainDone || context == e.main }
  let e ← get
  if e.mainDone && !e.machine.scheduler.hasWork then finish

/-! ### Steps -/

/-- Continue, or end the turn of the context once its time slice is used up. -/
def endTurnIfSpent : ExecutionM Unit := do
  schedule .tick
  let s := (← get).machine.scheduler
  if s.isSpent then
    if let some context := s.current then
      note .trace fun _ => s!"preempt context @{context} after {s.sliceUsed} instructions"
    schedule .yieldCurrent

/-- What happens to the turn of a context after an instruction fetched from `pc`. -/
def settle (context : Addr) (pc : Nat) : Outcome → ExecutionM Unit
  | .proceed => endTurnIfSpent
  | .block => do
    schedule .dropCurrent
    let id ← Context.id context
    note .debug fun _ => s!"context {id} blocked at pc {pc}"
  | .finish => terminate context

/-- Count an instruction against the limit. -/
def countInstruction : ExecutionM Unit := do
  modify fun e => { e with executed := e.executed + 1 }
  let limit := (← get).config.maxInstructions
  if limit < (← get).executed then abort (.timeLimitExceeded limit)

/-- Fetch the next instruction of a context, whose program counter moves on. -/
def fetch (context : Addr) : ExecutionM (Nat × Instruction) := do
  let pc ← Context.pc context
  match (← get).code[pc]? with
  | none => abort (.pcOutOfRange pc)
  | some i =>
    Context.setPc context (pc + 1)
    note .trace fun _ => s!"context @{context} pc {pc}: {i.text}"
    return (pc, i)

/-- Execute one instruction of the context whose turn it is. -/
def advance : ExecutionM StepOutcome := do
  schedule .dispatch
  match (← get).machine.scheduler.current with
  | none => stall
  | some context =>
    countInstruction
    let (pc, i) ← fetch context
    let outcome ← Machine.execute context pc i
    Machine.pruneOrigins
    settle context pc outcome
    return .executed context pc

/-- Execute one instruction unless the execution is over. An error ends it. -/
def step : ExecutionM StepOutcome := fun e =>
  let e := { e with machine := { e.machine with dirty := [] } }
  if e.finished then .ok .finished e
  else
    match advance e with
    | .ok outcome e => .ok outcome e
    | .error (.fault f) e => .error (.fault f) e
    | .error (.error cause) e =>
      let m := e.machine.record .error fun _ =>
        s!"process aborted after {e.executed} instructions: {cause.message}"
      .error (.error cause) { e with machine := m, finished := true }

/-- Execute at most `n` instructions, stopping when the execution is over. -/
def stepMany : Nat → ExecutionM Unit
  | 0 => pure ()
  | n + 1 => do
    match ← step with
    | .executed _ _ => stepMany n
    | .finished => pure ()

/-- Execute the program to its end. Answers all that was printed. The instruction limit bounds the
number of steps. -/
def run : ExecutionM String := do
  let e ← get
  stepMany (e.config.maxInstructions - e.executed + 1)
  return (← get).machine.output

/-- A one-line summary for a debugger. -/
def describe (e : Execution) : String :=
  s!"Process \x7b instructions: {e.code.size}, executed: {e.executed}, "
    ++ s!"finished: {e.finished}, heap: {e.machine.heap.describe} \x7d"

end Execution

end FiberMachine
