import FiberMachine.Execution.Basic
import FiberMachine.Proofs.Ideal.Engine

/-!
# Courses

A course is a program in execution on the ideal machine. It takes the steps that an execution takes, as long as
the memory lasts.
-/

namespace FiberMachine.Ideal

/-- A program in execution. -/
structure Course where
  code : Array Instruction
  /-- The instructions after which the program is aborted. -/
  limit : Nat
  /-- Whether it is an error that the main context can never go on. -/
  detect : Bool
  engine : Engine
  main : Ref
  executed : Nat
  mainDone : Bool
  finished : Bool

abbrev CourseM := EStateM Lapse Course

namespace Course

variable {α : Type}

/-! ### Setting up -/

/-- The store that holds only the unassigned object. -/
def blank : Store := ⟨[.unassigned], [], []⟩

/-- Make the main context, which starts at instruction 0 without variables. -/
def createMain : StoreM Ref := do
  let env ← newSequence .environment []
  let main ← newContext 0 env 0
  registerContext main
  return main

/-- The store with the main context. -/
def initial : Store := ⟨[.unassigned, .sequence .environment [], .context ⟨0, [], [], 1, false, [], 0⟩], [2], []⟩

theorem createMain_eq : createMain blank = .ok 2 initial := rfl

/-- The course of a program. -/
def start (code : Array Instruction) (config : Config) : Course where
  code := code
  limit := config.maxInstructions
  detect := config.detectDeadlock
  engine := ⟨initial, (Scheduler.start config.timeSlice).enqueue 2, some "", ⟨config.selectSeed.getD 0⟩, 1⟩
  main := 2
  executed := 0
  mainDone := false
  finished := false

/-! ### Actions -/

/-- Run an action on the engine. -/
@[inline] def onEngine (action : EngineM α) : CourseM α := fun x =>
  match action x.engine with
  | .ok a e => .ok a { x with engine := e }
  | .error l e => .error l { x with engine := e }

instance : MonadLift EngineM CourseM where
  monadLift := onEngine

theorem run_engine (n : EngineM α) (t : Course) : (liftM n : CourseM α) t = match n t.engine with
    | .ok a e => .ok a { t with engine := e }
    | .error l e => .error l { t with engine := e } := rfl

theorem run_observation (n : StoreM α) (t : Course) :
    (liftM n : CourseM α) t = match n t.engine.store with
      | .ok b s => .ok b { t with engine := { t.engine with store := s } }
      | .error l s => .error l { t with engine := { t.engine with store := s } } := by
  change (liftM (liftM n : EngineM α) : CourseM α) t = _
  rw [run_engine, Engine.run_store]
  cases n t.engine.store <;> rfl

def schedule (f : Scheduler → Scheduler) : CourseM Unit :=
  modify fun x => { x with engine := { x.engine with scheduler := f x.engine.scheduler } }

def abort (cause : MachineError) : CourseM α := throw (.error cause)

/-! ### The end -/

def finish : CourseM Unit := modify fun x => { x with finished := true }

/-- Those of the given contexts that are blocked. -/
def blockedAmong : List Ref → StoreM (List Ref)
  | [] => pure []
  | c :: rest => do
    let f ← fiber c
    let others ← blockedAmong rest
    return if f.blocked then c :: others else others

def describeBlocked (code : Array Instruction) (c : Ref) : StoreM BlockedContext := do
  let pc := (← fiber c).pc - 1
  let id := (← fiber c).id
  return ⟨id, pc, code[pc]?⟩

def deadlockReport (code : Array Instruction) (blocked : List Ref) : StoreM (List BlockedContext) :=
  blocked.mapM (describeBlocked code)

def stall : CourseM StepOutcome := do
  let x ← get
  if !x.mainDone then
    let blocked ← blockedAmong x.engine.store.contexts
    if x.detect && !blocked.isEmpty then abort (.deadlock (← deadlockReport x.code blocked))
  finish
  return .finished

/-- End a context, which must not be ready. -/
def terminate (c : Ref) : CourseM Unit := do
  schedule .dropCurrent
  if c ∈ (← get).engine.scheduler.ready then throw .wild
  retireContext c
  let _ ← fiber c
  modify fun x => { x with mainDone := x.mainDone || c == x.main }
  let x ← get
  if x.mainDone && !x.engine.scheduler.hasWork then finish

/-! ### Steps -/

def endTurnIfSpent : CourseM Unit := do
  schedule .tick
  let s := (← get).engine.scheduler
  if s.isSpent then schedule .yieldCurrent

def settle (c : Ref) : Outcome → CourseM Unit
  | .proceed => endTurnIfSpent
  | .block => do
    schedule .dropCurrent
    let _ ← fiber c
  | .finish => terminate c

def countInstruction : CourseM Unit := do
  modify fun x => { x with executed := x.executed + 1 }
  let limit := (← get).limit
  if limit < (← get).executed then abort (.timeLimitExceeded limit)

def fetch (c : Ref) : CourseM (Nat × Instruction) := do
  let pc := (← fiber c).pc
  match (← get).code[pc]? with
  | none => abort (.pcOutOfRange pc)
  | some i =>
    setPc c (pc + 1)
    return (pc, i)

def advance (depth : Nat) : CourseM (StepOutcome × List Event) := do
  schedule .dispatch
  match (← get).engine.scheduler.current with
  | none => return (← stall, [])
  | some c =>
    countInstruction
    let (pc, i) ← fetch c
    let (outcome, events) ← Engine.execute depth c pc i
    settle c outcome
    return (.executed c pc, events)

/-- Execute one instruction unless the course is over. An error ends it. -/
def step (depth : Nat) : CourseM (StepOutcome × List Event) := fun x =>
  if x.finished then .ok (.finished, []) x
  else
    match advance depth x with
    | .ok result x => .ok result x
    | .error (.error cause) x => .error (.error cause) { x with finished := true }
    | .error l x => .error l x

end Course

end FiberMachine.Ideal
