import FiberMachine.Machine.Error
import FiberMachine.Object.Value
import FiberMachine.Scheduler
import FiberMachine.Shuffle

/-!
# The machine

A machine is what all contexts of a program share: the heap, the scheduler, the text printed so
far, the generator behind select, and notes for a debugger. Actions on the heap are actions on the
machine. Operands that an instruction takes off the stack stay protected until the instruction is
over, so that an allocation in between cannot reclaim them.
-/

namespace FiberMachine

/-- For each frame the instruction that brought it into being, the newest entry first. -/
abbrev FrameOrigins := List (Addr × Nat)

/-- The state shared by all contexts. -/
structure Machine where
  heap : Heap
  scheduler : Scheduler
  output : String
  /-- Blocks written by the store instruction of the last step: where the value went, then the
  value. -/
  dirty : List Addr
  origins : FrameOrigins
  generator : Generator
  /-- The number of the next context. -/
  nextId : Nat
  /-- How many collections had run when reclaimed frames were last forgotten. -/
  prunedAt : Nat

/-- An action on the machine. -/
abbrev MachineM := EStateM MachineFailure Machine

/-- What an instruction means for the turn of its context. -/
inductive Outcome where
  | proceed
  | block
  | finish
  deriving DecidableEq

namespace Machine

/-- The machine on the given heap before anything has happened. -/
def create (heap : Heap) (timeSlice : Nat) (seed : UInt64) : Machine where
  heap := heap
  scheduler := .start timeSlice
  output := ""
  dirty := []
  origins := []
  generator := ⟨seed⟩
  nextId := 0
  prunedAt := 0

/-- The machine with one more record in its journal. -/
def record (m : Machine) (severity : Severity) (text : Unit → String) : Machine :=
  { m with heap := { m.heap with journal := m.heap.journal.note severity text } }

/-- The machine with a context at the back of the ready queue; `verb` says how it came there. -/
def enqueue (m : Machine) (verb : String) (context : Addr) : Machine :=
  let m := m.record .trace fun _ => s!"{verb} context @{context}"
  { m with scheduler := m.scheduler.enqueue context }

/-- Run an action on the heap of the machine. -/
@[inline] def onHeap {α : Type} (action : HeapM α) : MachineM α := fun m =>
  match action m.heap with
  | .ok a h => .ok a { m with heap := h }
  | .error e h => .error (e.map .heap) { m with heap := h }

/-- Look at the heap of the machine. -/
@[inline] def onReader {α : Type} (look : HeapReader α) : MachineM α := fun m =>
  match look m.heap with
  | .ok a => .ok a m
  | .error e => .error (e.map .heap) m

instance : MonadLift HeapM MachineM where
  monadLift := onHeap

instance : MonadLift HeapReader MachineM where
  monadLift := onReader

/-- Abort the program. -/
def abort {α : Type} (cause : MachineError) : MachineM α := throw (.error cause)

/-- Abort because of an object of the wrong kind. -/
def unexpected {α : Type} (addr : Addr) (expected found : Tag) : MachineM α :=
  abort (.heap (.unexpectedTag addr expected found))

/-- Add a record to the journal. -/
def note (severity : Severity) (text : Unit → String) : MachineM Unit :=
  modify (·.record severity text)

/-! ### Operands -/

/-- Take the top operand and protect it for the rest of the instruction. -/
def pop (context : Addr) : MachineM Addr := do
  let value ← Context.popOperand context
  Heap.pushRoot value
  return value

/-- Take `n` operands, which come in front of the given ones, the bottom one first. -/
def popOnto (context : Addr) (above : List Addr) : Nat → MachineM (List Addr)
  | 0 => pure above
  | n + 1 => do
    let value ← pop context
    popOnto context (value :: above) n

/-- Take `n` operands, the bottom one first. -/
def popMany (context : Addr) (n : Nat) : MachineM (List Addr) := do
  Heap.expectListable n
  popOnto context [] n

/-- Take an int operand. -/
def popInt (context : Addr) : MachineM Int64 := do
  let value ← pop context
  Scalar.expectInt value

/-- Take a bool operand. -/
def popBool (context : Addr) : MachineM Bool := do
  let value ← pop context
  Scalar.expectBool value

/-- Put an operand on the stack. -/
def push (context value : Addr) : MachineM Unit := Context.pushOperand context value

/-- Make an object and protect it for the rest of the instruction. -/
def protecting (make : HeapM Addr) : MachineM Addr := do
  let addr ← make
  Heap.pushRoot addr
  return addr

/-- Copy values for storage, protecting each copy. -/
def copies : List Addr → MachineM (List Addr)
  | [] => pure []
  | v :: rest => do
    let copy ← protecting (Value.copy v)
    return copy :: (← copies rest)

/-- Note which blocks a store has written. -/
def markDirty (target value : Addr) : MachineM Unit :=
  modify fun m => { m with dirty := m.dirty ++ [target, value] }

/-! ### Contexts -/

/-- Queue a new context. -/
def spawn (context : Addr) : MachineM Unit := modify (·.enqueue "spawn" context)

/-- Queue a context that was blocked. -/
def wake (context : Addr) : MachineM Unit := modify (·.enqueue "wake" context)

/-- The number of a new context. -/
def freshId : MachineM Nat :=
  modifyGet fun m => (m.nextId, { m with nextId := m.nextId + 1 })

/-! ### Frame origins -/

/-- Note which instruction brought a frame into being. -/
def noteOrigin (frame : Addr) (pc : Nat) : MachineM Unit :=
  modify fun m => { m with origins := (frame, pc) :: m.origins }

/-- The entries whose address still looks like that of an allocated frame. -/
def liveOrigins : FrameOrigins → HeapReader FrameOrigins
  | [] => pure []
  | (frame, pc) :: rest => do
    let live ← (do if ← Heap.isFree frame then return false else return (← Heap.tag frame) == .frame)
    let others ← liveOrigins rest
    return if live then (frame, pc) :: others else others

/-- Forget the origins of frames that collections have reclaimed since the last time. -/
def pruneOrigins : MachineM Unit := do
  let collections := (← get).heap.stats.collections
  if collections ≠ (← get).prunedAt then
    let origins ← liveOrigins (← get).origins
    modify fun m => { m with prunedAt := collections, origins := origins }

end Machine

end FiberMachine
