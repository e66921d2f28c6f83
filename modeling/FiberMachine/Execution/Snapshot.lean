import FiberMachine.Execution.Basic

/-!
# Snapshots

A snapshot shows an execution between two steps: the queues, and for every live context its
operands, the instructions around its program counter and its variables by name. The names come
from the instruction that brought the variable's frame into being.
-/

namespace FiberMachine

/-- A variable with its value. -/
structure Binding where
  name : String
  addr : Addr
  value : String

/-- What a context looks like. -/
structure ContextSnapshot where
  addr : Addr
  id : Nat
  pc : Nat
  blocked : Bool
  /-- The operands as they are printed, the bottom one first. -/
  operands : List String
  /-- The instructions around the program counter with their positions. -/
  window : List (Nat × String)
  /-- The frames in scope, the outermost first. -/
  frames : List Addr
  /-- The variables of each of these frames. -/
  scopes : List (List Binding)

/-- What an execution looks like. -/
structure Snapshot where
  ready : List Addr
  blocked : List Addr
  current : Option Addr
  contexts : List ContextSnapshot
  /-- Blocks that the last step has stored into, and what it stored. -/
  dirty : List Addr
  executed : Nat

namespace Execution

/-- How many instructions are shown on either side of a program counter. -/
def windowRadius : Nat := 3

/-- The instructions around a position. -/
def window (code : Array Instruction) (pc : Nat) : List (Nat × String) :=
  let first := pc - windowRadius
  ((code.toList.drop first).take (pc + windowRadius + 1 - first)).mapIdx
    fun i instruction => (first + i, instruction.text)

/-- The names of the variables in a frame, if it is known where the frame comes from. -/
def frameNames (e : Execution) (frame : Addr) : List String :=
  match e.machine.origins.lookup frame with
  | none => []
  | some pc => (e.code[pc]?).elim [] Instruction.variableNames

/-- The variables of a frame; those without a known name are numbered. -/
def frameBindings (e : Execution) (frame : Addr) : HeapReader (List Binding) := do
  let names := e.frameNames frame
  let values ← Scope.slots frame
  (values.zip (List.range values.length)).mapM fun (addr, i) => do
    return ⟨names.getD i s!"_{i}", addr, ← Value.display addr⟩

/-- What one context looks like. -/
def contextSnapshot (e : Execution) (context : Addr) : HeapReader ContextSnapshot := do
  let pc ← Context.pc context
  let frames ← Scope.frames (← Context.environment context)
  let scopes ← frames.mapM e.frameBindings
  return {
    addr := context
    id := ← Context.id context
    pc := pc
    blocked := ← Context.isBlocked context
    operands := ← (← Context.operands context).mapM Value.display
    window := window e.code pc
    frames := frames
    scopes := scopes }

/-- What the execution looks like now. -/
def snapshot (e : Execution) : Except HeapFailure Snapshot :=
  let look : HeapReader Snapshot := do
    return {
      ready := e.machine.scheduler.ready
      blocked := ← blockedContexts
      current := e.machine.scheduler.current
      contexts := ← e.machine.heap.contexts.mapM e.contextSnapshot
      dirty := e.machine.dirty
      executed := e.executed }
  look e.machine.heap

end Execution

end FiberMachine
