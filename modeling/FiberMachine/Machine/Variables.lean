import FiberMachine.Machine.Basic

/-!
# Constants, variables and scopes

Zero values, reading and assigning variables, and entering and leaving scopes.
-/

namespace FiberMachine.Machine

/-- The zero value of a type. -/
def zeroValue : ValueKind → HeapM Addr
  | .int => Scalar.newInt 0
  | .float => Scalar.newFloat .zero
  | .bool => Scalar.newBool false
  | .string => Text.ofBytes []
  | .slice => Slice.nil
  | .chan | .func => pure unassigned
  | .waitGroup => WaitGroup.create

/-- Put a new object on the operand stack. -/
def load (context : Addr) (make : HeapM Addr) : MachineM Unit := do
  let addr ← make
  push context addr

/-- Put the value of a variable on the operand stack. -/
def execLoadVar (context : Addr) (frame slot : Nat) : MachineM Unit := do
  let env ← Context.environment context
  push context (← Scope.lookup env frame slot)

/-- `[value]`: give a variable a copy of a value. -/
def execStoreVar (context : Addr) (frame slot : Nat) : MachineM Unit := do
  let value ← pop context
  let copy ← Value.copy value
  let env ← Context.environment context
  let target ← Scope.assign env frame slot copy
  markDirty target copy

/-- Enter a scope with `slots` variables. -/
def execEnterScope (context : Addr) (pc slots : Nat) : MachineM Unit := do
  let frame ← protecting (Scope.newFrame slots)
  let env ← Context.environment context
  let scope ← Scope.extend env frame
  Context.enterEnvironment context scope
  noteOrigin frame pc

/-- Leave a scope: install the environment saved last. -/
def execExitScope (context : Addr) : MachineM Unit := do
  let saved ← Context.popReturn context
  Heap.expect saved .environment
  Context.setEnvironment context saved

end FiberMachine.Machine
