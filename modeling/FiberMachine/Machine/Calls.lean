import FiberMachine.Machine.Basic

/-!
# Calls, methods and printing

A call puts a return marker and then the caller's environment on the return stack and installs the
callee's environment: the one the closure was made in, extended by a frame with copies of the
arguments. A return goes back to the innermost marker, restoring every environment on the way.
Methods exist only on wait groups.
-/

namespace FiberMachine.Machine

open Heap

/-- Make a closure over the current environment. -/
def execLoadFunc (context : Addr) (pc entry arity : Nat) : MachineM Unit := do
  let env ← Context.environment context
  let closure ← Closure.create entry arity env pc
  push context closure

/-- Give the parameters in a frame copies of the arguments, from slot `i` on. -/
def bindParameters (frame : Addr) (i : Nat) : List Addr → MachineM Unit
  | [] => pure ()
  | argument :: rest => do
    let copy ← Value.copy argument
    Scope.setSlot frame i copy
    bindParameters frame (i + 1) rest

/-- The environment in which a closure runs with the given arguments. -/
def bindArguments (closure : Addr) (arguments : List Addr) : MachineM Addr := do
  let arity ← Closure.arity closure
  if arity ≠ arguments.length then abort (.arityMismatch arity arguments.length)
  let frame ← protecting (Scope.newFrame arity)
  bindParameters frame 0 arguments
  let captured ← Closure.environment closure
  let env ← protecting (Scope.extend captured frame)
  noteOrigin frame (← Closure.declaration closure)
  return env

/-- Fail unless there are `n` arguments. -/
def expectArguments (arguments : List Addr) (n : Nat) : MachineM Unit := do
  if arguments.length ≠ n then abort (.arityMismatch n arguments.length)

/-- Wake the contexts that a wait group has released. -/
def wakeAll (released : List Addr) : MachineM Outcome := do
  released.forM wake
  return .proceed

/-- Run a method of an object. -/
def callMethod (context receiver : Addr) (method : String) (arguments : List Addr) :
    MachineM Outcome := do
  match ← tag receiver, method with
  | .waitGroup, "Add" =>
    expectArguments arguments 1
    let delta ← Scalar.expectInt (arguments.headD unassigned)
    wakeAll (← WaitGroup.add receiver delta)
  | .waitGroup, "Done" =>
    expectArguments arguments 0
    wakeAll (← WaitGroup.done receiver)
  | .waitGroup, "Wait" =>
    expectArguments arguments 0
    if ← WaitGroup.wait receiver context then
      note .debug fun _ => s!"context @{context} waits on wait group @{receiver}"
      return .block
    else
      return .proceed
  | t, _ => abort (.unknownMethod t method)

/-- `[function, argument...]`: begin a call, or run a bound method. -/
def execCall (context : Addr) (returnPc argc : Nat) : MachineM Outcome := do
  let arguments ← popMany context argc
  let callee ← pop context
  if (← tag callee) = .method then
    let receiver ← Method.receiver callee
    let name ← Text.toString (← Method.name callee)
    callMethod context receiver name arguments
  else
    expect callee .func
    let env ← bindArguments callee arguments
    let marker ← ReturnMarker.create (some returnPc)
    Context.pushReturn context marker
    Context.enterEnvironment context env
    Context.setPc context (← Closure.entry callee)
    return .proceed

/-- Take entries off the return stack, at most `n`, up to and including a marker. -/
def unwind (context : Addr) : Nat → MachineM Outcome
  | 0 => abort .returnsExhausted
  | n + 1 => do
    if ← Stack.isEmpty (← Context.returnStack context) then abort .returnsExhausted
    let entry ← Context.popReturn context
    match ← tag entry with
    | .environment =>
      Context.setEnvironment context entry
      unwind context n
    | .callRef =>
      match ← ReturnMarker.target entry with
      | some pc =>
        Context.setPc context pc
        return .proceed
      | none => return .finish
    | found => unexpected entry .callRef found

/-- Return from the innermost call. -/
def execReturn (context : Addr) : MachineM Outcome := do
  let entries ← Stack.length (← Context.returnStack context)
  unwind context (entries + 1)

/-- `[receiver]`: bind a method to an object. -/
def execLoadMethod (context : Addr) (method : String) : MachineM Unit := do
  let receiver ← pop context
  let bound ← Method.create receiver method
  push context bound

/-- `[receiver, argument...]`: run a method. -/
def execCallMethod (context : Addr) (method : String) (argc : Nat) : MachineM Outcome := do
  let arguments ← popMany context argc
  let receiver ← pop context
  callMethod context receiver method arguments

/-- `[function, argument...]`: begin a call in a context of its own, which ends when the function
returns. -/
def execGo (context : Addr) (argc : Nat) : MachineM Unit := do
  let arguments ← popMany context argc
  let closure ← pop context
  expect closure .func
  let env ← bindArguments closure arguments
  let id ← freshId
  let entry ← Closure.entry closure
  let child ← Context.create entry env id
  registerContext child
  let marker ← ReturnMarker.create none
  Context.pushReturn child marker
  spawn child
  note .debug fun _ => s!"context {id} (@{child}) forked at pc {entry}"

/-- `[value...]`: print the values, on a line of their own and separated by blanks or one right
after the other. -/
def execPrint (context : Addr) (argc : Nat) (newline : Bool) : MachineM Unit := do
  let values ← popMany context argc
  let parts ← values.mapM fun v => (Value.display v : MachineM String)
  let text := if newline then " ".intercalate parts ++ "\n" else String.join parts
  modify fun m => { m with output := m.output ++ text }

end FiberMachine.Machine
