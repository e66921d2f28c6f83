import FiberMachine.Proofs.Ideal.Engine

/-!
# Opening frames

Four instructions open a frame: one that enters a scope, one that makes a case of a select that receives, and the two that begin a
call. Here they also answer the frame, and for a call the declaration of the function. Leaving that out gives the instructions
themselves.
-/

namespace FiberMachine

/-! ### The machine -/

namespace Machine

variable {c callee pc slots argc target : Nat} {xs : List Addr}

/-- Enter a scope. Answers its frame. -/
def openScope (c : Addr) (pc slots : Nat) : MachineM Addr := do
  let frame ← protecting (Scope.newFrame slots)
  let env ← Context.environment c
  let scope ← Scope.extend env frame
  Context.enterEnvironment c scope
  noteOrigin frame pc
  return frame

/-- Make a case of a select that receives. Answers its frame. -/
def openCase (c : Addr) (pc target : Nat) : MachineM Addr := do
  let channel ← pop c
  let _ ← expectChannel channel
  let frame ← protecting (Scope.newFrame 1)
  let env ← Context.environment c
  let scope ← protecting (Scope.extend env frame)
  noteOrigin frame pc
  let request ← Request.create (recvRequest c channel target frame scope)
  push c request
  return frame

/-- The environment in which a closure runs with the given arguments, its innermost frame, and the declaration of the closure. -/
def layOut (callee : Addr) (xs : List Addr) : MachineM (Addr × Addr × Nat) := do
  let arity ← Closure.arity callee
  if arity ≠ xs.length then abort (.arityMismatch arity xs.length)
  let frame ← protecting (Scope.newFrame arity)
  bindParameters frame 0 xs
  let captured ← Closure.environment callee
  let env ← protecting (Scope.extend captured frame)
  let declaration ← Closure.declaration callee
  noteOrigin frame declaration
  return (env, frame, declaration)

/-- Begin the call of a function. Answers the frame with its arguments, and its declaration. -/
def enter (c : Addr) (pc : Nat) (callee : Addr) (xs : List Addr) : MachineM (Addr × Nat) := do
  Heap.expect callee .func
  let (env, opened) ← layOut callee xs
  let marker ← ReturnMarker.create (some pc)
  Context.pushReturn c marker
  Context.enterEnvironment c env
  Context.setPc c (← Closure.entry callee)
  return opened

/-- Begin a call, or run a bound method, which opens no frame. -/
def openCall (c : Addr) (pc argc : Nat) : MachineM (Outcome × Option (Addr × Nat)) := do
  let xs ← popMany c argc
  let callee ← pop c
  if (← Heap.tag callee) = .method then
    let receiver ← Method.receiver callee
    let name ← Text.toString (← Method.name callee)
    return (← callMethod c receiver name xs, none)
  else return (.proceed, some (← enter c pc callee xs))

/-- Begin a call in a context of its own. -/
def openContext (c : Addr) (argc : Nat) : MachineM (Addr × Nat) := do
  let xs ← popMany c argc
  let callee ← pop c
  Heap.expect callee .func
  let (env, opened) ← layOut callee xs
  let id ← freshId
  let entry ← Closure.entry callee
  let child ← Context.create entry env id
  Heap.registerContext child
  let marker ← ReturnMarker.create none
  Context.pushReturn child marker
  spawn child
  note .debug fun _ => s!"context {id} (@{child}) forked at pc {entry}"
  return opened

theorem execEnterScope_eq : execEnterScope c pc slots = (do let _ ← openScope c pc slots) := by
  simp [execEnterScope, openScope]

theorem execSelectRecv_eq : execSelectRecv c pc target = (do let _ ← openCase c pc target) := by
  simp [execSelectRecv, openCase]

theorem bindArguments_eq : bindArguments callee xs = (do return (← layOut callee xs).1) := by
  simp only [bindArguments, layOut, bind_assoc]
  refine bind_congr fun arity => ?_
  split <;> simp

theorem execCall_eq : execCall c pc argc = (do return (← openCall c pc argc).1) := by
  simp only [execCall, openCall, enter, bindArguments_eq, bind_assoc, pure_bind]
  refine bind_congr fun xs => bind_congr fun callee => bind_congr fun t => ?_
  split <;> simp

theorem execGo_eq : execGo c argc = (do let _ ← openContext c argc) := by
  simp [execGo, openContext, bindArguments_eq]

end Machine

/-! ### The engine -/

namespace Ideal.Engine

variable {c callee : Ref} {pc slots argc target : Nat} {xs : List Ref}

def openScope (c : Ref) (slots : Nat) : EngineM Ref := do
  let frame ← protecting (newFrame slots)
  let f ← fiber c
  let scope ← extend f.environment frame
  enterEnvironment c scope
  return frame

def openCase (c : Ref) (target : Nat) : EngineM Ref := do
  let channel ← pop c
  let _ ← expectChannel channel
  let frame ← protecting (newFrame 1)
  let f ← fiber c
  let scope ← protecting (extend f.environment frame)
  let request ← newRequest (Machine.recvRequest c channel target frame scope)
  push c request
  return frame

def layOut (callee : Ref) (xs : List Ref) : EngineM (Ref × Ref × Nat) := do
  let arity := (← code callee).arity
  if arity ≠ xs.length then abort (.arityMismatch arity xs.length)
  let frame ← protecting (newFrame arity)
  bindParameters frame 0 xs
  let captured := (← code callee).environment
  let env ← protecting (extend captured frame)
  return (env, frame, (← code callee).declaration)

def enter (c : Ref) (pc : Nat) (callee : Ref) (xs : List Ref) : EngineM (Ref × Nat) := do
  expect callee .func
  let (env, opened) ← layOut callee xs
  let marker ← newMarker (some pc)
  pushReturn c marker
  enterEnvironment c env
  setPc c (← code callee).entry
  return opened

def openCall (c : Ref) (pc argc : Nat) : EngineM (Outcome × Option (Ref × Nat)) := do
  let xs ← popMany c argc
  let callee ← pop c
  if (← tag callee) = .method then
    let receiver := (← methodOf callee).1
    let name := Utf8.decodeLossy (← bytes (← methodOf callee).2)
    return (← callMethod c receiver name xs, none)
  else return (.proceed, some (← enter c pc callee xs))

def openContext (c : Ref) (argc : Nat) : EngineM (Ref × Nat) := do
  let xs ← popMany c argc
  let callee ← pop c
  expect callee .func
  let (env, opened) ← layOut callee xs
  let id ← freshId
  let entry := (← code callee).entry
  let child ← newContext entry env id
  registerContext child
  let marker ← newMarker none
  pushReturn child marker
  enqueue child
  return opened

theorem execEnterScope_eq : execEnterScope c slots = (do let _ ← openScope c slots) := by
  simp [execEnterScope, openScope]

theorem execSelectRecv_eq : execSelectRecv c target = (do let _ ← openCase c target) := by
  simp [execSelectRecv, openCase]

theorem bindArguments_eq : bindArguments callee xs = (do return (← layOut callee xs).1) := by
  simp only [bindArguments, layOut, bind_assoc]
  refine bind_congr fun k => ?_
  split <;> simp

theorem execCall_eq : execCall c pc argc = (do return (← openCall c pc argc).1) := by
  simp only [execCall, openCall, enter, bindArguments_eq, bind_assoc, pure_bind]
  refine bind_congr fun xs => bind_congr fun callee => bind_congr fun t => ?_
  split <;> simp

theorem execGo_eq : execGo c argc = (do let _ ← openContext c argc) := by
  simp [execGo, openContext, bindArguments_eq]

end Ideal.Engine

end FiberMachine
