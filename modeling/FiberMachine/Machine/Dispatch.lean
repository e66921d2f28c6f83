import FiberMachine.Machine.Calls
import FiberMachine.Machine.Collections
import FiberMachine.Machine.Communication
import FiberMachine.Machine.Operators
import FiberMachine.Machine.Variables

/-!
# Executing one instruction

`dispatch` says what each instruction does in a context whose program counter already points at the
following one. `execute` also ends the protection of the operands, whether the instruction
succeeds or not.
-/

namespace FiberMachine.Machine

/-- An instruction after which the context keeps its turn. -/
def proceeding (action : MachineM Unit) : MachineM Outcome := do
  action
  return .proceed

/-- The effect of an instruction fetched from `pc`. -/
def dispatch (context : Addr) (pc : Nat) : Instruction → MachineM Outcome
  | .nop => pure .proceed
  | .loadInt v => proceeding (load context (Scalar.newInt v))
  | .loadFloat v => proceeding (load context (Scalar.newFloat v))
  | .loadBool v => proceeding (load context (Scalar.newBool v))
  | .loadString s => proceeding (load context (Text.ofString s))
  | .loadDefault kind => proceeding (load context (zeroValue kind))
  | .loadUnassigned => proceeding (push context unassigned)
  | .pop => proceeding do
    let _ ← pop context
  | .dup => proceeding do
    let top ← Context.peekOperand context
    push context top
  | .loadVar frame slot => proceeding (execLoadVar context frame slot)
  | .storeVar frame slot => proceeding (execStoreVar context frame slot)
  | .binary op => proceeding (execBinary context op)
  | .unary op => proceeding (execUnary context op)
  | .jump target => proceeding (Context.setPc context target)
  | .jumpIfFalse target => proceeding do
    if !(← popBool context) then Context.setPc context target
  | .jumpIfTrue target => proceeding do
    if ← popBool context then Context.setPc context target
  | .enterScope names => proceeding (execEnterScope context pc names.length)
  | .exitScope => proceeding (execExitScope context)
  | .loadFunc entry params => proceeding (execLoadFunc context pc entry params.length)
  | .call argc => execCall context (pc + 1) argc
  | .ret => execReturn context
  | .loadMethod method => proceeding (execLoadMethod context method)
  | .callMethod method argc => execCallMethod context method argc
  | .makeArray n => proceeding (execMakeArray context n)
  | .makeSlice elem hasCap => proceeding (execMakeSlice context elem hasCap)
  | .index => proceeding (execIndex context)
  | .storeIndex => proceeding (execStoreIndex context)
  | .len => proceeding (execLen context)
  | .cap => proceeding (execCap context)
  | .slice low high => proceeding (execSlice context low high)
  | .append argc => proceeding (execAppend context argc)
  | .makeChan buffered => proceeding (execMakeChan context buffered)
  | .send => execSend context (pc + 1)
  | .recv => execRecv context (pc + 1)
  | .selectSend target => proceeding (execSelectSend context target)
  | .selectRecv target _ => proceeding (execSelectRecv context pc target)
  | .select cases default? => execSelect context cases default?
  | .go argc => proceeding (execGo context argc)
  | .print argc newline => proceeding (execPrint context argc newline)
  | .done => pure .finish

/-- The machine with only the `mark` oldest protected addresses. -/
def releaseRoots (m : Machine) (mark : Nat) : Machine :=
  { m with heap := { m.heap with temporaries := m.heap.temporaries.shrink mark } }

/-- Execute an instruction fetched from `pc`. -/
def execute (context : Addr) (pc : Nat) (i : Instruction) : MachineM Outcome := fun m =>
  let mark := m.heap.temporaries.size
  match dispatch context pc i m with
  | .ok outcome m => .ok outcome (m.releaseRoots mark)
  | .error e m => .error e (m.releaseRoots mark)

end FiberMachine.Machine
