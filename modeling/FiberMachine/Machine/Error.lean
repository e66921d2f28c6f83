import FiberMachine.Heap.Error
import FiberMachine.Instruction.Printer

/-!
# Errors of a running program

The causes for which a program is aborted, and what each one says.
-/

namespace FiberMachine

/-- A size that an instruction takes from the operand stack. -/
inductive Extent where
  | sliceLength
  | sliceCapacity
  | channelCapacity
  deriving DecidableEq

/-- The name a size is shown under. -/
def Extent.name : Extent → String
  | .sliceLength => "makeslice: len"
  | .sliceCapacity => "makeslice: cap"
  | .channelCapacity => "makechan: size"

/-- A context that cannot go on, and the instruction at which it blocked. -/
structure BlockedContext where
  id : Nat
  pc : Nat
  instruction : Option Instruction
  deriving DecidableEq

/-- One line of a deadlock report. -/
def BlockedContext.line (b : BlockedContext) : String :=
  let text := b.instruction.elim "?" Instruction.text
  s!"  context {b.id} blocked at pc {b.pc}: {text}\n"

/-- Why a program was aborted. -/
inductive MachineError where
  | heap (cause : HeapError)
  | invalidOperands (operator : String) (operands : List Tag)
  | divisionByZero
  | negativeShift
  /-- A negative size, or a capacity below the length. -/
  | invalidLength (what : Extent) (value : Int)
  | arityMismatch (expected got : Nat)
  | unknownMethod (receiver : Tag) (method : String)
  | pcOutOfRange (pc : Nat)
  | timeLimitExceeded (limit : Nat)
  /-- A return with nothing to return to. -/
  | returnsExhausted
  /-- The main context can never go on; all blocked contexts in the order of their creation. -/
  | deadlock (blocked : List BlockedContext)
  deriving DecidableEq

/-- The text shown for an error. -/
def MachineError.message : MachineError → String
  | .heap cause => cause.message
  | .invalidOperands operator operands =>
    let tags := ", ".intercalate (operands.map Tag.name)
    s!"invalid operation: operator {operator} not defined on [{tags}]"
  | .divisionByZero => "integer divide by zero"
  | .negativeShift => "negative shift amount"
  | .invalidLength what value => s!"{what.name} out of range ({value})"
  | .arityMismatch expected got => s!"function takes {expected} arguments, called with {got}"
  | .unknownMethod receiver method => s!"{receiver.name} has no method {method}"
  | .pcOutOfRange pc => s!"program counter {pc} outside the program"
  | .timeLimitExceeded limit => s!"time limit exceeded: more than {limit} instructions executed"
  | .returnsExhausted => "return with no enclosing call"
  | .deadlock blocked =>
    "fatal error: all goroutines are asleep - deadlock!\n"
      ++ String.join (blocked.map BlockedContext.line)

abbrev MachineFailure := Failure MachineError

end FiberMachine
