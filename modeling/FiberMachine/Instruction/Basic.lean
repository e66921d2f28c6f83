import FiberMachine.Binary64
import FiberMachine.Instruction.Operator

/-!
# Instructions

A program is an array of instructions; jump targets, function entries and the resume points of
select cases are positions in it. Operands are on the operand stack of the context that executes
the instruction; the comments list them from the bottom up.
-/

namespace FiberMachine

/-- The types that have a zero value. -/
inductive ValueKind where
  | int
  | float
  | bool
  | string
  /-- The nil slice. -/
  | slice
  /-- The nil channel. -/
  | chan
  /-- The nil function. -/
  | func
  /-- A new wait group. -/
  | waitGroup
  deriving DecidableEq

namespace ValueKind

/-- All types in order. -/
def all : List ValueKind := [.int, .float, .bool, .string, .slice, .chan, .func, .waitGroup]

def name : ValueKind → String
  | .int => "Int"
  | .float => "Float"
  | .bool => "Bool"
  | .string => "String"
  | .slice => "Slice"
  | .chan => "Chan"
  | .func => "Func"
  | .waitGroup => "WaitGroup"

end ValueKind

/-- One step of a program. -/
inductive Instruction where
  | nop
  | loadInt (value : Int64)
  | loadFloat (value : Binary64)
  | loadBool (value : Bool)
  | loadString (value : String)
  | loadDefault (kind : ValueKind)
  | loadUnassigned
  | pop
  | dup
  | loadVar (frame slot : Nat)
  /-- `[value]`: give the variable a copy of the value. -/
  | storeVar (frame slot : Nat)
  /-- `[left, right]` -/
  | binary (op : BinaryOp)
  | unary (op : UnaryOp)
  | jump (target : Nat)
  /-- `[condition]` -/
  | jumpIfFalse (target : Nat)
  /-- `[condition]` -/
  | jumpIfTrue (target : Nat)
  /-- Enter a scope with one variable for each name. -/
  | enterScope (names : List String)
  | exitScope
  /-- Make a closure over the environment; the parameters fill the callee's first frame. -/
  | loadFunc (entry : Nat) (params : List String)
  /-- `[function, argument...]` -/
  | call (argc : Nat)
  /-- Go back to the innermost return marker; results stay on the operand stack. -/
  | ret
  /-- `[receiver]`: bind a method to it. -/
  | loadMethod (method : String)
  /-- `[receiver, argument...]` -/
  | callMethod (method : String) (argc : Nat)
  /-- `[element...]` -/
  | makeArray (len : Nat)
  /-- `[length]` or `[length, capacity]` -/
  | makeSlice (elem : ValueKind) (hasCap : Bool)
  /-- `[container, index]` -/
  | index
  /-- `[container, index, value]` -/
  | storeIndex
  | len
  | cap
  /-- `[container, low?, high?]` -/
  | slice (low high : Bool)
  /-- `[slice, value...]` -/
  | append (argc : Nat)
  /-- `[]` or `[capacity]` -/
  | makeChan (buffered : Bool)
  /-- `[channel, value]` -/
  | send
  /-- `[channel]` -/
  | recv
  /-- `[channel, value]`: make a case that sends and goes on at the target. -/
  | selectSend (target : Nat)
  /-- `[channel]`: make a case that receives into a new scope and goes on at the target. -/
  | selectRecv (target : Nat) (name : String)
  /-- `[case...]` -/
  | select (cases : Nat) (default? : Option Nat)
  /-- `[function, argument...]`: run the call in a context of its own. -/
  | go (argc : Nat)
  /-- `[value...]` -/
  | print (argc : Nat) (newline : Bool)
  /-- End the context. -/
  | done
  deriving DecidableEq

namespace Instruction

/-- The positions in the program that the instruction names. -/
def targets : Instruction → List Nat
  | jump t | jumpIfFalse t | jumpIfTrue t => [t]
  | loadFunc entry _ => [entry]
  | selectSend t | selectRecv t _ => [t]
  | select _ (some t) => [t]
  | _ => []

/-- The instruction with its target replaced; instructions that have no place for one stay. -/
def retarget (target : Nat) : Instruction → Instruction
  | jump _ => jump target
  | jumpIfFalse _ => jumpIfFalse target
  | jumpIfTrue _ => jumpIfTrue target
  | loadFunc _ params => loadFunc target params
  | selectSend _ => selectSend target
  | selectRecv _ name => selectRecv target name
  | select cases _ => select cases (some target)
  | i => i

/-- The names of the variables in a frame that the instruction brings into being. -/
def variableNames : Instruction → List String
  | enterScope names => names
  | loadFunc _ params => params
  | selectRecv _ name => [name]
  | _ => []

end Instruction

end FiberMachine
