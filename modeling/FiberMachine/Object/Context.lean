import FiberMachine.Object.Stack
import FiberMachine.Object.LinkedList

/-!
# Contexts

A context holds the registers of one fiber: its program counter, its operand stack, its return
stack of saved environments and return markers, its environment, whether it is blocked, the list of
what it waits for, and a number that names it.
-/

namespace FiberMachine.Context

open Heap

def pcField : Nat := 0
def operandsField : Nat := 1
def returnsField : Nat := 2
def environmentField : Nat := 3
def blockedField : Nat := 4
def waitsField : Nat := 5
def idField : Nat := 6

/-- A context that starts at `pc` in the given environment, with empty stacks. -/
def create (pc : Nat) (env : Addr) (id : Nat) : HeapM Addr :=
  withRoots [env] do
    let operands ← Stack.create
    let returns ← withRoots [operands] Stack.create
    let waits ← withRoots [operands, returns] LinkedList.create
    let addr ← withRoots [operands, returns, waits] (allocateTagged .context 7)
    writeNat addr pcField pc
    writeNat addr operandsField operands
    writeNat addr returnsField returns
    writeNat addr environmentField env
    writeNat addr waitsField waits
    writeNat addr idField id
    return addr

/-- The position of the next instruction. -/
def pc (addr : Addr) : HeapReader Nat := readNat addr pcField

def setPc (addr : Addr) (pc : Nat) : HeapM Unit := writeNat addr pcField pc

/-- The operand stack. -/
def operandStack (addr : Addr) : HeapReader Addr := readNat addr operandsField

/-- The return stack. -/
def returnStack (addr : Addr) : HeapReader Addr := readNat addr returnsField

def environment (addr : Addr) : HeapReader Addr := readNat addr environmentField

def setEnvironment (addr env : Addr) : HeapM Unit := writeNat addr environmentField env

def isBlocked (addr : Addr) : HeapReader Bool := return (← read addr blockedField) != 0

def setBlocked (addr : Addr) (blocked : Bool) : HeapM Unit :=
  write addr blockedField blocked.toUInt64

/-- The list of the requests and wait groups that the context waits for. -/
def waitList (addr : Addr) : HeapReader Addr := readNat addr waitsField

/-- The number that names the context. -/
def id (addr : Addr) : HeapReader Nat := readNat addr idField

def pushOperand (addr value : Addr) : HeapM Unit := do
  Stack.push (← operandStack addr) value

def popOperand (addr : Addr) : HeapM Addr := do
  Stack.pop (← operandStack addr)

def peekOperand (addr : Addr) : HeapReader Addr := do
  Stack.peek (← operandStack addr)

/-- The operands, the bottom one first. -/
def operands (addr : Addr) : HeapReader (List Addr) := do
  Stack.items (← operandStack addr)

def pushReturn (addr value : Addr) : HeapM Unit := do
  Stack.push (← returnStack addr) value

def popReturn (addr : Addr) : HeapM Addr := do
  Stack.pop (← returnStack addr)

/-- Save the environment on the return stack and install another one. -/
def enterEnvironment (addr env : Addr) : HeapM Unit := do
  let saved ← environment addr
  withRoots [env] (pushReturn addr saved)
  setEnvironment addr env

end FiberMachine.Context
