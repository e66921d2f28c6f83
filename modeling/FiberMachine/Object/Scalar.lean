import FiberMachine.Heap.Allocation
import FiberMachine.Binary64

/-!
# Boxed numbers and truth values

An int, a float or a bool is a block with one payload word: the 64 bits of the number, or 0 or 1.
-/

namespace FiberMachine.Scalar

open Heap

/-- A block with one payload word. -/
def box (t : Tag) (w : Word) : HeapM Addr := do
  let addr ← allocateTagged t 1
  write addr 0 w
  return addr

def newInt (v : Int64) : HeapM Addr := box .int v.toUInt64

def newFloat (v : Binary64) : HeapM Addr := box .float v.bits

def newBool (v : Bool) : HeapM Addr := box .bool v.toUInt64

/-- The number in an int box. -/
def int (addr : Addr) : HeapReader Int64 := return (← read addr 0).toInt64

/-- The number in a float box. -/
def float (addr : Addr) : HeapReader Binary64 := return ⟨← read addr 0⟩

/-- The truth value in a bool box. -/
def bool (addr : Addr) : HeapReader Bool := return (← read addr 0) != 0

/-- The number in an int box; any other block is rejected. -/
def expectInt (addr : Addr) : HeapReader Int64 := do
  expect addr .int
  int addr

/-- The truth value in a bool box; any other block is rejected. -/
def expectBool (addr : Addr) : HeapReader Bool := do
  expect addr .bool
  bool addr

end FiberMachine.Scalar
