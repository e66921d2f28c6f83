/-!
# Configuration

The limits and choices under which a program is executed.
-/

namespace FiberMachine

/-- How a program is executed. -/
structure Config where
  /-- The words of the heap, rounded down to a power of two. -/
  heapWords : Nat := 65536
  /-- Instructions that a context executes in one turn. -/
  timeSlice : Nat := 1000
  /-- Instructions of all contexts together before the program is aborted. -/
  maxInstructions : Nat := 10000000
  /-- The seed of the generator behind select, 0 if none is given. -/
  selectSeed : Option UInt64 := none
  /-- Whether it is an error that the main context can never go on. -/
  detectDeadlock : Bool := true
  deriving DecidableEq

namespace Config

def withHeapWords (c : Config) (words : Nat) : Config := { c with heapWords := words }

/-- A turn lasts at least one instruction. -/
def withTimeSlice (c : Config) (instructions : Nat) : Config :=
  { c with timeSlice := max instructions 1 }

def withMaxInstructions (c : Config) (instructions : Nat) : Config :=
  { c with maxInstructions := instructions }

def withSelectSeed (c : Config) (seed : UInt64) : Config := { c with selectSeed := some seed }

def withDeadlockDetection (c : Config) (enabled : Bool) : Config :=
  { c with detectDeadlock := enabled }

end Config

end FiberMachine
