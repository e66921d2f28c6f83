import FiberMachine.Fault
import FiberMachine.Tag

/-!
# Errors of the heap

The causes for which an operation on the heap or on an object in it can fail, and what each one
says.
-/

namespace FiberMachine

/-- Why an operation on the heap failed. -/
inductive HeapError where
  /-- No block for `requested` words, even after a collection. -/
  | outOfMemory (requested : Nat)
  /-- A pop or peek on an empty stack. -/
  | stackUnderflow
  /-- A position outside `0 ≤ index < length`, or a bound outside its range. -/
  | indexOutOfRange (index : Int) (length : Nat)
  /-- A wait group's counter would have become negative. -/
  | negativeCounter
  /-- The block at `addr` is not of the kind the operation needs. -/
  | unexpectedTag (addr : Addr) (expected found : Tag)
  /-- Contexts would wait on one channel in opposite directions. -/
  | mixedWaiters (channel : Addr)
  /-- A heap of fewer words than the smallest arena. -/
  | invalidCapacity (words : Nat)
  /-- Partition and free lists disagree. -/
  | corrupted (detail : String)
  deriving DecidableEq

/-- The text shown for an error. -/
def HeapError.message : HeapError → String
  | .outOfMemory requested =>
    s!"out of memory: no free block for {requested} words after garbage collection"
  | .stackUnderflow => "stack underflow"
  | .indexOutOfRange index length => s!"index out of range [{index}] with length {length}"
  | .negativeCounter => "sync: negative WaitGroup counter"
  | .unexpectedTag addr expected found =>
    s!"expected {expected.name} at address {addr}, found {found.name}"
  | .mixedWaiters channel => s!"channel at {channel} already has waiters of the opposite direction"
  | .invalidCapacity words => s!"heap capacity of {words} words is too small"
  | .corrupted detail => s!"heap corrupted: {detail}"

end FiberMachine
