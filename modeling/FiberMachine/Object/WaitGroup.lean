import FiberMachine.Object.Channel

/-!
# Wait groups

A wait group is a counter and a queue of the contexts that wait for it to come down to zero. When it
does, all of them are released, in the order in which they came.
-/

namespace FiberMachine.WaitGroup

open Heap

def counterField : Nat := 0
def waitersField : Nat := 1

/-- A wait group with counter zero. -/
def create : HeapM Addr := do
  let waiters ← Queue.create 0
  let addr ← withRoots [waiters] (allocateTagged .waitGroup 2)
  writeNat addr waitersField waiters
  return addr

def counter (addr : Addr) : HeapReader Int64 := return (← read addr counterField).toInt64

/-- The queue of waiting contexts. -/
def waiters (addr : Addr) : HeapReader Addr := readNat addr waitersField

/-- The waiting contexts, the oldest first. -/
def waiting (addr : Addr) : HeapReader (List Addr) := do
  Queue.items (← waiters addr)

/-- Release up to `n` waiting contexts. Answers them in order. -/
def releaseFrom (waiters : Addr) : Nat → HeapM (List Addr)
  | 0 => pure []
  | n + 1 => do
    match ← Queue.pop waiters with
    | none => return []
    | some context =>
      Channel.cancelWaits context
      Context.setBlocked context false
      return context :: (← releaseFrom waiters n)

/-- Release all waiting contexts. Answers them in order. -/
def releaseAll (addr : Addr) : HeapM (List Addr) := do
  let waiters ← waiters addr
  let count ← Queue.length waiters
  expectListable count
  releaseFrom waiters count

/-- Change the counter. Answers the contexts that are released because it is now zero. -/
def add (addr : Addr) (delta : Int64) : HeapM (List Addr) := do
  let next := (← counter addr).toInt + delta.toInt
  if next < 0 then reject .negativeCounter
  if Int64.maxValue.toInt < next then throw (.fault .arithmetic)
  write addr counterField (UInt64.ofNat next.toNat)
  if next = 0 then releaseAll addr else return []

/-- Count one down. -/
def done (addr : Addr) : HeapM (List Addr) := add addr (-1)

/-- Let a context wait unless the counter is zero. Answers whether it waits. -/
def wait (addr context : Addr) : HeapM Bool := do
  if (← counter addr) = 0 then return false
  let waiters ← waiters addr
  withRoots [addr, context] do
    Queue.push waiters context
    LinkedList.pushBack (← Context.waitList context) addr
  Context.setBlocked context true
  return true

end FiberMachine.WaitGroup
