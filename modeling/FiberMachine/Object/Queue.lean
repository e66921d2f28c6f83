import FiberMachine.Object.Sequence

/-!
# Queues

A queue is a ring in an array: the items stand one after the other from the position of the oldest
one on, and go on at the beginning of the array when they reach its end. Slots that hold no item
are unassigned. `tryPush` respects the capacity, `push` grows the ring.
-/

namespace FiberMachine.Queue

open Heap

def headField : Nat := 0
def lengthField : Nat := 1
def itemsField : Nat := 2

/-- The least capacity that a full queue grows to. -/
def leastGrowth : Nat := 4

/-- The empty queue with room for `capacity` items. -/
def create (capacity : Nat) : HeapM Addr := do
  let items ← Sequence.newArray capacity
  let addr ← withRoots [items] (allocateTagged .queue 3)
  writeNat addr itemsField items
  return addr

/-- The number of items. -/
def length (addr : Addr) : HeapReader Nat := readNat addr lengthField

def isEmpty (addr : Addr) : HeapReader Bool := return (← length addr) = 0

/-- The array behind a queue. -/
def storage (addr : Addr) : HeapReader Addr := readNat addr itemsField

/-- The position of the oldest item. -/
def head (addr : Addr) : HeapReader Nat := readNat addr headField

/-- The number of items there is room for. -/
def capacity (addr : Addr) : HeapReader Nat := do
  Sequence.length (← storage addr)

def isFull (addr : Addr) : HeapReader Bool := do
  let len ← length addr
  return len = (← capacity addr)

/-- Add an item at the back unless the queue is full. Answers whether it was added. -/
def tryPush (addr value : Addr) : HeapM Bool := do
  if ← isFull addr then return false
  let capacity ← capacity addr
  let head ← head addr
  let len ← length addr
  let items ← storage addr
  let i ← remainder (head + len) capacity
  Sequence.setSlot items i value
  writeNat addr lengthField (len + 1)
  return true

/-- The items from offset `i` behind the oldest one on, `n` of them. -/
def itemsFrom (items capacity head i : Nat) : Nat → HeapReader (List Addr)
  | 0 => pure []
  | n + 1 => do
    let value ← Sequence.slot items (← remainder (head + i) capacity)
    let rest ← itemsFrom items capacity head (i + 1) n
    return value :: rest

/-- All items, the oldest first. -/
def items (addr : Addr) : HeapReader (List Addr) := do
  let items ← storage addr
  let capacity ← Sequence.length items
  let head ← head addr
  let len ← length addr
  expectListable len
  itemsFrom items capacity head 0 len

/-- Move the items to the beginning of an array twice as long. -/
def grow (addr value : Addr) : HeapM Unit := do
  let old ← items addr
  let grown ← withRoots [addr, value] (Sequence.newArray (max (old.length * 2) leastGrowth))
  Sequence.setSlots grown 0 old
  writeNat addr itemsField grown
  writeNat addr headField 0

/-- Add an item at the back, in a longer ring if this one is full. -/
def push (addr value : Addr) : HeapM Unit := do
  if ← isFull addr then grow addr value
  let _ ← tryPush addr value

/-- Take the oldest item, if there is one. -/
def pop (addr : Addr) : HeapM (Option Addr) := do
  let len ← length addr
  if len = 0 then return none
  let head ← head addr
  let items ← storage addr
  let value ← Sequence.slot items head
  Sequence.setSlot items head unassigned
  let capacity ← Sequence.length items
  writeNat addr headField (← remainder (head + 1) capacity)
  writeNat addr lengthField (len - 1)
  return some value

end FiberMachine.Queue
