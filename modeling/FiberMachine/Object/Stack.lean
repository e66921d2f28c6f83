import FiberMachine.Object.Sequence

/-!
# Stacks

A stack holds its length and refers to an array of its items, the bottom one first. The array
doubles when it is full. Slots beyond the length are unassigned, so a popped item is not kept
alive.
-/

namespace FiberMachine.Stack

open Heap

def lengthField : Nat := 0
def itemsField : Nat := 1

/-- The capacity of a new stack. -/
def initialCapacity : Nat := 4

/-- The empty stack. -/
def create : HeapM Addr := do
  let items ← Sequence.newArray initialCapacity
  let addr ← withRoots [items] (allocateTagged .stack 2)
  writeNat addr itemsField items
  return addr

/-- The number of items. -/
def length (addr : Addr) : HeapReader Nat := readNat addr lengthField

def isEmpty (addr : Addr) : HeapReader Bool := return (← length addr) = 0

/-- The array behind a stack. -/
def storage (addr : Addr) : HeapReader Addr := readNat addr itemsField

/-- The array behind a stack of `len` items with room for one more. -/
def room (addr : Addr) (len : Nat) (value : Addr) : HeapM Addr := do
  let items ← storage addr
  let capacity ← Sequence.length items
  if len = capacity then
    let grown ← withRoots [addr, value] (Sequence.newArray (capacity * 2))
    Sequence.copySlots items 0 grown 0 len
    writeNat addr itemsField grown
    return grown
  return items

/-- Put an item on top. -/
def push (addr value : Addr) : HeapM Unit := do
  let len ← length addr
  let items ← room addr len value
  Sequence.setSlot items len value
  writeNat addr lengthField (len + 1)

/-- Take the top item off. -/
def pop (addr : Addr) : HeapM Addr := do
  let len ← length addr
  if len = 0 then reject .stackUnderflow
  let items ← storage addr
  let value ← Sequence.slot items (len - 1)
  Sequence.setSlot items (len - 1) unassigned
  writeNat addr lengthField (len - 1)
  return value

/-- The top item. -/
def peek (addr : Addr) : HeapReader Addr := do
  let len ← length addr
  if len = 0 then reject .stackUnderflow
  Sequence.slot (← storage addr) (len - 1)

/-- All items, the bottom one first. -/
def items (addr : Addr) : HeapReader (List Addr) := do
  let items ← storage addr
  let len ← length addr
  expectListable len
  readNats items 1 len

end FiberMachine.Stack
