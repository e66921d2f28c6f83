import FiberMachine.Heap.Allocation

/-!
# Linked lists

A list holds its length and refers to its first and last node; a node refers to its value and to
the nodes before and after it. Both ends of the chain are unassigned. Values can be taken out from
the middle, which is what waiting in several places at once needs.
-/

namespace FiberMachine.LinkedList

open Heap

def lengthField : Nat := 0
def firstField : Nat := 1
def lastField : Nat := 2

def valueField : Nat := 0
def beforeField : Nat := 1
def afterField : Nat := 2

/-- The empty list. -/
def create : HeapM Addr := allocateTagged .list 3

/-- The number of values. -/
def length (addr : Addr) : HeapReader Nat := readNat addr lengthField

def isEmpty (addr : Addr) : HeapReader Bool := return (← length addr) = 0

def first (addr : Addr) : HeapReader Addr := readNat addr firstField

def last (addr : Addr) : HeapReader Addr := readNat addr lastField

/-- The value of a node. -/
def value (node : Addr) : HeapReader Addr := readNat node valueField

/-- The node before a node. -/
def before (node : Addr) : HeapReader Addr := readNat node beforeField

/-- The node after a node. -/
def after (node : Addr) : HeapReader Addr := readNat node afterField

/-- Add a value at the end. -/
def pushBack (addr val : Addr) : HeapM Unit := do
  let node ← withRoots [addr, val] (allocateTagged .listNode 3)
  let last ← last addr
  writeNat node valueField val
  writeNat node beforeField last
  if last = unassigned then writeNat addr firstField node
  else writeNat last afterField node
  writeNat addr lastField node
  writeNat addr lengthField ((← length addr) + 1)

/-- Take a node out of the chain. -/
def unlink (addr node : Addr) : HeapM Unit := do
  let before ← before node
  let after ← after node
  if before = unassigned then writeNat addr firstField after
  else writeNat before afterField after
  if after = unassigned then writeNat addr lastField before
  else writeNat after beforeField before
  writeNat addr lengthField (← difference (← length addr) 1)

/-- The first node from `node` on whose value satisfies `p`, among `n` nodes. -/
def findFrom (p : Addr → HeapReader Bool) (node : Addr) : Nat → HeapReader (Option Addr)
  | 0 => pure none
  | n + 1 => do
    if node = unassigned then return none
    if ← p (← value node) then return some node
    findFrom p (← after node) n

/-- The first node whose value satisfies `p`. No chain has more nodes than the arena has words. -/
def find? (addr : Addr) (p : Addr → HeapReader Bool) : HeapReader (Option Addr) := do
  let node ← first addr
  findFrom p node ((← itself).capacity + 1)

/-- Take the first value, if there is one. -/
def popFront (addr : Addr) : HeapM (Option Addr) := do
  let node ← first addr
  if node = unassigned then return none
  let val ← value node
  unlink addr node
  return some val

/-- Take the first value that satisfies `p`, if there is one. -/
def takeFirst (addr : Addr) (p : Addr → HeapReader Bool) : HeapM (Option Addr) := do
  match ← find? addr p with
  | none => return none
  | some node =>
    let val ← value node
    unlink addr node
    return some val

/-- Take out the first occurrence of a value. Answers whether there was one. -/
def remove (addr val : Addr) : HeapM Bool := do
  return (← takeFirst addr fun found => pure (found == val)).isSome

/-- Take out all values. -/
def clear (addr : Addr) : HeapM Unit := do
  writeNat addr lengthField 0
  writeNat addr firstField unassigned
  writeNat addr lastField unassigned

/-- The values from a node on, among `n` nodes. -/
def valuesFrom (node : Addr) : Nat → HeapReader (List Addr)
  | 0 => pure []
  | n + 1 => do
    if node = unassigned then return []
    let val ← value node
    let rest ← valuesFrom (← after node) n
    return val :: rest

/-- All values in order. -/
def values (addr : Addr) : HeapReader (List Addr) := do
  expectListable (← length addr)
  let node ← first addr
  valuesFrom node ((← itself).capacity + 1)

end FiberMachine.LinkedList
