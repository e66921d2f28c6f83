import FiberMachine.Object.Scope

/-!
# Slices

A slice is a window onto an array: positions `first`, `first + 1`, ..., `stop - 1`. It can be
extended as far as its array reaches, which is its capacity. The nil slice has no array.
Appending within the capacity writes into the shared array; beyond it, the elements move to a new
array of at least twice the capacity.
-/

namespace FiberMachine.Slice

open Heap

def arrayField : Nat := 0
def firstField : Nat := 1
def stopField : Nat := 2

/-- The capacity that growing a slice without any starts from. -/
def leastGrowth : Nat := 4

/-- The slice of an array from position `first` up to `stop`. -/
def window (array first stop : Addr) : HeapM Addr := do
  let addr ← withRoots [array] (allocateTagged .slice 3)
  writeNat addr arrayField array
  writeNat addr firstField first
  writeNat addr stopField stop
  return addr

/-- The nil slice. -/
def nil : HeapM Addr := window unassigned 0 0

def array (addr : Addr) : HeapReader Addr := readNat addr arrayField

def first (addr : Addr) : HeapReader Nat := readNat addr firstField

def stop (addr : Addr) : HeapReader Nat := readNat addr stopField

/-- The number of elements. -/
def length (addr : Addr) : HeapReader Nat := do
  let stop ← stop addr
  difference stop (← first addr)

/-- The number of elements up to the end of the array. -/
def capacity (addr : Addr) : HeapReader Nat := do
  let array ← array addr
  if array = unassigned then return 0
  let len ← Sequence.length array
  difference len (← first addr)

/-- The position in the array of element `index`; positions outside the slice are rejected. -/
def position (addr : Addr) (index : Int) : HeapReader Nat := do
  let len ← length addr
  if index < 0 ∨ (len : Int) ≤ index then reject (.indexOutOfRange index len)
  return (← first addr) + index.toNat

/-- Element `index`. -/
def get (addr : Addr) (index : Int) : HeapReader Addr := do
  let i ← position addr index
  Sequence.slot (← array addr) i

/-- Replace element `index`. -/
def set (addr : Addr) (index : Int) (value : Addr) : HeapM Unit := do
  let i ← position addr index
  let array ← array addr
  Sequence.setSlot array i value

/-- All elements. -/
def elements (addr : Addr) : HeapReader (List Addr) := do
  let array ← array addr
  let first ← first addr
  let count := (← stop addr) - first
  expectListable count
  readNats array (1 + first) count

/-- Bounds must satisfy `0 ≤ low ≤ high ≤ capacity`; the upper one is looked at first. -/
def checkBounds (low high : Int) (capacity : Nat) : HeapReader Unit := do
  if high < 0 ∨ (capacity : Int) < high then reject (.indexOutOfRange high capacity)
  if low < 0 ∨ high < low then reject (.indexOutOfRange low high.toNat)

/-- The slice of a slice between two bounds, which default to 0 and the length. The upper bound may
go up to the capacity. -/
def ofSlice (addr : Addr) (low high : Option Int) : HeapM Addr := do
  let capacity ← capacity addr
  let length ← length addr
  let low := low.getD 0
  let high := high.getD (Scope.signed length)
  checkBounds low high capacity
  let base ← first addr
  let array ← array addr
  window array (base + low.toNat) (base + high.toNat)

/-- The slice of an array between two bounds, which default to 0 and the length. -/
def ofArray (array : Addr) (low high : Option Int) : HeapM Addr := do
  let length ← Sequence.length array
  let low := low.getD 0
  let high := high.getD (Scope.signed length)
  checkBounds low high length
  window array low.toNat high.toNat

/-- The capacity that a slice grows to in order to hold `need` elements. -/
def grownCapacity (capacity need : Nat) : Nat :=
  max need (if capacity = 0 then leastGrowth else capacity * 2)

/-- The slice with more elements at its end. -/
def append (addr : Addr) (values : List Addr) : HeapM Addr := do
  let old ← array addr
  let base ← first addr
  let length ← length addr
  let capacity ← capacity addr
  let need := length + values.length
  if need ≤ capacity then
    Sequence.setSlots old (base + length) values
    window old base (base + need)
  else
    let grown ← withRoots (values ++ [old]) (Sequence.newArray (grownCapacity capacity need))
    Sequence.copySlots old base grown 0 length
    Sequence.setSlots grown length values
    window grown 0 need

end FiberMachine.Slice
