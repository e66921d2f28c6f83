import FiberMachine.Heap.Allocation

/-!
# Counted sequences of references

Arrays, frames and environments hold their length and then that many references. A new sequence
refers to the unassigned object everywhere.
-/

namespace FiberMachine.Sequence

open Heap

/-- A sequence of `len` references. -/
def create (t : Tag) (len : Nat) : HeapM Addr := do
  if wordLimit ≤ len + 1 then reject (.outOfMemory len)
  let addr ← allocateTagged t (len + 1)
  writeNat addr 0 len
  return addr

/-- The number of references. -/
def length (addr : Addr) : HeapReader Nat := readNat addr 0

/-- Reference `i`; the position is not compared with the length. -/
def slot (addr : Addr) (i : Nat) : HeapReader Addr := readNat addr (1 + i)

/-- Replace reference `i`; the position is not compared with the length. -/
def setSlot (addr : Addr) (i : Nat) (value : Addr) : HeapM Unit := writeNat addr (1 + i) value

/-- The position that `index` names; positions outside the sequence are rejected. -/
def position (addr : Addr) (index : Int) : HeapReader Nat := do
  let len ← length addr
  if index < 0 ∨ (len : Int) ≤ index then reject (.indexOutOfRange index len)
  return index.toNat

/-- Reference `index`; positions outside the sequence are rejected. -/
def get (addr : Addr) (index : Int) : HeapReader Addr := do
  slot addr (← position addr index)

/-- Replace reference `index`; positions outside the sequence are rejected. -/
def set (addr : Addr) (index : Int) (value : Addr) : HeapM Unit := do
  setSlot addr (← position addr index) value

/-- All references. -/
def toList (addr : Addr) : HeapReader (List Addr) := countedReferences addr

/-- Replace the references from position `i` on. -/
def setSlots (addr : Addr) (i : Nat) (values : List Addr) : HeapM Unit :=
  writeNats addr (1 + i) values

/-- Replace `n` references from position `i` on by those of `src` from position `j` on. -/
def copySlots (src : Addr) (j : Nat) (dst : Addr) (i : Nat) : Nat → HeapM Unit
  | 0 => pure ()
  | n + 1 => do
    setSlot dst i (← slot src j)
    copySlots src (j + 1) dst (i + 1) n

/-- An array of `len` unassigned elements. -/
def newArray (len : Nat) : HeapM Addr := create .array len

/-- An array of the given elements. -/
def arrayOf (elements : List Addr) : HeapM Addr := do
  let addr ← withRoots elements (newArray elements.length)
  setSlots addr 0 elements
  return addr

end FiberMachine.Sequence
