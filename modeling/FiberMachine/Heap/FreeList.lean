import FiberMachine.Heap.Basic

/-!
# Free lists

The free blocks of one level form a circular list linked through their headers in both directions.
The heap holds the address of the first block; the last one is the block before it. `pushFree`
appends a block at the end, `unlinkFree` takes one out wherever it stands, and the first block of
the list moves only when it is the one taken out.
-/

namespace FiberMachine.Heap

/-- The free block before the free block at `addr`. -/
def previousFree (addr : Addr) : HeapReader Addr := return (← field Header.previous addr).toNat

/-- The free block after the free block at `addr`. -/
def nextFree (addr : Addr) : HeapReader Addr := return (← field Header.next addr).toNat

def setPreviousFree (addr previous : Addr) : HeapM Unit :=
  setField Header.previous addr (UInt64.ofNat previous)

def setNextFree (addr next : Addr) : HeapM Unit :=
  setField Header.next addr (UInt64.ofNat next)

/-- The first free block of a level, if there is one. -/
def firstFree (lvl : Nat) : HeapReader (Option Addr) := fun h =>
  match h.freeLists[lvl]? with
  | some first => .ok first
  | none => .error (.fault (.freeListLevel lvl))

/-- Replace the first free block of a level. -/
def setFirstFree (lvl : Nat) (first : Option Addr) : HeapM Unit :=
  modify fun h => { h with freeLists := h.freeLists.setIfInBounds lvl first }

/-- Make the block at `addr` a free block of the given level, last in the list of that level. -/
def pushFree (addr : Addr) (lvl : Nat) : HeapM Unit := do
  setWord addr (Header.fresh true lvl)
  match ← firstFree lvl with
  | none =>
    setPreviousFree addr addr
    setNextFree addr addr
    setFirstFree lvl (some addr)
  | some first =>
    let last ← previousFree first
    setNextFree last addr
    setPreviousFree addr last
    setNextFree addr first
    setPreviousFree first addr

/-- Take the free block at `addr` out of the list of the given level. -/
def unlinkFree (addr : Addr) (lvl : Nat) : HeapM Unit := do
  let next ← nextFree addr
  if next = addr then
    let _ ← firstFree lvl
    setFirstFree lvl none
  else
    let previous ← previousFree addr
    setNextFree previous next
    setPreviousFree next previous
    if (← firstFree lvl) = some addr then setFirstFree lvl (some next)

/-- Put the upper halves of a block of level `lvl + n` at `addr` on the free lists, largest first,
so that a block of level `lvl` remains. -/
def splitFree (addr : Addr) (lvl : Nat) : Nat → HeapM Unit
  | 0 => pure ()
  | n + 1 => do
    pushFree (addr + levelWords (lvl + n)) (lvl + n)
    splitFree addr lvl n

/-- Take a block of level `lvl` from the first list, among those of the levels `lvl`, `lvl + 1`,
... with `n` of them left to try, that has one. -/
def takeFreeFrom (lvl : Nat) (tried : Nat) : Nat → HeapM (Option Addr)
  | 0 => pure none
  | n + 1 => do
    match ← firstFree (lvl + tried) with
    | none => takeFreeFrom lvl (tried + 1) n
    | some addr =>
      unlinkFree addr (lvl + tried)
      splitFree addr lvl tried
      return some addr

/-- Take a block of level `lvl` from the free lists, splitting a larger one if need be. -/
def takeFree (lvl : Nat) : HeapM (Option Addr) := do
  takeFreeFrom lvl 0 ((← get).levels + 1 - lvl)

/-- Merge a block of level `lvl` at `addr` with its buddy as long as the buddy is free and of the
same level, at most `n` times. Answers the merged block, which is on no list. -/
def mergeFree (addr : Addr) (lvl : Nat) : Nat → HeapM (Addr × Nat)
  | 0 => pure (addr, lvl)
  | n + 1 => do
    let buddy := addr ^^^ levelWords lvl
    if ¬(← isFree buddy) then return (addr, lvl)
    if (← level buddy) ≠ lvl then return (addr, lvl)
    unlinkFree buddy lvl
    mergeFree (min addr buddy) (lvl + 1) n

/-- Return the block at `addr` to the free lists, merged with its free buddies. -/
def release (addr : Addr) : HeapM Unit := do
  let lvl ← level addr
  let (addr, lvl) ← mergeFree addr lvl ((← get).levels - lvl)
  pushFree addr lvl

end FiberMachine.Heap
