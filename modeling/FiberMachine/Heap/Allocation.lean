import FiberMachine.Heap.Collection

/-!
# Allocation

A request is rounded up to a power of two. The block comes from the lowest level that has a free
block, and the parts of it that are not needed go back to the free lists. Only when no level has
one is a collection run, once; if that does not help, the heap is out of memory. A new block has a
zero payload, so all its references are to the unassigned object.
-/

namespace FiberMachine.Heap

/-- The least level whose blocks have at least `size` words. -/
def levelFor (size : Nat) : Nat := if size ≤ 1 then 0 else Nat.log2 (size - 1) + 1

/-- The level is the least one that suffices. -/
theorem levelFor_le {size lvl : Nat} : levelFor size ≤ lvl ↔ size ≤ levelWords lvl := by
  rw [levelWords_eq]
  unfold levelFor
  change _ ↔ size ≤ 2 ^ lvl
  split
  next h => simp; have := Nat.two_pow_pos lvl; omega
  next h =>
    have h0 : size - 1 ≠ 0 := by omega
    have := Nat.log2_lt h0 (k := lvl)
    omega

/-- Clear `n` words from `addr` on. -/
def clear (addr : Addr) : Nat → HeapM Unit
  | 0 => pure ()
  | n + 1 => do
    setWord addr 0
    clear (addr + 1) n

/-- Take a block of level `lvl`, after a collection if there is none at first. -/
def obtain (lvl : Nat) : HeapM (Option Addr) := do
  match ← takeFree lvl with
  | some addr => return some addr
  | none =>
    collect
    takeFree lvl

/-- Allocate a block of at least `size` words, header included. -/
def allocate (size : Nat) : HeapM Addr := do
  let lvl := levelFor size
  if (← get).levels < lvl then reject (.outOfMemory size)
  let some addr ← obtain lvl | reject (.outOfMemory size)
  setWord addr (Header.fresh false lvl)
  clear (addr + 1) (levelWords lvl - 1)
  return addr

/-- Allocate a block for a payload of `size` words and tag it. -/
def allocateTagged (t : Tag) (size : Nat) : HeapM Addr := do
  if wordLimit ≤ size + 1 then reject (.outOfMemory size)
  let addr ← allocate (size + 1)
  setTag addr t
  return addr

/-- Copy `n` payload words from `src` to `dst`, starting with word `i`. -/
def copyWords (dst src : Addr) (i : Nat) : Nat → HeapM Unit
  | 0 => pure ()
  | n + 1 => do
    write dst i (← read src i)
    copyWords dst src (i + 1) n

/-- Overwrite the payload of `dst` with that of `src`, up to the shorter of the two. The level and
the tag of `dst` stay. -/
def copy (dst src : Addr) : HeapM Unit := do
  if dst ≠ src then
    let n := min (← payloadWords dst) (← payloadWords src)
    copyWords dst src 0 n

/-- Allocate a block with the size, the tag and the payload of `src`. -/
def duplicate (src : Addr) : HeapM Addr := do
  let words ← blockWords src
  let dst ← withRoots [src] (allocate words)
  setTag dst (← tag src)
  copy dst src
  return dst

/-- The level of an arena for the given number of words. -/
def arenaLevel (words : Nat) : Nat := min (Nat.log2 words) maxLevel

/-- The heap in which the whole arena is still to become one block. -/
def bare (levels : Nat) (journal : Journal) : Heap where
  memory := .zeroed (levelWords levels)
  levels := levels
  freeLists := Array.replicate (levels + 1) none
  contexts := []
  temporaries := #[]
  stats := {}
  journal := journal

/-- A heap for `words` words, rounded down to a power of two, in which only the unassigned object
is allocated. -/
def create (words : Nat) (journal : Journal) : Except HeapFailure Heap :=
  if words < levelWords minLevel then
    .error (.error (.invalidCapacity words))
  else
    let levels := arenaLevel words
    let journal :=
      if levelWords levels = words then journal
      else journal.note .warn fun _ =>
        s!"heap capacity {words} rounded down to {levelWords levels} words"
    let setup : HeapM Addr := do
      pushFree 0 levels
      allocate 1
    match setup (bare levels journal) with
    | .ok _ h => .ok h
    | .error e _ => .error e

end FiberMachine.Heap
