import FiberMachine.Heap.FreeList

/-!
# The partition of the arena

Starting at address 0 and moving on by the size in each header, one meets every block of the arena
once: the partition. `blocks` lists it, `freeWords` adds up the free part, and `check` verifies
that the blocks are aligned, that they end where the arena ends and that each free list holds
exactly as many free blocks of its level as the partition does.
-/

namespace FiberMachine

/-- One block of the partition. -/
structure Block where
  addr : Addr
  level : Nat
  free : Bool
  /-- The tag in the header; for a free block these bits belong to a link. -/
  tag : Tag
  marked : Bool
  deriving DecidableEq

/-- The size of the block, header included. -/
def Block.words (b : Block) : Nat := levelWords b.level

/-- The words of several blocks together. -/
def Block.total : List Block → Nat
  | [] => 0
  | b :: rest => b.words + total rest

/-- The block whose header is `w`. -/
def Block.ofHeader (addr : Addr) (w : Word) : Block where
  addr := addr
  level := (Header.level.get w).toNat
  free := Header.free.get w == 1
  tag := .ofNumber (Header.tag.get w).toNat
  marked := Header.mark.get w == 1

namespace Heap

/-- The blocks from `addr` on. Every block has a word, so as many steps as there are words left
suffice. -/
def blocksFrom (h : Heap) (addr : Addr) : Nat → List Block
  | 0 => []
  | n + 1 =>
    match h.memory.words[addr]? with
    | none => []
    | some w =>
      let b := Block.ofHeader addr w
      b :: h.blocksFrom (addr + b.words) n

/-- The partition in address order. -/
def blocks (h : Heap) : List Block := h.blocksFrom 0 h.capacity

/-- The number of words in free blocks, headers included. -/
def freeWords (h : Heap) : Nat := Block.total (h.blocks.filter (·.free))

/-! ### Verification -/

/-- A report that the heap is corrupted. -/
def corrupted {α : Type} (detail : String) : HeapReader α := reject (.corrupted detail)

/-- A block is no larger than the arena and starts at a multiple of its size. -/
def checkBlock (levels : Nat) (b : Block) : HeapReader Unit := do
  if levels < b.level then corrupted s!"block {b.addr} has level {b.level}"
  if b.addr % b.words ≠ 0 then corrupted s!"block {b.addr} not aligned to {b.words} words"

/-- One member of the free list of a level: it is a free block of that level, and the block after
it points back to it. Answers the block after it. -/
def checkMember (lvl : Nat) (addr : Addr) : HeapReader Addr := do
  let holds ← (do if ← isFree addr then return (← level addr) == lvl else return false)
  if ¬holds then corrupted s!"free list {lvl} holds block {addr}"
  let next ← nextFree addr
  if (← previousFree next) ≠ addr then corrupted s!"broken links at {addr}"
  return next

/-- The number of members from `addr` to the end of the list that starts at `first`, of which
there may be `n` more after this one. -/
def checkMembers (lvl : Nat) (first addr : Addr) : Nat → HeapReader Nat
  | 0 => do
    let _ ← checkMember lvl addr
    corrupted s!"free list {lvl} is cyclic"
  | n + 1 => do
    let next ← checkMember lvl addr
    if next = first then return 1
    return (← checkMembers lvl first next n) + 1

/-- The free list of a level has as many members as the partition has free blocks of that level. -/
def checkFreeList (blocks : List Block) (lvl : Nat) (first : Option Addr) : HeapReader Unit := do
  let expected := blocks.countP fun b => b.free && b.level == lvl
  let listed ← match first with
    | none => pure 0
    | some addr => checkMembers lvl addr addr expected
  if listed ≠ expected then
    corrupted s!"free list {lvl} has {listed} blocks, partition has {expected}"

/-- Verify that the partition and the free lists agree with each other. -/
def check : HeapReader Unit := do
  let h ← itself
  let blocks := h.blocks
  blocks.forM (checkBlock h.levels)
  let stop := Block.total blocks
  if stop ≠ h.capacity then corrupted s!"partition ends at {stop} of {h.capacity}"
  (List.range h.freeLists.size).forM fun lvl => do checkFreeList blocks lvl (← firstFree lvl)

/-- A one-line summary for a debugger. -/
def describe (h : Heap) : String :=
  let stats := s!"GcStats \x7b collections: {h.stats.collections}, "
    ++ s!"blocks_freed: {h.stats.blocksFreed}, words_freed: {h.stats.wordsFreed} \x7d"
  s!"Heap \x7b capacity: {h.capacity}, contexts: {h.contexts.length}, "
    ++ s!"temp_roots: {h.temporaries.size}, stats: {stats} \x7d"

end Heap

end FiberMachine
