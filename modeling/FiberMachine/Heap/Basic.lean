import FiberMachine.Memory
import FiberMachine.Journal
import FiberMachine.Heap.Error

/-!
# The heap

The heap carves one word memory into blocks. A block of level `L` spans `2 ^ L` words and starts
with a header word:

| bits      | 0    | 1 to 5 | 6    | 8 to 15 | 6 to 33       | 34 to 61  |
|-----------|------|--------|------|---------|---------------|-----------|
| allocated | free | level  | mark | tag     |               |           |
| free      | free | level  |      |         | previous free | next free |

The words after the header are the payload. A reference to an object is the address of its block,
so a zero payload word refers to the block at address 0, the *unassigned* object, which is
allocated first and is never reclaimed.

`HeapReader` looks at a heap, `HeapM` changes it. A failed action keeps the changes made before it
failed.
-/

namespace FiberMachine

/-- The address of the unassigned object. -/
def unassigned : Addr := 0

/-- The largest level: links are 28 bits wide. -/
def maxLevel : Nat := 28

/-- The level of the smallest arena. -/
def minLevel : Nat := 4

/-- The words that a block of the given level spans, `2 ^ lvl`. The levels that a header can hold are
shifted in a machine word. -/
def levelWords (lvl : Nat) : Nat :=
  if lvl < wordBits then ((1 : Word) <<< UInt64.ofNat lvl).toNat else Nat.pow 2 lvl

theorem levelWords_eq (lvl : Nat) : levelWords lvl = Nat.pow 2 lvl := by
  unfold levelWords
  split
  next h =>
    have h : lvl < 64 := h
    have small : (2 : Nat) ^ lvl < 2 ^ 64 := Nat.pow_lt_pow_right (by decide) h
    rw [UInt64.toNat_shiftLeft, UInt64.toNat_ofNat', Nat.mod_eq_of_lt (a := lvl) (by omega),
      Nat.mod_eq_of_lt (a := lvl) h, show (1 : Word).toNat = 1 from rfl, Nat.one_shiftLeft]
    exact Nat.mod_eq_of_lt small
  next => rfl

/-- No list that a host holds takes this many bytes. -/
def hostLimit : Nat := 0x8000000000000000

/-- What collections have done so far. -/
structure CollectionStats where
  collections : Nat := 0
  blocksFreed : Nat := 0
  wordsFreed : Nat := 0
  deriving DecidableEq

/-- An arena with its free lists, its roots and a journal. -/
structure Heap where
  memory : Memory
  /-- The arena spans `2 ^ levels` words. -/
  levels : Nat
  /-- For each level the first block of its circular free list. -/
  freeLists : Array (Option Addr)
  /-- Live contexts in the order of registration. -/
  contexts : List Addr
  /-- Addresses protected for the time being, oldest first. -/
  temporaries : Array Addr
  stats : CollectionStats
  journal : Journal

abbrev HeapFailure := Failure HeapError

/-- An observation of the heap, which cannot change it. -/
abbrev HeapReader := ReaderT Heap (Except HeapFailure)

/-- An action on the heap. -/
abbrev HeapM := EStateM HeapFailure Heap

instance : MonadLift HeapReader HeapM where
  monadLift look := fun h =>
    match look h with
    | .ok a => .ok a h
    | .error e => .error e h

/-! ### Header fields -/
namespace Header

def free : BitField := ⟨0, 1⟩
def level : BitField := ⟨1, 5⟩
def mark : BitField := ⟨6, 1⟩
def tag : BitField := ⟨8, 8⟩
def previous : BitField := ⟨6, 28⟩
def next : BitField := ⟨34, 28⟩

/-- The header of a block that has just become free or allocated: no mark, tag or links. -/
def fresh (isFree : Bool) (lvl : Nat) : Word :=
  level.set (UInt64.ofNat lvl) (free.set isFree.toUInt64 0)

end Header

namespace Heap

/-- The number of words in the arena. -/
def capacity (h : Heap) : Nat := h.memory.size

/-- The heap as it is. -/
def itself : HeapReader Heap := fun h => .ok h

/-- Fail for a cause that belongs to the operation's contract. -/
def reject {α : Type} (cause : HeapError) : HeapReader α := throw (.error cause)

/-- The difference of two lengths, which must not be negative. -/
def difference (a b : Nat) : HeapReader Nat :=
  if b ≤ a then pure (a - b) else throw (.fault .arithmetic)

/-- The remainder by a length, which must not be zero. -/
def remainder (a b : Nat) : HeapReader Nat :=
  if b = 0 then throw (.fault .arithmetic) else pure (a % b)

/-- A list is made only if a host could hold it. Its length may come out of the arena, where it can
be any word. -/
def expectRoom (length elementBytes : Nat) : HeapReader Unit :=
  if length * elementBytes < hostLimit then pure () else throw (.fault (.unlistable length))

/-- There must be room for a list of that many addresses. -/
def expectListable (length : Nat) : HeapReader Unit := expectRoom length 8

/-! ### Words -/

/-- Word `addr` of the memory. -/
def word (addr : Addr) : HeapReader Word := fun h =>
  match h.memory.words[addr]? with
  | some w => .ok w
  | none => .error (.fault (.outsideMemory addr))

/-- Replace word `addr` of the memory. -/
def setWord (addr : Addr) (w : Word) : HeapM Unit := fun h =>
  if addr < h.memory.size then .ok () { h with memory := h.memory.put addr w }
  else .error (.fault (.outsideMemory addr)) h

/-- A header field of the block at `addr`. -/
def field (f : BitField) (addr : Addr) : HeapReader Word := return f.get (← word addr)

/-- Replace a header field of the block at `addr`. -/
def setField (f : BitField) (addr : Addr) (value : Word) : HeapM Unit := do
  let w ← word addr
  setWord addr (f.set value w)

/-! ### Headers -/

/-- Whether the block at `addr` is free. -/
def isFree (addr : Addr) : HeapReader Bool := return (← field Header.free addr) == 1

/-- The level of the block at `addr`. -/
def level (addr : Addr) : HeapReader Nat := return (← field Header.level addr).toNat

/-- The size of the block at `addr`, header included. -/
def blockWords (addr : Addr) : HeapReader Nat := return levelWords (← level addr)

/-- The size of the block at `addr` without its header. -/
def payloadWords (addr : Addr) : HeapReader Nat := return (← blockWords addr) - 1

/-- The tag of the block at `addr`. -/
def tag (addr : Addr) : HeapReader Tag := return .ofNumber (← field Header.tag addr).toNat

/-- Give the block at `addr` another tag. -/
def setTag (addr : Addr) (t : Tag) : HeapM Unit := setField Header.tag addr (UInt64.ofNat t.number)

/-- Fail unless the block at `addr` carries the tag `expected`. -/
def expect (addr : Addr) (expected : Tag) : HeapReader Unit := do
  let found ← tag addr
  if found ≠ expected then reject (.unexpectedTag addr expected found)

/-- Whether the collector has marked the block at `addr`. -/
def isMarked (addr : Addr) : HeapReader Bool := return (← field Header.mark addr) == 1

/-- Set or clear the mark of the block at `addr`. -/
def setMark (addr : Addr) (marked : Bool) : HeapM Unit :=
  setField Header.mark addr marked.toUInt64

/-! ### Payloads -/

/-- Payload word `i` of the block at `addr`. -/
def read (addr : Addr) (i : Nat) : HeapReader Word := do
  let words ← blockWords addr
  if i < words - 1 then word (addr + 1 + i) else throw (.fault (.payloadIndex i addr words))

/-- Replace payload word `i` of the block at `addr`. -/
def write (addr : Addr) (i : Nat) (w : Word) : HeapM Unit := do
  let words ← blockWords addr
  if i < words - 1 then setWord (addr + 1 + i) w else throw (.fault (.payloadIndex i addr words))

/-- Payload word `i` read as a number: a length, a position or an address. -/
def readNat (addr : Addr) (i : Nat) : HeapReader Nat := return (← read addr i).toNat

/-- Store a number in payload word `i`. -/
def writeNat (addr : Addr) (i : Nat) (n : Nat) : HeapM Unit := write addr i (UInt64.ofNat n)

/-- The payload words `i`, `i + 1`, ... of a block, `n` of them, as numbers. -/
def readNats (addr : Addr) (i : Nat) : Nat → HeapReader (List Nat)
  | 0 => pure []
  | n + 1 => do
    let first ← readNat addr i
    let rest ← readNats addr (i + 1) n
    return first :: rest

/-- Store numbers in payload words `i`, `i + 1`, ... -/
def writeNats (addr : Addr) (i : Nat) : List Nat → HeapM Unit
  | [] => pure ()
  | n :: rest => do
    writeNat addr i n
    writeNats addr (i + 1) rest

/-- All payload words of the block at `addr`. -/
def payload (addr : Addr) : HeapReader (List Word) := do
  (List.range (← payloadWords addr)).mapM (read addr)

/-! ### Roots -/

/-- Add a context to those the collector traces. -/
def registerContext (context : Addr) : HeapM Unit :=
  modify fun h => { h with contexts := h.contexts ++ [context] }

/-- Remove a context from those the collector traces. -/
def retireContext (context : Addr) : HeapM Unit :=
  modify fun h => { h with contexts := h.contexts.erase context }

/-- Protect an address until the roots are released. -/
def pushRoot (addr : Addr) : HeapM Unit :=
  modify fun h => { h with temporaries := h.temporaries.push addr }

/-- The number of protected addresses, to come back to with `releaseRoots`. -/
def rootMark : HeapReader Nat := fun h => .ok h.temporaries.size

/-- Keep only the `mark` oldest protected addresses. -/
def releaseRoots (mark : Nat) : HeapM Unit :=
  modify fun h => { h with temporaries := h.temporaries.shrink mark }

/-- Run an action with more addresses protected. However it ends, they are released again, and
with them every address it protected itself. -/
def withRoots {α : Type} (roots : List Addr) (action : HeapM α) : HeapM α := fun h =>
  let mark := h.temporaries.size
  match action { h with temporaries := h.temporaries ++ roots } with
  | .ok a h => .ok a { h with temporaries := h.temporaries.shrink mark }
  | .error e h => .error e { h with temporaries := h.temporaries.shrink mark }

/-! ### Journal -/

/-- Add a record to the journal. -/
def note (severity : Severity) (text : Unit → String) : HeapM Unit :=
  modify fun h => { h with journal := h.journal.note severity text }

end Heap

end FiberMachine
