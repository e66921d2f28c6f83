import FiberMachine.Word

/-!
# Faults and failures

An operation can fail in two ways. An *error* is part of the operation's contract: it has a cause,
its message is shown to the user, and the arena stays usable. A *fault* is an assertion about the
arena itself that did not hold; whatever was running ends there.
-/

namespace FiberMachine

/-- A word offset into the arena: the name of a block. -/
abbrev Addr := Nat

/-- A broken assertion about the arena. -/
inductive Fault where
  /-- A bit field of no bits or of more than a word. -/
  | bitCount (n : Nat)
  /-- Payload word `index` of the block at `addr`, which spans `words` words, does not exist. -/
  | payloadIndex (index : Nat) (addr : Addr) (words : Nat)
  /-- A word address beyond the end of the memory. -/
  | outsideMemory (addr : Addr)
  /-- A block size for which the arena keeps no free list. -/
  | freeListLevel (level : Nat)
  /-- A difference below zero, a remainder by zero, or a counter beyond 64 bits. -/
  | arithmetic
  /-- A length of a list that no host memory can hold. -/
  | unlistable (length : Nat)
  /-- A value nested more deeply than the arena has words: it contains itself. -/
  | selfContaining (addr : Addr)
  deriving DecidableEq

/-- Faults that the arena checks on purpose say what was wrong; the others are silent. -/
def Fault.message : Fault → Option String
  | .bitCount n => some s!"bit count {n} out of range 1..={wordBits}"
  | .payloadIndex index addr words =>
    some s!"payload word {index} outside block {addr} of {words} words"
  | .outsideMemory _ | .freeListLevel _ | .arithmetic | .unlistable _ | .selfContaining _ => none

/-- Why an operation did not finish: an error with a cause of type `ε`, or a fault. -/
inductive Failure (ε : Type) where
  | error (cause : ε)
  | fault (assertion : Fault)
  deriving DecidableEq

/-- The same failure with its cause seen as part of a larger type of causes. -/
def Failure.map {ε ε' : Type} (f : ε → ε') : Failure ε → Failure ε'
  | .error cause => .error (f cause)
  | .fault assertion => .fault assertion

end FiberMachine
