import FiberMachine.Fault

/-!
# Word memory

A memory is an array of words. It is also one stream of bits: bit `p` of the stream is bit `p % 64`
of word `p / 64`. A field of up to 64 bits may start at any bit of the stream and so may straddle
two words. `Memory.bit` is the stream; `getBits` reads a slice of it and `setBits` replaces one.
-/

namespace FiberMachine

/-- A fixed number of words, read and written by address. -/
structure Memory where
  words : Array Word
  deriving DecidableEq

namespace Memory

/-- A memory of `len` words, all zero. -/
def zeroed (len : Nat) : Memory := ⟨Array.replicate len 0⟩

/-- The number of words. -/
def size (m : Memory) : Nat := m.words.size

/-- Bit `p` of the stream; bits beyond the end are clear. -/
def bit (m : Memory) (p : Nat) : Bool :=
  (m.words[p / wordBits]?.getD 0).toNat.testBit (p % wordBits)

/-- The memory with word `addr` replaced; unchanged when there is no such word. -/
def put (m : Memory) (addr : Nat) (w : Word) : Memory := ⟨m.words.setIfInBounds addr w⟩

/-- Word `addr`. -/
def getWord (m : Memory) (addr : Nat) : Except Fault Word :=
  match m.words[addr]? with
  | some w => .ok w
  | none => .error (.outsideMemory addr)

/-- Replace word `addr`. -/
def setWord (m : Memory) (addr : Nat) (w : Word) : Except Fault Memory :=
  if addr < m.size then .ok (m.put addr w) else .error (.outsideMemory addr)

/-- How many bits of a field of `n` bits that starts at bit `start` of a word lie in that word. -/
def lowPart (start n : Nat) : Nat := min n (wordBits - start)

/-- The `n` bits of the stream that start `offset` bits into word `addr`. -/
def getBits (m : Memory) (addr n offset : Nat) : Except Fault Word := do
  if n = 0 ∨ wordBits < n then throw (.bitCount n)
  let start := (addr * wordBits + offset) % wordBits
  let first := (addr * wordBits + offset) / wordBits
  let low := lowPart start n
  let lowBits := BitField.get ⟨start, low⟩ (← m.getWord first)
  if low = n then return lowBits
  let highBits := BitField.get ⟨0, n - low⟩ (← m.getWord (first + 1))
  return lowBits ||| (highBits <<< UInt64.ofNat low)

/-- Replace the `n` bits that start `offset` bits into word `addr` by the low `n` bits of
`value`. -/
def setBits (m : Memory) (value : Word) (addr n offset : Nat) : Except Fault Memory := do
  if n = 0 ∨ wordBits < n then throw (.bitCount n)
  let start := (addr * wordBits + offset) % wordBits
  let first := (addr * wordBits + offset) / wordBits
  let low := lowPart start n
  let m ← m.setWord first (BitField.set ⟨start, low⟩ value (← m.getWord first))
  if low = n then return m
  let high := BitField.set ⟨0, n - low⟩ (value >>> UInt64.ofNat low) (← m.getWord (first + 1))
  m.setWord (first + 1) high

theorem size_zeroed (len : Nat) : (zeroed len).size = len := by simp [zeroed, size]

theorem size_put (m : Memory) (addr : Nat) (w : Word) : (m.put addr w).size = m.size := by
  simp [put, size]

theorem getWord_put_self {m : Memory} {addr : Nat} (h : addr < m.size) (w : Word) :
    (m.put addr w).getWord addr = .ok w := by
  have h : addr < m.words.size := h
  simp [put, getWord, h]

theorem getWord_put_of_ne (m : Memory) {addr other : Nat} (h : addr ≠ other) (w : Word) :
    (m.put addr w).getWord other = m.getWord other := by
  simp [put, getWord, Array.getElem?_setIfInBounds_ne h]

end Memory

end FiberMachine
