import FiberMachine.Heap.Allocation
import FiberMachine.Unicode.Utf8

/-!
# Byte strings

A string holds its length and refers to a block with its bytes, eight to a word and the first one
lowest. The empty string refers to no bytes. Strings never change, so they can be shared. They are
any bytes; only showing one reads it as UTF-8.
-/

namespace FiberMachine.Text

open Heap

def lengthField : Nat := 0
def bytesField : Nat := 1

/-- Up to eight bytes as a word, the first one lowest. -/
def packWord (bytes : List UInt8) : Word :=
  bytes.foldr (fun b w => (w <<< 8) ||| b.toUInt64) 0

/-- Byte `i` of a word, for `i < 8`. -/
def byteOf (w : Word) (i : Nat) : UInt8 := (w >>> UInt64.ofNat (8 * i)).toUInt8

/-- The eight bytes of a word, the lowest one first. -/
def unpackWord (w : Word) : List UInt8 :=
  [byteOf w 0, byteOf w 1, byteOf w 2, byteOf w 3, byteOf w 4, byteOf w 5, byteOf w 6, byteOf w 7]

/-- Store bytes in payload words `i`, `i + 1`, ..., filling `n` of them. -/
def writeBytes (addr : Addr) (i : Nat) (bytes : List UInt8) : Nat → HeapM Unit
  | 0 => pure ()
  | n + 1 => do
    write addr i (packWord (bytes.take 8))
    writeBytes addr (i + 1) (bytes.drop 8) n

/-- The words that `n` bytes fill. -/
def wordsFor (n : Nat) : Nat := (n + 7) / 8

/-- A block with the given bytes; the unassigned object if there are none. -/
def newBytes (bytes : List UInt8) : HeapM Addr := do
  if bytes.isEmpty then return unassigned
  let words := wordsFor bytes.length
  let addr ← allocateTagged .bytes words
  writeBytes addr 0 bytes words
  return addr

/-- A string with the given bytes. -/
def ofBytes (bytes : List UInt8) : HeapM Addr := do
  let stored ← newBytes bytes
  let addr ← withRoots [stored] (allocateTagged .string 2)
  writeNat addr lengthField bytes.length
  writeNat addr bytesField stored
  return addr

/-- A string with the UTF-8 bytes of `s`. -/
def ofString (s : String) : HeapM Addr := ofBytes s.toUTF8.toList

/-- The number of bytes. -/
def length (addr : Addr) : HeapReader Nat := readNat addr lengthField

/-- Byte `i`; the position is not compared with the length. -/
def byteAt (addr : Addr) (i : Nat) : HeapReader UInt8 := do
  let stored ← readNat addr bytesField
  return byteOf (← read stored (i / 8)) (i % 8)

/-- Byte `i`; positions outside the string are rejected. -/
def get (addr : Addr) (i : Int) : HeapReader UInt8 := do
  let n ← length addr
  if i < 0 ∨ (n : Int) ≤ i then reject (.indexOutOfRange i n)
  byteAt addr i.toNat

/-- The bytes in the payload words `i`, `i + 1`, ... of a block, `n` of them. -/
def unpackFrom (stored : Addr) (i : Nat) : Nat → HeapReader (List UInt8)
  | 0 => pure []
  | n + 1 => do
    let w ← read stored i
    let rest ← unpackFrom stored (i + 1) n
    return unpackWord w ++ rest

/-- All bytes of a string. -/
def bytes (addr : Addr) : HeapReader (List UInt8) := do
  let n ← length addr
  expectRoom n 1
  if n = 0 then return []
  let stored ← readNat addr bytesField
  return (← unpackFrom stored 0 (wordsFor n)).take n

/-- A string as text, in which bytes that are not UTF-8 show as replacement characters. -/
def toString (addr : Addr) : HeapReader String := return Utf8.decodeLossy (← bytes addr)

/-- A string with the bytes of one string followed by those of another. -/
def concat (a b : Addr) : HeapM Addr := do
  let front ← bytes a
  let back ← bytes b
  ofBytes (front ++ back)

end FiberMachine.Text
