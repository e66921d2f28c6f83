/-!
# Machine words and bit fields

A word has 64 bits. A `BitField` names a run of bits inside one word; reading it shifts the run
down to bit 0, writing it leaves every other bit of the word as it was.
-/

namespace FiberMachine

/-- A machine word: 64 bits, with arithmetic modulo `2 ^ 64`. -/
abbrev Word := UInt64

/-- The number of bits in a word. -/
abbrev wordBits : Nat := 64

/-- The least number that does not fit into a word. -/
abbrev wordLimit : Nat := 0x10000000000000000

/-- The word whose `n` lowest bits are set; all bits when `n` is at least 64. -/
def Word.mask (n : Nat) : Word :=
  if n < wordBits then (1 <<< UInt64.ofNat n) - 1 else ~~~0

theorem Word.testBit_eq (w : Word) (i : Nat) : w.toNat.testBit i = w.toBitVec.getLsbD i := rfl

theorem Word.testBit_mask {n : Nat} (h : n ≤ wordBits) (i : Nat) :
    (Word.mask n).toNat.testBit i = decide (i < n) := by
  have hn : n ≤ 64 := h
  unfold Word.mask
  split
  next hlt =>
    have hlt : n < 64 := hlt
    have h1 : (2 : Nat) ^ n < 2 ^ 64 := Nat.pow_lt_pow_right (by decide) hlt
    have h2 : 0 < (2 : Nat) ^ n := Nat.two_pow_pos n
    have e : ((1 : Word) <<< UInt64.ofNat n).toNat = 2 ^ n := by
      rw [UInt64.toNat_shiftLeft, UInt64.toNat_ofNat', Nat.mod_eq_of_lt (a := n) (by omega),
        Nat.mod_eq_of_lt (a := n) hlt, show (1 : Word).toNat = 1 from rfl, Nat.one_shiftLeft]
      exact Nat.mod_eq_of_lt h1
    have le : (1 : Word) ≤ (1 : Word) <<< UInt64.ofNat n := by
      rw [UInt64.le_iff_toNat_le, e]; exact h2
    rw [UInt64.toNat_sub_of_le _ _ le, e]
    exact Nat.testBit_two_pow_sub_one n i
  next hge =>
    have : n = 64 := by have : ¬ n < 64 := hge; omega
    subst this
    exact Nat.testBit_two_pow_sub_one 64 i

/-- A run of `width` bits of a word, starting at bit `offset` (the least significant bit is 0). -/
structure BitField where
  offset : Nat
  width : Nat

namespace BitField

/-- The value of the field in `w`. -/
def get (f : BitField) (w : Word) : Word :=
  (w >>> UInt64.ofNat f.offset) &&& Word.mask f.width

/-- The word `w` with the field replaced by the low bits of `value`. -/
def set (f : BitField) (value w : Word) : Word :=
  (w &&& ~~~(Word.mask f.width <<< UInt64.ofNat f.offset))
    ||| ((value &&& Word.mask f.width) <<< UInt64.ofNat f.offset)

/-- Reading a field shifts it down to bit 0. -/
theorem testBit_get (f : BitField) (w : Word) (hf : f.offset < wordBits)
    (hw : f.offset + f.width ≤ wordBits) (i : Nat) :
    (f.get w).toNat.testBit i = (decide (i < f.width) && w.toNat.testBit (f.offset + i)) := by
  have ho : f.offset < 64 := hf
  have e : f.offset % 2 ^ 64 % 64 = f.offset := by omega
  unfold get
  rw [UInt64.toNat_and, Nat.testBit_and, Word.testBit_mask (by omega), UInt64.toNat_shiftRight,
    UInt64.toNat_ofNat', e, Nat.testBit_shiftRight, Bool.and_comm]

/-- Writing a field replaces its bits and no others. -/
theorem testBit_set (f : BitField) (v w : Word) (hf : f.offset < wordBits)
    (hw : f.offset + f.width ≤ wordBits) (i : Nat) (hi : i < wordBits) :
    (f.set v w).toNat.testBit i =
      if f.offset ≤ i ∧ i < f.offset + f.width then v.toNat.testBit (i - f.offset)
      else w.toNat.testBit i := by
  have ho : f.offset < 64 := hf
  have h64 : i < 64 := hi
  have e : f.offset % 2 ^ 64 % 64 = f.offset := by omega
  have mask (j : Nat) : (Word.mask f.width).toBitVec.getLsbD j = decide (j < f.width) :=
    Word.testBit_mask (by omega) j
  have shift (x : Word) : (x <<< UInt64.ofNat f.offset).toBitVec.getLsbD i
      = (decide (f.offset ≤ i) && x.toBitVec.getLsbD (i - f.offset)) := by
    rw [← Word.testBit_eq, UInt64.toNat_shiftLeft, UInt64.toNat_ofNat', e, Nat.testBit_mod_two_pow,
      Nat.testBit_shiftLeft]
    simp [h64, Word.testBit_eq]
  unfold set
  simp only [Word.testBit_eq, UInt64.toBitVec_or, BitVec.getLsbD_or, UInt64.toBitVec_and,
    BitVec.getLsbD_and, UInt64.toBitVec_not, BitVec.getLsbD_not, shift, mask, h64]
  by_cases h1 : f.offset ≤ i <;> by_cases h2 : i < f.offset + f.width
  · have : i - f.offset < f.width := by omega
    simp [h1, h2, this]
  · have : ¬ i - f.offset < f.width := by omega
    simp [h1, h2, this]
  · simp [h1]
  · simp [h1]

end BitField

end FiberMachine
