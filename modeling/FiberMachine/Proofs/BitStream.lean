import FiberMachine.Memory
import FiberMachine.Proofs.Access

/-!
# Fields of the bit stream

A field of up to 64 bits may start at any bit of a memory. Where it fits into one word it is one field of
that word; otherwise its low bits are the last ones of a word and its high bits the first ones of the next.
Both cases are told apart here only, and what is read and written is described by the stream: reading
answers the bits of the field as a number, and writing replaces these bits and no others. That fields
apart do not disturb each other, and may be written in any order, then needs no look at words.
-/

namespace FiberMachine

namespace Word

variable {n i : Nat} {v w : Word}

theorem testBit_or : (v ||| w).toNat.testBit i = (v.toNat.testBit i || w.toNat.testBit i) := by
  rw [UInt64.toNat_or, Nat.testBit_or]

theorem testBit_shiftLeft (hn : n < wordBits) (hi : i < wordBits) :
    (w <<< UInt64.ofNat n).toNat.testBit i = (decide (n ≤ i) && w.toNat.testBit (i - n)) := by
  have hn : n < 64 := hn
  have hi : i < 64 := hi
  have count : n % 2 ^ 64 % 64 = n := by omega
  rw [UInt64.toNat_shiftLeft, UInt64.toNat_ofNat', count, Nat.testBit_mod_two_pow, Nat.testBit_shiftLeft]
  simp [hi]

theorem testBit_shiftRight (hn : n < wordBits) :
    (w >>> UInt64.ofNat n).toNat.testBit i = w.toNat.testBit (n + i) := by
  have hn : n < 64 := hn
  have count : n % 2 ^ 64 % 64 = n := by omega
  rw [UInt64.toNat_shiftRight, UInt64.toNat_ofNat', count, Nat.testBit_shiftRight]

theorem testBit_of_le (hi : wordBits ≤ i) : w.toNat.testBit i = false :=
  Nat.testBit_lt_two_pow (Nat.lt_of_lt_of_le w.toNat_lt (Nat.pow_le_pow_right (by decide) hi))

end Word

/-- A place for a field: `width` bits from the one that is `offset` bits after the start of word `addr`. -/
structure BitRange where
  addr : Nat
  width : Nat
  offset : Nat

namespace BitRange

/-- The first bit of the field in the stream. -/
def start (e : BitRange) : Nat := e.addr * wordBits + e.offset

/-- The field has as many bits as a word can take, and all of them are in the memory. -/
structure Fits (e : BitRange) (m : Memory) : Prop where
  pos : 1 ≤ e.width
  le : e.width ≤ wordBits
  inside : e.start + e.width ≤ wordBits * m.size

/-- The bit of the stream belongs to the field. -/
def Covers (e : BitRange) (p : Nat) : Prop := e.start ≤ p ∧ p < e.start + e.width

instance (e : BitRange) (p : Nat) : Decidable (e.Covers p) := inferInstanceAs (Decidable (_ ∧ _))

/-- No bit belongs to both fields. -/
def Apart (e f : BitRange) : Prop := ∀ p, e.Covers p → ¬f.Covers p

theorem Fits.congr {e : BitRange} {m k : Memory} (fits : e.Fits m) (size : k.size = m.size) : e.Fits k :=
  ⟨fits.pos, fits.le, size ▸ fits.inside⟩

end BitRange

namespace Memory

variable {m k : Memory} {e f : BitRange} {v w : Word} {a b i p : Nat}

/-- Word `a`; zero beyond the end. -/
def word (m : Memory) (a : Nat) : Word := m.words[a]?.getD 0

theorem getWord_eq (ha : a < m.size) : m.getWord a = .ok (m.word a) := by
  have ha : a < m.words.size := ha
  simp [getWord, word, ha]

theorem setWord_eq (ha : a < m.size) : m.setWord a w = .ok (m.put a w) := if_pos ha

theorem bit_eq (hi : i < wordBits) : m.bit (a * wordBits + i) = (m.word a).toNat.testBit i := by
  have hi : i < 64 := hi
  have word : (a * 64 + i) / 64 = a := by omega
  have rest : (a * 64 + i) % 64 = i := by omega
  rw [bit, word, rest]
  rfl

/-- Replacing a word replaces its bits. -/
theorem bit_put (ha : a < m.size) :
    (m.put a w).bit p = if p / wordBits = a then w.toNat.testBit (p % wordBits) else m.bit p := by
  have ha : a < m.words.size := ha
  unfold bit put
  split
  next same => simp [same, ha]
  next other => simp [Array.getElem?_setIfInBounds_ne (Ne.symm other)]

/-- Two memories of one size are equal when all their bits are. -/
theorem ext_bit (size : m.size = k.size) (bits : ∀ p, m.bit p = k.bit p) : m = k := by
  have size : m.words.size = k.words.size := size
  have words : m.words = k.words := by
    apply Array.ext size
    intro a hm hk
    apply Word.eq_of_testBit
    intro i hi
    have same := bits (a * wordBits + i)
    rw [bit_eq hi, bit_eq hi] at same
    simpa [word, hm, hk] using same
  cases m
  cases k
  simp_all

/-! ### The part of a field in one word -/

/-- A field of one word is read as a slice of the stream. -/
theorem testBit_getField {g : BitField} (hg : g.InWord) (i : Nat) :
    (g.get (m.word a)).toNat.testBit i = (decide (i < g.width) && m.bit (a * wordBits + g.offset + i)) := by
  rw [BitField.testBit_get g _ hg.starts hg.ends]
  by_cases hi : i < g.width
  · have inside := hg.ends
    rw [Nat.add_assoc, bit_eq (by omega)]
  · simp [hi]

/-- A field of one word is written as a slice of the stream. -/
theorem bit_putField {g : BitField} (hg : g.InWord) (ha : a < m.size) :
    (m.put a (g.set v (m.word a))).bit p =
      if a * wordBits + g.offset ≤ p ∧ p < a * wordBits + g.offset + g.width then
        v.toNat.testBit (p - (a * wordBits + g.offset))
      else m.bit p := by
  have ends := hg.ends
  have here : p % wordBits < wordBits := Nat.mod_lt _ (by decide)
  have place : p = p / wordBits * wordBits + p % wordBits := (Nat.div_add_mod' p wordBits).symm
  rw [bit_put ha]
  by_cases same : p / wordBits = a
  · have inside : (g.offset ≤ p % wordBits ∧ p % wordBits < g.offset + g.width) ↔
        a * wordBits + g.offset ≤ p ∧ p < a * wordBits + g.offset + g.width := by lia
    have shift : p % wordBits - g.offset = p - (a * wordBits + g.offset) := by lia
    have old : m.bit p = (m.word a).toNat.testBit (p % wordBits) := by
      rw [← bit_eq here, ← same, ← place]
    rw [if_pos same, BitField.testBit_set g v _ hg.starts ends _ here, shift, old]
    simp only [inside]
  · have outside : ¬(a * wordBits + g.offset ≤ p ∧ p < a * wordBits + g.offset + g.width) := by
      simp only [wordBits] at *
      omega
    rw [if_neg same, if_neg outside]

/-! ### Reading and writing -/

/-- The word in which a field begins, the place in that word, and what follows in the next word. -/
structure Lies (m : Memory) (e : BitRange) (a start : Nat) : Prop where
  place : e.start = a * wordBits + start
  starts : start < wordBits
  legal : ¬(e.width = 0 ∨ wordBits < e.width)
  first : a < m.size
  next : wordBits < start + e.width → a + 1 < m.size

theorem lies (fits : e.Fits m) : Lies m e (e.start / wordBits) (e.start % wordBits) := by
  obtain ⟨pos, le, inside⟩ := fits
  constructor <;> simp only [wordBits] at * <;> omega

theorem Lies.div_eq (lies : Lies m e a i) : (e.addr * wordBits + e.offset) / wordBits = a := by
  have place : e.addr * wordBits + e.offset = a * wordBits + i := lies.place
  have starts := lies.starts
  simp only [wordBits] at *
  omega

theorem Lies.mod_eq (lies : Lies m e a i) : (e.addr * wordBits + e.offset) % wordBits = i := by
  have place : e.addr * wordBits + e.offset = a * wordBits + i := lies.place
  have starts := lies.starts
  simp only [wordBits] at *
  omega

theorem getBits_within (lies : Lies m e a i) (within : i + e.width ≤ wordBits) :
    m.getBits e.addr e.width e.offset = .ok (BitField.get ⟨i, e.width⟩ (m.word a)) := by
  have low : lowPart i e.width = e.width := Nat.min_eq_left (by omega)
  simp only [getBits, if_neg lies.legal, lies.div_eq, lies.mod_eq, low, getWord_eq lies.first, if_true]
  rfl

theorem getBits_across (lies : Lies m e a i) (across : wordBits < i + e.width) :
    m.getBits e.addr e.width e.offset = .ok (BitField.get ⟨i, wordBits - i⟩ (m.word a) |||
      (BitField.get ⟨0, e.width - (wordBits - i)⟩ (m.word (a + 1)) <<< UInt64.ofNat (wordBits - i))) := by
  have starts := lies.starts
  have low : lowPart i e.width = wordBits - i := Nat.min_eq_right (by omega)
  have more : wordBits - i ≠ e.width := by omega
  simp only [getBits, if_neg lies.legal, lies.div_eq, lies.mod_eq, low, getWord_eq lies.first,
    getWord_eq (lies.next across), if_neg more]
  rfl

/-- The bits of a field as a number. -/
theorem getBits_eq (fits : e.Fits m) : ∃ w, m.getBits e.addr e.width e.offset = .ok w ∧
    ∀ k, w.toNat.testBit k = (decide (k < e.width) && m.bit (e.start + k)) := by
  obtain ⟨a, i, lies⟩ : ∃ a i, Lies m e a i := ⟨_, _, lies fits⟩
  have starts := lies.starts
  have le := fits.le
  by_cases within : i + e.width ≤ wordBits
  · refine ⟨_, getBits_within lies within, fun k => ?_⟩
    rw [testBit_getField ⟨starts, within⟩, ← lies.place]
  · have across := Nat.not_le.mp within
    have lowField : (BitField.mk i (wordBits - i)).InWord := ⟨starts, by dsimp only; omega⟩
    have highField : (BitField.mk 0 (e.width - (wordBits - i))).InWord := ⟨Nat.zero_lt_succ _, by dsimp only; omega⟩
    refine ⟨_, getBits_across lies across, fun k => ?_⟩
    by_cases hk : k < wordBits
    · rw [Word.testBit_or, testBit_getField lowField, Word.testBit_shiftLeft (by omega) hk,
        testBit_getField highField, ← lies.place]
      by_cases first : k < wordBits - i
      · simp [first, show k < e.width by omega, show ¬wordBits - i ≤ k by omega]
      · have there : (a + 1) * wordBits + 0 + (k - (wordBits - i)) = e.start + k := by
          rw [lies.place, Nat.add_mul]
          omega
        have covered : k - (wordBits - i) < e.width - (wordBits - i) ↔ k < e.width := by omega
        rw [there]
        simp [first, Nat.not_lt.mp first, covered]
    · rw [Word.testBit_of_le (Nat.not_lt.mp hk), decide_eq_false (by omega), Bool.false_and]

theorem setBits_within (lies : Lies m e a i) (within : i + e.width ≤ wordBits) :
    m.setBits v e.addr e.width e.offset = .ok (m.put a (BitField.set ⟨i, e.width⟩ v (m.word a))) := by
  have low : lowPart i e.width = e.width := Nat.min_eq_left (by omega)
  have written := setWord_eq (w := BitField.set ⟨i, e.width⟩ v (m.word a)) lies.first
  simp only [setBits, if_neg lies.legal, lies.div_eq, lies.mod_eq, low, getWord_eq lies.first, if_true]
  change (m.setWord a _ >>= fun m => pure m) = _
  rw [written]
  rfl

theorem setBits_across (lies : Lies m e a i) (across : wordBits < i + e.width)
    (low : m.put a (BitField.set ⟨i, wordBits - i⟩ v (m.word a)) = k) :
    m.setBits v e.addr e.width e.offset = .ok (k.put (a + 1)
      (BitField.set ⟨0, e.width - (wordBits - i)⟩ (v >>> UInt64.ofNat (wordBits - i)) (k.word (a + 1)))) := by
  have starts := lies.starts
  have part : lowPart i e.width = wordBits - i := Nat.min_eq_right (by omega)
  have more : wordBits - i ≠ e.width := by omega
  have next : a + 1 < k.size := by rw [← low, size_put]; exact lies.next across
  have written := setWord_eq (w := BitField.set ⟨i, wordBits - i⟩ v (m.word a)) lies.first
  simp only [setBits, if_neg lies.legal, lies.div_eq, lies.mod_eq, part, getWord_eq lies.first, if_neg more]
  change (m.setWord a _ >>= fun m => m.getWord (a + 1) >>= fun w => m.setWord (a + 1) (BitField.set _ _ w)) = _
  rw [written, low]
  change (k.getWord (a + 1) >>= fun w => k.setWord (a + 1) (BitField.set _ _ w)) = _
  rw [getWord_eq next]
  exact setWord_eq next

/-- The bits of a field are replaced by the low bits of a number, and no others. -/
theorem setBits_eq (fits : e.Fits m) (v : Word) : ∃ k, m.setBits v e.addr e.width e.offset = .ok k ∧ k.size = m.size ∧
    ∀ p, k.bit p = if e.Covers p then v.toNat.testBit (p - e.start) else m.bit p := by
  obtain ⟨a, i, lies⟩ : ∃ a i, Lies m e a i := ⟨_, _, lies fits⟩
  have starts := lies.starts
  have le := fits.le
  by_cases within : i + e.width ≤ wordBits
  · refine ⟨_, setBits_within lies within, size_put .., fun p => ?_⟩
    rw [bit_putField ⟨starts, within⟩ lies.first, ← lies.place]
    rfl
  · have across := Nat.not_le.mp within
    have lowField : (BitField.mk i (wordBits - i)).InWord := ⟨starts, by dsimp only; omega⟩
    have highField : (BitField.mk 0 (e.width - (wordBits - i))).InWord := ⟨Nat.zero_lt_succ _, by dsimp only; omega⟩
    obtain ⟨k, low⟩ : ∃ k, m.put a (BitField.set ⟨i, wordBits - i⟩ v (m.word a)) = k := ⟨_, rfl⟩
    have size : k.size = m.size := by rw [← low, size_put]
    have next : a + 1 < k.size := size ▸ lies.next across
    refine ⟨_, setBits_across lies across low, by rw [size_put, size], fun p => ?_⟩
    have before := bit_putField (v := v) (p := p) lowField lies.first
    rw [low, ← lies.place] at before
    -- the first bit of the next word comes right after the bits that the first word takes
    have seam : (a + 1) * wordBits + 0 = e.start + (wordBits - i) := by
      rw [lies.place, Nat.add_mul]
      omega
    rw [bit_putField highField next, before, Word.testBit_shiftRight (by omega), seam]
    dsimp only
    by_cases high : e.start + (wordBits - i) ≤ p ∧ p < e.start + (wordBits - i) + (e.width - (wordBits - i))
    · have covered : e.Covers p := ⟨by omega, by omega⟩
      have place : wordBits - i + (p - (e.start + (wordBits - i))) = p - e.start := by omega
      rw [if_pos high, if_pos covered, place]
    · have covered : (e.start ≤ p ∧ p < e.start + (wordBits - i)) ↔ e.Covers p := by
        unfold BitRange.Covers
        omega
      rw [if_neg high]
      simp only [covered]

end Memory

/-! ### Fields that do not meet -/

namespace BitRange

variable {e f : BitRange} {m k : Memory} {v w : Word}

theorem Apart.symm (apart : e.Apart f) : f.Apart e := fun p hf he => apart p he hf

/-- What a field holds depends on its bits alone. -/
theorem getBits_congr (fits : e.Fits m) (size : k.size = m.size) (same : ∀ p, e.Covers p → k.bit p = m.bit p) :
    k.getBits e.addr e.width e.offset = m.getBits e.addr e.width e.offset := by
  obtain ⟨w, run, bits⟩ := Memory.getBits_eq fits
  obtain ⟨w', run', bits'⟩ := Memory.getBits_eq (fits.congr size)
  have equal : w' = w := Word.eq_of_testBit fun i _ => by
    rw [bits, bits']
    by_cases hi : i < e.width
    · rw [same _ ⟨Nat.le_add_right _ _, Nat.add_lt_add_left hi _⟩]
    · simp [hi]
  rw [run, run', equal]

end BitRange

namespace Memory

variable {m : Memory} {e : BitRange}

/-- A field of a memory is a slice of its bit stream. Reading answers the number whose binary digits are the bits of the field;
writing makes these bits the low bits of the value and leaves every other bit, so that the field then holds the value reduced
to its width. Fields that have no bit in common keep what they hold, and two of them may be written in either order. -/
theorem fields_are_slices (fits : e.Fits m) (value : Word) :
    ∃ w k, m.getBits e.addr e.width e.offset = .ok w ∧
      (∀ i, w.toNat.testBit i = (decide (i < e.width) && m.bit (e.addr * 64 + e.offset + i))) ∧
      m.setBits value e.addr e.width e.offset = .ok k ∧ k.size = m.size ∧
      (∀ i < e.width, k.bit (e.addr * 64 + e.offset + i) = value.toNat.testBit i) ∧
      (∀ p, (∀ i < e.width, p ≠ e.addr * 64 + e.offset + i) → k.bit p = m.bit p) ∧
      k.getBits e.addr e.width e.offset = .ok (UInt64.ofNat (value.toNat % 2 ^ e.width)) ∧
      ∀ f : BitRange, f.Fits m → e.Apart f →
        k.getBits f.addr f.width f.offset = m.getBits f.addr f.width f.offset ∧
        ∀ other, ∃ k₁ k₂, m.setBits other f.addr f.width f.offset = .ok k₁ ∧
          k₁.setBits value e.addr e.width e.offset = .ok k₂ ∧
          k.setBits other f.addr f.width f.offset = .ok k₂ := by
  obtain ⟨w, read, digits⟩ := getBits_eq fits
  obtain ⟨k, write, size, bits⟩ := setBits_eq fits value
  have there (i : Nat) (hi : i < e.width) : k.bit (e.start + i) = value.toNat.testBit i := by
    rw [bits, if_pos ⟨Nat.le_add_right _ _, Nat.add_lt_add_left hi _⟩, Nat.add_sub_cancel_left]
  refine ⟨w, k, read, digits, write, size, there, fun p out => ?_, ?_, fun f fitsf apart => ⟨?_, fun other => ?_⟩⟩
  · rw [bits, if_neg]
    rintro ⟨start, stop⟩
    exact out (p - e.start) (by omega) (Nat.add_sub_cancel' start).symm
  · obtain ⟨r, again, digits⟩ := getBits_eq (fits.congr size)
    have low : r = UInt64.ofNat (value.toNat % 2 ^ e.width) := Word.eq_of_testBit fun i hi => by
      have small : value.toNat % 2 ^ e.width < 2 ^ 64 := Nat.lt_of_le_of_lt (Nat.mod_le _ _) value.toNat_lt
      rw [digits, UInt64.toNat_ofNat', Nat.mod_eq_of_lt small, Nat.testBit_mod_two_pow]
      by_cases hi : i < e.width
      · rw [there i hi]
      · simp [hi]
    rw [again, low]
  · exact BitRange.getBits_congr fitsf size fun p covered => by rw [bits, if_neg (apart.symm p covered)]
  · obtain ⟨k₁, write₁, size₁, bits₁⟩ := setBits_eq fitsf other
    obtain ⟨k₂, write₂, size₂, bits₂⟩ := setBits_eq (fits.congr size₁) value
    obtain ⟨k₃, write₃, size₃, bits₃⟩ := setBits_eq (fitsf.congr size) other
    have same : k₃ = k₂ := by
      refine ext_bit (by rw [size₃, size₂, size, size₁]) fun p => ?_
      rw [bits₃, bits₂, bits, bits₁]
      by_cases hf : f.Covers p
      · rw [if_pos hf, if_neg (apart.symm p hf), if_pos hf]
      · rw [if_neg hf, if_neg hf]
    exact ⟨k₁, k₂, write₁, write₂, same ▸ write₃⟩

/-- A field over the end of a word, and right after it a field that is found more than a word after the start. -/
theorem fields_are_slices_across : ∃ k,
    (Memory.mk #[0, 0xFFFFFFFFFFFFFFFF, 0]).setBits 0xFABCDEF1 0 28 50 = .ok k ∧ k.getBits 0 28 50 = .ok 0x0ABCDEF1 ∧
      k.getBits 0 20 78 = .ok 0xFFFFF ∧
      ∃ k₁ k₂, (Memory.mk #[0, 0xFFFFFFFFFFFFFFFF, 0]).setBits 7 0 20 78 = .ok k₁ ∧ k₁.setBits 0xFABCDEF1 0 28 50 = .ok k₂ ∧
        k.setBits 7 0 20 78 = .ok k₂ := by
  have fits : (BitRange.mk 0 28 50).Fits ⟨#[0, 0xFFFFFFFFFFFFFFFF, 0]⟩ := ⟨by decide, by decide, by decide⟩
  have after : (BitRange.mk 0 20 78).Fits ⟨#[0, 0xFFFFFFFFFFFFFFFF, 0]⟩ := ⟨by decide, by decide, by decide⟩
  have apart : (BitRange.mk 0 28 50).Apart (BitRange.mk 0 20 78) := fun p he hf =>
    absurd hf.1 (Nat.not_le.mpr he.2)
  obtain ⟨_, k, _, _, write, _, _, _, back, others⟩ := fields_are_slices fits 0xFABCDEF1
  obtain ⟨kept, swapped⟩ := others _ after apart
  exact ⟨k, write, back, kept.trans rfl, swapped 7⟩

end Memory

end FiberMachine
