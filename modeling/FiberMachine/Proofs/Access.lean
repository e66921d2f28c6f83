import FiberMachine.Heap.Basic
import FiberMachine.Heap.Collection
import FiberMachine.Proofs.Running
import Mathlib.Algebra.Group.Nat.Defs

/-!
# Words and headers as functions

Inside the arena, reading a word never fails. `wordAt` reads it without the monad, `store` replaces
it, and the header fields follow: each action of the heap on one word has an equation that names
what it answers or stores.
-/

/-! ## Fields of a header word

A header is read and written field by field. Two fields that have no bit in common do not disturb
each other, and a number that fits into a field is read back as it was stored. The link fields of
a free block overlap the mark and the tag of an allocated one, so these are only compared where
both belong to one kind of block.
-/

namespace FiberMachine

theorem Word.eq_of_testBit {v w : Word} (h : ∀ i < wordBits, v.toNat.testBit i = w.toNat.testBit i) :
    v = w := by
  apply UInt64.toNat_inj.mp
  apply Nat.eq_of_testBit_eq
  intro i
  by_cases hi : i < wordBits
  · exact h i hi
  · have above (x : Word) : x.toNat.testBit i = false := by
      apply Nat.testBit_lt_two_pow
      exact Nat.lt_of_lt_of_le x.toNat_lt (Nat.pow_le_pow_right (by decide) (Nat.not_lt.mp hi))
    rw [above v, above w]

namespace BitField

/-- The field lies inside a word. -/
structure InWord (f : BitField) : Prop where
  starts : f.offset < wordBits
  ends : f.offset + f.width ≤ wordBits

/-- No bit belongs to both fields. -/
def Apart (f g : BitField) : Prop :=
  f.offset + f.width ≤ g.offset ∨ g.offset + g.width ≤ f.offset

theorem get_set_apart {f g : BitField} (hf : f.InWord) (hg : g.InWord) (apart : f.Apart g)
    (v w : Word) : g.get (f.set v w) = g.get w := by
  apply Word.eq_of_testBit
  intro i _
  rw [testBit_get g _ hg.starts hg.ends, testBit_get g _ hg.starts hg.ends]
  by_cases hi : i < g.width
  · have inside := hg.ends
    rw [testBit_set f v w hf.starts hf.ends (g.offset + i) (by omega), if_neg]
    unfold Apart at apart
    omega
  · simp [hi]

theorem toNat_get_lt {f : BitField} (hf : f.InWord) (w : Word) : (f.get w).toNat < 2 ^ f.width := by
  apply Nat.lt_pow_two_of_testBit
  intro i hi
  rw [testBit_get f w hf.starts hf.ends]
  simp [Nat.not_lt.mpr hi]

theorem toNat_get_set {f : BitField} (hf : f.InWord) {n : Nat} (hn : n < 2 ^ f.width) (w : Word) :
    (f.get (f.set (UInt64.ofNat n) w)).toNat = n := by
  have inside : f.offset + f.width ≤ 64 := hf.ends
  have small : n < 2 ^ 64 := Nat.lt_of_lt_of_le hn (Nat.pow_le_pow_right (by decide) (by omega))
  apply Nat.eq_of_testBit_eq
  intro i
  rw [testBit_get f _ hf.starts hf.ends]
  by_cases hi : i < f.width
  · rw [testBit_set f _ w hf.starts hf.ends (f.offset + i)
      (show _ < 64 by omega), if_pos (by omega),
      UInt64.toNat_ofNat', Nat.mod_eq_of_lt small]
    simp [hi]
  · have above : n.testBit i = false :=
      Nat.testBit_lt_two_pow (Nat.lt_of_lt_of_le hn (Nat.pow_le_pow_right (by decide) (by omega)))
    simp [hi, above]

/-- Writing a field twice leaves what was written last. -/
theorem set_set {f : BitField} (hf : f.InWord) (u v w : Word) : f.set u (f.set v w) = f.set u w := by
  apply Word.eq_of_testBit
  intro i hi
  rw [testBit_set f u _ hf.starts hf.ends i hi, testBit_set f u _ hf.starts hf.ends i hi]
  split
  · rfl
  next outside => rw [testBit_set f v w hf.starts hf.ends i hi, if_neg outside]

/-- Writing back what a field holds changes nothing. -/
theorem set_get_self {f : BitField} (hf : f.InWord) (w : Word) : f.set (f.get w) w = w := by
  apply Word.eq_of_testBit
  intro i hi
  rw [testBit_set f _ w hf.starts hf.ends i hi]
  split
  next inside =>
    rw [testBit_get f w hf.starts hf.ends]
    have e : f.offset + (i - f.offset) = i := by omega
    simp [e, show i - f.offset < f.width by omega]
  · rfl

end BitField

namespace Header

theorem free_inWord : free.InWord := ⟨by decide, by decide⟩
theorem level_inWord : level.InWord := ⟨by decide, by decide⟩
theorem mark_inWord : mark.InWord := ⟨by decide, by decide⟩
theorem tag_inWord : tag.InWord := ⟨by decide, by decide⟩
theorem previous_inWord : previous.InWord := ⟨by decide, by decide⟩
theorem next_inWord : next.InWord := ⟨by decide, by decide⟩

theorem free_fresh (isFree : Bool) (lvl : Nat) : (free.get (fresh isFree lvl) == 1) = isFree := by
  unfold fresh
  rw [BitField.get_set_apart level_inWord free_inWord (.inr (by decide))]
  cases isFree <;> decide

theorem level_fresh (isFree : Bool) {lvl : Nat} (h : lvl ≤ maxLevel) :
    (level.get (fresh isFree lvl)).toNat = lvl := by
  have small : lvl ≤ 28 := h
  exact BitField.toNat_get_set level_inWord (show lvl < 2 ^ 5 by omega) _

theorem mark_fresh (isFree : Bool) (lvl : Nat) : mark.get (fresh isFree lvl) = 0 := by
  unfold fresh
  rw [BitField.get_set_apart level_inWord mark_inWord (.inl (by decide)),
    BitField.get_set_apart free_inWord mark_inWord (.inl (by decide))]
  decide

theorem tag_fresh (isFree : Bool) (lvl : Nat) : tag.get (fresh isFree lvl) = 0 := by
  unfold fresh
  rw [BitField.get_set_apart level_inWord tag_inWord (.inl (by decide)),
    BitField.get_set_apart free_inWord tag_inWord (.inl (by decide))]
  decide

end Header

end FiberMachine

/-! ## Words and headers as functions -/

namespace FiberMachine.Heap

/-- Word `a`; zero beyond the end. -/
def wordAt (h : Heap) (a : Addr) : Word := h.memory.words[a]?.getD 0

/-- The heap with word `a` replaced. -/
def store (h : Heap) (a : Addr) (w : Word) : Heap := { h with memory := h.memory.put a w }

/-- Whether the header at `a` says free. -/
def freeAt (h : Heap) (a : Addr) : Bool := Header.free.get (h.wordAt a) == 1

/-- The level in the header at `a`. -/
def levelAt (h : Heap) (a : Addr) : Nat := (Header.level.get (h.wordAt a)).toNat

/-- Whether the header at `a` is marked. -/
def markedAt (h : Heap) (a : Addr) : Bool := Header.mark.get (h.wordAt a) == 1

/-- The tag in the header at `a`. -/
def tagAt (h : Heap) (a : Addr) : Tag := .ofNumber (Header.tag.get (h.wordAt a)).toNat

/-- The link to the block before the free block at `a`. -/
def previousAt (h : Heap) (a : Addr) : Addr := (Header.previous.get (h.wordAt a)).toNat

/-- The link to the block after the free block at `a`. -/
def nextAt (h : Heap) (a : Addr) : Addr := (Header.next.get (h.wordAt a)).toNat

variable {h : Heap} {a b : Addr} {w : Word}

/-- Beyond the end there are no headers. -/
theorem freeAt_of_le (ha : h.capacity ≤ a) : h.freeAt a = false := by
  have ha : h.memory.words[a]? = none := Array.getElem?_eq_none ha
  rw [freeAt, wordAt, ha]
  decide

theorem word_eq (ha : a < h.capacity) : word a h = .ok (h.wordAt a) := by
  have ha : a < h.memory.words.size := ha
  simp [word, wordAt, ha]

theorem setWord_eq (ha : a < h.capacity) : setWord a w h = .ok () (h.store a w) :=
  if_pos ha

@[simp] theorem capacity_store : (h.store a w).capacity = h.capacity := Memory.size_put _ _ _

@[simp] theorem levels_store : (h.store a w).levels = h.levels := rfl

@[simp] theorem freeLists_store : (h.store a w).freeLists = h.freeLists := rfl

/-- A word that the memory does not have. -/
theorem word_of_le (ha : h.capacity ≤ a) : word a h = .error (.fault (.outsideMemory a)) := by
  have none : h.memory.words[a]? = none := Array.getElem?_eq_none_iff.mpr ha
  rw [word, none]

theorem wordAt_store (ha : a < h.capacity) :
    (h.store a w).wordAt b = if a = b then w else h.wordAt b := by
  have ha : a < h.memory.words.size := ha
  by_cases e : a = b
  · subst e
    simp [store, wordAt, Memory.put, ha]
  · simp [store, wordAt, Memory.put, e]

theorem wordAt_store_of_ne (ne : a ≠ b) : (h.store a w).wordAt b = h.wordAt b := by
  simp [store, wordAt, Memory.put, ne]

/-- Two memories of one size are equal when all their words are. -/
theorem memory_ext {k : Heap} (size : h.capacity = k.capacity)
    (words : ∀ x < h.capacity, h.wordAt x = k.wordAt x) : h.memory = k.memory := by
  have size' : h.memory.words.size = k.memory.words.size := size
  have : h.memory.words = k.memory.words := by
    apply Array.ext size'
    intro i hi hk
    have e := words i hi
    simpa [wordAt, hi, hk] using e
  cases hm : h.memory
  cases km : k.memory
  simp_all

/-! ### Header fields -/

theorem field_eq (f : BitField) (ha : a < h.capacity) : field f a h = .ok (f.get (h.wordAt a)) := by
  simp only [field, HeapReader.run_bind, word_eq ha, HeapReader.run_pure]

theorem field_of_le (f : BitField) (ha : h.capacity ≤ a) : field f a h = .error (.fault (.outsideMemory a)) := by
  rw [field, HeapReader.run_bind, word_of_le ha]

theorem setField_eq (f : BitField) {v : Word} (ha : a < h.capacity) :
    setField f a v h = .ok () (h.store a (f.set v (h.wordAt a))) := by
  simp only [setField, HeapM.run_bind, HeapM.run_lift, word_eq ha, setWord_eq ha]

theorem isFree_eq (ha : a < h.capacity) : isFree a h = .ok (h.freeAt a) := by
  simp only [isFree, HeapReader.run_bind, field_eq _ ha, HeapReader.run_pure, freeAt]

theorem level_eq (ha : a < h.capacity) : level a h = .ok (h.levelAt a) := by
  simp only [level, HeapReader.run_bind, field_eq _ ha, HeapReader.run_pure, levelAt]

theorem blockWords_eq (ha : a < h.capacity) : blockWords a h = .ok (2 ^ h.levelAt a) := by
  simp only [blockWords, HeapReader.run_bind, level_eq ha, HeapReader.run_pure, levelWords_eq,
    Nat.pow_eq]

theorem payloadWords_eq (ha : a < h.capacity) :
    payloadWords a h = .ok (2 ^ h.levelAt a - 1) := by
  simp only [payloadWords, HeapReader.run_bind, blockWords_eq ha, HeapReader.run_pure]

theorem tag_eq (ha : a < h.capacity) : tag a h = .ok (h.tagAt a) := by
  simp only [tag, HeapReader.run_bind, field_eq _ ha, HeapReader.run_pure, tagAt]

theorem isMarked_eq (ha : a < h.capacity) : isMarked a h = .ok (h.markedAt a) := by
  simp only [isMarked, HeapReader.run_bind, field_eq _ ha, HeapReader.run_pure, markedAt]

theorem previousFree_eq (ha : a < h.capacity) : previousFree a h = .ok (h.previousAt a) := by
  simp only [previousFree, HeapReader.run_bind, field_eq _ ha, HeapReader.run_pure, previousAt]

theorem nextFree_eq (ha : a < h.capacity) : nextFree a h = .ok (h.nextAt a) := by
  simp only [nextFree, HeapReader.run_bind, field_eq _ ha, HeapReader.run_pure, nextAt]

theorem firstFree_eq {lvl : Nat} {first : Option Addr} (hl : h.freeLists[lvl]? = some first) :
    firstFree lvl h = .ok first := by
  simp [firstFree, hl]

end FiberMachine.Heap
