import FiberMachine.Proofs.Access

/-!
# Writing headers and links

The writes that free-list surgery is made of, each as a function from heaps to heaps with what it
does to the header fields of every address. A link is written without disturbing the other link or
the level, and a fresh header has the given level.
-/

namespace FiberMachine.Heap

/-- The heap with a fresh header at `a`. -/
def withFresh (h : Heap) (a : Addr) (isFree : Bool) (l : Nat) : Heap :=
  h.store a (Header.fresh isFree l)

/-- The heap in which the free block at `a` links back to `p`. -/
def withPrevious (h : Heap) (a p : Addr) : Heap :=
  h.store a (Header.previous.set (UInt64.ofNat p) (h.wordAt a))

/-- The heap in which the free block at `a` links on to `n`. -/
def withNext (h : Heap) (a n : Addr) : Heap :=
  h.store a (Header.next.set (UInt64.ofNat n) (h.wordAt a))

/-- The heap with another first free block of a level. -/
def withFirst (h : Heap) (l : Nat) (first : Option Addr) : Heap :=
  { h with freeLists := h.freeLists.setIfInBounds l first }

/-- The numbers that a link can hold. -/
def linkLimit : Nat := 2 ^ 28

variable {h : Heap} {a b p n : Addr} {l : Nat}

@[simp] theorem capacity_withFresh {f : Bool} : (h.withFresh a f l).capacity = h.capacity :=
  capacity_store

@[simp] theorem capacity_withPrevious : (h.withPrevious a p).capacity = h.capacity := capacity_store

@[simp] theorem capacity_withNext : (h.withNext a n).capacity = h.capacity := capacity_store

@[simp] theorem capacity_withFirst {first : Option Addr} :
    (h.withFirst l first).capacity = h.capacity := rfl

@[simp] theorem freeLists_withFirst {first : Option Addr} :
    (h.withFirst l first).freeLists = h.freeLists.setIfInBounds l first := rfl

@[simp] theorem wordAt_withFirst {first : Option Addr} : (h.withFirst l first).wordAt b = h.wordAt b :=
  rfl

@[simp] theorem freeAt_withFirst {first : Option Addr} :
    (h.withFirst l first).freeAt b = h.freeAt b := rfl

@[simp] theorem levelAt_withFirst {first : Option Addr} :
    (h.withFirst l first).levelAt b = h.levelAt b := rfl

@[simp] theorem nextAt_withFirst {first : Option Addr} :
    (h.withFirst l first).nextAt b = h.nextAt b := rfl

@[simp] theorem previousAt_withFirst {first : Option Addr} :
    (h.withFirst l first).previousAt b = h.previousAt b := rfl

theorem withFirst_self {first : Option Addr} (hl : h.freeLists[l]? = some first) :
    h.withFirst l first = h := by
  obtain ⟨hlt, e⟩ := Array.getElem?_eq_some_iff.mp hl
  have same : h.freeLists.setIfInBounds l first = h.freeLists := by
    apply Array.ext (by simp)
    intro i _ _
    by_cases hi : l = i
    · subst hi
      simp [e]
    · rw [Array.getElem_setIfInBounds_ne _ hi]
  simp [withFirst, same]

/-! ### Fresh headers -/

theorem nextAt_withFresh_of_ne {f : Bool} (ne : a ≠ b) :
    (h.withFresh a f l).nextAt b = h.nextAt b := by
  unfold nextAt withFresh
  rw [wordAt_store_of_ne ne]

theorem previousAt_withFresh_of_ne {f : Bool} (ne : a ≠ b) :
    (h.withFresh a f l).previousAt b = h.previousAt b := by
  unfold previousAt withFresh
  rw [wordAt_store_of_ne ne]

theorem freeAt_withFresh {f : Bool} (ha : a < h.capacity) :
    (h.withFresh a f l).freeAt b = if a = b then f else h.freeAt b := by
  unfold freeAt withFresh
  rw [wordAt_store ha]
  split
  · exact Header.free_fresh f l
  · rfl

theorem levelAt_withFresh {f : Bool} (ha : a < h.capacity) (hl : l ≤ maxLevel) :
    (h.withFresh a f l).levelAt b = if a = b then l else h.levelAt b := by
  unfold levelAt withFresh
  rw [wordAt_store ha]
  split
  · exact Header.level_fresh f hl
  · rfl

/-! ### Links -/

/-- Writing a field of a header leaves every field apart from it. -/
theorem get_wordAt_setField {f g : BitField} {v : Word} (hf : f.InWord) (hg : g.InWord)
    (apart : f.Apart g) (ha : a < h.capacity) :
    g.get ((h.store a (f.set v (h.wordAt a))).wordAt b) = g.get (h.wordAt b) := by
  rw [wordAt_store ha]
  split
  next e => rw [BitField.get_set_apart hf hg apart, e]
  · rfl

theorem previousAt_withPrevious (ha : a < h.capacity) (hp : p < linkLimit) :
    (h.withPrevious a p).previousAt b = if a = b then p else h.previousAt b := by
  unfold previousAt withPrevious
  rw [wordAt_store ha]
  split
  · exact BitField.toNat_get_set Header.previous_inWord hp _
  · rfl

theorem nextAt_withNext (ha : a < h.capacity) (hn : n < linkLimit) :
    (h.withNext a n).nextAt b = if a = b then n else h.nextAt b := by
  unfold nextAt withNext
  rw [wordAt_store ha]
  split
  · exact BitField.toNat_get_set Header.next_inWord hn _
  · rfl

theorem nextAt_withPrevious (ha : a < h.capacity) : (h.withPrevious a p).nextAt b = h.nextAt b :=
  congrArg UInt64.toNat
    (get_wordAt_setField Header.previous_inWord Header.next_inWord (.inl (by decide)) ha)

theorem previousAt_withNext (ha : a < h.capacity) : (h.withNext a n).previousAt b = h.previousAt b :=
  congrArg UInt64.toNat
    (get_wordAt_setField Header.next_inWord Header.previous_inWord (.inr (by decide)) ha)

theorem freeAt_withPrevious (ha : a < h.capacity) : (h.withPrevious a p).freeAt b = h.freeAt b :=
  congrArg (· == 1)
    (get_wordAt_setField Header.previous_inWord Header.free_inWord (.inr (by decide)) ha)

theorem freeAt_withNext (ha : a < h.capacity) : (h.withNext a n).freeAt b = h.freeAt b :=
  congrArg (· == 1)
    (get_wordAt_setField Header.next_inWord Header.free_inWord (.inr (by decide)) ha)

theorem levelAt_withPrevious (ha : a < h.capacity) : (h.withPrevious a p).levelAt b = h.levelAt b :=
  congrArg UInt64.toNat
    (get_wordAt_setField Header.previous_inWord Header.level_inWord (.inr (by decide)) ha)

theorem levelAt_withNext (ha : a < h.capacity) : (h.withNext a n).levelAt b = h.levelAt b :=
  congrArg UInt64.toNat
    (get_wordAt_setField Header.next_inWord Header.level_inWord (.inr (by decide)) ha)

/-! ### Joining and leaving a list -/

/-- The heap in which the block at `a` has become the only member of its list. -/
def started (h : Heap) (a : Addr) (l : Nat) : Heap :=
  (((h.withFresh a true l).withPrevious a a).withNext a a).withFirst l (some a)

/-- The heap in which the block at `a` stands between the last and the first member of its list. -/
def appended (h : Heap) (a last first : Addr) (l : Nat) : Heap :=
  ((((h.withFresh a true l).withNext last a).withPrevious a last).withNext a first).withPrevious
    first a

/-- The heap in which the blocks at `p` and `n` are neighbours. -/
def bridged (h : Heap) (p n : Addr) : Heap := (h.withNext p n).withPrevious n p

@[simp] theorem capacity_started : (h.started a l).capacity = h.capacity := by simp [started]

@[simp] theorem capacity_appended {last first : Addr} :
    (h.appended a last first l).capacity = h.capacity := by simp [appended]

@[simp] theorem capacity_bridged : (h.bridged p n).capacity = h.capacity := by simp [bridged]

/-- A change of the memory and the free lists alone. -/
def Rest (h h' : Heap) : Prop := h' = { h with memory := h'.memory, freeLists := h'.freeLists }

theorem rest_store {w : Word} : h.Rest (h.store a w) := rfl

theorem rest_withFirst {first : Option Addr} : h.Rest (h.withFirst l first) := rfl

theorem Rest.trans {k k' : Heap} (r : h.Rest k) (s : k.Rest k') : h.Rest k' := by
  unfold Rest at *
  rw [s, r]

theorem Rest.levels {k : Heap} (r : h.Rest k) : k.levels = h.levels := by rw [r]

theorem rest_started : h.Rest (h.started a l) :=
  ((rest_store.trans rest_store).trans rest_store).trans rest_withFirst

theorem rest_appended {last first : Addr} : h.Rest (h.appended a last first l) :=
  (((rest_store.trans rest_store).trans rest_store).trans rest_store).trans rest_store

theorem rest_bridged : h.Rest (h.bridged p n) := rest_store.trans rest_store

@[simp] theorem freeLists_appended {last first : Addr} :
    (h.appended a last first l).freeLists = h.freeLists := by
  simp only [appended, withPrevious, withNext, withFresh, freeLists_store]

@[simp] theorem freeLists_started :
    (h.started a l).freeLists = h.freeLists.setIfInBounds l (some a) := by
  simp only [started, withFirst, withPrevious, withNext, withFresh, freeLists_store]

@[simp] theorem freeLists_bridged : (h.bridged p n).freeLists = h.freeLists := by
  simp only [bridged, withPrevious, withNext, freeLists_store]

section Started

variable (ha : a < h.capacity)
include ha

theorem freeAt_started : (h.started a l).freeAt b = if a = b then true else h.freeAt b := by
  unfold started
  rw [freeAt_withFirst, freeAt_withNext (by simpa), freeAt_withPrevious (by simpa),
    freeAt_withFresh ha]

theorem levelAt_started (hl : l ≤ maxLevel) :
    (h.started a l).levelAt b = if a = b then l else h.levelAt b := by
  unfold started
  rw [levelAt_withFirst, levelAt_withNext (by simpa), levelAt_withPrevious (by simpa),
    levelAt_withFresh ha hl]

theorem nextAt_started (hal : a < linkLimit) : (h.started a l).nextAt a = a := by
  unfold started
  rw [nextAt_withFirst, nextAt_withNext (by simpa) hal, if_pos rfl]

theorem previousAt_started (hal : a < linkLimit) : (h.started a l).previousAt a = a := by
  unfold started
  rw [previousAt_withFirst, previousAt_withNext (by simpa), previousAt_withPrevious (by simpa) hal,
    if_pos rfl]

omit ha in
theorem wordAt_started_of_ne (ne : a ≠ b) : (h.started a l).wordAt b = h.wordAt b := by
  simp [started, withFresh, withNext, withPrevious, wordAt_store_of_ne ne]

end Started

section Appended

variable {last first : Addr} (ha : a < h.capacity) (hl : last < h.capacity) (hf : first < h.capacity)
include ha hl hf

theorem freeAt_appended :
    (h.appended a last first l).freeAt b = if a = b then true else h.freeAt b := by
  unfold appended
  rw [freeAt_withPrevious (by simpa), freeAt_withNext (by simpa), freeAt_withPrevious (by simpa),
    freeAt_withNext (by simpa), freeAt_withFresh ha]

theorem levelAt_appended (hm : l ≤ maxLevel) :
    (h.appended a last first l).levelAt b = if a = b then l else h.levelAt b := by
  unfold appended
  rw [levelAt_withPrevious (by simpa), levelAt_withNext (by simpa), levelAt_withPrevious (by simpa),
    levelAt_withNext (by simpa), levelAt_withFresh ha hm]

theorem nextAt_appended (hal : a < linkLimit) (hfl : first < linkLimit) :
    (h.appended a last first l).nextAt b =
      if a = b then first else if last = b then a else h.nextAt b := by
  unfold appended
  rw [nextAt_withPrevious (by simpa), nextAt_withNext (by simpa) hfl, nextAt_withPrevious (by simpa),
    nextAt_withNext (by simpa) hal]
  split
  · rfl
  next ne => rw [nextAt_withFresh_of_ne ne]

theorem previousAt_appended (hal : a < linkLimit) (hll : last < linkLimit) :
    (h.appended a last first l).previousAt b =
      if first = b then a else if a = b then last else h.previousAt b := by
  unfold appended
  rw [previousAt_withPrevious (by simpa) hal, previousAt_withNext (by simpa),
    previousAt_withPrevious (by simpa) hll, previousAt_withNext (by simpa)]
  split
  · rfl
  · split
    · rfl
    next ne => rw [previousAt_withFresh_of_ne ne]

omit ha hl hf in
theorem wordAt_appended_of_ne (na : a ≠ b) (nl : last ≠ b) (nf : first ≠ b) :
    (h.appended a last first l).wordAt b = h.wordAt b := by
  simp [appended, withFresh, withNext, withPrevious, wordAt_store_of_ne na, wordAt_store_of_ne nl,
    wordAt_store_of_ne nf]

end Appended

section Bridged

variable (hp : p < h.capacity) (hn : n < h.capacity)
include hp hn

theorem freeAt_bridged : (h.bridged p n).freeAt b = h.freeAt b := by
  unfold bridged
  rw [freeAt_withPrevious (by simpa), freeAt_withNext hp]

theorem levelAt_bridged : (h.bridged p n).levelAt b = h.levelAt b := by
  unfold bridged
  rw [levelAt_withPrevious (by simpa), levelAt_withNext hp]

theorem nextAt_bridged (hnl : n < linkLimit) :
    (h.bridged p n).nextAt b = if p = b then n else h.nextAt b := by
  unfold bridged
  rw [nextAt_withPrevious (by simpa), nextAt_withNext hp hnl]

theorem previousAt_bridged (hpl : p < linkLimit) :
    (h.bridged p n).previousAt b = if n = b then p else h.previousAt b := by
  unfold bridged
  rw [previousAt_withPrevious (by simpa) hpl, previousAt_withNext hp]

omit hp hn in
theorem wordAt_bridged_of_ne (np : p ≠ b) (nn : n ≠ b) : (h.bridged p n).wordAt b = h.wordAt b := by
  simp [bridged, withNext, withPrevious, wordAt_store_of_ne np, wordAt_store_of_ne nn]

end Bridged

/-! ### The actions -/

theorem setFresh_eq {f : Bool} (ha : a < h.capacity) :
    setWord a (Header.fresh f l) h = .ok () (h.withFresh a f l) := setWord_eq ha

theorem setPreviousFree_eq (ha : a < h.capacity) :
    setPreviousFree a p h = .ok () (h.withPrevious a p) := setField_eq _ ha

theorem setNextFree_eq (ha : a < h.capacity) : setNextFree a n h = .ok () (h.withNext a n) :=
  setField_eq _ ha

theorem setFirstFree_eq (first : Option Addr) :
    setFirstFree l first h = .ok () (h.withFirst l first) := rfl

/-- A block that becomes the only member of its list. -/
theorem pushFree_eq_of_none (ha : a < h.capacity) (hl : h.freeLists[l]? = some none) :
    pushFree a l h = .ok () (h.started a l) := by
  have hl' : (h.withFresh a true l).freeLists[l]? = some none := hl
  simp only [pushFree, HeapM.run_bind, HeapM.run_lift, setFresh_eq ha, firstFree_eq hl',
    setPreviousFree_eq, setNextFree_eq, setFirstFree_eq, capacity_withFresh, capacity_withPrevious, ha,
    started]

/-- A block that joins a list with members. -/
theorem pushFree_eq_of_some {first : Addr} (ha : a < h.capacity) (hf : first < h.capacity)
    (ne : a ≠ first) (hp : h.previousAt first < h.capacity)
    (hl : h.freeLists[l]? = some (some first)) :
    pushFree a l h = .ok () (h.appended a (h.previousAt first) first l) := by
  have hl' : (h.withFresh a true l).freeLists[l]? = some (some first) := hl
  have last : (h.withFresh a true l).previousAt first = h.previousAt first := by
    unfold previousAt withFresh
    rw [wordAt_store_of_ne ne]
  simp only [pushFree, HeapM.run_bind, HeapM.run_lift, setFresh_eq ha, firstFree_eq hl',
    previousFree_eq, setPreviousFree_eq, setNextFree_eq, capacity_withFresh, capacity_withPrevious,
    capacity_withNext, last, ha, hf, hp, appended]

/-- The only member of a list leaves it. -/
theorem unlinkFree_eq_of_only {first : Option Addr} (ha : a < h.capacity) (only : h.nextAt a = a)
    (hl : h.freeLists[l]? = some first) :
    unlinkFree a l h = .ok () (h.withFirst l none) := by
  simp only [unlinkFree, HeapM.run_bind, HeapM.run_lift, nextFree_eq ha, only, if_true,
    firstFree_eq hl, setFirstFree_eq]

/-- A member leaves a list in which others remain. -/
theorem unlinkFree_eq_of_more {first : Option Addr} (ha : a < h.capacity) (more : h.nextAt a ≠ a)
    (hn : h.nextAt a < h.capacity) (hp : h.previousAt a < h.capacity)
    (hl : h.freeLists[l]? = some first) :
    unlinkFree a l h = .ok () ((h.bridged (h.previousAt a) (h.nextAt a)).withFirst l
      (if first = some a then some (h.nextAt a) else first)) := by
  have hl' : firstFree l ((h.withNext (h.previousAt a) (h.nextAt a)).withPrevious (h.nextAt a)
      (h.previousAt a)) = .ok first := firstFree_eq hl
  simp only [unlinkFree, HeapM.run_bind, HeapM.run_lift, nextFree_eq ha, more, if_false,
    previousFree_eq ha, setPreviousFree_eq, setNextFree_eq, capacity_withNext, hn, hp, hl',
    HeapM.run_ite]
  split
  · rfl
  · have same : (h.bridged (h.previousAt a) (h.nextAt a)).withFirst l first =
        h.bridged (h.previousAt a) (h.nextAt a) := withFirst_self hl
    rw [same]
    rfl

end FiberMachine.Heap
