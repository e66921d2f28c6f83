import FiberMachine.Proofs.Workload

/-!
# Edits of free lists

Read from the first free block along the links, the free list of a level is a sequence. Appending a block to it and taking a block
out of it are the edits of that sequence that one expects, whether the list is empty, has one member or two, or the block is its first.
A well-formed heap has such sequences on all levels, and an edit leaves them even where the heap is not well formed for a while: the
blocks that a split or a merge has in hand are on no list.
-/

namespace FiberMachine.Heap

/-- The free list of level `l` has become `xs`, and the lists of the other levels are what they were. -/
structure Relisted (h h' : Heap) (l : Nat) (xs : List Addr) : Prop where
  lists : h'.Lists h'.freeList
  sequence : h'.freeList l = xs
  others : ∀ m ≤ h.levels, m ≠ l → h'.freeList m = h.freeList m ∧ h'.freeLists[m]? = h.freeLists[m]?

variable {h h' : Heap} {xs : List Addr} {a l : Nat}

theorem Lists.relisted (before : h.Lists h.freeList) (after : h'.Lists (Function.update h.freeList l xs)) (hl : l ≤ h.levels)
    (levels : h'.levels = h.levels) : h.Relisted h' l xs where
  lists := after.listed
  sequence := by rw [after.freeList_eq (levels.symm ▸ hl), Function.update_self]
  others m hm ne := by
    have hm' : m ≤ h'.levels := levels.symm ▸ hm
    rw [after.freeList_eq hm', after.first hm', before.first hm, Function.update_of_ne ne]
    exact ⟨rfl, rfl⟩

/-- The free lists of a well-formed heap are sequences of its free blocks. -/
theorem WellFormed.lists_freeList (wf : h.WellFormed) :
    h.Lists h.freeList ∧ ∀ l ≤ h.levels, ∀ a, a ∈ h.freeList l ↔ ∃ b ∈ h.blocks, b.addr = a ∧ b.level = l ∧ b.free = true := by
  obtain ⟨R, A⟩ := wf.arena
  refine ⟨A.sequences.listed, fun l hl a => ?_⟩
  rw [A.sequences.freeList_eq hl, A.members hl, A.free_iff (WellFormed.settled_plan h)]

/-- The first block of a list from which `a` has been erased. -/
theorem Lists.head?_erase (lists : h.Lists h.freeList) (hl : l ≤ h.levels) (ha : a ∈ h.freeList l) :
    ((h.freeList l).erase a).head? = if h.freeList l = [a] then none
      else if (h.freeList l).head? = some a then some (h.nextAt a) else (h.freeList l).head? := by
  have ring := lists.ring hl
  cases hR : h.freeList l with
  | nil => simp [hR] at ha
  | cons f rest =>
    rw [hR] at ring
    by_cases e : f = a
    · subst e
      cases rest with
      | nil => simp
      | cons b rest =>
        obtain ⟨next, _⟩ := ring.next_inner (p := []) rfl
        simp [next]
    · simp [e]

/-- Where the free lists are sequences, as they are in every well-formed heap, `pushFree` appends a block that is on no list, and
`unlinkFree` erases a member. -/
theorem list_edits (h : Heap) :
    (h.WellFormed → h.Lists h.freeList ∧
      ∀ l ≤ h.levels, ∀ a, a ∈ h.freeList l ↔ ∃ b ∈ h.blocks, b.addr = a ∧ b.level = l ∧ b.free = true) ∧
    (h.Lists h.freeList → ∀ l ≤ h.levels,
      (∀ a < h.capacity, (∀ m ≤ h.levels, a ∉ h.freeList m) → ∃ h', pushFree a l h = .ok () h' ∧
        h.Relisted h' l (h.freeList l ++ [a]) ∧ h.Spliced h' a ((h.freeList l).head?.toList ++ (h.freeList l).getLast?.toList)) ∧
      (∀ a ∈ h.freeList l, ∃ h', unlinkFree a l h = .ok () h' ∧ h.Relisted h' l ((h.freeList l).erase a) ∧
        h'.freeLists[l]? = some (if h.freeList l = [a] then none
          else if (h.freeList l).head? = some a then some (h.nextAt a) else (h.freeList l).head?) ∧
        h.Spliced h' a [h.previousAt a, h.nextAt a])) := by
  refine ⟨fun wf => wf.lists_freeList, fun lists l hl => ⟨fun a ha unlisted => ?_, fun a ha => ?_⟩⟩
  · obtain ⟨h', run, after, spliced⟩ := lists.push hl ha unlisted
    exact ⟨h', run, lists.relisted after hl spliced.rest.levels, spliced⟩
  · obtain ⟨h', run, after, spliced⟩ := lists.unlink hl ha
    have relisted := lists.relisted after hl spliced.rest.levels
    have levels := spliced.rest.levels
    refine ⟨h', run, relisted, ?_, spliced⟩
    rw [relisted.lists.first (levels.symm ▸ hl), relisted.sequence, lists.head?_erase hl ha]

/-- Four blocks of eight words are allocated in the middle of the memory, and one of them is released. -/
def eightsWorkload : List Operation :=
  [.allocateTagged .bytes 7, .allocateTagged .bytes 7, .allocateTagged .bytes 7, .allocateTagged .bytes 7, .release 16]

/-- A heap with two free blocks of eight words. -/
def eightsHeap : Heap :=
  match create 64 (.start none) with
  | .ok new => new.afterAll eightsWorkload
  | .error _ => bare 4 (.start none)

theorem sound_eightsHeap : eightsHeap.Sound := by
  obtain ⟨new, created, blank, _⟩ := create_eq (show levelWords minLevel ≤ 64 by decide) (.start none)
  have idle {h : Heap} {size : Nat} (no : ¬h.RunsCollector size) : h.RunsCollector size → h.Traceable :=
    fun r => absurd r no
  have allowed : (match create 64 (.start none) with
      | .ok h => h
      | .error _ => bare 4 (.start none)).AllAllowed eightsWorkload :=
    ⟨idle (by decide +kernel), idle (by decide +kernel), idle (by decide +kernel), idle (by decide +kernel),
      ⟨by decide +kernel, by decide +kernel⟩, trivial⟩
  rw [created] at allowed
  rw [eightsHeap, created]
  exact blank.sound.afterAll allowed

/-- Taking the first of two blocks out of a list and appending it again turns the list around. -/
theorem list_edits_eights : eightsHeap.WellFormed ∧ eightsHeap.freeList 3 = [40, 16] ∧
    ∃ h h', unlinkFree 40 3 eightsHeap = .ok () h ∧ h.freeList 3 = [16] ∧ h.freeLists[3]? = some (some 16) ∧
      pushFree 40 3 h = .ok () h' ∧ h'.freeList 3 = [16, 40] ∧ h'.freeList 4 = [48] := by
  have wf := sound_eightsHeap.wellFormed
  have levels : eightsHeap.levels = 6 := by decide +kernel
  have three : eightsHeap.freeList 3 = [40, 16] := by decide +kernel
  have four : eightsHeap.freeList 4 = [48] := by decide +kernel
  have next : eightsHeap.nextAt 40 = 16 := by decide +kernel
  have within : 40 < eightsHeap.capacity := by decide +kernel
  have lists := ((list_edits eightsHeap).1 wf).1
  obtain ⟨h, unlink, without, first, spliced⟩ :=
    ((list_edits eightsHeap).2 lists 3 (by rw [levels]; decide)).2 40 (by simp [three])
  have levels' := spliced.rest.levels
  have sixteen : h.freeList 3 = [16] := by rw [without.sequence, three]; rfl
  -- a block is on the list of its level only
  have unlisted (m : Nat) (hm : m ≤ h.levels) : 40 ∉ h.freeList m := by
    intro listed
    by_cases e : m = 3
    · simp [e, sixteen] at listed
    · rw [(without.others m (levels' ▸ hm) e).1] at listed
      exact e (lists.eq_of_mem (by rw [levels]; decide) (levels' ▸ hm) (by simp [three]) listed)
  obtain ⟨h', push, appended, _⟩ := ((list_edits h).2 without.lists 3 (by rw [levels', levels]; decide)).1 40
    (by rw [spliced.capacity]; exact within) unlisted
  refine ⟨wf, three, h, h', unlink, sixteen, ?_, push, ?_, ?_⟩
  · rw [first, three]
    simp [next]
  · rw [appended.sequence, sixteen]
    rfl
  · rw [(appended.others 4 (by rw [levels', levels]; decide) (by decide)).1,
      (without.others 4 (by rw [levels]; decide) (by decide)).1, four]

end FiberMachine.Heap
