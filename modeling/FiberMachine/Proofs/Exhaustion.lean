import Mathlib.Order.Bounds.Basic
import FiberMachine.Proofs.Tidy
import FiberMachine.Proofs.Windows

/-!
# Where memory comes from, and running out of it

An allocation fails only if no order of releasing could have helped: the arena is too small, or every aligned window that is large
enough has a word that can be reached from the roots. This rests on both halves of the memory management, that a collection
keeps only what can be reached and that free buddies are always merged.

An allocation that succeeds gives a block of the least power of two that suffices, aligned to its size, without tag and all zero. It
takes nothing from what can be reached: splitting writes only headers of free blocks, and a collection before it reclaims only what
nothing refers to. All other blocks are as they were. When no collection was needed the block is the lower end of the
first block of the lowest list that has one.
-/

namespace FiberMachine.Heap

variable {h g : Heap} {a l size : Nat}

/-- The block at `a` and the window of `2 ^ l` words at `b` have a word in common. -/
def Meets (h : Heap) (a b l : Nat) : Prop := a < b + 2 ^ l ∧ b < a + 2 ^ h.levelAt a

/-- The least level with enough words. -/
theorem isLeast_levelFor (size : Nat) : IsLeast {l | max size 1 ≤ 2 ^ l} (levelFor size) := by
  have enough (l : Nat) : max size 1 ≤ 2 ^ l ↔ levelFor size ≤ l := by
    rw [levelFor_le, levelWords_eq]
    exact max_le_iff.trans (and_iff_left (Nat.two_pow_pos l))
  exact ⟨(enough _).mpr le_rfl, fun l hl => (enough l).mp hl⟩

/-- A window that no allocated block meets is vacant. -/
theorem vacant_of_apart (aligned : 2 ^ l ∣ a) (within : a + 2 ^ l ≤ h.capacity)
    (apart : ∀ b, h.Allocated b → ¬h.Meets b a l) : h.Vacant a l where
  aligned := aligned
  within := within
  apart := by
    intro b hb taken
    have level : h.levelAt b.addr = b.level := by rw [ofHeader_of_mem_blocks hb]; rfl
    have := apart b.addr ⟨b, hb, rfl, taken⟩
    rw [Meets, level] at this
    rw [b.words_eq]
    by_contra no
    exact this ⟨by lia, by lia⟩

/-- Allocated blocks do not meet. -/
theorem WellFormed.not_meets (wf : h.WellFormed) {b c : Nat} (hb : h.Allocated b) (hc : h.Allocated c) (ne : b ≠ c) :
    ¬h.Meets b c (h.levelAt c) := by
  rintro ⟨lt, gt⟩
  have pos := Nat.two_pow_pos (h.levelAt b)
  have pos' := Nat.two_pow_pos (h.levelAt c)
  rcases Nat.le_total b c with le | le
  · exact ne (wf.eq_of_mem hb hc le gt le_rfl (by omega))
  · exact ne (wf.eq_of_mem hb hc le_rfl (by omega) le lt)

/-- Without a free block of the level or a larger one every window of the level meets an allocated block. -/
theorem Sound.meets_of_runsCollector (s : h.Sound) (runs : h.RunsCollector size) (aligned : 2 ^ levelFor size ∣ a)
    (within : a + 2 ^ levelFor size ≤ h.capacity) : ∃ b, h.Allocated b ∧ h.Meets b a (levelFor size) := by
  by_contra none
  obtain ⟨b, m, hb, hm, _, _⟩ := s.free_of_vacant (vacant_of_apart aligned within fun b hb meets => none ⟨b, hb, meets⟩)
  obtain ⟨c, hc, _, level, _⟩ := hb
  have le : m ≤ h.levels := level ▸ (s.wellFormed.aligned c hc).1
  obtain ⟨ring, first, _, members⟩ := s.wellFormed.rings m le
  rw [runs.2 m le hm] at first
  have empty : ring = [] := List.head?_eq_none_iff.mp (Option.some.inj first).symm
  have := (members b).mpr ⟨c, hc, ‹_›, level, ‹_›⟩
  rw [empty] at this
  cases this

/-- What can be reached is in its place after an allocation, whether this has collected or not. -/
theorem MaybeCollected.keeps (maybe : h.MaybeCollected g) (T : h.Traceable) (ha : h.Reachable a) :
    g.Allocated a ∧ ∀ x : Nat, a ≤ x → x < a + 2 ^ h.levelAt a → g.wordAt x = h.wordAt x := by
  rcases maybe with rfl | c
  · exact ⟨(T a ha).1, fun _ _ _ => rfl⟩
  · exact ⟨(c.allocated a).mpr ha, c.words a ha⟩

theorem MaybeCollected.roots (maybe : h.MaybeCollected g) : g.contexts = h.contexts ∧ g.temporaries = h.temporaries := by
  rcases maybe with rfl | c
  · exact ⟨rfl, rfl⟩
  · exact ⟨c.contexts, c.temporaries⟩

/-- The place of a new block met nothing that can be reached. -/
theorem Placed.window (p : g.Placed h a l) (s : g.Sound) :
    l ≤ g.levels ∧ 2 ^ l ∣ a ∧ a + 2 ^ l ≤ g.capacity ∧ ∀ b, g.Allocated b → ¬g.Meets b a l := by
  have s' := p.sound s
  have ha : h.Allocated a := (p.allocated a).mpr (.inr rfl)
  have capacity : h.capacity = g.capacity := by rw [s'.wellFormed.capacity, s.wellFormed.capacity, p.levels]
  have within := s'.wellFormed.block_le ha
  rw [p.level, capacity] at within
  obtain ⟨b, hb, rfl, _⟩ := ha
  have level : h.levelAt b.addr = b.level := by rw [ofHeader_of_mem_blocks hb]; rfl
  obtain ⟨le, aligned⟩ := s'.wellFormed.aligned b hb
  rw [b.words_eq, ← level, p.level] at aligned
  refine ⟨by rw [← p.levels, ← p.level, level]; exact le, aligned, within, fun c hc meets => ?_⟩
  have hc' := (p.allocated c).mpr (.inl hc)
  refine s'.wellFormed.not_meets hc' ((p.allocated b.addr).mpr (.inr rfl)) (fun e => p.fresh (e ▸ hc)) ?_
  have same : h.levelAt c = g.levelAt c := by
    rw [levelAt, p.words c hc c le_rfl (Nat.lt_add_of_pos_right (Nat.two_pow_pos _)), levelAt]
  rwa [Meets, same, p.level]

/-- An allocation fails exactly when the least level with enough words is larger than the arena, or when something that can be
reached from the roots meets every window of this level; and then no root has changed and nothing that can be reached has. -/
theorem outOfMemory_exact (reached : h.Reached) (T : h.Traceable) (size : Nat) : ∃ L, IsLeast {l | max size 1 ≤ 2 ^ l} L ∧
    ((∃ g, allocate size h = .error (.error (.outOfMemory size)) g) ↔
      h.levels < L ∨ ∀ k, (k + 1) * 2 ^ L ≤ h.capacity → ∃ a, h.Reachable a ∧ h.Meets a (k * 2 ^ L) L) ∧
    ∀ e g, allocate size h = .error e g → e = .error (.outOfMemory size) ∧
      g.contexts = h.contexts ∧ g.temporaries = h.temporaries ∧
      ∀ a, h.Reachable a → g.Allocated a ∧ ∀ x : Nat, a ≤ x → x < a + 2 ^ h.levelAt a → g.wordAt x = h.wordAt x := by
  have s := reached.sound
  have meets {g : Heap} (maybe : h.MaybeCollected g) {a b : Nat} (ha : h.Reachable a) : g.Meets a b (levelFor size) ↔ h.Meets a b (levelFor size) := by
    have header := (maybe.keeps T ha).2 a le_rfl (Nat.lt_add_of_pos_right (Nat.two_pow_pos _))
    rw [Meets, Meets, levelAt, header, levelAt]
  obtain ⟨g, maybe, outcome⟩ := s.wellFormed.allocate s.unmarked (fun _ => T : h.RunsCollector size → _)
  have sg := maybe.sound s
  have capacity : g.capacity = h.capacity := by
    rcases maybe with rfl | c
    · rfl
    · exact c.capacity s.wellFormed
  refine ⟨levelFor size, isLeast_levelFor size, ?_, ?_⟩
  · rcases outcome with ⟨failed, small | ⟨c, runs⟩⟩ | ⟨a, h', run, placed⟩
    · exact ⟨fun _ => .inl small, fun _ => ⟨g, failed⟩⟩
    · refine ⟨fun _ => .inr fun k hk => ?_, fun _ => ⟨g, failed⟩⟩
      rw [Nat.succ_mul] at hk
      obtain ⟨a, ha, met⟩ := sg.meets_of_runsCollector runs (Dvd.intro_left k rfl) (capacity.symm ▸ hk)
      have ha := (c.allocated a).mp ha
      exact ⟨a, ha, (meets maybe ha).mp met⟩
    · obtain ⟨le, ⟨k, hk⟩, within, apart⟩ := placed.window sg
      rw [Nat.mul_comm] at hk
      subst hk
      have levels : g.levels = h.levels := by
        rcases maybe with rfl | c
        · rfl
        · exact c.levels
      refine ⟨?_, fun reason => ?_⟩
      · rintro ⟨_, failed⟩
        rw [run] at failed
        cases failed
      rcases reason with small | full
      · omega
      · obtain ⟨a, ha, met⟩ := full k (by rw [Nat.succ_mul]; exact capacity ▸ within)
        exact absurd ((meets maybe ha).mpr met) (apart a (maybe.keeps T ha).1)
  · intro e g' failed
    rcases outcome with ⟨failed', _⟩ | ⟨a, h', run, _⟩
    · rw [failed] at failed'
      cases failed'
      exact ⟨rfl, maybe.roots.1, maybe.roots.2, fun a ha => maybe.keeps T ha⟩
    · rw [failed] at run
      cases run

/-- Two arrays that are not protected any more are no reason to fail, but the unassigned object is. -/
theorem outOfMemory_exact_cycle : (∃ g, allocate 9 cycleHeap = .error (.error (.outOfMemory 9)) g) ∧
    ¬∃ g, allocate 8 cycleHeap = .error (.error (.outOfMemory 8)) g := by
  obtain ⟨new, created, _⟩ := create_eq (show levelWords minLevel ≤ 16 by decide) (.start none)
  have reached : cycleHeap.Reached := ⟨16, .start none, new, _, le_rfl, created, allAllowed_cycle created, by rw [cycleHeap, created]⟩
  have T : cycleHeap.Traceable := .of_closed (M := [0]) (by decide +kernel) (by decide +kernel) (by decide +kernel)
  have only (a : Nat) (ha : cycleHeap.Reachable a) : a = 0 := by
    refine ha.of_closed (M := fun a => a = 0) (by decide +kernel) ?_
    rintro b c rfl ⟨found, run, hc⟩
    have none : ∀ c ∈ (children 0 cycleHeap).toOption.getD [], c = 0 := by decide +kernel
    rw [run] at none
    exact none c hc
  have capacity : cycleHeap.capacity = 16 := by decide +kernel
  have levels : cycleHeap.levels = 4 := by decide +kernel
  have level : cycleHeap.levelAt 0 = 0 := by decide +kernel
  obtain ⟨L, least, fails, _⟩ := outOfMemory_exact reached T 9
  have four : levelFor 9 = 4 := by decide +kernel
  obtain rfl : L = 4 := (least.unique (isLeast_levelFor 9)).trans four
  obtain ⟨L, least, fails', _⟩ := outOfMemory_exact reached T 8
  have three : levelFor 8 = 3 := by decide +kernel
  obtain rfl : L = 3 := (least.unique (isLeast_levelFor 8)).trans three
  rw [capacity] at fails fails'
  rw [levels] at fails'
  refine ⟨fails.mpr (.inr fun k hk => ⟨0, .start (by simp [Heap.roots, unassigned]), ?_⟩), fun failed => ?_⟩
  · have words : 2 ^ cycleHeap.levelAt 0 = 1 := by rw [level]; rfl
    refine ⟨by omega, ?_⟩
    rw [words]
    clear * - hk
    omega
  · rcases fails'.mp failed with small | full
    · exact absurd small (by decide)
    · obtain ⟨a, ha, met⟩ := full 1 (by decide)
      have start := only a ha
      have alone : cycleHeap.levelAt a = 0 := by rw [start]; exact level
      rw [Meets, alone, start] at met
      exact absurd met.2 (by decide)

/-! ### Where a new block comes from -/

variable {h' : Heap}

/-- An allocated block of `2 ^ l` words, untagged and all zero, starts at `a`. -/
structure Pristine (h : Heap) (a l : Nat) : Prop where
  allocated : h.Allocated a
  words : blockWords a h = .ok (2 ^ l)
  aligned : 2 ^ l ∣ a
  within : a + 2 ^ l ≤ h.capacity
  tag : Heap.tag a h = .ok .unassigned
  payload : ∀ i < 2 ^ l - 1, read a i h = .ok 0

/-- Of the lists of level `l` and above, the lowest one that has a block starts with the one at `a`. -/
def LowestFree (h : Heap) (l a : Nat) : Prop :=
  ∃ m, l ≤ m ∧ m ≤ h.levels ∧ h.freeLists[m]? = some (some a) ∧ ∀ k, l ≤ k → k < m → h.freeLists[k]? = some none

/-- The search of the free lists finds the first block of the lowest list that has one. -/
theorem WellFormed.takeFree_lowest (wf : h.WellFormed) (hl : l ≤ h.levels) (run : Heap.takeFree l h = .ok (some a) g) :
    h.LowestFree l a := by
  obtain ⟨R, A⟩ := wf.arena
  have search : Heap.takeFreeFrom l 0 (h.levels + 1 - l) h = .ok (some a) g := by
    rwa [Heap.takeFree, HeapM.run_bind, HeapM.run_get] at run
  rcases A.takeFrom (settled_plan h) (l := l) (m := 0) (n := h.levels + 1 - l) (by omega) with
    ⟨none, _⟩ | ⟨b, k, _, found, _, first, _, le, empty⟩
  · rw [search] at none
    cases none
  · rw [search] at found
    cases found
    refine ⟨l + k, Nat.le_add_right l k, le, by rw [A.first le, first], fun i hi lt => ?_⟩
    have below := empty (i - l) (Nat.zero_le _) (by omega)
    rw [Nat.add_sub_cancel' hi] at below
    rw [A.first (by omega), below, List.head?_nil]

/-- Unless the collector runs, the block is the one that the first search has found. -/
theorem WellFormed.allocate_lowest (wf : h.WellFormed) (idle : ¬h.RunsCollector size) (run : Heap.allocate size h = .ok a h') :
    h.LowestFree (levelFor size) a := by
  by_cases small : h.levels < levelFor size
  · simp only [Heap.allocate, HeapM.run_bind, HeapM.run_get, small, if_true, HeapM.run_lift, HeapReader.run_reject] at run
    cases run
  · have le : levelFor size ≤ h.levels := Nat.not_lt.mp small
    rcases wf.takeFree le with ⟨_, empty⟩ | ⟨b, k, found, hand⟩
    · exact absurd ⟨le, empty⟩ idle
    · obtain ⟨h₁, h₂, header, payload, _⟩ := wf.place hand
      have words : levelWords (levelFor size) = 2 ^ levelFor size := levelWords_eq _
      simp only [Heap.allocate, HeapM.run_bind, HeapM.run_get, small, if_false, obtain, found, header, words, payload, HeapM.run_pure] at run
      cases run
      exact wf.takeFree_lowest le found

/-- When no list has a block that is large enough, the collector runs. -/
theorem WellFormed.allocate_collects (wf : h.WellFormed) (unmarked : h.Unmarked) (traceable : h.Traceable) (runs : h.RunsCollector size)
    (run : Heap.allocate size h = .ok a h') : h'.stats.collections = h.stats.collections + 1 := by
  have large : ¬h.levels < levelFor size := Nat.not_lt.mpr runs.1
  rcases wf.takeFree runs.1 with ⟨none, _⟩ | ⟨b, k, found, _⟩
  · obtain ⟨g, collected, c⟩ := wf.collect unmarked traceable
    rcases c.wellFormed.takeFree (c.levels.symm ▸ runs.1) with ⟨again, _⟩ | ⟨b, k, found, hand⟩
    · simp only [Heap.allocate, HeapM.run_bind, HeapM.run_get, large, if_false, obtain, none, collected, again, HeapM.run_lift,
        HeapReader.run_reject] at run
      cases run
    · obtain ⟨h₁, h₂, header, payload, placed⟩ := c.wellFormed.place hand
      have words : levelWords (levelFor size) = 2 ^ levelFor size := levelWords_eq _
      simp only [Heap.allocate, HeapM.run_bind, HeapM.run_get, large, if_false, obtain, none, collected, found, header, words, payload,
        HeapM.run_pure] at run
      cases run
      rw [placed.stats, c.collections]
  · obtain ⟨m, le, inside, first, _⟩ := wf.takeFree_lowest runs.1 found
    rw [runs.2 m inside le] at first
    cases first

/-- What has just been placed is pristine. -/
theorem Placed.pristine (p : g.Placed h a l) : h.Pristine a l := by
  have ha : h.Allocated a := (p.allocated a).mpr (.inr rfl)
  have inside := p.wellFormed.lt_capacity ha
  have within := p.wellFormed.block_le ha
  obtain ⟨b, hb, rfl, _⟩ := ha
  have level : h.levelAt b.addr = b.level := by rw [ofHeader_of_mem_blocks hb]; rfl
  obtain ⟨_, aligned⟩ := p.wellFormed.aligned b hb
  rw [b.words_eq, ← level, p.level] at aligned
  refine ⟨(p.allocated _).mpr (.inr rfl), by rw [blockWords_eq inside, p.level], aligned, p.level ▸ within, ?_, fun i hi => ?_⟩
  · rw [tag_eq inside, tagAt, p.header, Header.tag_fresh]
    rfl
  · rw [read_eq inside (by rwa [p.level]) within, p.payload i hi]

/-- Allocation gives fresh memory and disturbs nothing else. The new block has the least number of words that is a power of two and
enough, starts at a multiple of it, is untagged and all zero, and has no word in common with what can be reached from the roots. Every
other block was there before, with the same header and payload, and no block has gone unless a collection found that nothing refers
to it. Without a collection the block is the lower end of the first block of the lowest list that has one. -/
theorem allocate_fresh (wf : h.WellFormed) (unmarked : h.Unmarked) (traceable : h.Traceable) (run : allocate size h = .ok a h') :
    ∃ L, IsLeast {l | max size 1 ≤ 2 ^ l} L ∧ h'.Pristine a L ∧
      (∀ b, h.Reachable b → b + 2 ^ h.levelAt b ≤ a ∨ a + 2 ^ L ≤ b) ∧
      (∀ b, h'.Allocated b → b ≠ a → h.Allocated b ∧ Kept h h' b) ∧
      (∀ b, h.Allocated b → b ≠ a ∧ Kept h h' b ∨ h'.stats.collections = h.stats.collections + 1 ∧ ¬h.Reachable b) ∧
      h'.contexts = h.contexts ∧ h'.temporaries = h.temporaries ∧
      (h'.stats.collections = h.stats.collections → h.LowestFree L a) := by
  obtain ⟨g, maybe, ⟨failed, _⟩ | ⟨b, k, found, placed⟩⟩ := wf.allocate unmarked (fun _ => traceable : h.RunsCollector size → _)
  · rw [run] at failed
    cases failed
  rw [run] at found
  cases found
  have kept {b : Nat} (hb : g.Allocated b) : b ≠ a ∧ Kept g h' b :=
    ⟨fun same => placed.fresh (same ▸ hb), (placed.allocated b).mpr (.inl hb), placed.words b hb⟩
  have survives {b : Nat} (hb : h.Reachable b) : Kept h g b := ⟨(maybe.keeps traceable hb).1, (maybe.keeps traceable hb).2⟩
  have pristine := placed.pristine
  refine ⟨levelFor size, isLeast_levelFor size, pristine, fun b hb => ?_, fun b hb ne => ?_, fun b hb => ?_, placed.contexts.trans maybe.roots.1,
    placed.temporaries.trans maybe.roots.2, fun none => ?_⟩
  · have still := (survives hb).trans (kept (survives hb).allocated).2
    have apart := placed.wellFormed.not_meets still.allocated pristine.allocated (kept (survives hb).allocated).1
    rw [Meets, placed.level, still.levelAt, not_and_or, Nat.not_lt, Nat.not_lt] at apart
    exact apart.symm
  · have hg := ((placed.allocated b).mp hb).resolve_right ne
    rcases maybe with rfl | collected
    · exact ⟨hg, (kept hg).2⟩
    · have reached := (collected.allocated b).mp hg
      exact ⟨(traceable b reached).1, (survives reached).trans (kept hg).2⟩
  · rcases maybe with rfl | collected
    · exact .inl (kept hb)
    · by_cases reached : h.Reachable b
      · exact .inl ⟨(kept (survives reached).allocated).1, (survives reached).trans (kept (survives reached).allocated).2⟩
      · exact .inr ⟨by rw [placed.stats, collected.collections], reached⟩
  · refine wf.allocate_lowest (fun runs => ?_) run
    rw [wf.allocate_collects unmarked traceable runs run] at none
    exact absurd none (Nat.succ_ne_self _)

/-- The memory of one of two arrays that nothing refers to any more. -/
theorem allocate_fresh_cycle : ∃ h', allocate 8 cycleHeap = .ok 8 h' ∧ cycleHeap.Allocated 8 ∧ h'.Pristine 8 3 ∧ ¬cycleHeap.Reachable 8 ∧
    h'.stats.collections = cycleHeap.stats.collections + 1 := by
  have sound := sound_cycleHeap
  have traceable : cycleHeap.Traceable := .of_closed (M := [0]) (by decide +kernel) (by decide +kernel) (by decide +kernel)
  have found : Passes (fun a _ => a == 8) (allocate 8 cycleHeap) = true := by decide +kernel
  obtain ⟨a, h', run, at_⟩ := passes_iff.mp found
  obtain rfl : a = 8 := beq_iff_eq.mp at_
  have there : cycleHeap.Allocated 8 := by decide +kernel
  obtain ⟨L, least, pristine, _, _, old, _, _, _⟩ := allocate_fresh sound.wellFormed sound.unmarked traceable run
  obtain rfl : L = 3 := (least.unique (isLeast_levelFor 8)).trans (by decide +kernel)
  obtain ⟨ne, _⟩ | ⟨collected, gone⟩ := old 8 there
  · exact absurd rfl ne
  · exact ⟨h', run, there, pristine, gone, collected⟩

end FiberMachine.Heap
