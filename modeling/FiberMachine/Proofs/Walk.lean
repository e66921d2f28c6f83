import FiberMachine.Heap.Partition
import FiberMachine.Proofs.Arena
import FiberMachine.Proofs.Buddy

/-!
# The walk over the partition

When no block is in hand, the walk by header levels meets exactly the blocks of the plan, in the order
of their addresses, and ends where the arena ends. `WellFormed` says what this means without a plan:
the blocks tile the arena, each is aligned to its size, and the ring that starts at the first
free block of a level holds the free blocks of that level and nothing else.
-/

namespace FiberMachine

namespace Heap

variable {h : Heap} {b c : Block} {a n : Nat}

/-- A walk reads each block from its header. -/
theorem ofHeader_of_mem_blocksFrom (hb : b ∈ h.blocksFrom a n) :
    b = Block.ofHeader b.addr (h.wordAt b.addr) := by
  induction n generalizing a with
  | zero => cases hb
  | succ n ih =>
    unfold blocksFrom at hb
    cases hw : h.memory.words[a]? with
    | none => simp [hw] at hb
    | some w =>
      simp only [hw, List.mem_cons] at hb
      rcases hb with rfl | hb
      · simp [Block.ofHeader, wordAt, hw]
      · exact ih hb

theorem ofHeader_of_mem_blocks (hb : b ∈ h.blocks) : b = Block.ofHeader b.addr (h.wordAt b.addr) :=
  ofHeader_of_mem_blocksFrom hb

theorem blocksFrom_succ (ha : a < h.capacity) (n : Nat) :
    h.blocksFrom a (n + 1) =
      Block.ofHeader a (h.wordAt a) :: h.blocksFrom (a + 2 ^ h.levelAt a) n := by
  have ha : a < h.memory.words.size := ha
  have hw : h.memory.words[a]? = some (h.wordAt a) := by simp [wordAt, ha]
  rw [blocksFrom, hw]
  simp only [Block.words, levelWords_eq]
  rfl

theorem blocksFrom_of_le (ha : h.capacity ≤ a) (n : Nat) : h.blocksFrom a n = [] := by
  cases n with
  | zero => rfl
  | succ n =>
    have ha : h.memory.words.size ≤ a := ha
    rw [blocksFrom, Array.getElem?_eq_none ha]

/-- The walk looks at the memory only. -/
theorem blocksFrom_congr {k : Heap} (memory : k.memory = h.memory) : k.blocksFrom a n = h.blocksFrom a n := by
  induction n generalizing a with
  | zero => rfl
  | succ n ih => simp only [blocksFrom, memory, ih]

theorem blocks_congr {k : Heap} (memory : k.memory = h.memory) : k.blocks = h.blocks := by
  rw [blocks, blocks, capacity, capacity, memory, blocksFrom_congr memory]

end Heap

/-- A block that starts where the header of the heap says so. -/
theorem Block.words_eq (b : Block) : b.words = 2 ^ b.level := levelWords_eq b.level

@[simp] theorem Block.total_cons (b : Block) (bs : List Block) :
    Block.total (b :: bs) = 2 ^ b.level + Block.total bs := by rw [Block.total, b.words_eq]

@[simp] theorem Block.total_nil : Block.total [] = 0 := rfl

/-! ### Any memory -/

namespace Heap

variable {h : Heap} {b c : Block} {a n x : Nat}

/-- The blocks of a walk follow each other without a gap: each lies between the start and the end, and each word in between is in exactly
one of them. -/
theorem blocksFrom_tiles (h : Heap) (a n : Nat) :
    (∀ b ∈ h.blocksFrom a n, a ≤ b.addr ∧ b.addr + b.words ≤ a + Block.total (h.blocksFrom a n)) ∧
      ∀ x, a ≤ x → x < a + Block.total (h.blocksFrom a n) → ∃! b, b ∈ h.blocksFrom a n ∧ b.addr ≤ x ∧ x < b.addr + b.words := by
  induction n generalizing a with
  | zero =>
    refine ⟨fun _ no => absurd no List.not_mem_nil, fun x hx hx' => ?_⟩
    exact absurd hx' (Nat.not_lt.mpr hx)
  | succ n ih =>
    by_cases inside : a < h.capacity
    · have pos := Nat.two_pow_pos (h.levelAt a)
      obtain ⟨later, tiled⟩ := ih (a + 2 ^ h.levelAt a)
      have words : (Block.ofHeader a (h.wordAt a)).words = 2 ^ h.levelAt a := Block.words_eq _
      have first : (Block.ofHeader a (h.wordAt a)).addr = a := rfl
      rw [blocksFrom_succ inside, Block.total_cons, ← Block.words_eq, words]
      refine ⟨fun b hb => ?_, fun x hx hx' => ?_⟩
      · rcases List.mem_cons.mp hb with rfl | hb
        · rw [first, words]
          exact ⟨le_rfl, by lia⟩
        · obtain ⟨from_, to_⟩ := later b hb
          exact ⟨by lia, by lia⟩
      · by_cases here : x < a + 2 ^ h.levelAt a
        · refine ⟨_, ⟨List.mem_cons_self, hx, by rwa [first, words]⟩, ?_⟩
          rintro b ⟨hb, start, _⟩
          rcases List.mem_cons.mp hb with rfl | hb
          · rfl
          · exact absurd (later b hb).1 (by lia)
        · obtain ⟨b, ⟨hb, start, stop⟩, unique⟩ := tiled x (by lia) (by lia)
          refine ⟨b, ⟨List.mem_cons_of_mem _ hb, start, stop⟩, ?_⟩
          rintro c ⟨hc, start', stop'⟩
          rcases List.mem_cons.mp hc with rfl | hc
          · rw [first, words] at stop'
            exact absurd stop' here
          · exact unique c ⟨hc, start', stop'⟩
    · rw [blocksFrom_of_le (Nat.not_lt.mp inside)]
      refine ⟨fun _ no => absurd no List.not_mem_nil, fun x hx hx' => ?_⟩
      exact absurd hx' (Nat.not_lt.mpr hx)

/-- The walk goes upward. -/
theorem pairwise_blocksFrom (h : Heap) (a n : Nat) : (h.blocksFrom a n).Pairwise fun b c => b.addr < c.addr := by
  induction n generalizing a with
  | zero => exact List.Pairwise.nil
  | succ n ih =>
    by_cases inside : a < h.capacity
    · rw [blocksFrom_succ inside]
      refine List.Pairwise.cons (fun c hc => ?_) (ih _)
      have after := ((blocksFrom_tiles h _ n).1 c hc).1
      have pos := Nat.two_pow_pos (h.levelAt a)
      change a < c.addr
      omega
    · rw [blocksFrom_of_le (Nat.not_lt.mp inside)]
      exact List.Pairwise.nil

theorem pairwise_blocks (h : Heap) : h.blocks.Pairwise fun b c => b.addr < c.addr :=
  h.pairwise_blocksFrom 0 h.capacity

/-- Blocks that share a word are one block. -/
theorem eq_of_mem_blocks (hb : b ∈ h.blocks) (hc : c ∈ h.blocks) (hbx : b.addr ≤ x) (hxb : x < b.addr + b.words)
    (hcx : c.addr ≤ x) (hxc : x < c.addr + c.words) : b = c := by
  obtain ⟨inside, tiled⟩ := blocksFrom_tiles h 0 h.capacity
  obtain ⟨_, _, unique⟩ := tiled x (Nat.zero_le x) (Nat.lt_of_lt_of_le hxb (inside b hb).2)
  exact (unique b ⟨hb, hbx, hxb⟩).trans (unique c ⟨hc, hcx, hxc⟩).symm

end Heap

/-! ### The plan -/

namespace Arena

variable {h : Heap} {P : Plan} {R : Nat → List Nat} {a b l n : Nat}

theorem levelAt_eq (A : Arena h P R) (settled : P.Settled) {s : Slot} (ha : P a = some s) :
    h.levelAt a = s.level := by
  obtain ⟨l, u⟩ := s
  cases u with
  | free => exact (A.free ha).2
  | taken => exact (A.taken ha).2
  | held => exact absurd ha (settled a l)

theorem freeAt_iff (A : Arena h P R) (settled : P.Settled) {s : Slot} (ha : P a = some s) :
    h.freeAt a = true ↔ s.use = .free := by
  obtain ⟨l, u⟩ := s
  cases u with
  | free => simp [(A.free ha).1]
  | taken => simp [(A.taken ha).1]
  | held => exact absurd ha (settled a l)

/-- A block starts at `a`, or the arena ends there. -/
def Boundary (h : Heap) (P : Plan) (a : Nat) : Prop := a = h.capacity ∨ ∃ s, P a = some s

theorem boundary_start (A : Arena h P R) : Boundary h P 0 := by
  obtain ⟨l, hl⟩ := A.tiling.start
  obtain ⟨u, hu⟩ := Plan.eq_of_levels hl
  exact .inr ⟨_, hu⟩

theorem boundary_next (A : Arena h P R) {s : Slot} (ha : P a = some s) :
    Boundary h P (a + 2 ^ s.level) := by
  have tile : P.levels a = some s.level := Plan.levels_eq ha
  have within := A.tiling.within tile
  rcases Nat.eq_or_lt_of_le within with e | lt
  · exact .inl (e.trans A.capacity.symm)
  · obtain ⟨m, hm⟩ := A.tiling.next tile lt
    obtain ⟨u, hu⟩ := Plan.eq_of_levels hm
    exact .inr ⟨_, hu⟩

/-- From a boundary on, the walk meets the blocks that start there or later. -/
theorem mem_blocksFrom (A : Arena h P R) (settled : P.Settled) (ha : Boundary h P a)
    (fuel : h.capacity ≤ a + n) {b : Block} :
    b ∈ h.blocksFrom a n ↔
      a ≤ b.addr ∧ (∃ s, P b.addr = some s) ∧ b = Block.ofHeader b.addr (h.wordAt b.addr) := by
  induction n generalizing a with
  | zero =>
    have fuel : h.capacity ≤ a := fuel
    rw [Heap.blocksFrom_of_le fuel]
    refine ⟨nofun, fun ⟨le, ⟨s, hs⟩, _⟩ => ?_⟩
    have := A.lt_capacity hs
    exact absurd (Nat.lt_of_lt_of_le this fuel) (Nat.not_lt.mpr le)
  | succ n ih =>
    rcases ha with rfl | ⟨s, hs⟩
    · rw [Heap.blocksFrom_of_le le_rfl]
      refine ⟨nofun, fun ⟨le, ⟨s, hs⟩, _⟩ => ?_⟩
      exact absurd (A.lt_capacity hs) (Nat.not_lt.mpr le)
    · have pos := Nat.two_pow_pos s.level
      rw [Heap.blocksFrom_succ (A.lt_capacity hs), A.levelAt_eq settled hs, List.mem_cons,
        ih (A.boundary_next hs) (by omega)]
      constructor
      · rintro (rfl | ⟨le, start, header⟩)
        · exact ⟨le_rfl, ⟨s, hs⟩, rfl⟩
        · exact ⟨(Nat.le_add_right _ _).trans le, start, header⟩
      · rintro ⟨le, ⟨t, ht⟩, header⟩
        rcases Nat.eq_or_lt_of_le le with e | lt
        · left
          rw [header, ← e]
        · exact .inr ⟨A.tiling.apart (Plan.levels_eq hs) (Plan.levels_eq ht) lt, ⟨t, ht⟩, header⟩

theorem mem_blocks (A : Arena h P R) (settled : P.Settled) {b : Block} :
    b ∈ h.blocks ↔ (∃ s, P b.addr = some s) ∧ b = Block.ofHeader b.addr (h.wordAt b.addr) := by
  rw [Heap.blocks, A.mem_blocksFrom settled A.boundary_start (by omega)]
  simp

/-- The walk ends where the arena ends. -/
theorem total_blocksFrom (A : Arena h P R) (settled : P.Settled) (ha : Boundary h P a)
    (fuel : h.capacity ≤ a + n) : a + Block.total (h.blocksFrom a n) = max a h.capacity := by
  induction n generalizing a with
  | zero =>
    have fuel : h.capacity ≤ a := fuel
    rw [Heap.blocksFrom_of_le fuel, Block.total_nil]
    omega
  | succ n ih =>
    rcases ha with rfl | ⟨s, hs⟩
    · simp [Heap.blocksFrom_of_le le_rfl]
    · have lt := A.lt_capacity hs
      have pos := Nat.two_pow_pos s.level
      have within := A.tiling.within (Plan.levels_eq hs)
      have rest := ih (A.boundary_next hs) (by omega)
      have level : (Block.ofHeader a (h.wordAt a)).level = s.level := A.levelAt_eq settled hs
      rw [Heap.blocksFrom_succ lt, Block.total_cons, level, A.levelAt_eq settled hs]
      have := A.capacity
      omega

theorem total_blocks (A : Arena h P R) (settled : P.Settled) :
    Block.total h.blocks = h.capacity := by
  have := A.total_blocksFrom settled A.boundary_start (n := h.capacity) (by omega)
  simpa [Heap.blocks] using this

end Arena

/-! ### Well-formed heaps -/

namespace Heap

/-- An allocated block starts at `a`. -/
def Allocated (h : Heap) (a : Addr) : Prop := ∃ b ∈ h.blocks, b.addr = a ∧ b.free = false

/-- The partition tiles the arena with aligned blocks, and the free lists are rings that hold the free
blocks of their level. -/
structure WellFormed (h : Heap) : Prop where
  capacity : h.capacity = 2 ^ h.levels
  levels_le : h.levels ≤ maxLevel
  lists : h.freeLists.size = h.levels + 1
  /-- Every word belongs to exactly one block. -/
  tiles : ∀ x < h.capacity, ∃! b, b ∈ h.blocks ∧ b.addr ≤ x ∧ x < b.addr + b.words
  within : ∀ b ∈ h.blocks, b.addr + b.words ≤ h.capacity
  aligned : ∀ b ∈ h.blocks, b.level ≤ h.levels ∧ b.words ∣ b.addr
  /-- The links from the first block of a level on run through the free blocks of the level. -/
  rings : ∀ l ≤ h.levels, ∃ ring : List Addr, h.freeLists[l]? = some ring.head? ∧
    Ring h.nextAt h.previousAt ring ∧
    ∀ a, a ∈ ring ↔ ∃ b ∈ h.blocks, b.addr = a ∧ b.level = l ∧ b.free = true

/-- No two buddies of one level are both free. -/
def Coalesced (h : Heap) : Prop := ∀ b ∈ h.blocks, ∀ c ∈ h.blocks, b.free = true → c.free = true → c.level = b.level →
  c.addr ≠ b.addr ^^^ 2 ^ b.level

/-- The plan that the walk finds. -/
noncomputable def plan (h : Heap) : Plan := fun a =>
  open Classical in
  if ∃ b ∈ h.blocks, b.addr = a then some ⟨h.levelAt a, if h.freeAt a then .free else .taken⟩ else none

/-- The arenas and free lists of two heaps are the same; roots, statistics and journal may differ. -/
structure SameArena (h k : Heap) : Prop where
  memory : k.memory = h.memory
  levels : k.levels = h.levels
  freeLists : k.freeLists = h.freeLists

namespace SameArena

variable {h k : Heap} (same : h.SameArena k)
include same

theorem trans {g : Heap} (next : k.SameArena g) : h.SameArena g :=
  ⟨next.memory.trans same.memory, next.levels.trans same.levels, next.freeLists.trans same.freeLists⟩

theorem capacity : k.capacity = h.capacity := by rw [Heap.capacity, same.memory, Heap.capacity]

theorem wordAt : k.wordAt = h.wordAt := by
  funext a
  rw [Heap.wordAt, Heap.wordAt, same.memory]

theorem blocks : k.blocks = h.blocks := blocks_congr same.memory

theorem allocated {a : Addr} : k.Allocated a ↔ h.Allocated a := by
  unfold Allocated
  rw [same.blocks]

theorem coalesced : k.Coalesced ↔ h.Coalesced := by rw [Coalesced, Coalesced, same.blocks]

theorem wellFormed (wf : h.WellFormed) : k.WellFormed := by
  have next : k.nextAt = h.nextAt := by
    funext a
    rw [nextAt, nextAt, same.wordAt]
  have previous : k.previousAt = h.previousAt := by
    funext a
    rw [previousAt, previousAt, same.wordAt]
  constructor
  · rw [same.capacity, same.levels, wf.capacity]
  · exact same.levels ▸ wf.levels_le
  · rw [same.freeLists, same.levels, wf.lists]
  · rw [same.capacity, same.blocks]
    exact wf.tiles
  · rw [same.capacity, same.blocks]
    exact wf.within
  · rw [same.levels, same.blocks]
    exact wf.aligned
  · rw [same.levels, same.blocks, same.freeLists, next, previous]
    exact wf.rings

end SameArena

end Heap

namespace Arena

variable {h : Heap} {P : Plan} {R : Nat → List Nat} {a b l n : Nat}

theorem mem_blocks_ofHeader (A : Arena h P R) (settled : P.Settled) {s : Slot} (ha : P a = some s) :
    Block.ofHeader a (h.wordAt a) ∈ h.blocks := (A.mem_blocks settled).mpr ⟨⟨s, ha⟩, rfl⟩

theorem allocated_iff (A : Arena h P R) (settled : P.Settled) :
    h.Allocated a ↔ ∃ l, P a = some ⟨l, .taken⟩ := by
  constructor
  · rintro ⟨b, hb, rfl, notFree⟩
    obtain ⟨⟨⟨l, u⟩, hs⟩, header⟩ := (A.mem_blocks settled).mp hb
    cases u with
    | taken => exact ⟨l, hs⟩
    | held => exact absurd hs (settled _ l)
    | free =>
      rw [header] at notFree
      have : h.freeAt b.addr = false := notFree
      rw [(A.free hs).1] at this
      cases this
  · rintro ⟨l, hl⟩
    exact ⟨_, A.mem_blocks_ofHeader settled hl, rfl, (A.taken hl).1⟩

/-- The free blocks are those of the plan. -/
theorem free_iff (A : Arena h P R) (settled : P.Settled) :
    (∃ b ∈ h.blocks, b.addr = a ∧ b.level = l ∧ b.free = true) ↔ P a = some ⟨l, .free⟩ := by
  constructor
  · rintro ⟨b, hb, rfl, rfl, free⟩
    obtain ⟨⟨⟨m, u⟩, hs⟩, header⟩ := (A.mem_blocks settled).mp hb
    have level := A.levelAt_eq settled hs
    rw [header] at free ⊢
    obtain rfl : u = .free := (A.freeAt_iff settled hs).mp free
    exact hs.trans (congrArg (fun l => some (Slot.mk l .free)) level.symm)
  · intro ha
    exact ⟨_, A.mem_blocks_ofHeader settled ha, rfl, (A.free ha).2, (A.free ha).1⟩

theorem coalesced_iff (A : Arena h P R) (settled : P.Settled) : h.Coalesced ↔ P.Coalesced := by
  constructor
  · intro coalesced a l ha hb
    obtain ⟨b, hb', rfl, rfl, free⟩ := (A.free_iff settled).mpr ha
    obtain ⟨c, hc, buddy, level, free'⟩ := (A.free_iff settled).mpr hb
    exact coalesced b hb' c hc free free' level buddy
  · intro coalesced b hb c hc free free' level buddy
    exact coalesced b.addr b.level ((A.free_iff settled).mp ⟨b, hb, rfl, rfl, free⟩)
      ((A.free_iff settled).mp ⟨c, hc, buddy, level, free'⟩)

theorem wellFormed (A : Arena h P R) (settled : P.Settled) : h.WellFormed where
  capacity := A.capacity
  levels_le := A.levels_le
  lists := A.lists
  tiles := by
    intro x hx
    obtain ⟨a, l, ha, hax, hxa⟩ := A.tiling.covers (A.capacity ▸ hx)
    obtain ⟨u, hs⟩ := Plan.eq_of_levels ha
    have level : (Block.ofHeader a (h.wordAt a)).level = l := A.levelAt_eq settled hs
    refine ⟨Block.ofHeader a (h.wordAt a), ⟨A.mem_blocks_ofHeader settled hs, hax, ?_⟩, ?_⟩
    · rw [Block.words_eq, level]
      exact hxa
    · rintro c ⟨hc, hcx, hxc⟩
      obtain ⟨⟨t, ht⟩, header⟩ := (A.mem_blocks settled).mp hc
      have level : c.level = t.level := by
        rw [header]
        exact A.levelAt_eq settled ht
      rw [Block.words_eq, level] at hxc
      have e := A.eq_of_mem hs ht hax hxa hcx hxc
      rw [header, e]
  within := by
    intro b hb
    obtain ⟨⟨s, hs⟩, header⟩ := (A.mem_blocks settled).mp hb
    have level : b.level = s.level := by
      rw [header]
      exact A.levelAt_eq settled hs
    rw [Block.words_eq, level, A.capacity]
    exact A.tiling.within (Plan.levels_eq hs)
  aligned := by
    intro b hb
    obtain ⟨⟨s, hs⟩, header⟩ := (A.mem_blocks settled).mp hb
    have level : b.level = s.level := by
      rw [header]
      exact A.levelAt_eq settled hs
    rw [Block.words_eq, level]
    exact ⟨A.level_le hs, A.tiling.aligned (Plan.levels_eq hs)⟩
  rings := by
    intro l hl
    exact ⟨R l, A.first hl, A.ring hl, fun a => (A.members hl).trans (A.free_iff settled).symm⟩

end Arena

namespace Heap.WellFormed

variable {h : Heap} {a l : Nat}

theorem plan_eq_some {b : Block} (hb : b ∈ h.blocks) :
    h.plan b.addr = some ⟨b.level, if b.free then .free else .taken⟩ := by
  have header := ofHeader_of_mem_blocks hb
  have level : h.levelAt b.addr = b.level := by rw [header]; rfl
  have free : h.freeAt b.addr = b.free := by rw [header]; rfl
  rw [plan, if_pos ⟨b, hb, rfl⟩, level, free]

theorem exists_of_plan {s : Slot} (ha : h.plan a = some s) :
    ∃ b ∈ h.blocks, b.addr = a ∧ b.level = s.level ∧ (b.free = true ↔ s.use = .free) ∧
      s.use ≠ .held := by
  unfold plan at ha
  split at ha
  next found =>
    obtain ⟨b, hb, rfl⟩ := found
    have e := plan_eq_some hb
    rw [plan, if_pos ⟨b, hb, rfl⟩] at e
    rw [ha] at e
    cases e
    refine ⟨b, hb, rfl, rfl, ?_, ?_⟩ <;> cases b.free <;> simp
  · cases ha

theorem settled_plan (h : Heap) : h.plan.Settled := by
  intro a l ha
  obtain ⟨_, _, _, _, _, use⟩ := exists_of_plan ha
  exact use rfl

/-- A well-formed heap agrees with the plan that the walk finds. -/
theorem arena (wf : h.WellFormed) : ∃ R, Arena h h.plan R := by
  choose! R first ring members using wf.rings
  -- what the tiling says of a block is what the walk says of it
  have block {a l : Nat} (ha : h.plan.levels a = some l) :
      ∃ b ∈ h.blocks, b.addr = a ∧ b.level = l ∧ b.words = 2 ^ l := by
    obtain ⟨u, hu⟩ := Plan.eq_of_levels ha
    obtain ⟨b, hb, rfl, level, _⟩ := exists_of_plan hu
    exact ⟨b, hb, rfl, level, by rw [b.words_eq, level]⟩
  have plan {b : Block} (hb : b ∈ h.blocks) : h.plan.levels b.addr = some b.level :=
    Plan.levels_eq (plan_eq_some hb)
  refine ⟨R, wf.capacity, wf.levels_le, wf.lists, ⟨?_, ?_, ?_, ?_⟩, ?_, ?_, fun hl => first _ hl,
    fun hl => ring _ hl, ?_⟩
  · intro a l ha
    obtain ⟨b, hb, rfl, _, words⟩ := block ha
    exact words ▸ (wf.aligned b hb).2
  · intro a l ha
    obtain ⟨b, hb, rfl, _, words⟩ := block ha
    have := wf.within b hb
    rwa [words, wf.capacity] at this
  · intro a l c m ha hc lt
    obtain ⟨b, hb, rfl, _, words⟩ := block ha
    obtain ⟨d, hd, rfl, _, words'⟩ := block hc
    by_contra overlap
    have within := wf.within d hd
    have pos := Nat.two_pow_pos m
    rw [words'] at within
    -- the second block would start inside the first one
    obtain ⟨_, _, unique⟩ := wf.tiles d.addr (by lia)
    have e : b = d := (unique b ⟨hb, lt.le, by rw [words]; lia⟩).trans
      (unique d ⟨hd, le_rfl, by rw [words']; lia⟩).symm
    rw [e] at lt
    exact absurd lt (Nat.lt_irrefl _)
  · intro x hx
    obtain ⟨b, ⟨hb, hbx, hxb⟩, _⟩ := wf.tiles x (wf.capacity ▸ hx)
    rw [b.words_eq] at hxb
    exact ⟨b.addr, b.level, plan hb, hbx, hxb⟩
  · intro a l ha
    obtain ⟨b, hb, rfl, level, free, _⟩ := exists_of_plan ha
    have header := ofHeader_of_mem_blocks hb
    have free := free.mpr rfl
    rw [header] at free level
    exact ⟨free, level⟩
  · intro a l ha
    obtain ⟨b, hb, rfl, level, free, _⟩ := exists_of_plan ha
    have header := ofHeader_of_mem_blocks hb
    have free : b.free = false := by
      by_contra e
      have := free.mp (by simpa using e)
      cases this
    rw [header] at free level
    exact ⟨free, level⟩
  · intro l a hl
    rw [members l hl]
    constructor
    · rintro ⟨b, hb, rfl, rfl, free⟩
      rw [plan_eq_some hb, if_pos free]
    · intro ha
      obtain ⟨b, hb, rfl, level, free, _⟩ := exists_of_plan ha
      exact ⟨b, hb, rfl, level, free.mpr rfl⟩

theorem iff_arena : h.WellFormed ↔ ∃ P R, Arena h P R ∧ P.Settled := by
  constructor
  · intro wf
    obtain ⟨R, A⟩ := wf.arena
    exact ⟨_, R, A, settled_plan h⟩
  · rintro ⟨P, R, A, settled⟩
    exact A.wellFormed settled

end Heap.WellFormed

/-! ### Verification

The validator walks the partition and each free list. On a well-formed heap every test that it makes
succeeds.
-/

theorem HeapReader.run_forM_ok {α : Type} {f : α → HeapReader Unit} {xs : List α} {h : Heap}
    (each : ∀ x ∈ xs, f x h = .ok ()) : (forM xs f : HeapReader Unit) h = .ok () := by
  induction xs with
  | nil => rfl
  | cons x xs ih =>
    change (f x >>= fun _ => (forM xs f : HeapReader Unit)) h = _
    rw [HeapReader.run_bind, each x List.mem_cons_self]
    exact ih fun y hy => each y (List.mem_cons_of_mem x hy)

namespace Heap

variable {h : Heap} {l a f n : Nat}

/-- A member of a ring of free blocks passes its test. -/
theorem checkMember_eq (inside : a < h.capacity) (free : h.freeAt a = true) (level : h.levelAt a = l)
    (next : h.nextAt a < h.capacity) (back : h.previousAt (h.nextAt a) = a) :
    checkMember l a h = .ok (h.nextAt a) := by
  simp [checkMember, HeapReader.run_bind, HeapReader.run_map, isFree_eq inside, free, level_eq inside, level,
    nextFree_eq inside, previousFree_eq next, back, HeapReader.run_pure]

/-- From a member on, the walk over a ring counts the members up to the last one. -/
theorem checkMembers_eq {p post : List Nat} (ring : Ring h.nextAt h.previousAt (p ++ a :: post))
    (first : f ∈ (p ++ a :: post).head?)
    (good : ∀ b ∈ p ++ a :: post, b < h.capacity ∧ h.freeAt b = true ∧ h.levelAt b = l)
    (room : post.length < n) : checkMembers l f a n h = .ok (post.length + 1) := by
  induction post generalizing a p n with
  | nil =>
    obtain ⟨n, rfl⟩ : ∃ k, n = k + 1 := ⟨n - 1, by simp at room; omega⟩
    have self : a ∈ p ++ [a] := by simp
    have next : h.nextAt a = f := ring.next_last first
    have member := checkMember_eq (good a self).1 (good a self).2.1 (good a self).2.2
      (good _ (ring.next_mem self)).1 (ring.previous_next self)
    simp [checkMembers, HeapReader.run_bind, member, next, HeapReader.run_pure]
  | cons b post ih =>
    obtain ⟨n, rfl⟩ : ∃ k, n = k + 1 := ⟨n - 1, by simp at room; omega⟩
    have self : a ∈ p ++ a :: b :: post := by simp
    obtain ⟨next, more⟩ := ring.next_inner first
    have member := checkMember_eq (good a self).1 (good a self).2.1 (good a self).2.2
      (good _ (ring.next_mem self)).1 (ring.previous_next self)
    have rest := ih (a := b) (p := p ++ [a]) (n := n) (by simpa using ring) (by simpa using first)
      (by simpa using good) (by simpa using room)
    simp [checkMembers, HeapReader.run_bind, HeapReader.run_map, member, next, more, rest]

/-- The ring of a level has as many members as the partition has free blocks of that level. -/
theorem countP_blocks {ring : List Nat} (nodup : ring.Nodup)
    (members : ∀ a, a ∈ ring ↔ ∃ b ∈ h.blocks, b.addr = a ∧ b.level = l ∧ b.free = true) :
    h.blocks.countP (fun b => b.free && b.level == l) = ring.length := by
  have upward := h.pairwise_blocks
  rw [List.countP_eq_length_filter, ← List.length_map (f := Block.addr)]
  apply List.Perm.length_eq
  refine (List.perm_ext_iff_of_nodup ?_ nodup).mpr fun a => ?_
  · rw [List.Nodup, List.pairwise_map]
    exact (upward.filter _).imp fun lt => Nat.ne_of_lt lt
  · rw [members a, List.mem_map]
    constructor
    · rintro ⟨b, hb, rfl⟩
      obtain ⟨hb, use⟩ := List.mem_filter.mp hb
      simp only [Bool.and_eq_true, beq_iff_eq] at use
      exact ⟨b, hb, rfl, use.2, use.1⟩
    · rintro ⟨b, hb, rfl, level, free⟩
      exact ⟨b, List.mem_filter.mpr ⟨hb, by simp [free, level]⟩, rfl⟩

namespace WellFormed

theorem checkFreeList_eq (wf : h.WellFormed) (hl : l ≤ h.levels) {first : Option Addr}
    (found : h.freeLists[l]? = some first) : checkFreeList h.blocks l first h = .ok () := by
  obtain ⟨ring, head, links, members⟩ := wf.rings l hl
  obtain rfl : first = ring.head? := by
    rw [found] at head
    exact Option.some.inj head
  have count := countP_blocks links.nodup members
  cases ring with
  | nil =>
    simp [checkFreeList, HeapReader.run_pure, count]
  | cons f rest =>
    have good : ∀ b ∈ f :: rest, b < h.capacity ∧ h.freeAt b = true ∧ h.levelAt b = l := by
      intro a ha
      obtain ⟨b, hb, rfl, level, free⟩ := (members a).mp ha
      have header := ofHeader_of_mem_blocks hb
      have within := wf.within b hb
      have pos := Nat.two_pow_pos b.level
      rw [b.words_eq] at within
      rw [header] at level free
      exact ⟨by lia, free, level⟩
    have walk := checkMembers_eq (p := []) (n := (f :: rest).length) links rfl good (by simp)
    simp only [List.length_cons] at walk count
    simp [checkFreeList, HeapReader.run_bind, HeapReader.run_pure, count, walk]

/-- The validator accepts a well-formed heap. -/
theorem check_eq (wf : h.WellFormed) : check h = .ok () := by
  obtain ⟨R, A⟩ := wf.arena
  have blocks : (forM h.blocks (checkBlock h.levels) : HeapReader Unit) h = .ok () := by
    refine HeapReader.run_forM_ok fun b hb => ?_
    obtain ⟨level, aligned⟩ := wf.aligned b hb
    simp [checkBlock, HeapReader.run_pure, Nat.not_lt.mpr level,
      Nat.mod_eq_zero_of_dvd aligned]
  have lists : (forM (List.range h.freeLists.size) fun lvl => do
      checkFreeList h.blocks lvl (← firstFree lvl) : HeapReader Unit) h = .ok () := by
    refine HeapReader.run_forM_ok fun l hl => ?_
    have hl : l ≤ h.levels := by
      have := List.mem_range.mp hl
      rw [wf.lists] at this
      omega
    obtain ⟨ring, head, _, _⟩ := wf.rings l hl
    simp [HeapReader.run_bind, firstFree_eq head, wf.checkFreeList_eq hl head]
  simp [check, HeapReader.run_bind, HeapReader.run_itself, blocks, A.total_blocks (settled_plan h), lists]

end WellFormed

end Heap

end FiberMachine
