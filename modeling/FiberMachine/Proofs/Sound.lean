import FiberMachine.Proofs.Allocation
import FiberMachine.Proofs.Walk

/-!
# Sound heaps

Between two operations a heap is sound: it is well formed, no block is marked, no two buddies are both free and the
unassigned object is allocated. Every operation on a sound heap leaves a sound heap, whether it succeeds or the memory is
used up, as long as the collector can trace what it meets.
-/

namespace FiberMachine

namespace Heap

/-- What holds of a heap between operations. -/
structure Sound (h : Heap) : Prop where
  wellFormed : h.WellFormed
  unmarked : h.Unmarked
  coalesced : h.Coalesced
  sentinel : h.Allocated unassigned

namespace SameArena

variable {h k : Heap} (same : h.SameArena k)
include same

theorem sound (s : h.Sound) : k.Sound where
  wellFormed := same.wellFormed s.wellFormed
  unmarked := by
    intro a ha
    rw [markedAt, same.wordAt]
    exact s.unmarked a (same.allocated.mp ha)
  coalesced := same.coalesced.mpr s.coalesced
  sentinel := same.allocated.mpr s.sentinel

end SameArena

theorem Collected.sound {h g : Heap} (c : Collected h g) (s : h.Sound) : g.Sound where
  wellFormed := c.wellFormed
  unmarked := c.unmarked
  coalesced := c.coalesced s.coalesced
  sentinel := (c.allocated _).mpr (.start (by simp [Heap.roots]))

theorem MaybeCollected.sound {h g : Heap} (c : h.MaybeCollected g) (s : h.Sound) : g.Sound := by
  rcases c with rfl | c
  · exact s
  · exact c.sound s

theorem Placed.sound {g h : Heap} {a l : Nat} (p : g.Placed h a l) (s : g.Sound) : h.Sound where
  wellFormed := p.wellFormed
  unmarked := by
    intro b hb
    rcases (p.allocated b).mp hb with hb | rfl
    · rw [markedAt, p.words b hb b le_rfl (Nat.lt_add_of_pos_right (Nat.two_pow_pos _))]
      exact s.unmarked b hb
    · rw [markedAt, p.header, Header.mark_fresh]
      rfl
  coalesced := p.coalesced s.coalesced
  sentinel := (p.allocated _).mpr (.inl s.sentinel)

/-! ### Blocks of a well-formed heap -/

namespace WellFormed

variable {h : Heap} {a b x l : Nat}

theorem lt_capacity (wf : h.WellFormed) (ha : h.Allocated a) : a < h.capacity := by
  obtain ⟨R, A⟩ := wf.arena
  obtain ⟨l, hl⟩ := (A.allocated_iff (settled_plan h)).mp ha
  exact A.lt_capacity hl

theorem block_le (wf : h.WellFormed) (ha : h.Allocated a) : a + 2 ^ h.levelAt a ≤ h.capacity := by
  obtain ⟨R, A⟩ := wf.arena
  obtain ⟨l, hl⟩ := (A.allocated_iff (settled_plan h)).mp ha
  rw [(A.taken hl).2, A.capacity]
  exact A.tiling.within (Plan.levels_eq hl)

/-- Allocated blocks have no word in common. -/
theorem eq_of_mem (wf : h.WellFormed) (ha : h.Allocated a) (hb : h.Allocated b) (hax : a ≤ x)
    (hxa : x < a + 2 ^ h.levelAt a) (hbx : b ≤ x) (hxb : x < b + 2 ^ h.levelAt b) : a = b := by
  obtain ⟨R, A⟩ := wf.arena
  obtain ⟨l, hl⟩ := (A.allocated_iff (settled_plan h)).mp ha
  obtain ⟨m, hm⟩ := (A.allocated_iff (settled_plan h)).mp hb
  rw [(A.taken hl).2] at hxa
  rw [(A.taken hm).2] at hxb
  exact A.eq_of_mem hl hm hax hxa hbx hxb

theorem capacity_le (wf : h.WellFormed) : h.capacity ≤ linkLimit := by
  obtain ⟨R, A⟩ := wf.arena
  exact A.capacity_le

end WellFormed

/-- The heap `h'` is `h` with words changed in the allocated block at `a`. -/
structure Rewritten (h h' : Heap) (a : Nat) : Prop where
  sound : h'.Sound
  capacity : h'.capacity = h.capacity
  levels : h'.levels = h.levels
  contexts : h'.contexts = h.contexts
  temporaries : h'.temporaries = h.temporaries
  stats : h'.stats = h.stats
  allocated : ∀ b : Nat, h'.Allocated b ↔ h.Allocated b
  level : h'.levelAt a = h.levelAt a
  outside : ∀ x : Nat, ¬(a ≤ x ∧ x < a + 2 ^ h.levelAt a) → h'.wordAt x = h.wordAt x

/-- One word of an allocated block is replaced; of the header only the tag may change. -/
theorem Sound.store {h : Heap} {a x : Nat} {w : Word} (s : h.Sound) (ha : h.Allocated a) (hx : a ≤ x)
    (hxa : x < a + 2 ^ h.levelAt a) (header : x = a → Header.free.get w = Header.free.get (h.wordAt a) ∧
      Header.level.get w = Header.level.get (h.wordAt a) ∧ Header.mark.get w = Header.mark.get (h.wordAt a)) :
    Rewritten h (h.store x w) a := by
  obtain ⟨R, A⟩ := s.wellFormed.arena
  have settled := WellFormed.settled_plan h
  obtain ⟨l, hl⟩ := (A.allocated_iff settled).mp ha
  have hxc := Nat.lt_of_lt_of_le hxa (s.wellFormed.block_le ha)
  have start : Header.free.get ((h.store x w).wordAt a) = Header.free.get (h.wordAt a) ∧
      Header.level.get ((h.store x w).wordAt a) = Header.level.get (h.wordAt a) ∧
      Header.mark.get ((h.store x w).wordAt a) = Header.mark.get (h.wordAt a) := by
    rw [wordAt_store hxc]
    split
    next e => exact header e
    next => exact ⟨rfl, rfl, rfl⟩
  have level : (h.store x w).levelAt a = h.levelAt a := by rw [levelAt, levelAt, start.2.1]
  have outside (y : Nat) (hy : ¬(a ≤ y ∧ y < a + 2 ^ h.levelAt a)) : (h.store x w).wordAt y = h.wordAt y := by
    rw [wordAt_store_of_ne]
    rintro rfl
    exact hy ⟨hx, hxa⟩
  have same : h.plan.set a ⟨l, .taken⟩ = h.plan := by
    funext b
    by_cases e : b = a
    · subst e
      rw [Plan.set_self, hl]
    · rw [Plan.set_of_ne e]
  have A' : Arena (h.store x w) h.plan R := by
    have := A.rewrite hl (by decide) levels_store capacity_store freeLists_store
      (fun y hy => outside y (by rwa [(A.taken hl).2])) ⟨by
        rw [freeAt, start.1]
        exact (A.taken hl).1, by rw [level, (A.taken hl).2]⟩
    rwa [same] at this
  have allocated (b : Nat) : (h.store x w).Allocated b ↔ h.Allocated b := by
    rw [A'.allocated_iff settled, A.allocated_iff settled]
  refine {
    sound := ⟨A'.wellFormed settled, fun b hb => ?_, (A'.coalesced_iff settled).mpr ((A.coalesced_iff settled).mp s.coalesced),
      (allocated _).mpr s.sentinel⟩
    capacity := capacity_store
    levels := rfl
    contexts := rfl
    temporaries := rfl
    stats := rfl
    allocated := allocated
    level := level
    outside := outside }
  have hb := (allocated b).mp hb
  by_cases e : b = a
  · subst e
    rw [markedAt, start.2.2]
    exact s.unmarked b ha
  · rw [markedAt, outside b]
    · exact s.unmarked b hb
    · rintro ⟨lo, hi⟩
      exact e (s.wellFormed.eq_of_mem ha hb lo hi le_rfl
        (Nat.lt_add_of_pos_right (Nat.two_pow_pos _))).symm

/-! ### Operations on allocated blocks -/

namespace Sound

variable {h : Heap} {a i : Nat} {w : Word} {t : Tag}

theorem write (s : h.Sound) (ha : h.Allocated a) (hi : i < 2 ^ h.levelAt a - 1) :
    ∃ h', Heap.write a i w h = .ok () h' ∧ Rewritten h h' a ∧ h'.wordAt a = h.wordAt a ∧
      ∀ j : Nat, h'.wordAt (a + 1 + j) = if j = i then w else h.wordAt (a + 1 + j) := by
  have inside := s.wellFormed.lt_capacity ha
  have within := s.wellFormed.block_le ha
  have word : a + 1 + i < h.capacity := by omega
  refine ⟨h.store (a + 1 + i) w, ?_, s.store ha (by omega) (by omega) (fun e => by omega), ?_, fun j => ?_⟩
  · simp only [Heap.write, HeapM.run_bind, HeapM.run_lift, blockWords_eq inside, hi, if_true, setWord_eq word]
  · exact wordAt_store_of_ne (show a + 1 + i ≠ a by omega)
  · rw [wordAt_store word]
    by_cases e : j = i
    · rw [if_pos e, if_pos (by rw [e])]
    · rw [if_neg e, if_neg (by lia)]

theorem setTag (s : h.Sound) (ha : h.Allocated a) :
    ∃ h', Heap.setTag a t h = .ok () h' ∧ Rewritten h h' a ∧ h'.tagAt a = t ∧
      ∀ j : Nat, h'.wordAt (a + 1 + j) = h.wordAt (a + 1 + j) := by
  have inside := s.wellFormed.lt_capacity ha
  refine ⟨_, setField_eq _ inside, s.store ha le_rfl (Nat.lt_add_of_pos_right (Nat.two_pow_pos _)) ?_, ?_,
    fun j => wordAt_store_of_ne (show a ≠ a + 1 + j by omega)⟩
  · intro _
    refine ⟨?_, ?_, ?_⟩
    · exact BitField.get_set_apart Header.tag_inWord Header.free_inWord (.inr (by decide)) _ _
    · exact BitField.get_set_apart Header.tag_inWord Header.level_inWord (.inr (by decide)) _ _
    · exact BitField.get_set_apart Header.tag_inWord Header.mark_inWord (.inr (by decide)) _ _
  · have small : t.number < 2 ^ Header.tag.width := by cases t <;> decide
    rw [tagAt, wordAt_store inside, if_pos rfl, BitField.toNat_get_set Header.tag_inWord small]
    exact t.ofNumber_number

theorem release (s : h.Sound) (ha : h.Allocated a) (ne : a ≠ unassigned) :
    ∃ h', Heap.release a h = .ok () h' ∧ h'.Sound ∧ h.Rest h' ∧
      (∀ b : Nat, h'.Allocated b ↔ h.Allocated b ∧ b ≠ a) ∧
      ∀ b : Nat, h.Allocated b → b ≠ a → ∀ x : Nat, b ≤ x → x < b + 2 ^ h.levelAt b →
        h'.wordAt x = h.wordAt x := by
  obtain ⟨R, A⟩ := s.wellFormed.arena
  have settled := WellFormed.settled_plan h
  obtain ⟨l, hl⟩ := (A.allocated_iff settled).mp ha
  obtain ⟨h', run, frame, Q, R', A', same, coalesced, settled'⟩ := A.release settled hl
  have taken (b m : Nat) : Q b = some ⟨m, .taken⟩ ↔ h.plan b = some ⟨m, .taken⟩ ∧ b ≠ a := by
    rw [same b m]
    by_cases e : b = a
    · subst e
      simp
    · simp [Plan.set_of_ne e, e]
  have allocated (b : Nat) : h'.Allocated b ↔ h.Allocated b ∧ b ≠ a := by
    rw [A'.allocated_iff settled', A.allocated_iff settled]
    simp only [taken, exists_and_right]
  have words (b : Nat) (hb : h.Allocated b) (other : b ≠ a) (x : Nat) (hx : b ≤ x)
      (hxb : x < b + 2 ^ h.levelAt b) : h'.wordAt x = h.wordAt x := by
    obtain ⟨m, hm⟩ := (A.allocated_iff settled).mp hb
    rw [(A.taken hm).2] at hxb
    exact frame.words (by rw [Plan.set_of_ne other, hm]) x hx hxb
  refine ⟨h', run, ⟨A'.wellFormed settled', fun b hb => ?_, ?_, ?_⟩, frame.rest, allocated, words⟩
  · obtain ⟨hb, other⟩ := (allocated b).mp hb
    rw [markedAt, words b hb other b le_rfl (Nat.lt_add_of_pos_right (Nat.two_pow_pos _))]
    exact s.unmarked b hb
  · exact (A'.coalesced_iff settled').mpr (coalesced (((A.coalesced_iff settled).mp s.coalesced).set (by simp)))
  · exact (allocated _).mpr ⟨s.sentinel, ne.symm⟩

/-- An allocation leaves a sound heap, whether it gives a block or fails. -/
theorem allocate (s : h.Sound) {size : Nat} (T : h.RunsCollector size → h.Traceable) :
    ∃ g, h.MaybeCollected g ∧ g.Sound ∧
      (Heap.allocate size h = .error (.error (.outOfMemory size)) g ∨
        ∃ a h', Heap.allocate size h = .ok a h' ∧ g.Placed h' a (levelFor size) ∧ h'.Sound) := by
  obtain ⟨g, maybe, outcome⟩ := s.wellFormed.allocate s.unmarked T
  have s' := maybe.sound s
  refine ⟨g, maybe, s', ?_⟩
  rcases outcome with ⟨failed, _⟩ | ⟨a, h', run, placed⟩
  · exact .inl failed
  · exact .inr ⟨a, h', run, placed, placed.sound s'⟩

end Sound

/-- The heap `h` is `g` with a new block at `a` that is tagged and all zero. -/
structure Made (g h : Heap) (a : Nat) (t : Tag) (l : Nat) : Prop where
  sound : h.Sound
  levels : h.levels = g.levels
  contexts : h.contexts = g.contexts
  temporaries : h.temporaries = g.temporaries
  stats : h.stats = g.stats
  fresh : ¬g.Allocated a
  allocated : ∀ b : Nat, h.Allocated b ↔ g.Allocated b ∨ b = a
  words : ∀ b : Nat, g.Allocated b → ∀ x : Nat, b ≤ x → x < b + 2 ^ g.levelAt b → h.wordAt x = g.wordAt x
  tag : h.tagAt a = t
  level : h.levelAt a = l
  payload : ∀ i : Nat, i < 2 ^ l - 1 → h.wordAt (a + 1 + i) = 0

theorem Sound.allocateTagged {h : Heap} (s : h.Sound) {t : Tag} {n : Nat}
    (T : h.RunsCollector (n + 1) → h.Traceable) :
    ∃ g, h.MaybeCollected g ∧ g.Sound ∧
      ((∃ m, Heap.allocateTagged t n h = .error (.error (.outOfMemory m)) g) ∨
        ∃ a h', Heap.allocateTagged t n h = .ok a h' ∧ Made g h' a t (levelFor (n + 1))) := by
  by_cases large : wordLimit ≤ n + 1
  · refine ⟨h, .inl rfl, s, .inl ⟨n, ?_⟩⟩
    simp only [Heap.allocateTagged, HeapM.run_bind, large, if_true, HeapM.run_lift, HeapReader.run_reject]
  · obtain ⟨g, maybe, s', outcome⟩ := s.allocate T
    refine ⟨g, maybe, s', ?_⟩
    rcases outcome with failed | ⟨a, h₁, run, placed, s₁⟩
    · left
      refine ⟨n + 1, ?_⟩
      simp only [Heap.allocateTagged, HeapM.run_bind, large, if_false, failed]
    · right
      obtain ⟨h₂, tagged, r, tag, payload⟩ := s₁.setTag (t := t) ((placed.allocated a).mpr (.inr rfl))
      refine ⟨a, h₂, ?_, {
        sound := r.sound
        levels := r.levels.trans placed.levels
        contexts := r.contexts.trans placed.contexts
        temporaries := r.temporaries.trans placed.temporaries
        stats := r.stats.trans placed.stats
        fresh := placed.fresh
        allocated := fun b => (r.allocated b).trans (placed.allocated b)
        words := fun b hb x hx hxb => ?_
        tag := tag
        level := r.level.trans placed.level
        payload := fun i hi => (payload i).trans (placed.payload i hi) }⟩
      · simp only [Heap.allocateTagged, HeapM.run_bind, large, if_false, HeapM.run_pure, run, tagged]
      · have hb₁ := (placed.allocated b).mpr (.inl hb)
        have ha₁ := (placed.allocated a).mpr (.inr rfl)
        rw [r.outside x, placed.words b hb x hx hxb]
        rintro ⟨lo, hi⟩
        have level : h₁.levelAt b = g.levelAt b := by
          rw [levelAt, placed.words b hb b le_rfl (Nat.lt_add_of_pos_right (Nat.two_pow_pos _)), levelAt]
        have e := s₁.wellFormed.eq_of_mem ha₁ hb₁ lo hi hx (level ▸ hxb)
        exact placed.fresh (e ▸ hb)

/-! ### The first heap -/

/-- The bare heap is one block in hand. -/
theorem arena_bare {levels : Nat} (small : levels ≤ maxLevel) (journal : Journal) :
    Arena (bare levels journal) (Plan.set (fun _ => none) 0 ⟨levels, .held⟩) fun _ => [] := by
  have only {a : Nat} {s : Slot} (ha : Plan.set (fun _ => none) 0 ⟨levels, .held⟩ a = some s) :
      a = 0 ∧ s = ⟨levels, .held⟩ := by
    by_cases e : a = 0
    · subst e
      rw [Plan.set_self] at ha
      exact ⟨rfl, (Option.some.inj ha).symm⟩
    · rw [Plan.set_of_ne e] at ha
      cases ha
  refine {
    capacity := ?_
    levels_le := small
    lists := Array.size_replicate
    tiling := ?_
    free := fun ha => ?_
    taken := fun ha => ?_
    first := fun {l} hl => ?_
    ring := fun _ => Ring.empty _ _
    members := fun {l a} _ => ⟨fun ha => by simp at ha, fun ha => ?_⟩ }
  · change (Memory.zeroed (levelWords levels)).size = 2 ^ levels
    rw [Memory.size_zeroed]
    exact levelWords_eq levels
  · have : (Plan.set (fun _ => none) 0 ⟨levels, .held⟩).levels =
        Function.update (fun _ => none) 0 (some levels) := by
      funext a
      by_cases e : a = 0
      · subst e
        simp [Plan.levels]
      · simp [Plan.levels, Plan.set_of_ne e, e]
    rw [this]
    exact Tiling.whole levels
  · cases (only ha).2
  · cases (only ha).2
  · have hl : l ≤ levels := hl
    have inside : l < levels + 1 := by omega
    simp [bare, inside]
  · cases (only ha).2

/-- A new heap is sound; only the unassigned object is allocated in it. -/
structure Blank (h : Heap) : Prop where
  sound : h.Sound
  contexts : h.contexts = []
  temporaries : h.temporaries = #[]
  stats : h.stats = {}
  allocated : ∀ a : Nat, h.Allocated a ↔ a = unassigned
  header : h.wordAt unassigned = Header.fresh false 0

theorem create_eq {words : Nat} (enough : levelWords minLevel ≤ words) (journal : Journal) :
    ∃ h, create words journal = .ok h ∧ h.Blank ∧ h.levels = arenaLevel words := by
  have small : arenaLevel words ≤ maxLevel := Nat.min_le_right _ _
  let journal' := if levelWords (arenaLevel words) = words then journal
    else journal.note .warn fun _ =>
      s!"heap capacity {words} rounded down to {levelWords (arenaLevel words)} words"
  have A := arena_bare small journal'
  have held : Plan.set (fun _ => none) 0 ⟨arenaLevel words, .held⟩ 0 = some ⟨arenaLevel words, .held⟩ :=
    Plan.set_self
  have only : Plan.OnlyHeld (Plan.set (fun _ => none) 0 ⟨arenaLevel words, .held⟩) 0 := by
    intro a l ha
    by_contra e
    rw [Plan.set_of_ne e] at ha
    cases ha
  have none_taken (a l : Nat) : Plan.set (fun _ => none) 0 ⟨arenaLevel words, .held⟩ a ≠ some ⟨l, .taken⟩ := by
    by_cases e : a = 0
    · subst e
      simp
    · simp [Plan.set_of_ne e]
  obtain ⟨h₁, push, A₁, frame⟩ := A.push held
  have settled₁ := only.settled (l := arenaLevel words) (u := .free) (by decide)
  have levels₁ : h₁.levels = arenaLevel words := frame.rest.levels
  -- the only free block starts at 0, so the first allocation finds it and needs no collection
  have free_start {a l : Nat} (ha : Plan.set (Plan.set (fun _ => none) 0 ⟨arenaLevel words, .held⟩) 0
      ⟨arenaLevel words, .free⟩ a = some ⟨l, .free⟩) : a = 0 := by
    by_contra e
    rw [Plan.set_of_ne e, Plan.set_of_ne e] at ha
    cases ha
  have coalesced₁ : (Plan.set (Plan.set (fun _ => none) 0 ⟨arenaLevel words, .held⟩) 0 ⟨arenaLevel words, .free⟩).Coalesced := by
    intro a l ha hb
    have buddy := free_start hb
    rw [free_start ha, Nat.zero_xor] at buddy
    exact (Nat.two_pow_pos l).ne' buddy
  have found := A₁.takeFrom settled₁ (l := 0) (m := 0) (n := h₁.levels + 1) (by omega)
  rcases found with ⟨_, empty⟩ | ⟨a, k, h₂, run, inHand, head, _, top, _⟩
  · have := empty (arenaLevel words) (Nat.zero_le _) (by omega)
    simp at this
  have start : a = 0 := free_start ((A₁.members top).mp (List.mem_of_mem_head? head))
  subst start
  obtain ⟨h₃, h₄, header, payload, placed⟩ := inHand.place A₁ settled₁
  have allocated (b : Nat) : h₄.Allocated b ↔ b = unassigned := by
    rw [placed.allocated, A₁.allocated_iff settled₁]
    refine or_iff_right ?_
    rintro ⟨l, hl⟩
    by_cases e : b = 0
    · subst e
      simp at hl
    · rw [Plan.set_of_ne e] at hl
      exact none_taken b l hl
  have sound : h₄.Sound := by
    refine ⟨placed.wellFormed, fun b hb => ?_, placed.coalesced ((A₁.coalesced_iff settled₁).mpr coalesced₁), (allocated _).mpr rfl⟩
    rw [(allocated b).mp hb, markedAt]
    change (Header.mark.get (h₄.wordAt 0) == 1) = false
    rw [placed.header, Header.mark_fresh]
    rfl
  refine ⟨h₄, ?_, {
    sound := sound
    contexts := by rw [placed.contexts, frame.rest]; rfl
    temporaries := by rw [placed.temporaries, frame.rest]; rfl
    stats := by rw [placed.stats, frame.rest]; rfl
    allocated := allocated
    header := placed.header }, placed.levels.trans levels₁⟩
  have take : takeFree (levelFor 1) h₁ = .ok (some 0) h₂ := by
    simp only [takeFree, HeapM.run_bind, HeapM.run_get]
    exact run
  have fits : ¬h₁.levels < levelFor 1 := Nat.not_lt_zero _
  have header : setWord 0 (Header.fresh false (levelFor 1)) h₂ = .ok () h₃ := header
  have payload : clear (0 + 1) (levelWords (levelFor 1) - 1) h₃ = .ok () h₄ := payload
  have first : allocate 1 h₁ = .ok 0 h₄ := by
    simp only [allocate, HeapM.run_bind, HeapM.run_get, fits, if_false, obtain, take, HeapM.run_pure, header,
      payload]
  have setup : (pushFree 0 (arenaLevel words) >>= fun _ => allocate 1) (bare (arenaLevel words) journal') =
      .ok 0 h₄ := by
    simp only [HeapM.run_bind, push, first]
  simp only [create, if_neg (Nat.not_lt.mpr enough)]
  rw [setup]

end Heap

end FiberMachine
