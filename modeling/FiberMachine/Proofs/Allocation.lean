import FiberMachine.Proofs.Collection

/-!
# Allocation

Allocation takes a block off the free lists, gives it a fresh header and clears its payload. Either the
free lists have a large enough block at first, or they are searched once more after a collection; in
both cases every block that can be reached from the roots stays where it is, with the words it had.
-/

namespace FiberMachine

namespace Heap

variable {h : Heap} {a b n : Nat}

/-- Clearing some words leaves the others. -/
theorem clear_eq (within : a + n ≤ h.capacity) :
    ∃ h', clear a n h = .ok () h' ∧ h' = { h with memory := h'.memory } ∧ h'.capacity = h.capacity ∧
      ∀ x : Nat, h'.wordAt x = if a ≤ x ∧ x < a + n then 0 else h.wordAt x := by
  induction n generalizing a h with
  | zero =>
    refine ⟨h, rfl, rfl, rfl, fun x => ?_⟩
    rw [if_neg (by omega)]
  | succ n ih =>
    have inside : a < h.capacity := by omega
    obtain ⟨h', run, rest, capacity, words⟩ := ih (a := a + 1) (h := h.store a 0) (by
      rw [capacity_store]
      omega)
    refine ⟨h', ?_, ?_, capacity.trans capacity_store, fun x => ?_⟩
    · simp only [clear, HeapM.run_bind, setWord_eq inside, run]
    · rw [rest]
      rfl
    · rw [words, wordAt_store inside]
      by_cases e : a = x
      · subst e
        rw [if_neg (by omega), if_pos rfl, if_pos (by omega)]
      · rw [if_neg e]
        by_cases hx : a + 1 ≤ x ∧ x < a + 1 + n
        · rw [if_pos hx, if_pos (by omega)]
        · rw [if_neg hx, if_neg (by omega)]

end Heap

/-- Words change in one block that is not free, which afterwards is an allocated block. -/
theorem Arena.rewrite {h h' : Heap} {P : Plan} {R : Nat → List Nat} {a l : Nat} {u : Use} (A : Arena h P R)
    (ha : P a = some ⟨l, u⟩) (hu : u ≠ .free) (levels : h'.levels = h.levels)
    (capacity : h'.capacity = h.capacity) (freeLists : h'.freeLists = h.freeLists)
    (outside : ∀ x : Nat, ¬(a ≤ x ∧ x < a + 2 ^ l) → h'.wordAt x = h.wordAt x)
    (header : h'.freeAt a = false ∧ h'.levelAt a = l) : Arena h' (P.set a ⟨l, .taken⟩) R := by
  have start {b : Nat} {s : Slot} (hb : P b = some s) (ne : b ≠ a) : h'.wordAt b = h.wordAt b := by
    refine outside b fun inside => ne ?_
    exact (A.eq_of_start ha hb inside.1 inside.2).symm
  refine {
    capacity := by rw [capacity, levels, A.capacity]
    levels_le := levels ▸ A.levels_le
    lists := by rw [freeLists, levels, A.lists]
    tiling := by
      rw [Plan.levels_set ha, levels]
      exact A.tiling
    free := ?_
    taken := ?_
    first := by
      rw [freeLists, levels]
      exact A.first
    ring := ?_
    members := ?_ }
  · intro b m hb
    by_cases e : b = a
    · subst e
      simp at hb
    · rw [Plan.set_of_ne e] at hb
      rw [Heap.freeAt, Heap.levelAt, start hb e]
      exact A.free hb
  · intro b m hb
    by_cases e : b = a
    · subst e
      rw [Plan.set_self] at hb
      cases hb
      exact header
    · rw [Plan.set_of_ne e] at hb
      rw [Heap.freeAt, Heap.levelAt, start hb e]
      exact A.taken hb
  · intro m hm
    rw [levels] at hm
    have same {b : Nat} (hb : b ∈ R m) : h'.wordAt b = h.wordAt b := by
      have hb := (A.members hm).mp hb
      refine start hb fun e => ?_
      subst e
      rw [ha] at hb
      cases hb
      exact hu rfl
    refine (A.ring hm).congr (fun b hb => ?_) (fun b hb => ?_)
    · rw [Heap.nextAt, same hb, Heap.nextAt]
    · rw [Heap.previousAt, same hb, Heap.previousAt]
  · intro m b hm
    rw [levels] at hm
    rw [A.members hm]
    by_cases e : b = a
    · subst e
      rw [Plan.set_self, ha]
      constructor
      · rintro ⟨⟩
        exact absurd rfl hu
      · rintro ⟨⟩
    · rw [Plan.set_of_ne e]

namespace Heap

/-- The heap `h'` is `h` with a new block of level `l` allocated at `a`, not tagged and all zero. -/
structure Placed (h h' : Heap) (a l : Nat) : Prop where
  wellFormed : h'.WellFormed
  coalesced : h.Coalesced → h'.Coalesced
  levels : h'.levels = h.levels
  contexts : h'.contexts = h.contexts
  temporaries : h'.temporaries = h.temporaries
  stats : h'.stats = h.stats
  fresh : ¬h.Allocated a
  allocated : ∀ b : Nat, h'.Allocated b ↔ h.Allocated b ∨ b = a
  words : ∀ b : Nat, h.Allocated b → ∀ x : Nat, b ≤ x → x < b + 2 ^ h.levelAt b → h'.wordAt x = h.wordAt x
  header : h'.wordAt a = Header.fresh false l
  level : h'.levelAt a = l
  payload : ∀ i : Nat, i < 2 ^ l - 1 → h'.wordAt (a + 1 + i) = 0

end Heap

/-- The block in hand gets a fresh header and a clear payload. -/
theorem InHand.place {h h' : Heap} {P : Plan} {R : Nat → List Nat} {a l : Nat} (A : Arena h P R)
    (settled : P.Settled) (s : InHand P h h' a l) :
    ∃ h₁ h₂, Heap.setWord a (Header.fresh false l) h' = .ok () h₁ ∧
      Heap.clear (a + 1) (2 ^ l - 1) h₁ = .ok () h₂ ∧ h.Placed h₂ a l := by
  obtain ⟨frame, Q, R', A', same, coalesced, only, ha⟩ := s
  have pos := Nat.two_pow_pos l
  have inside := A'.lt_capacity ha
  have within : a + 2 ^ l ≤ 2 ^ h'.levels := A'.tiling.within (Plan.levels_eq ha)
  have small : l ≤ maxLevel := (A'.level_le ha).trans A'.levels_le
  obtain ⟨h₂, run, rest, capacity, words⟩ :=
    Heap.clear_eq (a := a + 1) (n := 2 ^ l - 1) (h := h'.store a (Header.fresh false l)) (by
      rw [Heap.capacity_store, A'.capacity]
      omega)
  have header : h₂.wordAt a = Header.fresh false l := by
    rw [words, if_neg (by omega), Heap.wordAt_store inside, if_pos rfl]
  have level : h₂.levelAt a = l := by
    rw [Heap.levelAt, header]
    exact Header.level_fresh false small
  have outside (x : Nat) (hx : ¬(a ≤ x ∧ x < a + 2 ^ l)) : h₂.wordAt x = h'.wordAt x := by
    rw [words, if_neg (by omega), Heap.wordAt_store_of_ne (by lia)]
  have A₂ : Arena h₂ (Q.set a ⟨l, .taken⟩) R' := by
    refine A'.rewrite ha (by decide) (by rw [rest]; rfl) (capacity.trans Heap.capacity_store)
      (by rw [rest]; rfl) outside ⟨?_, level⟩
    rw [Heap.freeAt, header]
    exact Header.free_fresh false l
  have settled₂ : (Q.set a ⟨l, .taken⟩).Settled := only.settled (by decide)
  have new (m : Nat) : P a ≠ some ⟨m, .taken⟩ := by
    intro hm
    have := (same a m).mpr hm
    rw [ha] at this
    cases this
  have kept (b : Nat) : h.Allocated b ↔ ∃ m, Q b = some ⟨m, .taken⟩ := by
    rw [A.allocated_iff settled]
    exact exists_congr fun m => (same b m).symm
  refine ⟨_, h₂, Heap.setWord_eq inside, run, {
    wellFormed := A₂.wellFormed settled₂
    coalesced := fun c => (A₂.coalesced_iff settled₂).mpr ((coalesced ((A.coalesced_iff settled).mp c)).set (by simp))
    levels := by rw [rest]; exact frame.rest.levels
    contexts := by rw [rest]; change h'.contexts = _; rw [frame.rest]
    temporaries := by rw [rest]; change h'.temporaries = _; rw [frame.rest]
    stats := by rw [rest]; change h'.stats = _; rw [frame.rest]
    fresh := ?_
    allocated := ?_
    words := ?_
    header := header
    level := level
    payload := ?_ }⟩
  · rw [A.allocated_iff settled]
    rintro ⟨m, hm⟩
    exact new m hm
  · intro b
    rw [A₂.allocated_iff settled₂, kept]
    by_cases e : b = a
    · subst e
      simp
    · simp [Plan.set_of_ne e, e]
  · intro b hb x hx hx'
    obtain ⟨m, hm⟩ := (A.allocated_iff settled).mp hb
    rw [(A.taken hm).2] at hx'
    have hm' := (same b m).mpr hm
    rw [outside x, frame.words hm x hx hx']
    rintro ⟨lo, hi⟩
    have e := A'.eq_of_mem ha hm' lo hi hx hx'
    exact new m (e ▸ hm)
  · intro i hi
    rw [words, if_pos (by omega)]

namespace Heap

/-- No free block is large enough for `size` words, although the arena is: an allocation runs the
collector. -/
def RunsCollector (h : Heap) (size : Nat) : Prop :=
  levelFor size ≤ h.levels ∧ ∀ l ≤ h.levels, levelFor size ≤ l → h.freeLists[l]? = some none

instance {h : Heap} {size : Nat} : Decidable (h.RunsCollector size) :=
  inferInstanceAs (Decidable (_ ∧ ∀ l ≤ h.levels, levelFor size ≤ l → h.freeLists[l]? = some none))

/-- A heap that may be the one before a collection or the one after it. -/
def MaybeCollected (h g : Heap) : Prop := g = h ∨ Collected h g

namespace WellFormed

variable {h : Heap} {l size : Nat}

/-- The free lists have a block of the level, or they stay as they are. -/
theorem takeFree (wf : h.WellFormed) (hl : l ≤ h.levels) :
    (Heap.takeFree l h = .ok none h ∧ ∀ k ≤ h.levels, l ≤ k → h.freeLists[k]? = some none) ∨
      ∃ a h', Heap.takeFree l h = .ok (some a) h' ∧ InHand h.plan h h' a l := by
  obtain ⟨R, A⟩ := wf.arena
  rcases A.takeFrom (settled_plan h) (l := l) (m := 0) (n := h.levels + 1 - l) (by omega) with
    ⟨run, empty⟩ | ⟨a, k, h', run, done, _⟩
  · left
    refine ⟨by simp only [Heap.takeFree, HeapM.run_bind, HeapM.run_get, run], fun k hk hlk => ?_⟩
    have := empty (k - l) (Nat.zero_le _) (by omega)
    rw [Nat.add_sub_cancel' hlk] at this
    rw [A.first hk, this, List.head?_nil]
  · right
    refine ⟨a, h', ?_, done⟩
    simp only [Heap.takeFree, HeapM.run_bind, HeapM.run_get, run]

/-- A block that has been found is put to use. -/
theorem place (wf : h.WellFormed) {h' : Heap} {a : Nat} (s : InHand h.plan h h' a l) :
    ∃ h₁ h₂, setWord a (Header.fresh false l) h' = .ok () h₁ ∧
      clear (a + 1) (2 ^ l - 1) h₁ = .ok () h₂ ∧ h.Placed h₂ a l := by
  obtain ⟨R, A⟩ := wf.arena
  exact s.place A (settled_plan h)

/-- An allocation gives a new block, or there is no memory left; if it ran the collector, then once. It fails only because the
arena is too small, or because no free block is large enough even after a collection. -/
theorem allocate (wf : h.WellFormed) (U : h.Unmarked) (T : h.RunsCollector size → h.Traceable) :
    ∃ g, h.MaybeCollected g ∧
      (Heap.allocate size h = .error (.error (.outOfMemory size)) g ∧
          (h.levels < levelFor size ∨ Collected h g ∧ g.RunsCollector size) ∨
        ∃ a h', Heap.allocate size h = .ok a h' ∧ g.Placed h' a (levelFor size)) := by
  by_cases hl : h.levels < levelFor size
  · refine ⟨h, .inl rfl, .inl ⟨?_, .inl hl⟩⟩
    simp only [Heap.allocate, HeapM.run_bind, HeapM.run_get, hl, if_true, HeapM.run_lift,
      HeapReader.run_reject]
  · have hl' : levelFor size ≤ h.levels := Nat.not_lt.mp hl
    have words : levelWords (levelFor size) = 2 ^ levelFor size := levelWords_eq _
    rcases wf.takeFree hl' with ⟨none, empty⟩ | ⟨a, h', run, found⟩
    · obtain ⟨g, collected, c⟩ := wf.collect U (T ⟨hl', empty⟩)
      refine ⟨g, .inr c, ?_⟩
      have hg : levelFor size ≤ g.levels := c.levels.symm ▸ hl'
      rcases c.wellFormed.takeFree hg with ⟨again, still⟩ | ⟨a, h', run, found⟩
      · refine .inl ⟨?_, .inr ⟨c, hg, still⟩⟩
        simp only [Heap.allocate, HeapM.run_bind, HeapM.run_get, hl, if_false, obtain, none, collected,
          again, HeapM.run_lift, HeapReader.run_reject]
      · right
        obtain ⟨h₁, h₂, header, payload, placed⟩ := c.wellFormed.place found
        refine ⟨a, h₂, ?_, placed⟩
        simp only [Heap.allocate, HeapM.run_bind, HeapM.run_get, hl, if_false, obtain, none, collected,
          run, header, words, payload, HeapM.run_pure]
    · refine ⟨h, .inl rfl, .inr ?_⟩
      obtain ⟨h₁, h₂, header, payload, placed⟩ := wf.place found
      refine ⟨a, h₂, ?_, placed⟩
      simp only [Heap.allocate, HeapM.run_bind, HeapM.run_get, hl, if_false, obtain, run, header, words,
        payload, HeapM.run_pure]

end WellFormed

end Heap

end FiberMachine
