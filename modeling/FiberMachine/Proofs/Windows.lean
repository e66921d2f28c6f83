import FiberMachine.Proofs.Workload

/-!
# The partition is canonical

Which blocks are free is determined by which are allocated: the free blocks are the maximal aligned windows without an allocated
word. So it does not matter in which order blocks have been allocated and released, and releasing what has just been allocated
restores the partition.
-/

namespace FiberMachine

namespace Tiling

variable {n : Nat} {S : Nat → Option Nat} {a b l m : Nat}

/-- A window that starts in a block which is no smaller than it lies in the block. -/
theorem window_le (da : 2 ^ l ∣ a) (db : 2 ^ m ∣ b) (le : l ≤ m) (lt : a < b + 2 ^ m) : a + 2 ^ l ≤ b + 2 ^ m := by
  have dvd : 2 ^ l ∣ 2 ^ m := Nat.pow_dvd_pow 2 le
  obtain ⟨q, rfl⟩ := da
  obtain ⟨r, hr⟩ := Nat.dvd_add (dvd.trans db) dvd
  rw [hr] at lt ⊢
  have := Nat.lt_of_mul_lt_mul_left lt
  rw [← Nat.mul_succ]
  exact Nat.mul_le_mul_left _ this

end Tiling

namespace Arena

variable {h : Heap} {P : Plan} {R : Nat → List Nat} {a l : Nat}

/-- No word of the aligned window at `a` is taken. -/
structure Clear (P : Plan) (n a l : Nat) : Prop where
  aligned : 2 ^ l ∣ a
  within : a + 2 ^ l ≤ 2 ^ n
  apart : ∀ {b m}, P b = some ⟨m, .taken⟩ → b + 2 ^ m ≤ a ∨ a + 2 ^ l ≤ b

/-- Both halves of a window are clear. -/
theorem Clear.halves {n : Nat} (c : Clear P n a (l + 1)) : Clear P n a l ∧ Clear P n (a + 2 ^ l) l := by
  have twice : 2 ^ (l + 1) = 2 ^ l + 2 ^ l := by rw [pow_succ]; omega
  have half : 2 ^ l ∣ a := (pow_dvd_pow 2 l.le_succ).trans c.aligned
  have within := c.within
  refine ⟨⟨half, by omega, fun hb => ?_⟩, ⟨Nat.dvd_add half (dvd_refl _), by omega, fun hb => ?_⟩⟩
  all_goals have := c.apart hb; omega

/-- A free block is clear. -/
theorem clear_of_free (A : Arena h P R) (ha : P a = some ⟨l, .free⟩) : Clear P h.levels a l where
  aligned := A.tiling.aligned (Plan.levels_eq ha)
  within := A.tiling.within (Plan.levels_eq ha)
  apart := by
    intro b m hb
    have ne : b ≠ a := by
      rintro rfl
      rw [ha] at hb
      cases hb
    rcases Nat.lt_or_gt_of_ne ne with lt | gt
    · exact .inl (A.tiling.apart (Plan.levels_eq hb) (Plan.levels_eq ha) lt)
    · exact .inr (A.tiling.apart (Plan.levels_eq ha) (Plan.levels_eq hb) gt)

/-- A clear window lies in a free block. Of its halves each lies in one by induction; if these are the halves themselves, then
they are buddies that are both free. -/
theorem free_of_clear (A : Arena h P R) (settled : P.Settled) (coalesced : P.Coalesced) (clear : Clear P h.levels a l) :
    ∃ b m, P b = some ⟨m, .free⟩ ∧ l ≤ m ∧ b ≤ a ∧ a + 2 ^ l ≤ b + 2 ^ m := by
  induction l generalizing a with
  | zero =>
    have within := clear.within
    obtain ⟨b, m, tile, hba, hab⟩ := A.tiling.covers (x := a) (by omega)
    obtain ⟨u, hb⟩ := Plan.eq_of_levels tile
    refine ⟨b, m, ?_, m.zero_le, hba, hab⟩
    cases u with
    | free => exact hb
    | taken => have := clear.apart hb; omega
    | held => exact absurd hb (settled b m)
  | succ l ih =>
    obtain ⟨lower, upper⟩ := clear.halves
    obtain ⟨b, m, hb, hm, hba, hab⟩ := ih lower
    obtain ⟨c, k, hc, hk, hca, hac⟩ := ih upper
    have twice : 2 ^ (l + 1) = 2 ^ l + 2 ^ l := by rw [pow_succ]; omega
    have pos := Nat.two_pow_pos l
    have db : 2 ^ m ∣ b := A.tiling.aligned (Plan.levels_eq hb)
    have dc : 2 ^ k ∣ c := A.tiling.aligned (Plan.levels_eq hc)
    rcases Nat.eq_or_lt_of_le hm with rfl | hm
    · rcases Nat.eq_or_lt_of_le hk with rfl | hk
      · have hb' : b = a := by omega
        have hc' : c = a + 2 ^ l := by omega
        subst hb' hc'
        exact absurd (Tiling.buddy_lower clear.aligned ▸ hc) (coalesced b l hb)
      · -- the block of the upper half starts at a multiple of the size of the whole window
        have hca : c ≤ a := by
          by_contra gt
          have := Tiling.window_le clear.aligned ((pow_dvd_pow 2 hk).trans dc) le_rfl (by omega : a < c + 2 ^ (l + 1))
          have low := Tiling.window_le ((pow_dvd_pow 2 hk).trans dc) clear.aligned le_rfl (by omega : c < a + 2 ^ (l + 1))
          omega
        exact ⟨c, k, hc, hk, hca, by omega⟩
    · exact ⟨b, m, hb, hm, hba, Tiling.window_le clear.aligned db hm (by omega)⟩

end Arena

namespace Heap

/-- The aligned window of `2 ^ l` words at `a` has no word of an allocated block. -/
structure Vacant (h : Heap) (a l : Nat) : Prop where
  aligned : 2 ^ l ∣ a
  within : a + 2 ^ l ≤ h.capacity
  apart : ∀ b ∈ h.blocks, b.free = false → b.addr + b.words ≤ a ∨ a + 2 ^ l ≤ b.addr

/-- The window is vacant and lies in no other vacant one. -/
def MaximalVacant (h : Heap) (a l : Nat) : Prop :=
  h.Vacant a l ∧ ∀ b m : Nat, h.Vacant b m → b ≤ a → a + 2 ^ l ≤ b + 2 ^ m → b = a ∧ m = l

variable {h : Heap} {a l : Nat}

namespace Sound

variable (s : h.Sound)
include s

theorem vacant_iff : h.Vacant a l ↔ Arena.Clear h.plan h.levels a l := by
  have capacity := s.wellFormed.capacity
  constructor
  · intro v
    refine ⟨v.aligned, capacity ▸ v.within, fun hb => ?_⟩
    obtain ⟨b, mem, rfl, rfl, free, _⟩ := WellFormed.exists_of_plan hb
    have taken : b.free = false := by
      by_contra e
      cases free.mp (by simpa using e)
    have := v.apart b mem taken
    rwa [b.words_eq] at this
  · intro c
    refine ⟨c.aligned, capacity ▸ c.within, fun b hb taken => ?_⟩
    have := WellFormed.plan_eq_some hb
    rw [taken] at this
    rw [b.words_eq]
    exact c.apart this

theorem free_iff : (∃ b ∈ h.blocks, b.addr = a ∧ b.level = l ∧ b.free = true) ↔ h.plan a = some ⟨l, .free⟩ := by
  obtain ⟨R, A⟩ := s.wellFormed.arena
  exact A.free_iff (WellFormed.settled_plan h)

/-- A vacant window lies in a free block. -/
theorem free_of_vacant (v : h.Vacant a l) :
    ∃ b m : Nat, (∃ c ∈ h.blocks, c.addr = b ∧ c.level = m ∧ c.free = true) ∧ l ≤ m ∧ b ≤ a ∧ a + 2 ^ l ≤ b + 2 ^ m := by
  obtain ⟨R, A⟩ := s.wellFormed.arena
  have settled := WellFormed.settled_plan h
  obtain ⟨b, m, hb, rest⟩ := A.free_of_clear settled ((A.coalesced_iff settled).mp s.coalesced) (s.vacant_iff.mp v)
  exact ⟨b, m, s.free_iff.mpr hb, rest⟩

/-- The free blocks are the maximal vacant windows. -/
theorem free_iff_maximal : (∃ b ∈ h.blocks, b.addr = a ∧ b.level = l ∧ b.free = true) ↔ h.MaximalVacant a l := by
  obtain ⟨R, A⟩ := s.wellFormed.arena
  have vacant {b m : Nat} (hb : h.plan b = some ⟨m, .free⟩) : h.Vacant b m := s.vacant_iff.mpr (A.clear_of_free hb)
  constructor
  · intro ha
    have ha := s.free_iff.mp ha
    refine ⟨vacant ha, fun b m v low high => ?_⟩
    obtain ⟨c, k, hc, hm, low', high'⟩ := s.free_of_vacant v
    have hc := s.free_iff.mp hc
    have pos := Nat.two_pow_pos l
    obtain rfl : c = a := A.eq_of_mem hc ha (low'.trans low) (by dsimp only; omega) le_rfl (by dsimp only; omega)
    rw [ha] at hc
    cases hc
    obtain rfl : b = c := by omega
    exact ⟨rfl, Nat.le_antisymm hm ((Nat.pow_le_pow_iff_right (show 1 < 2 by decide)).mp (by omega))⟩
  · rintro ⟨v, maximal⟩
    obtain ⟨c, k, hc, hm, low, high⟩ := s.free_of_vacant v
    obtain ⟨rfl, rfl⟩ := maximal _ _ (vacant (s.free_iff.mp hc)) low high
    exact hc

end Sound

/-! ### What the walk shows -/

/-- Where the blocks are that are free, or those that are allocated, in the order of their addresses. -/
def extents (h : Heap) (free : Bool) : List (Addr × Nat) := (h.blocks.filter (·.free == free)).map fun b => (b.addr, b.level)

end Heap

/-- What is shown of a block. A free block has no tag. -/
def Block.shown (b : Block) : Addr × Nat × Option Tag := (b.addr, b.level, if b.free then none else some b.tag)

namespace Heap

variable {h k : Heap} {a l : Nat}

theorem mem_extents {free : Bool} : (a, l) ∈ h.extents free ↔ ∃ b ∈ h.blocks, b.addr = a ∧ b.level = l ∧ b.free = free := by
  simp only [extents, List.mem_map, List.mem_filter, beq_iff_eq, Prod.mk.injEq]
  constructor
  · rintro ⟨b, ⟨hb, free⟩, rfl, rfl⟩
    exact ⟨b, hb, rfl, rfl, free⟩
  · rintro ⟨b, hb, rfl, rfl, free⟩
    exact ⟨b, ⟨hb, free⟩, rfl, rfl⟩

/-- Lists in the order of addresses are equal if they have the same members. -/
theorem eq_of_addresses {α : Type} {xs ys : List (Addr × α)} (hx : xs.Pairwise fun p q => p.1 < q.1)
    (hy : ys.Pairwise fun p q => p.1 < q.1) (same : ∀ p, p ∈ xs ↔ p ∈ ys) : xs = ys := by
  have : Std.Antisymm fun p q : Addr × α => p.1 < q.1 := ⟨fun _ _ lt gt => absurd lt (Nat.lt_asymm gt)⟩
  have : Std.Irrefl fun p q : Addr × α => p.1 < q.1 := ⟨fun p => Nat.lt_irrefl p.1⟩
  exact List.Pairwise.eq_of_mem_iff hx hy same

/-- Heaps of one size whose allocated blocks are the same have the same vacant windows. -/
theorem Vacant.congr (capacity : h.capacity = k.capacity) (same : ∀ p, p ∈ h.extents false ↔ p ∈ k.extents false) (v : h.Vacant a l) :
    k.Vacant a l where
  aligned := v.aligned
  within := capacity ▸ v.within
  apart := by
    intro b hb taken
    obtain ⟨c, hc, addr, level, taken'⟩ := mem_extents.mp ((same (b.addr, b.level)).mpr (mem_extents.mpr ⟨b, hb, rfl, rfl, taken⟩))
    have := v.apart c hc taken'
    rwa [c.words_eq, addr, level, ← b.words_eq] at this

/-- Heaps of one size whose allocated blocks are the same have the same free blocks. -/
theorem Sound.extents_free (s : h.Sound) (s' : k.Sound) (capacity : h.capacity = k.capacity)
    (same : ∀ p, p ∈ h.extents false ↔ p ∈ k.extents false) : h.extents true = k.extents true := by
  have vacant (b m : Nat) : h.Vacant b m ↔ k.Vacant b m :=
    ⟨.congr capacity same, .congr capacity.symm fun p => (same p).symm⟩
  have ordered (g : Heap) : (g.extents true).Pairwise fun p q => p.1 < q.1 :=
    List.pairwise_map.mpr (g.pairwise_blocks.filter _)
  refine eq_of_addresses (ordered h) (ordered k) fun ⟨a, l⟩ => ?_
  rw [mem_extents, mem_extents, s.free_iff_maximal, s'.free_iff_maximal]
  simp only [MaximalVacant, vacant]

/-- Heaps of one size that agree on the allocated blocks and their words show the same partition. -/
theorem Sound.shown_eq (s : h.Sound) (s' : k.Sound) (capacity : k.capacity = h.capacity) (allocated : ∀ a, k.Allocated a ↔ h.Allocated a)
    (header : ∀ a, h.Allocated a → k.wordAt a = h.wordAt a) : k.blocks.map Block.shown = h.blocks.map Block.shown := by
  -- an allocated block is the same block in both heaps
  have taken (b : Block) (free : b.free = false) : b ∈ k.blocks ↔ b ∈ h.blocks := by
    constructor
    · intro hb
      obtain ⟨c, hc, addr, free'⟩ := (allocated b.addr).mp ⟨b, hb, rfl, free⟩
      have same := header b.addr ⟨c, hc, addr, free'⟩
      rw [ofHeader_of_mem_blocks hb, same, ← addr, ← ofHeader_of_mem_blocks hc]
      exact hc
    · intro hb
      obtain ⟨c, hc, addr, free'⟩ := (allocated b.addr).mpr ⟨b, hb, rfl, free⟩
      have same := header b.addr ⟨b, hb, rfl, free⟩
      rw [ofHeader_of_mem_blocks hb, ← same, ← addr, ← ofHeader_of_mem_blocks hc]
      exact hc
  have same (p : Addr × Nat) : p ∈ k.extents false ↔ p ∈ h.extents false := by
    obtain ⟨a, l⟩ := p
    rw [mem_extents, mem_extents]
    constructor
    · rintro ⟨b, hb, addr, level, free⟩
      exact ⟨b, (taken b free).mp hb, addr, level, free⟩
    · rintro ⟨b, hb, addr, level, free⟩
      exact ⟨b, (taken b free).mpr hb, addr, level, free⟩
  have free := s'.extents_free s capacity same
  have ordered (g : Heap) : (g.blocks.map Block.shown).Pairwise fun p q => p.1 < q.1 :=
    List.pairwise_map.mpr g.pairwise_blocks
  have shows {g g' : Heap} (taken : ∀ b : Block, b.free = false → b ∈ g.blocks → b ∈ g'.blocks)
      (free : g.extents true = g'.extents true) {p : Addr × Nat × Option Tag} (hp : p ∈ g.blocks.map Block.shown) :
      p ∈ g'.blocks.map Block.shown := by
    obtain ⟨b, hb, rfl⟩ := List.mem_map.mp hp
    cases use : b.free with
    | false => exact List.mem_map_of_mem (taken b use hb)
    | true =>
      have here : (b.addr, b.level) ∈ g.extents true := mem_extents.mpr ⟨b, hb, rfl, rfl, use⟩
      obtain ⟨c, hc, addr, level, use'⟩ := mem_extents.mp (free ▸ here)
      refine List.mem_map.mpr ⟨c, hc, ?_⟩
      rw [Block.shown, Block.shown, use, use', addr, level]
      rfl
  exact eq_of_addresses (ordered k) (ordered h) fun p =>
    ⟨shows (fun b use => (taken b use).mp) free, shows (fun b use => (taken b use).mpr) free.symm⟩

/-! ### Releasing -/

/-- Releasing what has been allocated without a collection restores the partition. -/
theorem Placed.release_shown {h' : Heap} (p : h.Placed h' a l) (s : h.Sound) :
    ∃ g, release a h' = .ok () g ∧ g.blocks.map Block.shown = h.blocks.map Block.shown := by
  have s' := p.sound s
  have ne : a ≠ unassigned := fun e => p.fresh (e ▸ s.sentinel)
  obtain ⟨g, run, s'', rest, allocated, words⟩ := s'.release ((p.allocated a).mpr (.inr rfl)) ne
  have levels : g.levels = h.levels := rest.levels.trans p.levels
  refine ⟨g, run, s.shown_eq s'' (by rw [s''.wellFormed.capacity, s.wellFormed.capacity, levels]) (fun b => ?_) fun b hb => ?_⟩
  · rw [allocated, p.allocated]
    constructor
    · rintro ⟨hb | rfl, other⟩
      · exact hb
      · exact absurd rfl other
    · exact fun hb => ⟨.inl hb, fun e => p.fresh (e ▸ hb)⟩
  · have start (m : Nat) : b < b + 2 ^ m := Nat.lt_add_of_pos_right (Nat.two_pow_pos m)
    rw [words b ((p.allocated b).mpr (.inl hb)) (fun e => p.fresh (e ▸ hb)) b le_rfl (start _), p.words b hb b le_rfl (start _)]

/-- Releasing some allocated blocks, one after the other, leaves the others as they are. -/
theorem Sound.releaseAll (s : h.Sound) {as : List Addr} (nodup : as.Nodup) (each : ∀ a ∈ as, h.Allocated a ∧ a ≠ unassigned) :
    ∃ g, (as.forM Heap.release : HeapM Unit) h = .ok () g ∧ g.Sound ∧ g.levels = h.levels ∧
      (∀ b, g.Allocated b ↔ h.Allocated b ∧ b ∉ as) ∧ ∀ b, h.Allocated b → b ∉ as → g.wordAt b = h.wordAt b := by
  induction as generalizing h with
  | nil => exact ⟨h, rfl, s, rfl, by simp, fun _ _ _ => rfl⟩
  | cons a as ih =>
    obtain ⟨fresh, nodup⟩ := List.nodup_cons.mp nodup
    obtain ⟨ha, ne⟩ := each a List.mem_cons_self
    obtain ⟨h₁, run, s₁, rest, allocated, words⟩ := s.release ha ne
    obtain ⟨g, run', s', levels, allocated', words'⟩ := ih s₁ nodup fun b hb => by
      obtain ⟨hb', ne'⟩ := each b (List.mem_cons_of_mem a hb)
      exact ⟨(allocated b).mpr ⟨hb', fun e => fresh (e ▸ hb)⟩, ne'⟩
    refine ⟨g, ?_, s', levels.trans rest.levels, fun b => ?_, fun b hb out => ?_⟩
    · change (Heap.release a >>= fun _ => (as.forM Heap.release : HeapM Unit)) h = _
      simp only [HeapM.run_bind, run, run']
    · rw [allocated', allocated, List.mem_cons, not_or, and_assoc]
    · obtain ⟨other, out⟩ := not_or.mp (mt List.mem_cons.mpr out)
      rw [words' b ((allocated b).mpr ⟨hb, other⟩) out, words b hb other b le_rfl (Nat.lt_add_of_pos_right (Nat.two_pow_pos _))]

/-- The order in which blocks are released does not matter. -/
theorem Sound.release_perm (s : h.Sound) {as bs : List Addr} (perm : as.Perm bs) (nodup : as.Nodup)
    (each : ∀ a ∈ as, h.Allocated a ∧ a ≠ unassigned) :
    ∃ g g', (as.forM Heap.release : HeapM Unit) h = .ok () g ∧ (bs.forM Heap.release : HeapM Unit) h = .ok () g' ∧
      g.blocks.map Block.shown = g'.blocks.map Block.shown := by
  obtain ⟨g, run, sg, levels, allocated, words⟩ := s.releaseAll nodup each
  obtain ⟨g', run', sg', levels', allocated', words'⟩ := s.releaseAll (perm.nodup_iff.mp nodup) fun b hb => each b (perm.mem_iff.mpr hb)
  refine ⟨g, g', run, run', sg'.shown_eq sg ?_ (fun b => ?_) fun b hb => ?_⟩
  · rw [sg.wellFormed.capacity, sg'.wellFormed.capacity, levels, levels']
  · rw [allocated, allocated', perm.mem_iff]
  · obtain ⟨hb, out⟩ := (allocated' b).mp hb
    rw [words b hb (mt perm.mem_iff.mp out), words' b hb out]

/-! ### Histories -/

/-- The heap is what a workload leaves of a new heap. -/
def Reached (h : Heap) : Prop :=
  ∃ words journal new ops, 16 ≤ words ∧ create words journal = .ok new ∧ new.AllAllowed ops ∧ new.afterAll ops = h

theorem Reached.sound (r : h.Reached) : h.Sound := by
  obtain ⟨words, journal, new, ops, enough, created, allowed, rfl⟩ := r
  obtain ⟨new', created', blank, _⟩ := create_eq (show levelWords minLevel ≤ words from enough) journal
  rw [created] at created'
  cases created'
  exact blank.sound.afterAll allowed

/-- An allocation, the release of an allocated block, or a collection. -/
def Operation.Plain (h : Heap) : Operation → Prop
  | .allocate _ | .collect => True
  | .release addr => h.Allocated addr ∧ addr ≠ unassigned
  | _ => False

/-- Every operation of a sequence is plain when it is made. -/
def AllPlain (h : Heap) : List Operation → Prop
  | [] => True
  | op :: ops => op.Plain h ∧ (op.after h).AllPlain ops

/-- Nothing but the unassigned object is a root. -/
structure Rootless (h : Heap) : Prop where
  sound : h.Sound
  contexts : h.contexts = []
  temporaries : h.temporaries = #[]
  header : h.wordAt unassigned = Header.fresh false 0

namespace Rootless

variable (r : h.Rootless)
include r

theorem roots : h.roots = [unassigned] := by rw [Heap.roots, r.contexts, r.temporaries]; rfl

theorem traceable : h.Traceable := by
  have tag : h.tagAt unassigned = .unassigned := by rw [tagAt, r.header]; decide
  have laid : h.LaidOut unassigned := by simp [LaidOut, tag, Tag.layout]
  have wf := r.sound.wellFormed
  have allocated := r.sound.sentinel
  refine .of_closed (M := [unassigned]) (fun a ha => r.roots ▸ ha) (fun a ha => ?_) fun a ha b hb => ?_
  all_goals cases List.mem_singleton.mp ha
  · exact ⟨allocated, laid⟩
  · rw [children_eq (wf.lt_capacity allocated) (wf.block_le allocated) laid, childrenAt, tag] at hb
    cases hb

theorem collected (c : Collected h k) : k.Rootless where
  sound := c.sound r.sound
  contexts := c.contexts.trans r.contexts
  temporaries := c.temporaries.trans r.temporaries
  header := (c.header (.start (by simp [Heap.roots]))).trans r.header

theorem placed (p : h.Placed k a l) : k.Rootless where
  sound := p.sound r.sound
  contexts := p.contexts.trans r.contexts
  temporaries := p.temporaries.trans r.temporaries
  header := (p.words _ r.sound.sentinel _ le_rfl (Nat.lt_add_of_pos_right (Nat.two_pow_pos _))).trans r.header

/-- A plain operation is allowed. -/
theorem after {op : Operation} (plain : op.Plain h) : op.Allowed h ∧ (op.after h).Rootless := by
  have traceable := r.traceable
  cases op with
  | allocate size =>
    refine ⟨fun _ => traceable, ?_⟩
    obtain ⟨g, maybe, _, outcome⟩ := r.sound.allocate (fun _ => traceable : h.RunsCollector size → _)
    have r' : g.Rootless := by
      rcases maybe with rfl | c
      · exact r
      · exact r.collected c
    rcases outcome with run | ⟨a, h', run, placed, _⟩
    · simpa only [Operation.after, Operation.run, HeapM.run_bind, run] using r'
    · simpa only [Operation.after, Operation.run, HeapM.run_bind, run, HeapM.run_pure] using r'.placed placed
  | release addr =>
    refine ⟨plain, ?_⟩
    obtain ⟨g, run, sound, rest, _, words⟩ := r.sound.release plain.1 plain.2
    simp only [Operation.after, Operation.run, run]
    refine ⟨sound, ?_, ?_, ?_⟩
    · rw [rest]; exact r.contexts
    · rw [rest]; exact r.temporaries
    · exact (words _ r.sound.sentinel plain.2.symm _ le_rfl (Nat.lt_add_of_pos_right (Nat.two_pow_pos _))).trans r.header
  | collect =>
    refine ⟨traceable, ?_⟩
    obtain ⟨g, run, c⟩ := r.sound.wellFormed.collect r.sound.unmarked traceable
    simpa only [Operation.after, Operation.run, run] using r.collected c
  | _ => exact plain.elim

theorem allAllowed {ops : List Operation} (plain : h.AllPlain ops) : h.AllAllowed ops := by
  induction ops generalizing h with
  | nil => trivial
  | cons op ops ih =>
    obtain ⟨allowed, r'⟩ := r.after plain.1
    exact ⟨allowed, ih r' plain.2⟩

end Rootless

/-- Any sequence of allocations, collections and releases of allocated blocks is a workload. -/
theorem Reached.of_plain {words : Nat} {journal : Journal} {new : Heap} {ops : List Operation} (enough : 16 ≤ words)
    (created : create words journal = .ok new) (plain : new.AllPlain ops) : (new.afterAll ops).Reached := by
  obtain ⟨new', created', blank, _⟩ := create_eq (show levelWords minLevel ≤ words from enough) journal
  rw [created] at created'
  cases created'
  have rootless : new.Rootless := ⟨blank.sound, blank.contexts, blank.temporaries, blank.header⟩
  exact ⟨words, journal, new, ops, enough, created, rootless.allAllowed plain, rfl⟩

/-- The partition is canonical. Heaps of one size with the same allocated blocks have the same free blocks, whatever their
histories: the maximal aligned windows without an allocated word, among which there are no two buddies. So a release right after an
allocation that has not collected restores the partition, and blocks may be released in any order. -/
theorem partition_canonical :
    (∀ words journal new ops, 16 ≤ words → create words journal = .ok new → new.AllPlain ops → (new.afterAll ops).Reached) ∧
    (∀ h k : Heap, h.Reached → k.Reached → h.capacity = k.capacity →
      (∀ p, p ∈ h.extents false ↔ p ∈ k.extents false) → h.extents true = k.extents true) ∧
    ∀ h : Heap, h.Reached → (∀ a l, (a, l) ∈ h.extents true ↔ h.MaximalVacant a l) ∧ h.Coalesced ∧
      (∀ size a h', (Operation.allocate size).Allowed h → allocate size h = .ok a h' → h'.stats.collections = h.stats.collections →
        ∃ g, release a h' = .ok () g ∧ g.blocks.map Block.shown = h.blocks.map Block.shown) ∧
      ∀ as bs : List Addr, as.Perm bs → as.Nodup → (∀ a ∈ as, h.Allocated a ∧ a ≠ unassigned) →
        ∃ g g', (as.forM release : HeapM Unit) h = .ok () g ∧ (bs.forM release : HeapM Unit) h = .ok () g' ∧
          g.blocks.map Block.shown = g'.blocks.map Block.shown := by
  refine ⟨fun _ _ _ _ enough created plain => .of_plain enough created plain,
    fun h k reached reached' => reached.sound.extents_free reached'.sound, fun h reached => ?_⟩
  have s := reached.sound
  refine ⟨fun a l => mem_extents.trans s.free_iff_maximal, s.coalesced, fun size a h' allowed run kept => ?_,
    fun as bs perm nodup each => s.release_perm perm nodup each⟩
  obtain ⟨g, maybe, _, outcome⟩ := s.allocate allowed
  rcases outcome with failed | ⟨b, k, run', placed, _⟩
  · rw [run] at failed
    cases failed
  rw [run] at run'
  cases run'
  rcases maybe with rfl | c
  · exact placed.release_shown s
  · have := c.collections
    rw [← placed.stats, kept] at this
    omega

/-- What plain operations leave of a new heap of 16 words. -/
def afterPlain (ops : List Operation) : Heap :=
  match create 16 (.start none) with
  | .ok new => new.afterAll ops
  | .error _ => bare 4 (.start none)

/-- A block that has been released before the other was allocated, and one that has been released after it. -/
theorem partition_canonical_orders : ∃ h k : Heap, h.Reached ∧ k.Reached ∧ h.extents false = [(0, 0), (2, 1)] ∧
    k.extents false = [(0, 0), (2, 1)] ∧ h.extents true = k.extents true := by
  obtain ⟨new, created, _⟩ := create_eq (show levelWords minLevel ≤ 16 by decide) (.start none)
  have one : new.AllPlain [.allocate 1, .allocate 2, .release 1] := by
    have plain : (afterPlain []).AllPlain [.allocate 1, .allocate 2, .release 1] :=
      ⟨trivial, trivial, ⟨by decide +kernel, by decide⟩, trivial⟩
    rwa [afterPlain, created] at plain
  have other : new.AllPlain [.allocate 2, .allocate 4, .release 4] := by
    have plain : (afterPlain []).AllPlain [.allocate 2, .allocate 4, .release 4] :=
      ⟨trivial, trivial, ⟨by decide +kernel, by decide⟩, trivial⟩
    rwa [afterPlain, created] at plain
  obtain ⟨reached, same, _⟩ := partition_canonical
  have rh := reached 16 (.start none) new _ le_rfl created one
  have rk := reached 16 (.start none) new _ le_rfl created other
  have hh : new.afterAll [.allocate 1, .allocate 2, .release 1] = afterPlain [.allocate 1, .allocate 2, .release 1] := by
    rw [afterPlain, created]
  have hk : new.afterAll [.allocate 2, .allocate 4, .release 4] = afterPlain [.allocate 2, .allocate 4, .release 4] := by
    rw [afterPlain, created]
  rw [hh] at rh
  rw [hk] at rk
  have taken : (afterPlain [.allocate 1, .allocate 2, .release 1]).extents false = [(0, 0), (2, 1)] := by decide +kernel
  have taken' : (afterPlain [.allocate 2, .allocate 4, .release 4]).extents false = [(0, 0), (2, 1)] := by decide +kernel
  exact ⟨_, _, rh, rk, taken, taken', same _ _ rh rk (by decide +kernel) fun p => by rw [taken, taken']⟩

end Heap

end FiberMachine
