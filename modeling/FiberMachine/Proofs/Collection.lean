import FiberMachine.Proofs.Marking
import Mathlib.Data.List.Sort

/-!
# A whole collection

When everything that the collector traces is an allocated block that is laid out, a collection keeps
exactly what can be reached from the roots and leaves it as it is; the words of the other allocated
blocks become free.
-/

/-! ## Sweeping

The walk after marking meets the same blocks as before, with the marks of the reachable ones set.
Clearing the marks gives the heap back as it was, together with the list of the blocks that had none;
these are then released one after the other. A release leaves all other taken blocks as they are, so
what remains allocated is what could be reached, word for word.
-/

namespace FiberMachine

namespace Heap.Marked

variable {h k : Heap} {M : List Addr} {a n : Nat}

/-- The walk meets the same blocks while marks are set. -/
theorem blocksFrom_eq (m : Marked h M k) :
    k.blocksFrom a n = (h.blocksFrom a n).map fun b => { b with marked := k.markedAt b.addr } := by
  induction n generalizing a with
  | zero => rfl
  | succ n ih =>
    by_cases inside : a < h.capacity
    · rw [blocksFrom_succ inside, blocksFrom_succ (m.capacity ▸ inside), m.levelAt, ih, List.map_cons]
      congr 1
      rw [Block.ofHeader, m.get_eq Header.level_inWord (.inr (by decide)),
        m.get_eq Header.free_inWord (.inr (by decide)), m.get_eq Header.tag_inWord (.inl (by decide))]
      rfl
    · have out := Nat.not_lt.mp inside
      rw [blocksFrom_of_le out, blocksFrom_of_le (m.capacity ▸ out), List.map_nil]

theorem blocks_eq (m : Marked h M k) :
    k.blocks = h.blocks.map fun b => { b with marked := k.markedAt b.addr } := by
  rw [blocks, m.capacity, m.blocksFrom_eq]
  rfl

/-- The walk over allocated blocks clears the marks that it meets and answers the blocks without one. -/
theorem unmark (m : Marked h M k) {bs : List Block}
    (good : ∀ b ∈ bs, b.addr < h.capacity ∧ h.markedAt b.addr = false) :
    ∃ M' k', Heap.unmark bs k = .ok (bs.filter (!·.marked)) k' ∧ Marked h M' k' ∧
      ∀ a, a ∈ M' ↔ a ∈ M ∧ ∀ b ∈ bs, b.marked = true → b.addr ≠ a := by
  induction bs generalizing M k with
  | nil => exact ⟨M, k, rfl, m, by simp⟩
  | cons b bs ih =>
    have rest := fun c hc => good c (List.mem_cons_of_mem b hc)
    cases marked : b.marked with
    | true =>
      obtain ⟨inside, clear⟩ := good b List.mem_cons_self
      obtain ⟨k₁, cleared, m₁⟩ := m.setMark_false inside clear
      obtain ⟨M', k', run, m', members⟩ := ih m₁ rest
      refine ⟨M', k', ?_, m', fun a => ?_⟩
      · rw [List.filter_cons_of_neg (by simp [marked])]
        simp only [Heap.unmark, marked, if_true, HeapM.run_bind, cleared, run]
      · rw [members]
        simp only [List.mem_filter, List.mem_cons, forall_eq_or_imp, marked, forall_const, ne_eq,
          decide_eq_true_eq, and_assoc]
        rw [eq_comm (a := a)]
    | false =>
      obtain ⟨M', k', run, m', members⟩ := ih m rest
      refine ⟨M', k', ?_, m', fun a => ?_⟩
      · rw [List.filter_cons_of_pos (by simp [marked])]
        simp only [Heap.unmark, marked, Bool.false_eq_true, if_false, HeapM.run_bind, run, HeapM.run_pure]
      · rw [members]
        simp [marked]

end Heap.Marked

namespace Heap

/-- The allocated blocks in address order. -/
def allocatedBlocks (h : Heap) : List Block := h.blocks.filter (!·.free)

theorem mem_allocatedBlocks {h : Heap} {b : Block} : b ∈ h.allocatedBlocks ↔ b ∈ h.blocks ∧ b.free = false := by
  simp [allocatedBlocks]

end Heap

namespace Arena

variable {h h' k : Heap} {P Q : Plan} {R R' : Nat → List Nat} {M : List Addr} {a l : Nat}

/-- After clearing all marks the heap is what it was, and the blocks without a mark are known. -/
theorem unmark (A : Arena h P R) (settled : P.Settled) (U : h.Unmarked) (m : h.Marked M k)
    (taken : ∀ a ∈ M, ∃ l, P a = some ⟨l, .taken⟩) :
    Heap.unmark (k.blocks.filter (!·.free)) k =
      .ok (h.allocatedBlocks.filter fun b => decide (b.addr ∉ M)) h := by
  have clear {b : Block} (hb : b ∈ h.allocatedBlocks) : b.addr < h.capacity ∧ h.markedAt b.addr = false := by
    obtain ⟨hb, free⟩ := Heap.mem_allocatedBlocks.mp hb
    obtain ⟨⟨s, hs⟩, _⟩ := (A.mem_blocks settled).mp hb
    exact ⟨A.lt_capacity hs, U _ ⟨b, hb, rfl, free⟩⟩
  have mark {b : Block} (hb : b ∈ h.allocatedBlocks) : k.markedAt b.addr = decide (b.addr ∈ M) := by
    rw [m.markedAt, (clear hb).2, Bool.or_false]
  have blocks : k.blocks.filter (!·.free) =
      h.allocatedBlocks.map fun b => { b with marked := k.markedAt b.addr } := by
    rw [m.blocks_eq, List.filter_map]
    rfl
  obtain ⟨M', k', run, m', members⟩ := m.unmark (by
    intro c (hc : c ∈ k.blocks.filter (!·.free))
    rw [blocks] at hc
    obtain ⟨b, hb, rfl⟩ := List.mem_map.mp hc
    have := clear hb
    exact this)
  have none_left : M' = [] := by
    refine List.eq_nil_iff_forall_not_mem.mpr fun a ha => ?_
    obtain ⟨ha, cleared⟩ := (members a).mp ha
    obtain ⟨l, hl⟩ := taken a ha
    have hb : Block.ofHeader a (h.wordAt a) ∈ h.allocatedBlocks :=
      Heap.mem_allocatedBlocks.mpr ⟨A.mem_blocks_ofHeader settled hl, (A.taken hl).1⟩
    refine cleared _ (blocks ▸ List.mem_map.mpr ⟨_, hb, rfl⟩) ?_ rfl
    exact (mark hb).trans (decide_eq_true ha)
  have back : k' = h := (none_left ▸ m').eq_of_nil
  rw [run, back, blocks, List.filter_map]
  congr 1
  -- what is left had no mark before either
  have same : ∀ b ∈ h.allocatedBlocks.filter fun b => decide (b.addr ∉ M),
      ({ b with marked := k.markedAt b.addr } : Block) = b := by
    intro b hb
    obtain ⟨hb, out⟩ := List.mem_filter.mp hb
    have header := Heap.ofHeader_of_mem_blocks (Heap.mem_allocatedBlocks.mp hb).1
    have unmarked : b.marked = false := by
      rw [header]
      exact (clear hb).2
    rw [mark hb, decide_eq_false (of_decide_eq_true out), ← unmarked]
  have chosen : (h.allocatedBlocks.filter fun b => !(k.markedAt b.addr)) =
      h.allocatedBlocks.filter fun b => decide (b.addr ∉ M) := by
    refine List.filter_congr fun b hb => ?_
    rw [mark hb]
    simp
  change (h.allocatedBlocks.filter fun b => !(k.markedAt b.addr)).map _ = _
  rw [chosen]
  exact (List.map_congr_left same).trans (List.map_id' _)

/-- Releasing some of the taken blocks leaves the others as they are. -/
theorem releaseAll (A : Arena h P R) (settled : P.Settled) {bs : List Block}
    (apart : bs.Pairwise fun b c => b.addr ≠ c.addr) (taken : ∀ b ∈ bs, ∃ l, P b.addr = some ⟨l, .taken⟩) :
    ∃ h', (forM bs fun b => Heap.release b.addr : HeapM Unit) h = .ok () h' ∧ h.Rest h' ∧
      (∃ Q R', Arena h' Q R' ∧ Q.Settled ∧ (P.Coalesced → Q.Coalesced) ∧
        ∀ a l, Q a = some ⟨l, .taken⟩ ↔ P a = some ⟨l, .taken⟩ ∧ ∀ b ∈ bs, b.addr ≠ a) ∧
      ∀ a l, P a = some ⟨l, .taken⟩ → (∀ b ∈ bs, b.addr ≠ a) →
        ∀ x, a ≤ x → x < a + 2 ^ l → h'.wordAt x = h.wordAt x := by
  induction bs generalizing h P R with
  | nil => exact ⟨h, rfl, rfl, ⟨P, R, A, settled, id, by simp⟩, fun _ _ _ _ _ _ _ => rfl⟩
  | cons b bs ih =>
    obtain ⟨first, apart⟩ := List.pairwise_cons.mp apart
    obtain ⟨l, hl⟩ := taken b List.mem_cons_self
    obtain ⟨h₁, run₁, frame, Q, R₁, A₁, same, coalesced, settled₁⟩ := A.release settled hl
    have others (a m : Nat) : Q a = some ⟨m, .taken⟩ ↔ P a = some ⟨m, .taken⟩ ∧ b.addr ≠ a := by
      rw [same a m]
      by_cases e : a = b.addr
      · subst e
        simp
      · rw [Plan.set_of_ne e]
        exact ⟨fun ha => ⟨ha, fun q => e q.symm⟩, And.left⟩
    obtain ⟨h', run, rest, ⟨Q', R', A', settled', coalesced', members⟩, words⟩ := ih A₁ settled₁ apart fun c hc => by
      obtain ⟨m, hm⟩ := taken c (List.mem_cons_of_mem b hc)
      exact ⟨m, (others _ _).mpr ⟨hm, first c hc⟩⟩
    refine ⟨h', ?_, frame.rest.trans rest, ⟨Q', R', A', settled', fun c => coalesced' (coalesced (c.set nofun)), fun a m => ?_⟩,
      fun a m ha out x hx hx' => ?_⟩
    · change (Heap.release b.addr >>= fun _ => (forM bs fun b => Heap.release b.addr : HeapM Unit)) h = _
      simp only [HeapM.run_bind, run₁, run]
    · rw [members, others, and_assoc]
      simp
    · have other : b.addr ≠ a := out b List.mem_cons_self
      have kept : P.set b.addr ⟨l, .held⟩ a = some ⟨m, .taken⟩ := by
        rw [Plan.set_of_ne other.symm, ha]
      rw [words a m ((others _ _).mpr ⟨ha, other⟩) (fun c hc => out c (List.mem_cons_of_mem b hc)) x hx hx',
        frame.words kept x hx hx']

/-- The allocated blocks of a heap that lost some of its taken blocks. -/
theorem allocatedBlocks_eq (A : Arena h P R) (settled : P.Settled) (A' : Arena h' Q R')
    (settled' : Q.Settled) {p : Nat → Prop} [DecidablePred p]
    (members : ∀ a l, Q a = some ⟨l, .taken⟩ ↔ P a = some ⟨l, .taken⟩ ∧ p a)
    (words : ∀ a l, Q a = some ⟨l, .taken⟩ → h'.wordAt a = h.wordAt a) :
    h'.allocatedBlocks = h.allocatedBlocks.filter fun b => decide (p b.addr) := by
  have : Std.Antisymm fun b c : Block => b.addr < c.addr := ⟨fun _ _ lt gt => absurd lt (Nat.lt_asymm gt)⟩
  have : Std.Irrefl fun b c : Block => b.addr < c.addr := ⟨fun b => Nat.lt_irrefl b.addr⟩
  have taken {h : Heap} {P : Plan} {R : Nat → List Nat} (A : Arena h P R) (settled : P.Settled) (b : Block) :
      b ∈ h.allocatedBlocks ↔
        (∃ l, P b.addr = some ⟨l, .taken⟩) ∧ b = Block.ofHeader b.addr (h.wordAt b.addr) := by
    rw [Heap.mem_allocatedBlocks]
    constructor
    · rintro ⟨hb, free⟩
      exact ⟨(A.allocated_iff settled).mp ⟨b, hb, rfl, free⟩, Heap.ofHeader_of_mem_blocks hb⟩
    · rintro ⟨⟨l, hl⟩, header⟩
      refine ⟨(A.mem_blocks settled).mpr ⟨⟨_, hl⟩, header⟩, ?_⟩
      rw [header]
      exact (A.taken hl).1
  refine List.Pairwise.eq_of_mem_iff (r := fun b c : Block => b.addr < c.addr)
    (h'.pairwise_blocks.filter _) ((h.pairwise_blocks.filter _).filter _) fun b => ?_
  rw [List.mem_filter]
  rw [taken A' settled', taken A settled, decide_eq_true_eq]
  constructor
  · rintro ⟨⟨l, hl⟩, header⟩
    obtain ⟨hl', hp⟩ := (members _ _).mp hl
    rw [words _ _ hl] at header
    exact ⟨⟨⟨l, hl'⟩, header⟩, hp⟩
  · rintro ⟨⟨⟨l, hl⟩, header⟩, hp⟩
    have hl' := (members _ _).mpr ⟨hl, hp⟩
    rw [words _ _ hl']
    exact ⟨⟨l, hl'⟩, header⟩

end Arena

end FiberMachine

/-! ## A whole collection -/

namespace FiberMachine

namespace Heap

/-- What a collection does to a heap. -/
structure Collected (h h' : Heap) : Prop where
  run : collect h = .ok () h'
  wellFormed : h'.WellFormed
  unmarked : h'.Unmarked
  coalesced : h.Coalesced → h'.Coalesced
  levels : h'.levels = h.levels
  contexts : h'.contexts = h.contexts
  temporaries : h'.temporaries = h.temporaries
  allocated : ∀ a, h'.Allocated a ↔ h.Reachable a
  words : ∀ a, h.Reachable a → ∀ x, a ≤ x → x < a + 2 ^ h.levelAt a → h'.wordAt x = h.wordAt x
  collections : h'.stats.collections = h.stats.collections + 1
  blocksFreed : h'.stats.blocksFreed + h'.allocatedBlocks.length =
    h.stats.blocksFreed + h.allocatedBlocks.length
  wordsFreed : h'.stats.wordsFreed + h.freeWords = h.stats.wordsFreed + h'.freeWords

theorem Collected.capacity {h h' : Heap} (c : Collected h h') (wf : h.WellFormed) :
    h'.capacity = h.capacity := by
  rw [c.wellFormed.capacity, c.levels, wf.capacity]

theorem Collected.roots {h h' : Heap} (c : Collected h h') : h'.roots = h.roots := by
  unfold Heap.roots
  rw [c.contexts, c.temporaries]

/-- The header of a block that is kept stays. -/
theorem Collected.header {h h' : Heap} (c : Collected h h') {a : Addr} (ha : h.Reachable a) :
    h'.wordAt a = h.wordAt a :=
  c.words a ha a le_rfl (Nat.lt_add_of_pos_right (Nat.two_pow_pos _))

end Heap

theorem Block.total_filter_add (bs : List Block) (p : Block → Bool) :
    Block.total (bs.filter p) + Block.total (bs.filter (!p ·)) = Block.total bs := by
  induction bs with
  | nil => rfl
  | cons b bs ih =>
    by_cases hb : p b = true
    · rw [List.filter_cons_of_pos hb, List.filter_cons_of_neg (by simp [hb]), Block.total_cons,
        Block.total_cons, ← ih, Nat.add_assoc]
    · rw [List.filter_cons_of_neg hb, List.filter_cons_of_pos (by simp [hb]), Block.total_cons,
        Block.total_cons, ← ih, Nat.add_left_comm]

namespace Arena

variable {h : Heap} {P : Plan} {R : Nat → List Nat}

/-- Free and allocated words make up the arena. -/
theorem freeWords_add (A : Arena h P R) (settled : P.Settled) :
    h.freeWords + Block.total h.allocatedBlocks = h.capacity := by
  rw [← A.total_blocks settled]
  exact Block.total_filter_add h.blocks (·.free)

end Arena

/-- What is left of a heap after the taken blocks outside `M` have been released. -/
structure Kept (P : Plan) (M : List Addr) (h h' : Heap) (Q : Plan) : Prop where
  rest : h.Rest h'
  settled : Q.Settled
  coalesced : P.Coalesced → Q.Coalesced
  taken : ∀ a l, Q a = some ⟨l, .taken⟩ ↔ P a = some ⟨l, .taken⟩ ∧ a ∈ M
  words : ∀ a l, Q a = some ⟨l, .taken⟩ → ∀ x, a ≤ x → x < a + 2 ^ l → h'.wordAt x = h.wordAt x

namespace Arena

variable {h : Heap} {P : Plan} {R : Nat → List Nat}

/-- Releasing every allocated block outside `M` keeps the blocks of `M`. -/
theorem sweep (A : Arena h P R) (settled : P.Settled) (M : List Addr) :
    ∃ h' Q R', (forM (h.allocatedBlocks.filter fun b => decide (b.addr ∉ M))
        fun b => Heap.release b.addr : HeapM Unit) h = .ok () h' ∧
      Arena h' Q R' ∧ Kept P M h h' Q := by
  have apart : h.allocatedBlocks.Pairwise fun b c => b.addr ≠ c.addr :=
    (h.pairwise_blocks.filter _).imp fun lt => Nat.ne_of_lt lt
  have dead {b : Block} : b ∈ h.allocatedBlocks.filter (fun b => decide (b.addr ∉ M)) ↔
      b ∈ h.allocatedBlocks ∧ b.addr ∉ M := by
    rw [List.mem_filter, decide_eq_true_eq]
  have stays (a l : Nat) (ha : P a = some ⟨l, .taken⟩) :
      (∀ b ∈ h.allocatedBlocks.filter (fun b => decide (b.addr ∉ M)), b.addr ≠ a) ↔ a ∈ M := by
    constructor
    · intro out
      by_contra hM
      refine out (Block.ofHeader a (h.wordAt a)) (dead.mpr ⟨?_, hM⟩) rfl
      exact Heap.mem_allocatedBlocks.mpr ⟨A.mem_blocks_ofHeader settled ha, (A.taken ha).1⟩
    · rintro hM b hb rfl
      exact (dead.mp hb).2 hM
  obtain ⟨h', run, rest, ⟨Q, R', A', settled', coalesced, released⟩, words⟩ :=
    A.releaseAll settled (apart.filter fun b => decide (b.addr ∉ M)) fun b hb => by
      obtain ⟨hb, free⟩ := Heap.mem_allocatedBlocks.mp (dead.mp hb).1
      exact (A.allocated_iff settled).mp ⟨b, hb, rfl, free⟩
  have taken (a l : Nat) : Q a = some ⟨l, .taken⟩ ↔ P a = some ⟨l, .taken⟩ ∧ a ∈ M := by
    rw [released]
    exact and_congr_right fun ha => stays a l ha
  refine ⟨h', Q, R', run, A', rest, settled', coalesced, taken, fun a l ha => ?_⟩
  obtain ⟨ha, hM⟩ := (taken a l).mp ha
  exact words a l ha ((stays a l ha).mpr hM)

end Arena

namespace Heap

/-- The three passes of a collection, and what it records. -/
theorem collect_eq {h k h' : Heap} {dead : List Block}
    (marking : (forM h.roots mark : HeapM Unit) h = .ok () k)
    (unmarking : unmark (k.blocks.filter (!·.free)) k = .ok dead h)
    (releasing : (forM dead fun b => release b.addr : HeapM Unit) h = .ok () h') :
    ∃ g, collect h = .ok () g ∧ h'.SameArena g ∧ g.contexts = h'.contexts ∧
      g.temporaries = h'.temporaries ∧ g.stats = {
        collections := h'.stats.collections + 1
        blocksFreed := h'.stats.blocksFreed + dead.length
        wordsFreed := h'.stats.wordsFreed + Block.total dead } := by
  have marking : (h.roots.forM mark : HeapM Unit) h = .ok () k := marking
  have releasing : (dead.forM fun b => release b.addr : HeapM Unit) h = .ok () h' := releasing
  simp only [collect, HeapM.run_bind, HeapM.run_get, marking, unmarking, releasing, HeapM.run_modify, note]
  exact ⟨_, rfl, ⟨rfl, rfl, rfl⟩, rfl, rfl, rfl⟩

end Heap

namespace Heap.WellFormed

variable {h : Heap}

/-- A collection succeeds and keeps what can be reached. -/
theorem collect (wf : h.WellFormed) (U : h.Unmarked) (T : h.Traceable) :
    ∃ h', Heap.collect h = .ok () h' ∧ Collected h h' := by
  obtain ⟨R, A⟩ := wf.arena
  have settled := settled_plan h
  obtain ⟨M, k, marking, marked, members⟩ := A.mark_roots settled T U
  have reached (a : Nat) (ha : h.Reachable a) := A.taken_of_reachable settled T ha
  have unmarking := A.unmark settled U marked fun a ha => reached a ((members a).mp ha)
  obtain ⟨h', Q, R', releasing, A', kept⟩ := A.sweep settled M
  obtain ⟨g, run, same, contexts, temporaries, stats⟩ := collect_eq marking unmarking releasing
  have survivors := A.allocatedBlocks_eq settled A' kept.settled (p := (· ∈ M)) kept.taken
    fun a l ha => kept.words a l ha a le_rfl (Nat.lt_add_of_pos_right (Nat.two_pow_pos l))
  have allocated (a : Nat) : h'.Allocated a ↔ h.Reachable a := by
    rw [A'.allocated_iff kept.settled, ← members]
    constructor
    · rintro ⟨l, ha⟩
      exact ((kept.taken a l).mp ha).2
    · intro ha
      obtain ⟨l, hl⟩ := reached a ((members a).mp ha)
      exact ⟨l, (kept.taken a l).mpr ⟨hl, ha⟩⟩
  have words (a : Nat) (ha : h.Reachable a) (x : Nat) (hx : a ≤ x) (hx' : x < a + 2 ^ h.levelAt a) :
      h'.wordAt x = h.wordAt x := by
    obtain ⟨l, hl⟩ := reached a ha
    rw [(A.taken hl).2] at hx'
    exact kept.words a l ((kept.taken a l).mpr ⟨hl, (members a).mpr ha⟩) x hx hx'
  have before : h'.stats = h.stats := by rw [kept.rest]
  have blocks : (h.allocatedBlocks.filter fun b => decide (b.addr ∈ M)).length +
      (h.allocatedBlocks.filter fun b => decide (b.addr ∉ M)).length = h.allocatedBlocks.length := by
    rw [List.length_eq_length_filter_add (l := h.allocatedBlocks) fun b => decide (b.addr ∈ M)]
    simp
  have total : Block.total (h.allocatedBlocks.filter fun b => decide (b.addr ∈ M)) +
      Block.total (h.allocatedBlocks.filter fun b => decide (b.addr ∉ M)) =
        Block.total h.allocatedBlocks := by
    rw [← Block.total_filter_add h.allocatedBlocks fun b => decide (b.addr ∈ M)]
    simp
  have used := A.freeWords_add settled
  have left := A'.freeWords_add kept.settled
  rw [survivors, A'.capacity, kept.rest.levels, ← A.capacity] at left
  refine ⟨g, run, {
    run := run
    wellFormed := same.wellFormed (A'.wellFormed kept.settled)
    unmarked := fun a ha => ?_
    coalesced := fun c => same.coalesced.mpr ((A'.coalesced_iff kept.settled).mpr (kept.coalesced ((A.coalesced_iff settled).mp c)))
    levels := same.levels.trans kept.rest.levels
    contexts := by rw [contexts, kept.rest]
    temporaries := by rw [temporaries, kept.rest]
    allocated := fun a => same.allocated.trans (allocated a)
    words := by rwa [same.wordAt]
    collections := by rw [stats, before]
    blocksFreed := ?_
    wordsFreed := ?_ }⟩
  · have ha := (allocated a).mp (same.allocated.mp ha)
    rw [markedAt, same.wordAt, words a ha a le_rfl (Nat.lt_add_of_pos_right (Nat.two_pow_pos _))]
    exact U a (T a ha).1
  · have after : g.allocatedBlocks = h'.allocatedBlocks := by
      rw [allocatedBlocks, allocatedBlocks, same.blocks]
    rw [stats, before, after, survivors]
    dsimp only
    omega
  · have after : g.freeWords = h'.freeWords := by rw [freeWords, freeWords, same.blocks]
    rw [stats, before, after]
    dsimp only
    omega

end Heap.WellFormed

end FiberMachine
