import FiberMachine.Proofs.Reach

/-!
# Marking

Marking changes one bit in the headers of allocated blocks and nothing else, so levels, tags and
children stay what they were. Some marks may be there before, so a worklist is judged by the blocks `M`
that have been marked since: these and the waiting ones can be reached from where marking began, and what
a block of `M` refers to is marked or waiting. Every step takes something from the worklist, and a block
that is marked adds fewer entries than it has words; as each block is marked once, the words of the
unmarked blocks bound the steps that remain.
-/

namespace FiberMachine

namespace Heap

/-- The heap `k` is `h` with the marks of the blocks in `M` set. -/
structure Marked (h : Heap) (M : List Addr) (k : Heap) : Prop where
  rest : k = { h with memory := k.memory }
  capacity : k.capacity = h.capacity
  words : ∀ x, k.wordAt x = if x ∈ M then Header.mark.set 1 (h.wordAt x) else h.wordAt x

namespace Marked

variable {h k : Heap} {M : List Addr} {a x : Addr}

theorem refl (h : Heap) : Marked h [] h := ⟨rfl, rfl, fun x => by simp⟩

/-- Without marks the heap is what it was. -/
theorem eq_of_nil (m : Marked h [] k) : k = h := by
  have memory : k.memory = h.memory := memory_ext m.capacity fun x _ => by simp [m.words x]
  rw [m.rest, memory]

theorem levels (m : Marked h M k) : k.levels = h.levels := by rw [m.rest]

/-- A field that the mark is not part of. -/
theorem get_eq (m : Marked h M k) {f : BitField} (hf : f.InWord) (apart : Header.mark.Apart f) :
    f.get (k.wordAt x) = f.get (h.wordAt x) := by
  rw [m.words]
  split
  · exact BitField.get_set_apart Header.mark_inWord hf apart _ _
  · rfl

theorem freeAt (m : Marked h M k) : k.freeAt x = h.freeAt x := by
  unfold Heap.freeAt
  rw [m.get_eq Header.free_inWord (.inr (by decide))]

theorem levelAt (m : Marked h M k) : k.levelAt x = h.levelAt x := by
  unfold Heap.levelAt
  rw [m.get_eq Header.level_inWord (.inr (by decide))]

theorem tagAt (m : Marked h M k) : k.tagAt x = h.tagAt x := by
  unfold Heap.tagAt
  rw [m.get_eq Header.tag_inWord (.inl (by decide))]

theorem markedAt (m : Marked h M k) : k.markedAt x = (decide (x ∈ M) || h.markedAt x) := by
  unfold Heap.markedAt
  rw [m.words]
  split
  next hx =>
    have set : Header.mark.get (Header.mark.set 1 (h.wordAt x)) = 1 :=
      UInt64.toNat_inj.mp (BitField.toNat_get_set Header.mark_inWord (show 1 < 2 ^ 1 by decide) _)
    simp [hx, set]
  next hx => simp [hx]

/-- Setting a mark. -/
theorem setMark_true (m : Marked h M k) (ha : a < h.capacity) :
    ∃ k', setMark a true k = .ok () k' ∧ Marked h (a :: M) k' := by
  have inside : a < k.capacity := m.capacity ▸ ha
  refine ⟨_, setField_eq _ inside, ?_, by rw [capacity_store, m.capacity], fun x => ?_⟩
  · rw [m.rest]
    rfl
  · rw [wordAt_store inside, m.words]
    by_cases e : a = x
    · subst e
      simp only [if_true, List.mem_cons, true_or]
      split
      · exact BitField.set_set Header.mark_inWord _ _ _
      · rfl
    · have e' : x ≠ a := fun q => e q.symm
      rw [if_neg e, m.words]
      simp [e']

/-- Clearing a mark that the heap did not have at first. -/
theorem setMark_false (m : Marked h M k) (ha : a < h.capacity) (clear : h.markedAt a = false) :
    ∃ k', setMark a false k = .ok () k' ∧ Marked h (M.filter (· ≠ a)) k' := by
  have inside : a < k.capacity := m.capacity ▸ ha
  have zero : Header.mark.get (h.wordAt a) = 0 := by
    have lt := BitField.toNat_get_lt Header.mark_inWord (h.wordAt a)
    have ne : Header.mark.get (h.wordAt a) ≠ 1 := by simpa [Heap.markedAt] using clear
    have ne : (Header.mark.get (h.wordAt a)).toNat ≠ 1 := fun e => ne (UInt64.toNat_inj.mp e)
    have lt : (Header.mark.get (h.wordAt a)).toNat < 2 := lt
    apply UInt64.toNat_inj.mp
    change _ = 0
    omega
  refine ⟨_, setField_eq _ inside, ?_, by rw [capacity_store, m.capacity], fun x => ?_⟩
  · rw [m.rest]
    rfl
  · rw [wordAt_store inside, m.words]
    by_cases e : a = x
    · subst e
      have restored : Header.mark.set 0 (h.wordAt a) = h.wordAt a := by
        have := BitField.set_get_self Header.mark_inWord (h.wordAt a)
        rwa [zero] at this
      have out : a ∉ M.filter (· ≠ a) := by simp
      rw [if_pos rfl, if_neg out]
      change Header.mark.set 0 _ = _
      split
      · rw [BitField.set_set Header.mark_inWord, restored]
      · exact restored
    · have e' : x ≠ a := fun q => e q.symm
      rw [if_neg e, m.words]
      simp [e']

end Marked

/-! ### Blocks that can be traced -/

/-- A block that can be traced: it is allocated, lies in the memory and is laid out. -/
structure Fit (h : Heap) (a : Addr) : Prop where
  allocated : h.Allocated a
  within : a + 2 ^ h.levelAt a ≤ h.capacity
  laid : h.LaidOut a

/-- Whatever can be reached from `start` can be traced. -/
def Traces (h : Heap) (start : List Addr) : Prop := ∀ a, h.Reaches start a → h.Fit a

variable {h k : Heap} {M W S roots : List Addr} {a b i n x : Nat}

theorem words_of_mem_blocks {b : Block} (hb : b ∈ h.blocks) : b.words = 2 ^ h.levelAt b.addr := by
  have level : b.level = h.levelAt b.addr := congrArg Block.level (ofHeader_of_mem_blocks hb)
  rw [b.words_eq, level]

/-- The words inside an allocated block are in no other one. -/
theorem Allocated.eq_of_mem (ha : h.Allocated a) (hb : h.Allocated b) (hax : a ≤ x) (hxa : x < a + 2 ^ h.levelAt a)
    (hbx : b ≤ x) (hxb : x < b + 2 ^ h.levelAt b) : a = b := by
  obtain ⟨c, hc, rfl, _⟩ := ha
  obtain ⟨d, hd, rfl, _⟩ := hb
  rw [← words_of_mem_blocks hc] at hxa
  rw [← words_of_mem_blocks hd] at hxb
  rw [eq_of_mem_blocks hc hd hax hxa hbx hxb]

theorem Fit.lt_capacity (fit : h.Fit a) : a < h.capacity :=
  Nat.lt_of_lt_of_le (Nat.lt_add_of_pos_right (Nat.two_pow_pos _)) fit.within

/-- Marks are in headers, so payload words stay. -/
theorem Marked.payload (m : Marked h M k) (taken : ∀ b ∈ M, h.Allocated b) (ha : h.Allocated a)
    (hi : i < 2 ^ h.levelAt a - 1) : k.wordAt (a + 1 + i) = h.wordAt (a + 1 + i) := by
  have out : a + 1 + i ∉ M := by
    intro hm
    have pos := Nat.two_pow_pos (h.levelAt (a + 1 + i))
    have := ha.eq_of_mem (taken _ hm) (x := a + 1 + i) (by omega) (by omega) le_rfl (by omega)
    omega
  rw [m.words, if_neg out]

/-- What a block refers to can be read while marks are set. -/
theorem Marked.children (m : Marked h M k) (taken : ∀ b ∈ M, h.Allocated b)
    (fit : h.Fit a) : Heap.children a k = .ok (h.childrenAt a) := by
  have word (i : Nat) (hi : i < 2 ^ h.levelAt a - 1) : k.wordAt (a + 1 + i) = h.wordAt (a + 1 + i) :=
    m.payload taken fit.allocated hi
  have laid := fit.laid
  have laid' : k.LaidOut a := by
    unfold LaidOut at laid ⊢
    rw [m.tagAt, m.levelAt]
    cases layout : (h.tagAt a).layout with
    | fields positions =>
      simp only [layout] at laid
      exact laid
    | counted =>
      simp only [layout] at laid
      have first := word 0 (by omega)
      simp only [Nat.add_zero] at first
      rwa [first]
  have same : k.childrenAt a = h.childrenAt a := by
    unfold LaidOut at laid
    unfold childrenAt
    rw [m.tagAt]
    cases layout : (h.tagAt a).layout with
    | fields positions =>
      simp only [layout] at laid
      exact List.map_congr_left fun p hp => by rw [word p (laid p hp)]
    | counted =>
      simp only [layout] at laid
      have first := word 0 (by omega)
      simp only [Nat.add_zero] at first
      rw [first]
      refine List.map_congr_left fun i hi => ?_
      have := List.mem_range.mp hi
      rw [word (1 + i) (by omega)]
  rw [← same]
  refine children_eq (m.capacity ▸ fit.lt_capacity) ?_ laid'
  rw [m.levelAt, m.capacity]
  exact fit.within

theorem Fit.child_iff (fit : h.Fit a) : h.Child a b ↔ b ∈ h.childrenAt a :=
  child_iff_of_run ((Marked.refl h).children (by simp) fit)

end Heap

/-! ### The worklist -/

/-- Taking a block out of a choice of blocks takes its words out of the total. -/
theorem Block.total_filter_ne {bs : List Block} {b : Block} (apart : bs.Pairwise fun b c => b.addr < c.addr)
    (hb : b ∈ bs) {p : Block → Bool} (chosen : p b = true) :
    Block.total (bs.filter fun c => p c && decide (c.addr ≠ b.addr)) + 2 ^ b.level =
      Block.total (bs.filter p) := by
  induction bs with
  | nil => cases hb
  | cons c bs ih =>
    obtain ⟨first, rest⟩ := List.pairwise_cons.mp apart
    rcases List.mem_cons.mp hb with rfl | hb
    · have same : (bs.filter fun c => p c && decide (c.addr ≠ b.addr)) = bs.filter p := by
        refine List.filter_congr fun c hc => ?_
        have := first c hc
        have ne : c.addr ≠ b.addr := Nat.ne_of_gt this
        simp [ne]
      rw [List.filter_cons_of_neg (by simp), List.filter_cons_of_pos chosen, Block.total_cons, same]
      omega
    · have ne : c.addr ≠ b.addr := Nat.ne_of_lt (first b hb)
      have ih := ih rest hb
      by_cases hc : p c = true
      · rw [List.filter_cons_of_pos (by simp [hc, ne]), List.filter_cons_of_pos hc, Block.total_cons,
          Block.total_cons]
        omega
      · rw [List.filter_cons_of_neg (by simp [hc]), List.filter_cons_of_neg hc]
        exact ih

theorem Block.total_filter_le (bs : List Block) (p : Block → Bool) :
    Block.total (bs.filter p) ≤ Block.total bs := by
  induction bs with
  | nil => rfl
  | cons b bs ih =>
    by_cases hb : p b = true
    · rw [List.filter_cons_of_pos hb, Block.total_cons, Block.total_cons]
      omega
    · rw [List.filter_cons_of_neg hb, Block.total_cons]
      exact ih.trans (Nat.le_add_left _ _)

/-- Blocks one after the other that lie below a bound have no more words than there are below it. -/
theorem Heap.total_blocksFrom_le (h : Heap) (a n : Nat) :
    a + Block.total ((h.blocksFrom a n).filter fun b => decide (b.addr + b.words ≤ h.capacity)) ≤ max a h.capacity := by
  induction n generalizing a with
  | zero => exact Nat.le_max_left _ _
  | succ n ih =>
    by_cases inside : a < h.capacity
    · have rest := ih (a + 2 ^ h.levelAt a)
      have words : (Block.ofHeader a (h.wordAt a)).words = 2 ^ h.levelAt a := Block.words_eq _
      have addr : (Block.ofHeader a (h.wordAt a)).addr = a := rfl
      rw [Heap.blocksFrom_succ inside]
      by_cases within : a + 2 ^ h.levelAt a ≤ h.capacity
      · rw [List.filter_cons_of_pos (by rw [words, addr]; exact decide_eq_true within), Block.total_cons, ← Block.words_eq, words]
        omega
      · rw [List.filter_cons_of_neg (by rw [words, addr]; simpa using within)]
        omega
    · rw [Heap.blocksFrom_of_le (Nat.not_lt.mp inside)]
      exact Nat.le_max_left _ _

namespace Heap

variable {h k : Heap} {M W S roots : List Addr} {a b n : Nat}

/-- The words of the allocated blocks in the memory that are still to be marked. -/
def pending (h : Heap) (M : List Addr) : Nat :=
  Block.total ((h.blocks.filter fun b => decide (b.addr + b.words ≤ h.capacity)).filter fun b => !b.free && decide (b.addr ∉ M))

theorem pending_le (h : Heap) (M : List Addr) : h.pending M ≤ h.capacity := by
  have inside := h.total_blocksFrom_le 0 h.capacity
  rw [Nat.zero_add, Nat.zero_max] at inside
  exact (Block.total_filter_le _ _).trans inside

theorem Fit.pending_cons (fit : h.Fit a) (fresh : a ∉ M) : h.pending (a :: M) + 2 ^ h.levelAt a = h.pending M := by
  obtain ⟨c, hc, rfl, taken⟩ := fit.allocated
  have words := words_of_mem_blocks hc
  have within : c ∈ h.blocks.filter fun b => decide (b.addr + b.words ≤ h.capacity) :=
    List.mem_filter.mpr ⟨hc, by rw [words]; exact decide_eq_true fit.within⟩
  have step := Block.total_filter_ne (h.pairwise_blocks.filter _) within (p := fun b => !b.free && decide (b.addr ∉ M))
    (by simp [taken, fresh])
  rw [← c.words_eq, words] at step
  unfold pending
  rw [← step]
  congr 2
  refine List.filter_congr fun b _ => ?_
  by_cases e : b.addr = c.addr <;> simp [e]

/-- A block that is marked. -/
def HasMark (h : Heap) (a : Addr) : Prop := h.Allocated a ∧ h.markedAt a = true

/-- How far marking from `S` has come: the blocks of `M` have been marked, those of `W` are waiting. -/
structure Marking (h : Heap) (S M W : List Addr) (k : Heap) : Prop where
  marked : Marked h M k
  reached : ∀ a ∈ M, h.Reaches S a
  waiting : ∀ a ∈ W, h.Reaches S a
  followed : ∀ a ∈ M, ∀ b, h.Child a b → k.markedAt b = true ∨ b ∈ W

namespace Marking

theorem start (h : Heap) (S : List Addr) : h.Marking S [] [] h :=
  ⟨.refl h, by simp, by simp, by simp⟩

/-- Another block may wait that can be reached. -/
theorem wait (m : h.Marking S M [] k) (ha : h.Reaches S a) : h.Marking S M [a] k :=
  ⟨m.marked, m.reached, by simpa using ha, fun c hc b hb => (m.followed c hc b hb).imp_right (by simp)⟩

/-- A block that is marked already only leaves the worklist. -/
theorem skip (m : h.Marking S M (a :: W) k) (already : k.markedAt a = true) : h.Marking S M W k where
  marked := m.marked
  reached := m.reached
  waiting b hb := m.waiting b (List.mem_cons_of_mem a hb)
  followed c hc b hb := by
    rcases m.followed c hc b hb with hb | hb
    · exact .inl hb
    · rcases List.mem_cons.mp hb with rfl | hb
      · exact .inl already
      · exact .inr hb

/-- Any other block is marked, and what it refers to is put on the worklist. -/
theorem visit (T : h.Traces S) (m : h.Marking S M (a :: W) k) (new : k.markedAt a = false) :
    ∃ k', setMark a true k = .ok () k' ∧ Heap.children a k' = .ok (h.childrenAt a) ∧
      h.Marking S (a :: M) ((h.childrenAt a).reverse ++ W) k' ∧ (∀ b, k.markedAt b = true → k'.markedAt b = true) ∧
      k'.markedAt a = true ∧ ((h.childrenAt a).reverse ++ W).length + h.pending (a :: M) + 1 ≤ (a :: W).length + h.pending M := by
  have reached := m.waiting a List.mem_cons_self
  have fit := T a reached
  have child {b : Nat} : h.Child a b ↔ b ∈ h.childrenAt a := fit.child_iff
  obtain ⟨k', set, m'⟩ := m.marked.setMark_true fit.lt_capacity
  have grows (b : Addr) (hb : k.markedAt b = true) : k'.markedAt b = true := by
    rw [m.marked.markedAt] at hb
    rw [m'.markedAt]
    by_cases e : b = a <;> simp_all
  have self : k'.markedAt a = true := by simp [m'.markedAt]
  have taken : ∀ b ∈ a :: M, h.Allocated b := List.forall_mem_cons.mpr
    ⟨fit.allocated, fun b hb => (T b (m.reached b hb)).allocated⟩
  refine ⟨k', set, m'.children taken fit, ⟨m', List.forall_mem_cons.mpr ⟨reached, m.reached⟩, fun b hb => ?_, fun c hc b hb => ?_⟩,
    grows, self, ?_⟩
  · rcases List.mem_append.mp hb with hb | hb
    · exact reached.child (child.mpr (List.mem_reverse.mp hb))
    · exact m.waiting b (List.mem_cons_of_mem a hb)
  · rcases List.mem_cons.mp hc with rfl | hc
    · exact .inr (List.mem_append_left _ (List.mem_reverse.mpr (child.mp hb)))
    · rcases m.followed c hc b hb with hb | hb
      · exact .inl (grows b hb)
      · rcases List.mem_cons.mp hb with rfl | hb
        · exact .inl self
        · exact .inr (List.mem_append_right _ hb)
  · -- the block has fewer children than words, and its words are no longer pending
    have fresh : a ∉ M := by
      rw [m.marked.markedAt, Bool.or_eq_false_iff, decide_eq_false_iff_not] at new
      exact new.1
    have few := length_childrenAt_lt fit.laid
    have drop := fit.pending_cons fresh
    simp only [List.length_cons, List.length_append, List.length_reverse]
    omega

/-- A worklist with enough steps left is worked off, and more steps change nothing: what was waiting is marked, and what the newly
marked blocks refer to is marked. -/
theorem markAll (T : h.Traces S) (m : h.Marking S M W k) (room : W.length + h.pending M ≤ n) :
    ∃ M' k', (∀ more, n ≤ more → Heap.markAll more W k = .ok () k') ∧ h.Marking S M' [] k' ∧
      (∀ a, k.markedAt a = true → k'.markedAt a = true) ∧ ∀ a ∈ W, k'.markedAt a = true := by
  induction n generalizing M W k with
  | zero =>
    cases W with
    | nil => exact ⟨M, k, fun more _ => by cases more <;> rfl, m, fun a ha => ha, by simp⟩
    | cons a W => simp at room
  | succ n ih =>
    cases W with
    | nil => exact ⟨M, k, fun more _ => by cases more <;> rfl, m, fun a ha => ha, by simp⟩
    | cons a W =>
      have looked := Heap.isMarked_eq (h := k) (m.marked.capacity ▸ (T a (m.waiting a List.mem_cons_self)).lt_capacity)
      cases already : k.markedAt a with
      | true =>
        obtain ⟨M', k', run, m', keep, done⟩ := ih (m.skip already) (by simp only [List.length_cons] at room; omega)
        refine ⟨M', k', fun more le => ?_, m', keep, List.forall_mem_cons.mpr ⟨keep a already, done⟩⟩
        obtain ⟨more, rfl⟩ : ∃ r, more = r + 1 := ⟨more - 1, by omega⟩
        simp only [Heap.markAll, HeapM.run_bind, HeapM.run_lift, looked, already, if_true, run more (by omega)]
      | false =>
        obtain ⟨k₁, set, found, m₁, grows, self, less⟩ := m.visit T already
        obtain ⟨M', k', run, m', keep, done⟩ := ih m₁ (by omega)
        refine ⟨M', k', fun more le => ?_, m', fun b hb => keep b (grows b hb), List.forall_mem_cons.mpr
          ⟨keep a self, fun b hb => done b (List.mem_append_right _ hb)⟩⟩
        obtain ⟨more, rfl⟩ : ∃ r, more = r + 1 := ⟨more - 1, by omega⟩
        simp only [Heap.markAll, HeapM.run_bind, HeapM.run_lift, looked, already, Bool.false_eq_true, if_false, set, found,
          run more (by omega)]

/-- One root: the worklist runs empty within the bound. -/
theorem mark (T : h.Traces S) (m : h.Marking S M [] k) (ha : h.Reaches S a) :
    ∃ M' k', (∀ more, k.markBound ≤ more → Heap.markAll more [a] k = .ok () k') ∧ Heap.mark a k = .ok () k' ∧
      h.Marking S M' [] k' ∧ (∀ b, k.markedAt b = true → k'.markedAt b = true) ∧ k'.markedAt a = true := by
  have room : [a].length + h.pending M ≤ k.markBound := by
    have bound := h.pending_le M
    have square : h.capacity + 1 ≤ (h.capacity + 1) * (h.capacity + 1) := Nat.le_mul_of_pos_left _ (by omega)
    unfold Heap.markBound
    rw [m.marked.capacity]
    simp only [List.length_cons, List.length_nil]
    omega
  obtain ⟨M', k', run, m', keep, done⟩ := (m.wait ha).markAll T room
  refine ⟨M', k', run, ?_, m', keep, done a List.mem_cons_self⟩
  simp only [Heap.mark, HeapM.run_bind, HeapM.run_get, run _ le_rfl]

/-- The roots one after the other. -/
theorem markRoots (T : h.Traces S) (m : h.Marking S M [] k) (reached : ∀ a ∈ roots, h.Reaches S a) :
    ∃ M' k', (forM roots Heap.mark : HeapM Unit) k = .ok () k' ∧ h.Marking S M' [] k' ∧
      (∀ a, k.markedAt a = true → k'.markedAt a = true) ∧ ∀ a ∈ roots, k'.markedAt a = true := by
  induction roots generalizing M k with
  | nil => exact ⟨M, k, rfl, m, fun a ha => ha, by simp⟩
  | cons a roots ih =>
    obtain ⟨M₁, k₁, _, run₁, m₁, keep₁, done₁⟩ := m.mark T (reached a List.mem_cons_self)
    obtain ⟨M', k', run, m', keep, done⟩ := ih m₁ fun b hb => reached b (List.mem_cons_of_mem a hb)
    refine ⟨M', k', ?_, m', fun b hb => keep b (keep₁ b hb), List.forall_mem_cons.mpr ⟨keep a done₁, done⟩⟩
    change (Heap.mark a >>= fun _ => (forM roots Heap.mark : HeapM Unit)) k = _
    simp only [HeapM.run_bind, run₁, run]

/-- When nothing waits any more and the roots are marked, everything that can be reached is marked, provided that the blocks that
were marked before referred to marked blocks only. -/
theorem complete (T : h.Traces S) (m : h.Marking S M [] k) (closed : ∀ a b, h.HasMark a → h.Child a b → h.HasMark b)
    (done : ∀ a ∈ S, k.markedAt a = true) (ha : h.Reaches S a) : k.markedAt a = true := by
  refine (ha.of_closed (M := fun a => h.Reaches S a ∧ k.markedAt a = true) (fun a ha => ⟨.start ha, done a ha⟩) ?_).2
  rintro a b ⟨reached, marked⟩ hb
  refine ⟨reached.child hb, ?_⟩
  rw [m.marked.markedAt, Bool.or_eq_true, decide_eq_true_eq] at marked
  rcases marked with new | old
  · exact (m.followed a new b hb).resolve_right (by simp)
  · have old := closed a b ⟨(T a reached).allocated, old⟩ hb
    rw [m.marked.markedAt, old.2, Bool.or_true]

end Marking

end Heap

namespace Arena

variable {h : Heap} {P : Plan} {R : Nat → List Nat} {a : Nat}

/-- Everything that can be reached is taken. -/
theorem taken_of_reachable (A : Arena h P R) (settled : P.Settled) (T : h.Traceable) (ha : h.Reachable a) :
    ∃ l, P a = some ⟨l, .taken⟩ := (A.allocated_iff settled).mp (T a ha).1

theorem traces (A : Arena h P R) (settled : P.Settled) (T : h.Traceable) : h.Traces h.roots := by
  intro a ha
  obtain ⟨l, hl⟩ := A.taken_of_reachable settled T ha
  refine ⟨(T a ha).1, ?_, (T a ha).2⟩
  rw [(A.taken hl).2, A.capacity]
  exact A.tiling.within (Plan.levels_eq hl)

/-- After all roots have been handled, exactly what can be reached from them is marked. -/
theorem mark_roots (A : Arena h P R) (settled : P.Settled) (T : h.Traceable) (U : h.Unmarked) :
    ∃ M k, (forM h.roots Heap.mark : HeapM Unit) h = .ok () k ∧ h.Marked M k ∧
      ∀ a, a ∈ M ↔ h.Reachable a := by
  have traces := A.traces settled T
  have none (a : Nat) (marked : h.HasMark a) : False := by
    have := U a marked.1
    rw [marked.2] at this
    cases this
  obtain ⟨M, k, run, m, _, done⟩ := (Heap.Marking.start h h.roots).markRoots traces fun a ha => .start ha
  refine ⟨M, k, run, m.marked, fun a => ⟨m.reached a, fun ha => ?_⟩⟩
  have marked := m.complete traces (fun a _ marked => (none a marked).elim) done ha
  rw [m.marked.markedAt, U a (T a ha).1, Bool.or_false] at marked
  exact of_decide_eq_true marked

end Arena

end FiberMachine
