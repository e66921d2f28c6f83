import FiberMachine.Proofs.Workload

/-!
# Marking on top of marks

Marking may start from a heap in which some blocks are marked already, as it does for every root after
the first one. If the blocks that are marked refer to marked blocks only, nothing behind them is missed,
and a root adds exactly what can be reached from it. What is marked in the end depends on the set of roots
alone, so a list of roots may be worked off in any order and may name a root twice.
-/

namespace FiberMachine

namespace Heap

variable {h k k' : Heap} {M M' S roots : List Addr} {a b : Addr}

/-- Nothing but mark bits of allocated blocks has changed, and those were only set. -/
structure MarksAdded (h k : Heap) : Prop where
  rest : k = { h with memory := k.memory }
  capacity : k.capacity = h.capacity
  words : ∀ x, k.wordAt x = h.wordAt x ∨ h.Allocated x ∧ k.wordAt x = Header.mark.set 1 (h.wordAt x)

namespace Marked

theorem allocated (m : Marked h M k) : k.Allocated a ↔ h.Allocated a := by
  unfold Allocated
  rw [m.blocks_eq]
  simp

/-- Setting a mark that is there already changes nothing. -/
theorem wordAt_eq (m : Marked h M k) : k.wordAt a =
    if a ∈ M ∧ h.markedAt a = false then Header.mark.set 1 (h.wordAt a) else h.wordAt a := by
  rw [m.words]
  by_cases member : a ∈ M
  · cases marked : h.markedAt a with
    | false => simp [member]
    | true =>
      have there : Header.mark.get (h.wordAt a) = 1 := by simpa [Heap.markedAt] using marked
      have same := BitField.set_get_self Header.mark_inWord (h.wordAt a)
      rw [there] at same
      simp [member, same]
  · simp [member]

/-- Two heaps in which the same blocks have been marked are equal. -/
theorem unique (m : Marked h M k) (m' : Marked h M' k') (same : ∀ a, k.markedAt a = k'.markedAt a) : k = k' := by
  have words (x : Addr) : k.wordAt x = k'.wordAt x := by
    have marks := same x
    rw [m.markedAt, m'.markedAt] at marks
    rw [m.wordAt_eq, m'.wordAt_eq]
    cases marked : h.markedAt x <;> simp_all
  have memory : k.memory = k'.memory := memory_ext (m.capacity.trans m'.capacity.symm) fun x _ => words x
  rw [m.rest, m'.rest, memory]

end Marked

/-- What marking leaves when it is done. -/
theorem Marking.added (T : h.Traces S) (m : h.Marking S M [] k) : h.MarksAdded k where
  rest := m.marked.rest
  capacity := m.marked.capacity
  words x := by
    rw [m.marked.words]
    split
    next member => exact .inr ⟨(T x (m.reached x member)).allocated, rfl⟩
    · exact .inl rfl

theorem Marking.marked_iff (T : h.Traces S) (m : h.Marking S M [] k) (closed : ∀ a b, h.HasMark a → h.Child a b → h.HasMark b)
    (done : ∀ a ∈ S, k.markedAt a = true) : k.markedAt a = true ↔ h.markedAt a = true ∨ h.Reaches S a := by
  constructor
  · intro marked
    rw [m.marked.markedAt, Bool.or_eq_true, decide_eq_true_eq] at marked
    exact marked.symm.imp_right (m.reached a)
  · rintro (marked | reached)
    · rw [m.marked.markedAt, marked, Bool.or_true]
    · exact m.complete T closed done reached

theorem Marking.hasMark_iff (T : h.Traces S) (m : h.Marking S M [] k) (closed : ∀ a b, h.HasMark a → h.Child a b → h.HasMark b)
    (done : ∀ a ∈ S, k.markedAt a = true) : k.HasMark a ↔ h.HasMark a ∨ h.Reaches S a := by
  have allocated (ha : h.Reaches S a) : h.Allocated a := (T a ha).allocated
  unfold HasMark
  rw [m.marked.allocated, m.marked_iff T closed done]
  tauto

theorem Traces.mono (T : h.Traces S) (sub : ∀ a ∈ roots, a ∈ S) : h.Traces roots :=
  fun a ha => T a (ha.mono fun b hb => .start (sub b hb))

/-- Marking ends, and it adds to the marked blocks exactly those that can be reached. It makes no difference in which order a list of
roots is worked off, and how often a root is on it. -/
theorem marks_exactly_reachable (T : h.Traces roots) (closed : ∀ a b, h.HasMark a → h.Child a b → h.HasMark b) :
    (∀ root ∈ roots, ∃ k, mark root h = .ok () k ∧ (∀ n, h.markBound ≤ n → markAll n [root] h = .ok () k) ∧
      h.MarksAdded k ∧ ∀ a, k.HasMark a ↔ h.HasMark a ∨ h.Reaches [root] a) ∧
    ∃ k, (forM roots mark : HeapM Unit) h = .ok () k ∧ h.MarksAdded k ∧ (∀ a, k.HasMark a ↔ h.HasMark a ∨ h.Reaches roots a) ∧
      ∀ order : List Addr, (∀ a, a ∈ order ↔ a ∈ roots) → (forM order mark : HeapM Unit) h = .ok () k := by
  refine ⟨fun root member => ?_, ?_⟩
  · have T : h.Traces [root] := T.mono (by simpa using member)
    obtain ⟨M, k, more, run, m, _, done⟩ := (Marking.start h [root]).mark T (.start List.mem_cons_self)
    exact ⟨k, run, more, m.added T, fun a => m.hasMark_iff T closed (by simpa using done)⟩
  · obtain ⟨M, k, run, m, _, done⟩ := (Marking.start h roots).markRoots T fun a ha => .start ha
    refine ⟨k, run, m.added T, fun a => m.hasMark_iff T closed done, fun order same => ?_⟩
    have T' : h.Traces order := T.mono fun a ha => (same a).mp ha
    obtain ⟨M', k', run', m', _, done'⟩ := (Marking.start h order).markRoots T' fun a ha => .start ha
    have reaches (a : Addr) : h.Reaches order a ↔ h.Reaches roots a :=
      ⟨fun ha => ha.mono fun b hb => .start ((same b).mp hb), fun ha => ha.mono fun b hb => .start ((same b).mpr hb)⟩
    have equal : k = k' := m.marked.unique m'.marked fun a => by
      rw [Bool.eq_iff_iff, m.marked_iff T closed done, m'.marked_iff T' closed done', reaches]
    rw [run', equal]

/-! ### Marks that are there already -/

instance : Decidable (h.Fit a) := decidable_of_iff (h.Allocated a ∧ a + 2 ^ h.levelAt a ≤ h.capacity ∧ h.LaidOut a)
  ⟨fun ⟨allocated, within, laid⟩ => ⟨allocated, within, laid⟩, fun fit => ⟨fit.allocated, fit.within, fit.laid⟩⟩

instance : Decidable (h.HasMark a) := inferInstanceAs (Decidable (_ ∧ _))

/-- Addresses that hold the roots and are closed under children are all that there is to trace. -/
theorem Traces.of_closed (start : ∀ a ∈ roots, a ∈ S) (fit : ∀ a ∈ S, h.Fit a)
    (closed : ∀ a ∈ S, ∀ b ∈ (children a h).toOption.getD [], b ∈ S) : h.Traces roots :=
  fun a ha => fit a (ha.mem_of_closed start closed)

theorem closed_of_blocks (each : ∀ b ∈ h.blocks, h.HasMark b.addr → ∀ c ∈ (children b.addr h).toOption.getD [], h.HasMark c) :
    ∀ a b, h.HasMark a → h.Child a b → h.HasMark b := by
  intro a b marked hb
  obtain ⟨c, hc, rfl, _⟩ := marked.1
  exact each c hc marked b hb.mem

/-- Two marked arrays that refer to each other, and an array without a mark that refers to one of them. -/
def halfMarked : Heap :=
  let made := match create 16 (.start none) with
    | .ok new => new.afterAll [.allocateTagged .array 2, .allocateTagged .array 2, .allocateTagged .array 2,
        .write 4 0 1, .write 4 1 8, .write 8 0 1, .write 8 1 4, .write 12 0 1, .write 12 1 4]
    | .error _ => bare 4 (.start none)
  match mark 8 made with
  | .ok _ k | .error _ k => k

/-- The third array is marked as well, from two roots in either order. -/
theorem marks_exactly_reachable_halfMarked : ∃ k, (forM [12, 4] mark : HeapM Unit) halfMarked = .ok () k ∧
    (forM [4, 12, 4] mark : HeapM Unit) halfMarked = .ok () k ∧ (halfMarked.HasMark 4 ∧ ¬halfMarked.HasMark 12) ∧
    k.HasMark 12 := by
  have T : halfMarked.Traces [12, 4] :=
    .of_closed (S := [4, 8, 12]) (by decide +kernel) (by decide +kernel) (by decide +kernel)
  obtain ⟨_, k, run, _, marked, any⟩ := marks_exactly_reachable T (closed_of_blocks (by decide +kernel))
  refine ⟨k, run, any [4, 12, 4] (by simp), by decide +kernel, ?_⟩
  exact (marked 12).mpr (.inr (.start List.mem_cons_self))

end Heap

end FiberMachine
