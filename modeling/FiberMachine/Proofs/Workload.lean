import Mathlib.Data.Set.Card
import FiberMachine.Proofs.Sound

/-!
# Workloads

A workload is any sequence of heap operations that a caller may make: the blocks it names are
allocated, payload words are written inside their block, the unassigned object is not released, and
whenever the collector runs it can trace what it meets. The heap is sound after each of them, so the
validator accepts it.
-/

namespace FiberMachine

namespace Heap

/-- One operation on a heap. -/
inductive Operation where
  | allocate (size : Nat)
  | allocateTagged (tag : Tag) (size : Nat)
  | release (addr : Addr)
  | collect
  | setTag (addr : Addr) (tag : Tag)
  | write (addr : Addr) (i : Nat) (w : Word)
  | pushRoot (addr : Addr)
  | releaseRoots (mark : Nat)
  | registerContext (addr : Addr)
  | retireContext (addr : Addr)

namespace Operation

/-- The action that an operation stands for. -/
def run : Operation → HeapM Unit
  | .allocate size => do let _ ← Heap.allocate size
  | .allocateTagged tag size => do let _ ← Heap.allocateTagged tag size
  | .release addr => Heap.release addr
  | .collect => Heap.collect
  | .setTag addr tag => Heap.setTag addr tag
  | .write addr i w => Heap.write addr i w
  | .pushRoot addr => Heap.pushRoot addr
  | .releaseRoots mark => Heap.releaseRoots mark
  | .registerContext addr => Heap.registerContext addr
  | .retireContext addr => Heap.retireContext addr

/-- What an operation asks of its caller. -/
def Allowed (h : Heap) : Operation → Prop
  | .allocate size => h.RunsCollector size → h.Traceable
  | .allocateTagged _ size => h.RunsCollector (size + 1) → h.Traceable
  | .release addr => h.Allocated addr ∧ addr ≠ unassigned
  | .collect => h.Traceable
  | .setTag addr _ => h.Allocated addr
  | .write addr i _ => h.Allocated addr ∧ i < 2 ^ h.levelAt addr - 1
  | .pushRoot _ | .releaseRoots _ | .registerContext _ | .retireContext _ => True

/-- The heap after an operation, which may have failed. -/
def after (h : Heap) (op : Operation) : Heap :=
  match op.run h with
  | .ok _ h' => h'
  | .error _ h' => h'

/-- An operation succeeds, or there is no memory left. -/
def Succeeds (h : Heap) (op : Operation) : Prop :=
  op.run h = .ok () (op.after h) ∨ ∃ size, op.run h = .error (.error (.outOfMemory size)) (op.after h)

/-- An allowed operation on a sound heap leaves a sound heap and does not fault. -/
theorem sound {h : Heap} (s : h.Sound) {op : Operation} (allowed : op.Allowed h) :
    (op.after h).Sound ∧ op.Succeeds h := by
  have done {h' : Heap} (run : op.run h = .ok () h') (s' : h'.Sound) : (op.after h).Sound ∧ op.Succeeds h := by
    have e : op.after h = h' := by rw [after, run]
    exact ⟨e ▸ s', .inl (e.symm ▸ run)⟩
  have full {h' : Heap} {size : Nat} (run : op.run h = .error (.error (.outOfMemory size)) h') (s' : h'.Sound) :
      (op.after h).Sound ∧ op.Succeeds h := by
    have e : op.after h = h' := by rw [after, run]
    exact ⟨e ▸ s', .inr ⟨size, e.symm ▸ run⟩⟩
  cases op with
  | allocate size =>
    obtain ⟨g, _, s', outcome⟩ := s.allocate allowed
    rcases outcome with run | ⟨a, h', run, _, s''⟩
    · exact full (by simp only [Operation.run, HeapM.run_bind, run]; rfl) s'
    · exact done (by simp only [Operation.run, HeapM.run_bind, run, HeapM.run_pure]) s''
  | allocateTagged tag size =>
    obtain ⟨g, _, s', outcome⟩ := s.allocateTagged (t := tag) allowed
    rcases outcome with ⟨n, run⟩ | ⟨a, h', run, made⟩
    · exact full (by simp only [Operation.run, HeapM.run_bind, run]; rfl) s'
    · exact done (by simp only [Operation.run, HeapM.run_bind, run, HeapM.run_pure]) made.sound
  | release addr =>
    obtain ⟨h', run, s', _⟩ := s.release allowed.1 allowed.2
    exact done run s'
  | collect =>
    obtain ⟨h', run, c⟩ := s.wellFormed.collect s.unmarked allowed
    exact done run (c.sound s)
  | setTag addr tag =>
    obtain ⟨h', run, r, _⟩ := s.setTag (t := tag) allowed
    exact done run r.sound
  | write addr i w =>
    obtain ⟨h', run, r, _⟩ := s.write (w := w) allowed.1 allowed.2
    exact done run r.sound
  | pushRoot addr => exact done rfl (SameArena.sound (h := h) ⟨rfl, rfl, rfl⟩ s)
  | releaseRoots mark => exact done rfl (SameArena.sound (h := h) ⟨rfl, rfl, rfl⟩ s)
  | registerContext addr => exact done rfl (SameArena.sound (h := h) ⟨rfl, rfl, rfl⟩ s)
  | retireContext addr => exact done rfl (SameArena.sound (h := h) ⟨rfl, rfl, rfl⟩ s)

end Operation

/-- The heap after a sequence of operations. -/
def afterAll (h : Heap) (ops : List Operation) : Heap := ops.foldl Operation.after h

/-- Every operation of a sequence is allowed when it is made. -/
def AllAllowed (h : Heap) : List Operation → Prop
  | [] => True
  | op :: ops => op.Allowed h ∧ (op.after h).AllAllowed ops

theorem Sound.afterAll {h : Heap} (s : h.Sound) {ops : List Operation} (allowed : h.AllAllowed ops) :
    (h.afterAll ops).Sound := by
  induction ops generalizing h with
  | nil => exact s
  | cons op ops ih => exact ih (Operation.sound s allowed.1).1 allowed.2

/-- Every workload on a new heap keeps it well formed, and the validator accepts it; its operations
succeed unless the memory is used up. -/
theorem workload_wellFormed {words : Nat} (enough : 16 ≤ words) (journal : Journal) :
    ∃ new, create words journal = .ok new ∧ ∀ ops : List Operation, new.AllAllowed ops →
      (new.afterAll ops).WellFormed ∧ check (new.afterAll ops) = .ok () ∧
      ∀ op : Operation, op.Allowed (new.afterAll ops) → op.Succeeds (new.afterAll ops) := by
  obtain ⟨new, created, blank, _⟩ := create_eq (show levelWords minLevel ≤ words from enough) journal
  refine ⟨new, created, fun ops allowed => ?_⟩
  have s := blank.sound.afterAll allowed
  exact ⟨s.wellFormed, s.wellFormed.check_eq, fun op allowed => (Operation.sound s allowed).2⟩

/-- Two arrays that refer to each other, and are then forgotten. -/
def cycleWorkload : List Operation :=
  [.allocateTagged .array 2, .allocateTagged .array 2, .write 4 0 1, .write 4 1 8, .write 8 0 1, .write 8 1 4,
    .pushRoot 4, .collect, .releaseRoots 0]

theorem allAllowed_cycle {new : Heap} (created : create 16 (.start none) = .ok new) :
    new.AllAllowed cycleWorkload := by
  have idle {h : Heap} {size : Nat} (no : ¬h.RunsCollector size) : h.RunsCollector size → h.Traceable :=
    fun r => absurd r no
  have allowed : (match create 16 (.start none) with
      | .ok h => h
      | .error _ => bare 4 (.start none)).AllAllowed cycleWorkload :=
    ⟨idle (by decide +kernel), idle (by decide +kernel), ⟨by decide +kernel, by decide +kernel⟩,
      ⟨by decide +kernel, by decide +kernel⟩, ⟨by decide +kernel, by decide +kernel⟩,
      ⟨by decide +kernel, by decide +kernel⟩, trivial,
      .of_closed (M := [0, 4, 8]) (by decide +kernel) (by decide +kernel) (by decide +kernel), trivial, trivial⟩
  rwa [created] at allowed

/-- A workload that makes a cycle, collects while the cycle is protected, and ends its protection. -/
theorem workload_wellFormed_cycle : ∃ new, create 16 (.start none) = .ok new ∧
    new.AllAllowed cycleWorkload ∧ (new.afterAll cycleWorkload).WellFormed ∧
    check (new.afterAll cycleWorkload) = .ok () := by
  obtain ⟨new, created, holds⟩ := workload_wellFormed (show 16 ≤ 16 from le_rfl) (.start none)
  have allowed := allAllowed_cycle created
  exact ⟨new, created, allowed, (holds _ allowed).1, (holds _ allowed).2.1⟩

/-! ### Collections -/

/-- Every allocated block is laid out as its tag requires, and every root and every reference in such a
block is the start of an allocated block. -/
structure Consistent (h : Heap) : Prop where
  laidOut : ∀ a, h.Allocated a → h.LaidOut a
  child : ∀ a b, h.Allocated a → h.Child a b → h.Allocated b
  root : ∀ a ∈ h.roots, h.Allocated a

theorem Consistent.traceable {h : Heap} (c : h.Consistent) : h.Traceable := by
  intro a ha
  have : h.Allocated a := ha.of_closed c.root c.child
  exact ⟨this, c.laidOut a this⟩

/-- The allocated blocks by the addresses at which they start. -/
theorem ncard_allocated (h : Heap) :
    {a | h.Allocated a}.Finite ∧ {a | h.Allocated a}.ncard = h.allocatedBlocks.length := by
  have upward := h.pairwise_blocks.filter (!·.free)
  have nodup : (h.allocatedBlocks.map Block.addr).Nodup := by
    rw [List.Nodup, List.pairwise_map]
    exact upward.imp fun lt => Nat.ne_of_lt lt
  have same : {a | h.Allocated a} = ↑(h.allocatedBlocks.map Block.addr).toFinset := by
    ext a
    simp only [Set.mem_ofPred_eq, List.coe_toFinset, List.mem_map, mem_allocatedBlocks, Allocated]
    exact exists_congr fun b => ⟨fun ⟨hb, e, free⟩ => ⟨⟨hb, free⟩, e⟩, fun ⟨⟨hb, free⟩, e⟩ => ⟨hb, e, free⟩⟩
  rw [same]
  refine ⟨Finset.finite_toSet _, ?_⟩
  rw [Set.ncard_coe_finset, List.toFinset_card_of_nodup nodup, List.length_map]

theorem Consistent.of_blocks {h : Heap} (root : ∀ a ∈ h.roots, h.Allocated a)
    (each : ∀ b ∈ h.allocatedBlocks, h.LaidOut b.addr ∧
      ∀ c ∈ (children b.addr h).toOption.getD [], h.Allocated c) : h.Consistent := by
  have each {a : Addr} (ha : h.Allocated a) : h.LaidOut a ∧
      ∀ c ∈ (children a h).toOption.getD [], h.Allocated c := by
    obtain ⟨b, hb, rfl, free⟩ := ha
    exact each b (mem_allocatedBlocks.mpr ⟨hb, free⟩)
  exact ⟨fun a ha => (each ha).1, fun a b ha hb => (each ha).2 b hb.mem, root⟩

/-- A collection keeps exactly the blocks that can be reached from the roots, with their level, their tag
and their payload. -/
theorem collect_keeps_exactly_reachable {h : Heap} (wf : h.WellFormed) (unmarked : h.Unmarked)
    (consistent : h.Consistent) :
    ∃ h', collect h = .ok () h' ∧ h'.WellFormed ∧ (∀ a, h'.Allocated a ↔ h.Reachable a) ∧
      (∀ a, h'.Allocated a → h'.levelAt a = h.levelAt a ∧ h'.tagAt a = h.tagAt a ∧
        ∀ i < 2 ^ h.levelAt a - 1, h'.wordAt (a + 1 + i) = h.wordAt (a + 1 + i)) ∧
      h'.Unmarked ∧ h'.stats.collections = h.stats.collections + 1 ∧
      h'.stats.blocksFreed = h.stats.blocksFreed + {a | h.Allocated a ∧ ¬h.Reachable a}.ncard ∧
      h'.stats.wordsFreed + h.freeWords = h.stats.wordsFreed + h'.freeWords := by
  obtain ⟨h', run, c⟩ := wf.collect unmarked consistent.traceable
  refine ⟨h', run, c.wellFormed, c.allocated, fun a ha => ?_, c.unmarked, c.collections, ?_, c.wordsFreed⟩
  · have ha := (c.allocated a).mp ha
    refine ⟨by rw [levelAt, c.header ha, levelAt], by rw [tagAt, c.header ha, tagAt], fun i hi => ?_⟩
    exact c.words a ha _ (by lia) (by lia)
  · have before := h.ncard_allocated
    have after := h'.ncard_allocated
    have part : {a | h'.Allocated a} ⊆ {a | h.Allocated a} :=
      fun a ha => (consistent.traceable a ((c.allocated a).mp ha)).1
    have garbage : {a | h.Allocated a ∧ ¬h.Reachable a} = {a | h.Allocated a} \ {a | h'.Allocated a} := by
      ext a
      simp only [Set.mem_ofPred_eq, Set.mem_sdiff, c.allocated]
    have count := c.blocksFreed
    rw [garbage, Set.ncard_sdiff part after.1, before.2, after.2]
    have fewer := Set.ncard_le_ncard part before.1
    rw [before.2, after.2] at fewer
    omega

/-- The heap that the workload leaves. -/
def cycleHeap : Heap :=
  match create 16 (.start none) with
  | .ok new => new.afterAll cycleWorkload
  | .error _ => bare 4 (.start none)

theorem sound_cycleHeap : cycleHeap.Sound := by
  obtain ⟨new, created, blank, _⟩ := create_eq (show levelWords minLevel ≤ 16 by decide) (.start none)
  rw [cycleHeap, created]
  exact blank.sound.afterAll (allAllowed_cycle created)

/-- The two arrays that refer to each other are reclaimed. -/
theorem collect_keeps_exactly_reachable_cycle : ∃ h', collect cycleHeap = .ok () h' ∧
    cycleHeap.Allocated 4 ∧ cycleHeap.Allocated 8 ∧ ¬h'.Allocated 4 ∧ ¬h'.Allocated 8 := by
  have consistent : cycleHeap.Consistent := .of_blocks (by decide +kernel) (by decide +kernel)
  have only (a : Nat) (ha : cycleHeap.Reachable a) : a = 0 := by
    refine ha.of_closed (M := fun a => a = 0) (by decide +kernel) ?_
    rintro b c rfl ⟨found, run, hc⟩
    have none : ∀ c ∈ (children 0 cycleHeap).toOption.getD [], c = 0 := by decide +kernel
    rw [run] at none
    exact none c hc
  obtain ⟨h', run, _, allocated, _⟩ :=
    collect_keeps_exactly_reachable sound_cycleHeap.wellFormed sound_cycleHeap.unmarked consistent
  refine ⟨h', run, by decide +kernel, by decide +kernel, fun h4 => ?_, fun h8 => ?_⟩
  · exact absurd (only 4 ((allocated 4).mp h4)) (by decide)
  · exact absurd (only 8 ((allocated 8).mp h8)) (by decide)

end Heap

end FiberMachine
