import FiberMachine.Proofs.Elsewhere
import FiberMachine.Proofs.Queues

/-!
# Queues are first in, first out

Whatever is done to a queue, with whatever else going on in the heap, it answers as a sequence with a capacity does: items are added at
the back and taken from the front, `tryPush` refuses when there are as many items as the capacity allows, and `push` then raises the
capacity. No slot of the ring outside the window of the items refers to anything, so what has been taken is not kept in use.
-/

namespace FiberMachine

/-- What is done to a queue, or elsewhere in its heap. -/
inductive Queue.Action where
  | tryPush (x : Addr)
  | push (x : Addr)
  | pop
  | elsewhere (op : Heap.Operation)

inductive Queue.Answer where
  | added (whether : Bool)
  | pushed
  | popped (item : Option Addr)
  | elsewhere

abbrev Queue.Event := Queue.Action × Except HeapFailure Queue.Answer

def Queue.Action.run (a : Addr) : Queue.Action → HeapM Queue.Answer
  | .tryPush x => do return .added (← Queue.tryPush a x)
  | .push x => do return (fun _ => .pushed) (← Queue.push a x)
  | .pop => do return .popped (← Queue.pop a)
  | .elsewhere op => do return (fun _ => .elsewhere) (← op.run)

/-- An item is an object of the heap. What is done elsewhere changes neither the queue at `a` nor its ring, and while the collector may
run, the queue is in use. -/
def Queue.Action.Allowed (a : Addr) (h : Heap) : Queue.Action → Prop
  | .tryPush x | .push x => h.Allocated x
  | .pop => True
  | .elsewhere op => op.Careful h ∧ op.Spares h a ∧ ∀ d, Queue.storage a h = .ok d → ¬op.Changes d

/-- Nothing has to be kept in mind about a queue. -/
def Queue.client (a : Addr) : Heap.Client Unit Queue.Action Queue.Answer where
  run := Queue.Action.run a
  allowed h _ := Queue.Action.Allowed a h
  learn _ _ _ := ()

/-- A sequence with a capacity. -/
structure Fifo where
  items : List Addr
  capacity : Nat

/-- How a sequence with a capacity answers. -/
inductive Fifo.Step : Fifo → Queue.Event → Fifo → Prop where
  | added {q : Fifo} {x : Addr} (room : q.items.length < q.capacity) :
    Step q (.tryPush x, .ok (.added true)) { q with items := q.items ++ [x] }
  | refused {q : Fifo} {x : Addr} (full : q.items.length = q.capacity) : Step q (.tryPush x, .ok (.added false)) q
  | pushed {q : Fifo} {x : Addr} (room : q.items.length < q.capacity) :
    Step q (.push x, .ok .pushed) { q with items := q.items ++ [x] }
  | grown {q : Fifo} {x : Addr} (full : q.items.length = q.capacity) :
    Step q (.push x, .ok .pushed) ⟨q.items ++ [x], max (2 * q.items.length) 4⟩
  | starved {q : Fifo} {x : Addr} {n : Nat} (full : q.items.length = q.capacity) :
    Step q (.push x, .error (.error (.outOfMemory n))) q
  | popped {q : Fifo} {x : Addr} {xs : List Addr} (front : q.items = x :: xs) :
    Step q (.pop, .ok (.popped (some x))) { q with items := xs }
  | empty {q : Fifo} (nothing : q.items = []) : Step q (.pop, .ok (.popped none)) q
  | elsewhere {q : Fifo} {op : Heap.Operation} {r : Except HeapFailure Queue.Answer} : Step q (.elsewhere op, r) q

namespace Heap

/-- What can be seen of the queue at `a`, with its ring in the array at `d` and its oldest item in slot `first`. -/
structure ShowsQueue (h : Heap) (a d first : Addr) (q : Fifo) : Prop where
  items : Queue.items a h = .ok q.items
  length : Queue.length a h = .ok q.items.length
  capacity : Queue.capacity a h = .ok q.capacity
  storage : Queue.storage a h = .ok d
  head : Queue.head a h = .ok first
  bounded : q.items.length ≤ q.capacity
  refuses : q.items.length = q.capacity → ∀ x, Queue.tryPush a x h = .ok false h
  exhausted : q.items = [] → Queue.pop a h = .ok none h
  vacant : ∀ j < q.capacity, (∀ i < q.items.length, j ≠ (first + i) % q.capacity) → Sequence.slot d j h = .ok unassigned
  reaches : ∀ b, h.Reaches [a] b ↔
    b = a ∨ b = d ∨ (∃ x ∈ q.items, h.Reaches [x] b) ∨ q.items.length < q.capacity ∧ h.Reaches [unassigned] b

variable {h h' : Heap} {a b d j n : Nat} {xs : List Nat} {q : Fifo} {event : Queue.Event}

/-- A slot outside the window of the items is unassigned. -/
theorem IsQueue.vacant (q : h.IsQueue a d n xs) (tidy : h.Tidy) (hj : j < n)
    (outside : ∀ i < xs.length, j ≠ (h.ref a Queue.headField + i) % n) : Sequence.slot d j h = .ok unassigned := by
  obtain ⟨slots, k, rfl, bound, items, order⟩ := q.ring
  have hn : h.ref a Queue.headField < slots.length := bound.resolve_left (by omega)
  -- Slot `j` comes `i` places after the oldest item when the ring is read from there.
  obtain ⟨i, hi, place⟩ : ∃ i < slots.length, (h.ref a Queue.headField + i) % slots.length = j := by
    refine ⟨(j + (slots.length - h.ref a Queue.headField)) % slots.length, Nat.mod_lt _ (by omega), ?_⟩
    have around : h.ref a Queue.headField + (j + (slots.length - h.ref a Queue.headField)) = j + slots.length := by omega
    rw [Nat.add_mod_mod, around, Nat.add_mod_right, Nat.mod_eq_of_lt hj]
  have beyond : xs.length ≤ i := by
    by_contra inside
    exact outside i (by omega) place.symm
  have turned := List.getElem_rotate slots (h.ref a Queue.headField) i (by rw [List.length_rotate]; exact hi)
  simp only [order, List.getElem_append_right beyond, List.getElem_replicate, Nat.add_comm i, place] at turned
  rw [items.slot_eq tidy hj, ← turned]
  rfl

theorem IsQueue.reaches_iff (q : h.IsQueue a d n xs) (tidy : h.Tidy) : h.Reaches [a] b ↔
    b = a ∨ b = d ∨ (∃ x ∈ xs, h.Reaches [x] b) ∨ xs.length < n ∧ h.Reaches [unassigned] b := by
  obtain ⟨slots, k, rfl, bound, items, order⟩ := q.ring
  have count : slots.length = xs.length + k := by
    rw [← List.length_rotate slots (h.ref a Queue.headField), order, List.length_append, List.length_replicate]
  have slot (x : Nat) : x ∈ slots ↔ x ∈ xs ∨ xs.length < slots.length ∧ x = unassigned := by
    rw [← List.mem_rotate (n := h.ref a Queue.headField), order, List.mem_append, List.mem_replicate, count]
    exact or_congr_right (and_congr_left' (by omega))
  rw [items.reaches_owner tidy q.is rfl q.storage]
  simp only [slot, or_and_right, exists_or, and_assoc, exists_and_left, exists_eq_left]

theorem IsQueue.shows (is : h.IsQueue a d q.capacity q.items) (tidy : h.Tidy) : h.ShowsQueue a d (h.ref a Queue.headField) q where
  items := is.items_eq tidy
  length := is.length_eq tidy
  capacity := is.capacity_eq tidy
  storage := is.storage_eq tidy
  head := is.head_eq tidy
  bounded := is.length_le
  refuses full _ := is.tryPush_full tidy full
  exhausted none := by
    rw [none] at is
    exact is.pop_nil tidy
  vacant _ := is.vacant tidy
  reaches _ := is.reaches_iff tidy

/-- What a heap with a queue in it has to do with a sequence with a capacity. -/
def Queued (a : Nat) (h : Heap) (q : Fifo) : Prop := h.Tidy ∧ ∃ d, h.IsQueue a d q.capacity q.items

/-- A step of a queue is a step of a sequence with a capacity. -/
theorem Queued.step (queued : Queued a h q) (step : (Queue.client a).Step (h, ()) event (h', ())) :
    ∃ q', q.Step event q' ∧ Queued a h' q' := by
  obtain ⟨tidy, d, is⟩ := queued
  obtain ⟨action, r⟩ := event
  obtain ⟨allowed, ends, -⟩ := step
  have le := is.length_le
  cases action with
  | tryPush x =>
    obtain ⟨_, inner, rfl⟩ := ends.inner
    by_cases full : q.items.length = q.capacity
    · obtain ⟨rfl, rfl⟩ := inner.of_ok (is.tryPush_full tidy full)
      exact ⟨q, .refused full, tidy, d, is⟩
    · obtain ⟨h₁, run, e, is'⟩ := is.tryPush tidy allowed full
      obtain ⟨rfl, rfl⟩ := inner.of_ok run
      exact ⟨_, .added (by omega), e.tidy, d, is'⟩
  | push x =>
    obtain ⟨_, inner, rfl⟩ := ends.inner
    rcases is.push_cases tidy allowed with ⟨full, m, h₁, run, e⟩ | ⟨h₁, d', N, run, e, is', -⟩
    · obtain ⟨rfl, rfl⟩ := inner.of_error run
      -- The queue is protected while a longer ring is asked for, and so the ring that it has is kept.
      have live : h.Live [a, x] a := .extra (by simp)
      exact ⟨q, .starved full, e.tidy, d, is.kept (e.kept a live id) (e.kept d (live.child (is.child tidy)) id)⟩
    · obtain ⟨rfl, rfl⟩ := inner.of_ok run
      split at is'
      next full => exact ⟨_, .grown full, e.tidy, d', by rwa [Nat.mul_comm] at is'⟩
      next room => exact ⟨_, .pushed (by omega), e.tidy, d', is'⟩
  | pop =>
    obtain ⟨_, inner, rfl⟩ := ends.inner
    obtain ⟨items, capacity⟩ := q
    cases items with
    | nil =>
      obtain ⟨rfl, rfl⟩ := inner.of_ok (is.pop_nil tidy)
      exact ⟨_, .empty rfl, tidy, d, is⟩
    | cons x xs =>
      obtain ⟨h₁, run, e, is'⟩ := is.pop tidy
      obtain ⟨rfl, rfl⟩ := inner.of_ok run
      exact ⟨_, .popped rfl, e.tidy, d, is'⟩
  | elsewhere op =>
    obtain ⟨_, inner, rfl⟩ := ends.inner
    obtain ⟨careful, spares, other⟩ := allowed
    obtain ⟨tidy', kept⟩ := careful.ends tidy inner
    have ring : op.Spares h d := ⟨fun collects => (spares.used collects).child (is.child tidy), other d (is.storage_eq tidy)⟩
    exact ⟨q, .elsewhere, tidy', d, is.kept (kept a is.is.allocated spares) (kept d is.allocated ring)⟩

/-- A queue that is made in a tidy heap shows, after any history, what a sequence with a capacity holds after the same history. -/
theorem Tidy.queue_fifo (tidy : h.Tidy) (n : Nat) : NoMemory (Queue.create n) h ∨ ∃ a h₁, Queue.create n h = .ok a h₁ ∧
    ∀ log h', Steps (Queue.client a).Step (h₁, ()) log (h', ()) →
      ∃ q, Steps Fifo.Step ⟨[], n⟩ log q ∧ ∃ d first, h'.ShowsQueue a d first q := by
  refine (tidy.createQueue n).imp_right fun ⟨a, d, h₁, run, e, is⟩ => ⟨a, h₁, run, fun log h' steps => ?_⟩
  have queued : Queued a h₁ ⟨[], n⟩ := ⟨e.tidy, d, is⟩
  obtain ⟨q, log, tidy', d', is'⟩ := steps.simulate (R := fun s q => Queued a s.1 q) (fun queued step => queued.step step) queued
  exact ⟨q, log, d', _, is'.shows tidy'⟩

/-- A ring of one slot is protected, fills up, refuses, grows and is collected; then an item is taken and one is added. -/
def turning : List Queue.Action :=
  [.elsewhere (.pushRoot 12), .tryPush 4, .tryPush 0, .push 0, .elsewhere .collect, .pop, .push 4]

theorem Tidy.queue_fifo_turning :
    let h := (ending (Queue.create 1) (built 64 [.allocateTagged .array 3])).2
    let told := (Queue.client 12).history (h, ()) turning
    Steps (Queue.client 12).Step (h, ()) told.1 told.2 ∧
      ∃ q, Steps Fifo.Step ⟨[], 1⟩ told.1 q ∧ q.items = [0, 4] ∧ ∃ d first, told.2.1.ShowsQueue 12 d first q := by
  intro h told
  have tidy : (built 64 [.allocateTagged .array 3]).Tidy := tidy_built (by decide) (by decide +kernel) (by decide +kernel)
  have steps : Steps (Queue.client 12).Step (h, ()) told.1 told.2 :=
    Client.Permits.steps ⟨⟨(by decide +kernel : Heap.Allocated _ 12), ⟨False.elim, id⟩, fun _ _ => id⟩,
      (by decide +kernel : Heap.Allocated _ 4), (by decide +kernel : Heap.Allocated _ 0), (by decide +kernel : Heap.Allocated _ 0),
      ⟨trivial, ⟨fun _ => .start (by decide +kernel), id⟩, fun _ _ => id⟩, trivial, (by decide +kernel : Heap.Allocated _ 4), trivial⟩
  have items : (Queue.items 12 told.2.1).toOption = some [0, 4] := by decide +kernel
  clear_value told
  obtain ⟨log, h', ⟨⟩⟩ := told
  have place : (ending (Queue.create 1) (built 64 [.allocateTagged .array 3])).1.toOption = some 12 := by decide +kernel
  rcases tidy.queue_fifo 1 with ⟨n, g, full⟩ | ⟨a, h₁, run, all⟩
  · rw [ending, full] at place
    cases place
  · have heap : h = h₁ := congrArg Prod.snd (ending_of_ok run)
    rw [ending_of_ok run] at place
    cases place
    obtain ⟨q, related, d, first, shows⟩ := all log h' (heap ▸ steps)
    rw [shows.items] at items
    exact ⟨steps, q, related, Option.some.inj items, d, first, shows⟩

end Heap

end FiberMachine
