import FiberMachine.Proofs.Elsewhere
import FiberMachine.Proofs.Stacks

/-!
# Stacks are last in, first out

Whatever is done to a stack, with whatever else going on in the heap, it answers as a list does to which items are added and from which
they are taken at the end. Taking from the empty list, or looking at its end, is the only thing that fails other than for want of memory.
The items are at the beginning of the array behind the stack, and no slot after them refers to anything.
-/

namespace FiberMachine

/-- What is done to a stack, or elsewhere in its heap. -/
inductive Stack.Action where
  | push (x : Addr)
  | pop
  | peek
  | elsewhere (op : Heap.Operation)

inductive Stack.Answer where
  | pushed
  | popped (item : Addr)
  | top (item : Addr)
  | elsewhere

abbrev Stack.Event := Stack.Action × Except HeapFailure Stack.Answer

def Stack.Action.run (a : Addr) : Stack.Action → HeapM Stack.Answer
  | .push x => do return (fun _ => .pushed) (← Stack.push a x)
  | .pop => do return .popped (← Stack.pop a)
  | .peek => do return .top (← Stack.peek a)
  | .elsewhere op => do return (fun _ => .elsewhere) (← op.run)

/-- An item is an object of the heap. What is done elsewhere changes neither the stack at `a` nor its array, and while the collector may
run, the stack is in use. -/
def Stack.Action.Allowed (a : Addr) (h : Heap) : Stack.Action → Prop
  | .push x => h.Allocated x
  | .pop | .peek => True
  | .elsewhere op => op.Careful h ∧ op.Spares h a ∧ ∀ d, Stack.storage a h = .ok d → ¬op.Changes d

/-- Nothing has to be kept in mind about a stack. -/
def Stack.client (a : Addr) : Heap.Client Unit Stack.Action Stack.Answer where
  run := Stack.Action.run a
  allowed h _ := Stack.Action.Allowed a h
  learn _ _ _ := ()

/-- How a list answers that is a stack with its top at the end. -/
inductive Lifo : List Addr → Stack.Event → List Addr → Prop where
  | pushed {xs : List Addr} {x : Addr} : Lifo xs (.push x, .ok .pushed) (xs ++ [x])
  | starved {xs : List Addr} {x : Addr} {n : Nat} : Lifo xs (.push x, .error (.error (.outOfMemory n))) xs
  | popped {xs : List Addr} {x : Addr} : Lifo (xs ++ [x]) (.pop, .ok (.popped x)) xs
  | exhausted : Lifo [] (.pop, .error (.error .stackUnderflow)) []
  | peeked {xs : List Addr} {x : Addr} : Lifo (xs ++ [x]) (.peek, .ok (.top x)) (xs ++ [x])
  | topless : Lifo [] (.peek, .error (.error .stackUnderflow)) []
  | elsewhere {xs : List Addr} {op : Heap.Operation} {r : Except HeapFailure Stack.Answer} : Lifo xs (.elsewhere op, r) xs

namespace Heap

/-- What can be seen of the stack at `a`, with its items in the array of `n` slots at `d`. -/
structure ShowsStack (h : Heap) (a d n : Addr) (xs : List Addr) : Prop where
  items : Stack.items a h = .ok xs
  length : Stack.length a h = .ok xs.length
  storage : Stack.storage a h = .ok d
  slots : Sequence.length d h = .ok n
  bounded : xs.length ≤ n
  exhausted : Stack.pop a h = .error (.error .stackUnderflow) h ↔ xs = []
  topless : Stack.peek a h = .error (.error .stackUnderflow) ↔ xs = []
  vacant : ∀ j, xs.length ≤ j → j < n → Sequence.slot d j h = .ok unassigned
  reaches : ∀ b, h.Reaches [a] b ↔
    b = a ∨ b = d ∨ (∃ x ∈ xs, h.Reaches [x] b) ∨ xs.length < n ∧ h.Reaches [unassigned] b

variable {h h' : Heap} {a d : Nat} {xs : List Nat} {event : Stack.Event}

theorem IsStack.shows (is : h.IsStack a d xs) (tidy : h.Tidy) : ∃ n, h.ShowsStack a d n xs := by
  obtain ⟨k, pos, items⟩ := is.items
  have count : (xs ++ List.replicate k 0).length = xs.length + k := by rw [List.length_append, List.length_replicate]
  have slot (x : Nat) : x ∈ xs ++ List.replicate k 0 ↔ x ∈ xs ∨ xs.length < xs.length + k ∧ x = unassigned := by
    rw [List.mem_append, List.mem_replicate]
    exact or_congr_right (and_congr_left' (by omega))
  refine ⟨xs.length + k, ?_⟩
  exact {
    items := is.items_eq tidy
    length := is.length_eq tidy
    storage := is.storage_eq tidy
    slots := count ▸ items.length_eq tidy
    bounded := Nat.le_add_right _ _
    exhausted := by
      rcases List.eq_nil_or_concat' xs with rfl | ⟨ys, x, rfl⟩
      · exact ⟨fun _ => rfl, fun _ => is.pop_nil tidy⟩
      · obtain ⟨h', run, -⟩ := is.pop tidy
        simp [run]
    topless := by
      rw [is.peek_eq tidy]
      rcases List.eq_nil_or_concat' xs with rfl | ⟨ys, x, rfl⟩ <;> simp
    vacant := fun j beyond hj => by
      rw [items.slot_eq tidy (count.symm ▸ hj), List.getElem_append_right beyond, List.getElem_replicate]
      rfl
    reaches := fun b => by
      rw [items.reaches_owner tidy is.is rfl is.storage]
      simp only [slot, or_and_right, exists_or, and_assoc, exists_and_left, exists_eq_left] }

/-- What a heap with a stack in it has to do with a list. -/
def Stacked (a : Nat) (h : Heap) (xs : List Nat) : Prop := h.Tidy ∧ ∃ d, h.IsStack a d xs

/-- A step of a stack is a step of a list. -/
theorem Stacked.step (stacked : Stacked a h xs) (step : (Stack.client a).Step (h, ()) event (h', ())) :
    ∃ xs', Lifo xs event xs' ∧ Stacked a h' xs' := by
  obtain ⟨tidy, d, is⟩ := stacked
  obtain ⟨action, r⟩ := event
  obtain ⟨allowed, ends, -⟩ := step
  cases action with
  | push x =>
    obtain ⟨_, inner, rfl⟩ := ends.inner
    rcases is.push_spec tidy allowed with ⟨m, h₁, run, e⟩ | ⟨h₁, d', N, run, e, is', -⟩
    · obtain ⟨rfl, rfl⟩ := inner.of_error run
      have live : h.Live [a, x] a := .extra (by simp)
      exact ⟨xs, .starved, e.tidy, d, is.kept (e.kept a live id) (e.kept d (live.child (is.child tidy)) id)⟩
    · obtain ⟨rfl, rfl⟩ := inner.of_ok run
      exact ⟨_, .pushed, e.tidy, d', is'⟩
  | pop =>
    obtain ⟨_, inner, rfl⟩ := ends.inner
    rcases List.eq_nil_or_concat' xs with rfl | ⟨ys, x, rfl⟩
    · obtain ⟨rfl, rfl⟩ := inner.of_error (is.pop_nil tidy)
      exact ⟨_, .exhausted, tidy, d, is⟩
    · obtain ⟨h₁, run, e, is'⟩ := is.pop tidy
      obtain ⟨rfl, rfl⟩ := inner.of_ok run
      exact ⟨_, .popped, e.tidy, d, is'⟩
  | peek =>
    obtain ⟨_, inner, rfl⟩ := ends.inner
    obtain ⟨rfl, rfl⟩ := inner.of_reader
    rw [is.peek_eq tidy]
    rcases List.eq_nil_or_concat' xs with rfl | ⟨ys, x, rfl⟩
    · exact ⟨_, .topless, tidy, d, is⟩
    · rw [List.getLast?_concat]
      exact ⟨_, .peeked, tidy, d, is⟩
  | elsewhere op =>
    obtain ⟨_, inner, rfl⟩ := ends.inner
    obtain ⟨careful, spares, other⟩ := allowed
    obtain ⟨tidy', kept⟩ := careful.ends tidy inner
    have array : op.Spares h d := ⟨fun collects => (spares.used collects).child (is.child tidy), other d (is.storage_eq tidy)⟩
    exact ⟨xs, .elsewhere, tidy', d, is.kept (kept a is.is.allocated spares) (kept d is.allocated array)⟩

/-- A stack that is made in a tidy heap shows, after any history, what a list holds after the same history. -/
theorem Tidy.stack_lifo (tidy : h.Tidy) : NoMemory Stack.create h ∨ ∃ a h₁, Stack.create h = .ok a h₁ ∧
    ∀ log h', Steps (Stack.client a).Step (h₁, ()) log (h', ()) →
      ∃ xs, Steps Lifo [] log xs ∧ ∃ d n, h'.ShowsStack a d n xs := by
  refine tidy.createStack.imp_right fun ⟨a, d, h₁, run, e, is⟩ => ⟨a, h₁, run, fun log h' steps => ?_⟩
  have stacked : Stacked a h₁ [] := ⟨e.tidy, d, is⟩
  obtain ⟨xs, log, tidy', d', is'⟩ := steps.simulate (R := fun s xs => Stacked a s.1 xs) (fun stacked step => stacked.step step) stacked
  exact ⟨xs, log, d', is'.shows tidy'⟩

/-- A stack is found empty, is protected, outgrows its array and is collected; then an item is taken. -/
def piling : List Stack.Action :=
  [.pop, .elsewhere (.pushRoot 16), .push 4, .push 0, .push 4, .push 0, .push 4, .elsewhere .collect, .pop, .peek]

theorem Tidy.stack_lifo_piling :
    let h := (ending Stack.create (built 64 [.allocateTagged .array 3])).2
    let told := (Stack.client 16).history (h, ()) piling
    Steps (Stack.client 16).Step (h, ()) told.1 told.2 ∧
      ∃ d n, Steps Lifo [] told.1 [4, 0, 4, 0] ∧ told.2.1.ShowsStack 16 d n [4, 0, 4, 0] := by
  intro h told
  have tidy : (built 64 [.allocateTagged .array 3]).Tidy := tidy_built (by decide) (by decide +kernel) (by decide +kernel)
  have steps : Steps (Stack.client 16).Step (h, ()) told.1 told.2 :=
    Client.Permits.steps ⟨trivial, ⟨(by decide +kernel : Heap.Allocated _ 16), ⟨False.elim, id⟩, fun _ _ => id⟩,
      (by decide +kernel : Heap.Allocated _ 4), (by decide +kernel : Heap.Allocated _ 0), (by decide +kernel : Heap.Allocated _ 4),
      (by decide +kernel : Heap.Allocated _ 0), (by decide +kernel : Heap.Allocated _ 4),
      ⟨trivial, ⟨fun _ => .start (by decide +kernel), id⟩, fun _ _ => id⟩, trivial, trivial, trivial⟩
  have items : (Stack.items 16 told.2.1).toOption = some [4, 0, 4, 0] := by decide +kernel
  clear_value told
  obtain ⟨log, h', ⟨⟩⟩ := told
  have place : (ending Stack.create (built 64 [.allocateTagged .array 3])).1.toOption = some 16 := by decide +kernel
  rcases tidy.stack_lifo with ⟨n, g, full⟩ | ⟨a, h₁, run, all⟩
  · rw [ending, full] at place
    cases place
  · have heap : h = h₁ := congrArg Prod.snd (ending_of_ok run)
    rw [ending_of_ok run] at place
    cases place
    obtain ⟨xs, related, d, n, shows⟩ := all log h' (heap ▸ steps)
    rw [shows.items] at items
    cases items
    exact ⟨steps, d, n, related, shows⟩

end Heap

end FiberMachine
