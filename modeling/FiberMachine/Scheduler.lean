import FiberMachine.Fault

/-!
# Scheduling

Contexts that can run wait in a queue, and one of them is current. The current context keeps its
turn until its time slice is used up, and then goes to the back of the queue; a context that blocks
or ends gives up its turn without being queued. Blocked contexts are not held here: whatever they
wait for makes them ready again.
-/

namespace FiberMachine

/-- The ready queue and the current turn. -/
structure Scheduler where
  /-- Contexts that can run, the next one first. -/
  ready : List Addr
  current : Option Addr
  /-- Instructions executed in the current turn. -/
  sliceUsed : Nat
  timeSlice : Nat
  deriving DecidableEq

namespace Scheduler

/-- No contexts; a turn lasts at least one instruction. -/
def start (timeSlice : Nat) : Scheduler := ⟨[], none, 0, max timeSlice 1⟩

/-- Put a context at the back of the queue. -/
def enqueue (s : Scheduler) (context : Addr) : Scheduler :=
  { s with ready := s.ready ++ [context] }

/-- Give the turn to the first context of the queue unless a turn is under way. -/
def dispatch (s : Scheduler) : Scheduler :=
  match s.current with
  | some _ => s
  | none => { s with ready := s.ready.tail, current := s.ready.head?, sliceUsed := 0 }

/-- Count an executed instruction. -/
def tick (s : Scheduler) : Scheduler := { s with sliceUsed := s.sliceUsed + 1 }

/-- Whether the time slice is used up. -/
def isSpent (s : Scheduler) : Bool := s.timeSlice ≤ s.sliceUsed

/-- End the turn; the context goes to the back of the queue. -/
def yieldCurrent (s : Scheduler) : Scheduler :=
  match s.current with
  | some context => { s with ready := s.ready ++ [context], current := none }
  | none => s

/-- End the turn of a context that cannot go on. -/
def dropCurrent (s : Scheduler) : Scheduler := { s with current := none }

/-- Whether any context can run. -/
def hasWork (s : Scheduler) : Bool := s.current.isSome || !s.ready.isEmpty

theorem dispatch_of_current {s : Scheduler} {context : Addr} (h : s.current = some context) :
    s.dispatch = s := by simp [dispatch, h]

/-- Dispatching takes contexts from the front of the queue and loses none. -/
theorem dispatch_queue (s : Scheduler) :
    s.dispatch.current.toList ++ s.dispatch.ready = s.current.toList ++ s.ready := by
  unfold dispatch
  cases hc : s.current with
  | some c => simp [hc]
  | none => cases s.ready <;> simp

end Scheduler

end FiberMachine
