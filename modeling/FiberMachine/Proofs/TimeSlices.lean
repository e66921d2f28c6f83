import FiberMachine.Proofs.Indifferent
import FiberMachine.Proofs.Solitude

/-!
# Time slices

The time slice decides who gets the next turn, and nothing else looks at it. As long as there is one context only, it gets every turn, whether
or not turns are taken from it. So a program that starts no context does the same with every time slice.
-/

namespace FiberMachine

open Heap HeapReader

namespace Scheduler

variable {s s' : Scheduler}

/-- Who has the turn, and then who is ready. -/
def queue (s : Scheduler) : List Addr := s.current.toList ++ s.ready

/-- The same context has the turn, and the same are ready. -/
def Agrees (s s' : Scheduler) : Prop := s'.current = s.current ∧ s'.ready = s.ready

/-- The same contexts can run, in the same order. -/
def SameQueue (s s' : Scheduler) : Prop := s'.queue = s.queue

/-- The same contexts can run. -/
def Permutes (s s' : Scheduler) : Prop := s'.queue.Perm s.queue

theorem dispatch_current (s : Scheduler) : s.dispatch.current = s.queue.head? := by
  unfold dispatch queue
  cases current : s.current with
  | some c => exact current
  | none => rfl

theorem dispatch_ready (s : Scheduler) : s.dispatch.ready = s.queue.tail := by
  unfold dispatch queue
  cases s.current <;> rfl

theorem SameQueue.dispatch (same : SameQueue s s') : Agrees s.dispatch s'.dispatch := by
  unfold SameQueue at same
  unfold Agrees
  rw [dispatch_current, dispatch_current, dispatch_ready, dispatch_ready, same]
  exact ⟨rfl, rfl⟩

theorem Agrees.sameQueue (agrees : Agrees s s') : SameQueue s s' := by
  unfold SameQueue queue
  rw [agrees.1, agrees.2]

theorem SameQueue.permutes (same : SameQueue s s') : Permutes s s' := .of_eq same

/-- A context whose turn is over goes to the back of the queue. -/
theorem yieldCurrent_permutes (s : Scheduler) : Permutes s s.yieldCurrent := by
  obtain ⟨ready, current, used, slice⟩ := s
  cases current with
  | some c =>
    change (ready ++ [c]).Perm ([c] ++ ready)
    exact List.perm_append_comm
  | none => exact .refl _

/-- One context can run in one order. -/
theorem Permutes.sameQueue (permutes : Permutes s s') (few : s.queue.length ≤ 1) : SameQueue s s' := by
  unfold Permutes at permutes
  unfold SameQueue
  match queue : s.queue with
  | [] => exact List.perm_nil.mp (queue ▸ permutes)
  | [c] => exact List.perm_singleton.mp (queue ▸ permutes)
  | _ :: _ :: _ =>
    rw [queue] at few
    simp at few

end Scheduler

namespace Execution

open Scheduler

variable {α : Type} {x y x' : Execution} {c : Addr} {pc n : Nat} {Q Q' : Scheduler → Scheduler → Prop} {os : List StepOutcome}
  {r : EStateM.Result MachineFailure Execution Unit}

/-- The execution with another journal, another scheduler and another time slice. -/
def rescheduled (x : Execution) (j : Journal) (s : Scheduler) (n : Nat) : Execution :=
  { x with
    config := { x.config with timeSlice := n }
    machine := { x.machine with heap := { x.machine.heap with journal := j }, scheduler := s } }

/-- Two executions that differ in nothing else, with schedulers that are related. -/
def Apart (Q : Scheduler → Scheduler → Prop) (x y : Execution) : Prop := ∃ j s n, Q x.machine.scheduler s ∧ y = x.rescheduled j s n

/-- Two executions that differ at most in their journals, their schedulers and their time slices. -/
def Same (x y : Execution) : Prop := ∃ j s n, y = x.rescheduled j s n

theorem Apart.mono (apart : x.Apart Q y) (wider : ∀ s s', Q s s' → Q' s s') : x.Apart Q' y := by
  obtain ⟨j, s, n, related, rfl⟩ := apart
  exact ⟨j, s, n, wider _ _ related, rfl⟩

theorem Apart.same (apart : x.Apart Q y) : x.Same y := by
  obtain ⟨j, s, n, _, rfl⟩ := apart
  exact ⟨j, s, n, rfl⟩

theorem Apart.permutes (apart : x.Apart Agrees y) : x.Apart Permutes y := apart.mono fun _ _ agrees => agrees.sameQueue.permutes

/-! ### Actions that do not look at the time slice -/

instance respects_onMachine {action : MachineM α} [inner : Respects Machine.Twin action] :
    Respects (Apart Agrees) (liftM action : ExecutionM α) where
  alike := by
    rintro x _ ⟨j, ⟨ready, current, used, slice⟩, n, ⟨rfl, rfl⟩, rfl⟩
    have same := inner.alike x.machine (x.machine.retimed j used slice) ⟨j, used, slice, rfl⟩
    rw [run_machine, run_machine]
    change Alike _ _ (match action (x.machine.retimed j used slice) with
      | .ok a m => .ok a { x with machine := m, config := { x.config with timeSlice := n } }
      | .error e m => .error e { x with machine := m, config := { x.config with timeSlice := n } })
    generalize action x.machine = m, action (x.machine.retimed j used slice) = m' at same ⊢
    cases same with
    | @ok m _ a twin =>
      obtain ⟨j', used', slice', rfl⟩ := twin
      exact .ok a ⟨j', { m.scheduler with sliceUsed := used', timeSlice := slice' }, n, ⟨rfl, rfl⟩, rfl⟩
    | @error m _ e twin =>
      obtain ⟨j', used', slice', rfl⟩ := twin
      exact .error e ⟨j', { m.scheduler with sliceUsed := used', timeSlice := slice' }, n, ⟨rfl, rfl⟩, rfl⟩

instance respects_onHeap {action : HeapM α} [Respects Heap.Twin action] : Respects (Apart Agrees) (liftM action : ExecutionM α) :=
  @respects_onMachine α (liftM action) _

instance respects_onReader {look : HeapReader α} [Oblivious look] : Respects (Apart Agrees) (liftM look : ExecutionM α) :=
  @respects_onHeap α (liftM look) _

theorem respects_modify {f : Execution → Execution} (same : ∀ x j s n, f (x.rescheduled j s n) = (f x).rescheduled j s n)
    (schedules : ∀ x, (f x).machine.scheduler = x.machine.scheduler) : Respects (Apart Agrees) (modify f : ExecutionM PUnit) := by
  refine .modify ?_
  rintro x _ ⟨j, s, n, agrees, rfl⟩
  exact ⟨j, s, n, (schedules x).symm ▸ agrees, same x j s n⟩

theorem respects_get {k : Execution → ExecutionM α} (same : ∀ x j s n, Agrees x.machine.scheduler s → k (x.rescheduled j s n) = k x)
    (next : ∀ x, Respects (Apart Agrees) (k x)) : Respects (Apart Agrees) (get >>= k) := by
  refine .get ?_ next
  rintro x _ ⟨j, s, n, agrees, rfl⟩
  exact same x j s n agrees

instance note_respects {severity : Severity} {text : Unit → String} : Respects (Apart Agrees) (note severity text) := by
  refine .modify ?_
  rintro x _ ⟨j, s, n, agrees, rfl⟩
  exact ⟨_, s, n, agrees, rfl⟩

instance abort_respects {cause : MachineError} : Respects (Apart Agrees) (abort cause : ExecutionM α) := .throw _

instance drop_respects : Respects (Apart Agrees) (schedule .dropCurrent) := by
  refine .modify ?_
  rintro x _ ⟨j, s, n, agrees, rfl⟩
  exact ⟨j, s.dropCurrent, n, ⟨rfl, agrees.2⟩, rfl⟩

instance finish_respects : Respects (Apart Agrees) finish := by
  have isOver : Respects (Apart Agrees) (modify fun e => { e with finished := true } : ExecutionM Unit) :=
    respects_modify (fun _ _ _ _ => rfl) fun _ => rfl
  refine respects_get (fun _ _ _ _ _ => rfl) fun _ => ?_
  dsimp only
  infer_instance

instance blockedAmong_oblivious {cs : List Addr} : Oblivious (blockedAmong cs) := by
  induction cs <;> unfold blockedAmong <;> infer_instance

instance stall_respects : Respects (Apart Agrees) stall := by
  have blocked : Oblivious blockedContexts := ⟨fun h j => blockedAmong_oblivious.same h j⟩
  have report (code : Array Instruction) (cs : List Addr) : Oblivious (deadlockReport code cs) := by
    unfold deadlockReport describeBlocked
    infer_instance
  refine respects_get (fun _ _ _ _ _ => rfl) fun _ => ?_
  dsimp only
  infer_instance

instance terminate_respects : Respects (Apart Agrees) (terminate c) := by
  have ended : Respects (Apart Agrees) (modify fun e => { e with mainDone := e.mainDone || c == e.main } : ExecutionM Unit) :=
    respects_modify (fun _ _ _ _ => rfl) fun _ => rfl
  refine .bind fun _ => .bind fun _ => .bind fun _ => .bind fun _ => .bind fun _ => respects_get ?_ fun _ => by infer_instance
  rintro x j ⟨ready, current, used, slice⟩ n ⟨rfl, rfl⟩
  rfl

instance fetch_respects : Respects (Apart Agrees) (fetch c) := by
  refine .bind fun pc => respects_get (fun _ _ _ _ _ => rfl) fun x => ?_
  cases x.code[pc]? <;> infer_instance

/-! ### The end of a turn -/

/-- However long a turn has lasted, the same contexts can run. -/
theorem endTurnIfSpent_queue (x : Execution) : ∃ j s, endTurnIfSpent x = .ok () (x.rescheduled j s x.config.timeSlice) ∧
    Permutes x.machine.scheduler s := by
  simp only [endTurnIfSpent, schedule, note, run_bind, run_modify, run_get]
  by_cases up : x.machine.scheduler.tick.isSpent = true
  · rw [if_pos up]
    have yields : Permutes x.machine.scheduler x.machine.scheduler.tick.yieldCurrent := yieldCurrent_permutes x.machine.scheduler.tick
    generalize x.machine.scheduler.tick.current = turn
    cases turn with
    | some c => exact ⟨_, _, rfl, yields⟩
    | none => exact ⟨_, _, rfl, yields⟩
  · rw [if_neg up]
    exact ⟨_, _, rfl, .refl _⟩

/-- After an instruction the same contexts can run. -/
theorem settle_alike {o : Outcome} (near : x.Apart Agrees y) : Alike (Apart Permutes) (settle c pc o x) (settle c pc o y) := by
  cases o with
  | proceed =>
    obtain ⟨j, s, n, agrees, rfl⟩ := near
    obtain ⟨j₁, s₁, first, queued₁⟩ := endTurnIfSpent_queue x
    obtain ⟨j₂, s₂, second, queued₂⟩ := endTurnIfSpent_queue (x.rescheduled j s n)
    rw [settle, first, second]
    have queued : s₂.queue.Perm s₁.queue := by
      have between : s.queue = x.machine.scheduler.queue := agrees.sameQueue
      exact (List.Perm.trans queued₂ (.of_eq between)).trans queued₁.symm
    exact .ok () ⟨j₂, s₂, n, queued, rfl⟩
  | block =>
    have blocks : Respects (Apart Agrees) (settle c pc .block) := by
      unfold settle
      infer_instance
    exact (blocks.alike x y near).mono fun _ _ => Apart.permutes
  | finish => exact (terminate_respects.alike x y near).mono fun _ _ => Apart.permutes

/-! ### Steps -/

theorem turn_alike (near : x.Apart Agrees y) : Alike (Apart Permutes) (turn c x) (turn c y) := by
  refine fetch_respects.bind_wider near (fun _ _ => Apart.permutes) fun p x y near => ?_
  refine (@respects_onMachine _ _ Machine.execute_respects).bind_wider near (fun _ _ => Apart.permutes) fun o x y near => ?_
  refine (@respects_onMachine _ _ Machine.pruneOrigins_respects).bind_wider near (fun _ _ => Apart.permutes) fun _ x y near => ?_
  have settled : Alike (Apart Permutes) (settle c p.1 o x) (settle c p.1 o y) := settle_alike near
  rw [run_bind, run_bind]
  generalize settle c p.1 o x = r, settle c p.1 o y = r' at settled ⊢
  cases settled with
  | ok _ near => exact .ok _ near
  | error e near => exact .error e near

theorem ending_alike {r r' : EStateM.Result MachineFailure Execution StepOutcome} (alike : Alike (Apart Q) r r') :
    Alike (Apart Q) (ending r) (ending r') := by
  cases alike with
  | ok o near => exact .ok o near
  | error e near =>
    cases e with
    | fault f => exact .error _ near
    | error cause =>
      obtain ⟨j, s, n, related, rfl⟩ := near
      exact .error _ ⟨_, s, n, related, rfl⟩

/-- From the same queue, a step does the same, and afterwards the same contexts can run. -/
theorem step_alike (near : x.Apart SameQueue y) : Alike (Apart Permutes) (step x) (step y) := by
  obtain ⟨j, s, n, same, rfl⟩ := near
  rcases over_idle_or_acts x with isOver | ⟨going, idle⟩ | ⟨c, going, current⟩
  · have isOver' : (x.rescheduled j s n).finished = true := isOver
    rw [step_over isOver, step_over isOver']
    exact .ok _ ⟨j, s, n, same.permutes, rfl⟩
  · have going' : (x.rescheduled j s n).finished = false := going
    have idle' : (x.rescheduled j s n).machine.scheduler.dispatch.current = none := same.dispatch.1.trans idle
    rw [step_idle going idle, step_idle going' idle']
    exact ending_alike ((stall_respects.alike _ _ ⟨j, s.dispatch, n, same.dispatch, rfl⟩).mono fun _ _ => Apart.permutes)
  · have going' : (x.rescheduled j s n).finished = false := going
    have current' : (x.rescheduled j s n).machine.scheduler.dispatch.current = some c := same.dispatch.1.trans current
    have limit : (x.rescheduled j s n).config.maxInstructions = x.config.maxInstructions := rfl
    have executed : (x.rescheduled j s n).executed = x.executed := rfl
    have near : x.counted.Apart Agrees (x.rescheduled j s n).counted := ⟨j, s.dispatch, n, same.dispatch, rfl⟩
    rw [step_turn going current, step_turn going' current', limit, executed]
    refine ending_alike ?_
    split
    · exact .error _ near.permutes
    · exact turn_alike near

/-- While there is one context, the queues stay the same. -/
theorem Lone.step_alike {o : StepOutcome} (lone : x'.Lone) (near : x.Apart SameQueue y) (makes : Execution.step x = .ok o x') :
    ∃ y', Execution.step y = .ok o y' ∧ x'.Apart SameQueue y' := by
  have alike := Execution.step_alike near
  rw [makes] at alike
  generalize ran : Execution.step y = r at alike
  cases alike with
  | ok _ near =>
    obtain ⟨j, s, n, permutes, rfl⟩ := near
    exact ⟨_, rfl, j, s, n, permutes.sameQueue lone.queue, rfl⟩

/-- No step of the execution starts a context. -/
def NeverForks (x : Execution) : Prop := ∀ os x', Steps Makes x os x' → Alone x.code os

/-- What the steps come to. -/
theorem Halts.alike (halts : x.Halts r) (lone : x.Lone) (near : x.Apart SameQueue y) (never : x.NeverForks) :
    ∃ r', y.Halts r' ∧ Alike Same r r' := by
  induction halts generalizing y with
  | finished last =>
    have alike := step_alike near
    rw [last] at alike
    generalize ran : step y = s at alike
    cases alike with
    | ok _ near => exact ⟨_, .finished ran, .ok () near.same⟩
  | @failed _ _ e last =>
    have alike := step_alike near
    rw [last] at alike
    generalize ran : step y = s at alike
    cases alike with
    | error _ near => exact ⟨_, .failed ran, .error e near.same⟩
  | executed first _ ih =>
    obtain ⟨lone, same⟩ := lone.step first (never _ _ (.cons first .nil))
    obtain ⟨y', first', near⟩ := lone.step_alike near first
    obtain ⟨r', halts, alike⟩ := ih lone near fun os x' steps c pc argc later =>
      same ▸ never _ _ (.cons first steps) c pc argc (List.mem_cons_of_mem _ later)
    exact ⟨r', .executed first' halts, alike⟩

/-! ### Programs -/

variable {code : Array Instruction} {config : Config} {journal : Journal}

end Execution

end FiberMachine
