import FiberMachine.Proofs.Printed
import FiberMachine.Proofs.Traffic

/-!
# The limit on instructions

A step looks at the limit only when it counts an instruction, and fails if the limit has been reached. So two executions that differ
only in their limits do the same until the smaller limit is reached, and then one of them fails. The limit makes every execution
end.
-/

namespace FiberMachine

namespace Execution

/-- The execution with another limit. -/
def limited (x : Execution) (n : Nat) : Execution := { x with config := x.config.withMaxInstructions n }

/-- The result of an execution with another limit. -/
def limitedResult {ε α : Type} (n : Nat) : EStateM.Result ε Execution α → EStateM.Result ε Execution α
  | .ok a x => .ok a (x.limited n)
  | .error e x => .error e (x.limited n)

/-- What an action leaves alone that executes or observes: the count of instructions and the limit. What has been printed stays. -/
structure Keeps (x y : Execution) : Prop where
  executed : y.executed = x.executed
  config : y.config = x.config
  prints : x.machine.Prints y.machine

/-- The action does not look at the limit. -/
structure Blind {α : Type} (action : ExecutionM α) : Prop where
  same : ∀ x n, action (limited x n) = limitedResult n (action x)
  keeps : ∀ x, Keeps x (finalState (action x))

/-- What the steps of an execution come to. -/
inductive Halts : Execution → EStateM.Result MachineFailure Execution Unit → Prop
  | finished {x x' : Execution} (last : step x = .ok .finished x') : Halts x (.ok () x')
  | failed {x x' : Execution} {e : MachineFailure} (last : step x = .error e x') : Halts x (.error e x')
  | executed {x x' : Execution} {c : Addr} {pc : Nat} {r : EStateM.Result MachineFailure Execution Unit} (first : step x = .ok (.executed c pc) x')
      (later : Halts x' r) : Halts x r

variable {α β : Type} {x x' y : Execution} {c : Addr} {n m pc : Nat} {r : EStateM.Result MachineFailure Execution Unit}

/-! ### Actions that do not look at the limit -/

theorem Keeps.refl : x.Keeps x := ⟨rfl, rfl, .refl⟩

theorem Keeps.trans {z : Execution} (first : x.Keeps y) (next : y.Keeps z) : x.Keeps z :=
  ⟨next.executed.trans first.executed, next.config.trans first.config, first.prints.trans next.prints⟩

namespace Blind

theorem pure (a : α) : Blind (pure a) := ⟨fun _ _ => rfl, fun _ => .refl⟩

theorem abort {cause : MachineError} : Blind (Execution.abort cause : ExecutionM α) := ⟨fun _ _ => rfl, fun _ => .refl⟩

theorem bind {f : ExecutionM β} {k : β → ExecutionM α} (first : Blind f) (next : ∀ b, Blind (k b)) : Blind (f >>= k) where
  same x n := by
    rw [run_bind, run_bind, first.same]
    cases f x with
    | ok b x₁ => exact (next b).same x₁ n
    | error e x₁ => rfl
  keeps x := by
    have before := first.keeps x
    rw [run_bind]
    cases run : f x with
    | ok b x₁ =>
      rw [run] at before
      exact before.trans ((next b).keeps x₁)
    | error e x₁ =>
      rw [run] at before
      exact before

theorem modify {f : Execution → Execution} (same : ∀ x n, f (limited x n) = limited (f x) n) (keeps : ∀ x, Keeps x (f x)) :
    Blind (modify f : ExecutionM PUnit) := ⟨fun x n => congrArg (EStateM.Result.ok ()) (same x n), keeps⟩

/-- What the action sees of the execution is not its limit. -/
theorem get_bind {k : Execution → ExecutionM α} (same : ∀ x n, k (limited x n) = k x) (next : ∀ x, Blind (k x)) : Blind (get >>= k) where
  same x n := by
    rw [run_bind, run_bind, run_get, run_get]
    dsimp only
    rw [same, (next x).same]
  keeps x := (next x).keeps x

/-- What an action does to the machine. -/
theorem onMachine {action : MachineM α} (prints : Machine.Leaving Machine.Prints action) : Blind (liftM action : ExecutionM α) where
  same x n := by
    have same : (limited x n).machine = x.machine := rfl
    rw [run_machine, run_machine, same]
    cases action x.machine <;> rfl
  keeps x := by
    have more := prints x.machine
    rw [run_machine]
    cases run : action x.machine with
    | ok a m =>
      rw [run] at more
      exact ⟨rfl, rfl, more⟩
    | error e m =>
      rw [run] at more
      exact ⟨rfl, rfl, more⟩

theorem onHeap {action : HeapM α} : Blind (liftM action : ExecutionM α) := @onMachine α (liftM action) Machine.Leaving.onHeap

theorem onReader {look : HeapReader α} : Blind (liftM look : ExecutionM α) := @onHeap α (liftM look)

theorem schedule {f : Scheduler → Scheduler} : Blind (Execution.schedule f) := modify (fun _ _ => rfl) fun _ => ⟨rfl, rfl, .refl⟩

theorem note {severity : Severity} {text : Unit → String} : Blind (Execution.note severity text) :=
  modify (fun _ _ => rfl) fun _ => ⟨rfl, rfl, .refl⟩

theorem finish : Blind Execution.finish := by
  refine get_bind (fun _ _ => rfl) fun x => ?_
  have isOver : Blind (MonadStateOf.modifyGet fun e : Execution => (PUnit.unit, { e with finished := true }) : ExecutionM PUnit) :=
    modify (fun _ _ => rfl) fun _ => ⟨rfl, rfl, .refl⟩
  dsimp only
  split
  · exact .bind note fun _ => isOver
  · exact isOver

theorem stall : Blind Execution.stall := by
  refine get_bind (fun _ _ => rfl) fun x => ?_
  have isOver : Blind (do Execution.finish; return StepOutcome.finished) := .bind finish fun _ => .pure _
  split
  · refine .bind onReader fun blocked => ?_
    split
    · exact .bind onReader fun _ => .bind abort fun _ => isOver
    · exact isOver
  · exact isOver

theorem terminate : Blind (Execution.terminate c) := by
  refine .bind schedule fun _ => .bind onHeap fun _ => .bind onReader fun _ => .bind note fun _ => ?_
  refine .bind (modify (fun _ _ => rfl) fun _ => ⟨rfl, rfl, .refl⟩) fun _ => get_bind (fun _ _ => rfl) fun x => ?_
  split
  · exact finish
  · exact .pure _

theorem endTurnIfSpent : Blind Execution.endTurnIfSpent := by
  refine .bind schedule fun _ => get_bind (fun _ _ => rfl) fun x => ?_
  dsimp only
  split
  · split
    · exact .bind note fun _ => schedule
    · exact schedule
  · exact .pure _

theorem settle {o : Outcome} : Blind (Execution.settle c pc o) := by
  cases o with
  | proceed => exact endTurnIfSpent
  | block => exact .bind schedule fun _ => .bind onReader fun _ => note
  | finish => exact terminate

theorem fetch : Blind (Execution.fetch c) := by
  refine .bind onReader fun pc => get_bind (fun _ _ => rfl) fun x => ?_
  split
  · exact abort
  · exact .bind onHeap fun _ => .bind note fun _ => .pure _

end Blind

/-! ### Steps -/

/-- The turn of a context, after the instruction has been counted. -/
def turn (c : Addr) : ExecutionM StepOutcome := do
  let (pc, i) ← fetch c
  let outcome ← Machine.execute c pc i
  Machine.pruneOrigins
  settle c pc outcome
  return .executed c pc

theorem Blind.turn : Blind (Execution.turn c) :=
  .bind fetch fun _ => .bind (onMachine fun _ => Machine.prints_execute) fun _ => .bind (onMachine fun _ => Machine.prints_pruneOrigins) fun _ => .bind settle fun _ => .pure _

/-- The execution when it is decided whose turn it is. -/
def scheduled (x : Execution) : Execution :=
  { x with machine := { x.machine with dirty := [], scheduler := x.machine.scheduler.dispatch } }

/-- The execution when the instruction has been counted. -/
def counted (x : Execution) : Execution := { x.scheduled with executed := x.executed + 1 }

/-- An error ends the execution. -/
def ending : EStateM.Result MachineFailure Execution StepOutcome → EStateM.Result MachineFailure Execution StepOutcome
  | .error (.error cause) x =>
    let m := x.machine.record .error fun _ => s!"process aborted after {x.executed} instructions: {cause.message}"
    .error (.error cause) { x with machine := m, finished := true }
  | r => r

theorem step_eq (going : x.finished = false) : step x = ending (advance { x with machine := { x.machine with dirty := [] } }) := by
  unfold step
  dsimp only
  rw [going, if_neg Bool.false_ne_true, ← going]
  rcases advance { x with machine := { x.machine with dirty := [] } } with _ | ⟨_ | _, _⟩ <;> rfl

/-- A step of an execution that is over. -/
theorem step_over (isOver : x.finished = true) : step x = .ok .finished { x with machine := { x.machine with dirty := [] } } := by
  unfold step
  exact if_pos isOver

/-- A step when no context can run. -/
theorem step_idle (going : x.finished = false) (idle : x.machine.scheduler.dispatch.current = none) : step x = ending (stall x.scheduled) := by
  rw [step_eq going]
  simp only [advance, schedule, run_bind, run_modify, run_get, idle]
  rfl

/-- A step of the context `c`. -/
theorem step_turn (going : x.finished = false) (current : x.machine.scheduler.dispatch.current = some c) : step x =
    ending (if x.config.maxInstructions < x.executed + 1 then .error (.error (.timeLimitExceeded x.config.maxInstructions)) x.counted
      else turn c x.counted) := by
  rw [step_eq going]
  simp only [advance, schedule, run_bind, run_modify, run_get, current]
  by_cases full : x.config.maxInstructions < x.executed + 1
  · simp only [countInstruction, run_bind, run_modify, run_get, run_ite, if_pos full]
    rfl
  · simp only [countInstruction, run_bind, run_modify, run_get, run_ite, run_pure, if_neg full, Execution.turn, counted, scheduled]

theorem ending_limited (r : EStateM.Result MachineFailure Execution StepOutcome) : ending (limitedResult n r) = limitedResult n (ending r) := by
  rcases r with _ | ⟨_ | _, _⟩ <;> rfl

/-- The next step executes an instruction of the context `c`, or fails to. -/
def Acts (x : Execution) (c : Addr) : Prop := x.finished = false ∧ x.machine.scheduler.dispatch.current = some c

theorem over_idle_or_acts (x : Execution) : x.finished = true ∨ (x.finished = false ∧ x.machine.scheduler.dispatch.current = none) ∨
    ∃ c, x.Acts c := by
  cases going : x.finished with
  | true => exact .inl rfl
  | false =>
    cases current : x.machine.scheduler.dispatch.current with
    | none => exact .inr (.inl ⟨rfl, rfl⟩)
    | some c => exact .inr (.inr ⟨c, going, current⟩)

/-- A step does not depend on the limit unless it reaches it. -/
theorem step_limited (room : ∀ c, x.Acts c → x.executed < x.config.maxInstructions ∧ x.executed < n) :
    step (x.limited n) = limitedResult n (step x) := by
  rcases over_idle_or_acts x with isOver | ⟨going, idle⟩ | ⟨c, acts⟩
  · rw [step_over isOver]
    exact step_over isOver
  · rw [step_idle going idle]
    refine (step_idle (x := x.limited n) going idle).trans ?_
    exact (congrArg ending (Blind.stall.same x.scheduled n)).trans (ending_limited _)
  · obtain ⟨left, right⟩ := room c acts
    rw [step_turn acts.1 acts.2, if_neg (by omega)]
    refine (step_turn (x := x.limited n) acts.1 acts.2).trans ?_
    have within : ¬(x.limited n).config.maxInstructions < (x.limited n).executed + 1 := Nat.not_lt.mpr right
    rw [if_neg within]
    exact (congrArg ending (Blind.turn.same x.counted n)).trans (ending_limited _)

/-- A step that reaches the limit fails. -/
theorem step_exceeds (acts : x.Acts c) (full : x.config.maxInstructions ≤ x.executed) : ∃ y, step x =
    .error (.error (.timeLimitExceeded x.config.maxInstructions)) y ∧ y.executed = x.executed + 1 ∧ y.finished = true ∧
      y.machine.output = x.machine.output := by
  rw [step_turn acts.1 acts.2, if_pos (by omega)]
  exact ⟨_, rfl, rfl, rfl, rfl⟩

/-! ### Counting -/

theorem ending_keeps (r : EStateM.Result MachineFailure Execution StepOutcome) (keeps : y.Keeps (finalState r)) :
    y.Keeps (finalState (ending r)) := by
  rcases r with _ | ⟨_ | _, _⟩
  · exact keeps
  · exact ⟨keeps.executed, keeps.config, keeps.prints⟩
  · exact keeps

/-- What is left of a failed step: the execution is over, unless an assertion has been broken. -/
theorem ending_fails {e : MachineFailure} {s : EStateM.Result MachineFailure Execution StepOutcome} (failed : ending s = .error e x') :
    (∃ f, e = .fault f) ∨ x'.finished = true := by
  rcases s with _ | ⟨_ | f, _⟩
  · cases failed
  · cases failed
    exact .inr rfl
  · cases failed
    exact .inl ⟨f, rfl⟩

/-- Both parts of a sequence that succeeds succeed. -/
theorem ok_of_bind {f : ExecutionM β} {k : β → ExecutionM α} {a : α} (run : (f >>= k) x = .ok a y) : ∃ b x₁, f x = .ok b x₁ ∧ k b x₁ = .ok a y := by
  rw [run_bind] at run
  cases first : f x with
  | ok b x₁ =>
    rw [first] at run
    exact ⟨b, x₁, rfl, run⟩
  | error e x₁ =>
    rw [first] at run
    cases run

theorem finish_ok {u : Unit} (run : finish x = .ok u y) : y.finished = true := by
  simp only [finish, run_bind, run_get, run_ite, run_modify, note] at run
  split at run <;> cases run <;> rfl

/-- Stalling without an error ends the execution. -/
theorem stall_ok {o : StepOutcome} (run : stall x = .ok o y) : o = .finished ∧ y.finished = true := by
  have isOver {x : Execution} (run : (do finish; return StepOutcome.finished : ExecutionM StepOutcome) x = .ok o y) :
      o = .finished ∧ y.finished = true := by
    obtain ⟨u, x₁, ends, answer⟩ := ok_of_bind run
    cases answer
    exact ⟨rfl, finish_ok ends⟩
  obtain ⟨e, x₁, _, run⟩ := ok_of_bind run
  split at run
  · obtain ⟨blocked, x₂, _, run⟩ := ok_of_bind run
    split at run
    · obtain ⟨report, x₃, _, run⟩ := ok_of_bind run
      obtain ⟨u, x₄, no, _⟩ := ok_of_bind run
      cases no
    · exact isOver run
  · exact isOver run

theorem turn_ok {o : StepOutcome} (run : turn c x = .ok o y) : ∃ pc, o = .executed c pc := by
  obtain ⟨p, x₁, _, run⟩ := ok_of_bind run
  obtain ⟨outcome, x₂, _, run⟩ := ok_of_bind run
  obtain ⟨u, x₃, _, run⟩ := ok_of_bind run
  obtain ⟨u, x₄, _, run⟩ := ok_of_bind run
  cases run
  exact ⟨_, rfl⟩

theorem ok_of_ending {o : StepOutcome} {s : EStateM.Result MachineFailure Execution StepOutcome} (run : ending s = .ok o y) : s = .ok o y := by
  rcases s with _ | ⟨_ | _, _⟩
  · exact run
  · cases run
  · cases run

/-- What a step counts, and that it prints. -/
inductive Counts (x : Execution) : EStateM.Result MachineFailure Execution StepOutcome → Prop
  | rests {y : Execution} (idle : ∀ d, ¬x.Acts d) (keeps : x.Keeps y) (isOver : y.finished = true) : Counts x (.ok .finished y)
  | goes {d : Addr} {p : Nat} {y : Execution} (acts : x.Acts d) (room : x.executed < x.config.maxInstructions)
      (keeps : Keeps { x with executed := x.executed + 1 } y) : Counts x (.ok (.executed d p) y)
  | stalls {e : MachineFailure} {y : Execution} (idle : ∀ d, ¬x.Acts d) (keeps : x.Keeps y)
      (isOver : (∃ f, e = .fault f) ∨ y.finished = true) : Counts x (.error e y)
  | fails {d : Addr} {e : MachineFailure} {y : Execution} (acts : x.Acts d) (keeps : Keeps { x with executed := x.executed + 1 } y)
      (isOver : (∃ f, e = .fault f) ∨ y.finished = true) : Counts x (.error e y)

theorem step_counts (x : Execution) : x.Counts (step x) := by
  rcases over_idle_or_acts x with isOver | ⟨going, idle⟩ | ⟨c, acts⟩
  · rw [step_over isOver]
    exact .rests (fun c acts => by rw [acts.1] at isOver; cases isOver) ⟨rfl, rfl, .refl⟩ isOver
  · have none (c : Addr) (acts : x.Acts c) : False := nomatch idle.symm.trans acts.2
    have scheduled : x.Keeps x.scheduled := ⟨rfl, rfl, .refl⟩
    have keeps := ending_keeps _ (scheduled.trans (Blind.stall.keeps x.scheduled))
    rw [step_idle going idle]
    cases run : ending (stall x.scheduled) with
    | ok o y =>
      rw [run] at keeps
      obtain ⟨rfl, isOver⟩ := stall_ok (ok_of_ending run)
      exact .rests none keeps isOver
    | error e y =>
      rw [run] at keeps
      exact .stalls none keeps (ending_fails run)
  · have counted : Keeps { x with executed := x.executed + 1 } x.counted := ⟨rfl, rfl, .refl⟩
    by_cases full : x.config.maxInstructions < x.executed + 1
    · rw [step_turn acts.1 acts.2, if_pos full]
      exact .fails acts ⟨rfl, rfl, .refl⟩ (.inr rfl)
    · have keeps := ending_keeps _ (counted.trans ((Blind.turn (c := c)).keeps x.counted))
      rw [step_turn acts.1 acts.2, if_neg full]
      cases run : ending (turn c x.counted) with
      | ok o y =>
        rw [run] at keeps
        obtain ⟨pc, rfl⟩ := turn_ok (ok_of_ending run)
        exact .goes acts (Nat.le_of_not_lt full) keeps
      | error e y =>
        rw [run] at keeps
        exact .fails acts keeps (ending_fails run)

/-! ### Executions -/

theorem Halts.unique {s : EStateM.Result MachineFailure Execution Unit} (halts : x.Halts r) (halts' : x.Halts s) : r = s := by
  induction halts with
  | finished last =>
    cases halts' with
    | finished last' => cases last.symm.trans last'; rfl
    | failed last' => cases last.symm.trans last'
    | executed first _ => cases last.symm.trans first
  | failed last =>
    cases halts' with
    | finished last' => cases last.symm.trans last'
    | failed last' => cases last.symm.trans last'; rfl
    | executed first _ => cases last.symm.trans first
  | executed first _ ih =>
    cases halts' with
    | finished last' => cases first.symm.trans last'
    | failed last' => cases first.symm.trans last'
    | executed first' later => cases first.symm.trans first'; exact ih later

theorem stepMany_of_failed {e : MachineFailure} (failed : step x = .error e y) : stepMany (n + 1) x = .error e y := by
  rw [stepMany, run_bind, failed]

theorem stepMany_of_finished (last : step x = .ok .finished y) : stepMany (n + 1) x = .ok () y := by
  rw [stepMany, run_bind, last]
  rfl

theorem stepMany_of_executed (first : step x = .ok (.executed c pc) y) : stepMany (n + 1) x = stepMany n y := by
  rw [stepMany, run_bind, first]

/-- As many steps as the limit allows, and one more, bring every execution to its end. -/
theorem halts_stepMany (enough : x.executed + n = x.config.maxInstructions) : x.Halts (stepMany (n + 1) x) := by
  induction n generalizing x with
  | zero =>
    cases run : step x with
    | error e y => exact stepMany_of_failed run ▸ .failed run
    | ok o y =>
      have counts := step_counts x
      rw [run] at counts
      cases counts with
      | rests => exact stepMany_of_finished run ▸ .finished run
      | goes _ room _ => omega
  | succ n ih =>
    cases run : step x with
    | error e y => exact stepMany_of_failed run ▸ .failed run
    | ok o y =>
      have counts := step_counts x
      rw [run] at counts
      cases counts with
      | rests => exact stepMany_of_finished run ▸ .finished run
      | goes _ _ keeps =>
        rw [stepMany_of_executed run]
        refine .executed run (ih ?_)
        rw [keeps.executed, keeps.config]
        change x.executed + 1 + n = x.config.maxInstructions
        omega

/-- What an execution has counted at its end, what it has printed, and that it is over. -/
structure Closes (x : Execution) (r : EStateM.Result MachineFailure Execution Unit) : Prop where
  counted : x.executed ≤ (finalState r).executed
  bounded : x.executed ≤ x.config.maxInstructions → (finalState r).executed ≤ x.config.maxInstructions + 1
  prints : x.machine.Prints (finalState r).machine
  isOver : (finalState r).finished = true ∨ ∃ f y, r = .error (.fault f) y

theorem Halts.closes (halts : x.Halts r) : x.Closes r := by
  induction halts with
  | @finished x y last =>
    have counts := step_counts x
    rw [last] at counts
    cases counts with
    | rests _ keeps isOver =>
      exact ⟨Nat.le_of_eq keeps.executed.symm, fun le => Nat.le_trans (Nat.le_of_eq keeps.executed) (by omega), keeps.prints, .inl isOver⟩
  | @failed x y e last =>
    have counts := step_counts x
    rw [last] at counts
    cases counts with
    | stalls _ keeps isOver =>
      have same : y.executed = x.executed := keeps.executed
      exact ⟨Nat.le_of_eq same.symm, fun le => Nat.le_trans (Nat.le_of_eq same) (by omega), keeps.prints,
        isOver.symm.imp_right fun ⟨f, same⟩ => ⟨f, y, by rw [same]⟩⟩
    | fails _ keeps isOver =>
      have same : y.executed = x.executed + 1 := keeps.executed
      exact ⟨Nat.le_trans (Nat.le_succ _) (Nat.le_of_eq same.symm), fun le => Nat.le_trans (Nat.le_of_eq same) (by omega), keeps.prints,
        isOver.symm.imp_right fun ⟨f, same⟩ => ⟨f, y, by rw [same]⟩⟩
  | @executed x x' c pc r first _ ih =>
    have counts := step_counts x
    rw [first] at counts
    cases counts with
    | goes _ room keeps =>
      have same : x'.executed = x.executed + 1 := keeps.executed
      have limit : x'.config.maxInstructions = x.config.maxInstructions := congrArg _ keeps.config
      refine ⟨Nat.le_trans (by omega) ih.counted, fun _ => ?_, keeps.prints.trans ih.prints, ih.isOver⟩
      exact limit ▸ ih.bounded (by omega)

/-! ### Two limits -/

/-- An execution that does not reach either limit does the same with both. -/
theorem Halts.limited (halts : x.Halts r) (ordinary : ∀ k y, r ≠ .error (.error (.timeLimitExceeded k)) y) (within : (finalState r).executed ≤ n) :
    (x.limited n).Halts (limitedResult n r) := by
  induction halts with
  | @finished x y last =>
    have counts := step_counts x
    rw [last] at counts
    cases counts with
    | rests idle =>
      have same : step (x.limited n) = limitedResult n (step x) := step_limited fun c acts => absurd acts (idle c)
      rw [last] at same
      exact .finished same
  | @failed x y e last =>
    have same : step (x.limited n) = limitedResult n (step x) := step_limited fun c acts => by
      have counts := step_counts x
      rw [last] at counts
      cases counts with
      | stalls idle => exact absurd acts (idle c)
      | fails _ keeps =>
        have same : y.executed = x.executed + 1 := keeps.executed
        have within : y.executed ≤ n := within
        refine ⟨Nat.lt_of_not_le fun full => ?_, by omega⟩
        obtain ⟨z, exceeds, _⟩ := step_exceeds acts full
        cases last.symm.trans exceeds
        exact ordinary _ _ rfl
    rw [last] at same
    exact .failed same
  | @executed x x' c pc r first later ih =>
    have counts := step_counts x
    rw [first] at counts
    cases counts with
    | goes _ room keeps =>
      have more : x'.executed = x.executed + 1 := keeps.executed
      have counted := later.closes.counted
      have same : step (x.limited n) = limitedResult n (step x) := step_limited fun _ _ => ⟨room, by omega⟩
      rw [first] at same
      exact .executed same (ih ordinary within)

/-- An execution that has reached the limit fails when it is about to execute an instruction. -/
theorem Acts.exceeds (acts : x.Acts c) (reached : x.executed = n) : ∃ z, (x.limited n).Halts (.error (.error (.timeLimitExceeded n)) z) ∧
    z.executed = n + 1 ∧ z.machine.output = x.machine.output := by
  obtain ⟨z, exceeds, counted, -, output⟩ := step_exceeds (x := x.limited n) acts (Nat.le_of_eq reached.symm)
  exact ⟨z, .failed exceeds, counted.trans (congrArg _ reached), output⟩

/-- With a smaller limit the execution fails after as many instructions as the limit allows. -/
theorem Halts.exceeds (halts : x.Halts r) (ordinary : ∀ k y, r ≠ .error (.error (.timeLimitExceeded k)) y) (allowed : x.executed + m = n)
    (beyond : n < (finalState r).executed) : ∃ y z, stepMany m x = .ok () y ∧ y.executed = n ∧ y.machine.Prints (finalState r).machine ∧
      (x.limited n).Halts (.error (.error (.timeLimitExceeded n)) z) ∧ z.executed = n + 1 ∧ z.machine.output = y.machine.output := by
  induction halts generalizing m with
  | @finished x y last =>
    have counts := step_counts x
    rw [last] at counts
    cases counts with
    | rests _ keeps =>
      have same : (finalState (EStateM.Result.ok () y : EStateM.Result MachineFailure Execution Unit)).executed = x.executed := keeps.executed
      omega
  | @failed x y e last =>
    have counts := step_counts x
    rw [last] at counts
    cases counts with
    | stalls _ keeps =>
      have same : y.executed = x.executed := keeps.executed
      have beyond : n < y.executed := beyond
      omega
    | fails acts keeps =>
      have same : y.executed = x.executed + 1 := keeps.executed
      have beyond : n < y.executed := beyond
      obtain rfl : m = 0 := by omega
      obtain ⟨z, exceeds, counted, output⟩ := acts.exceeds allowed
      exact ⟨x, z, rfl, allowed, keeps.prints, exceeds, counted, output⟩
  | @executed x x' c pc r first later ih =>
    have counts := step_counts x
    rw [first] at counts
    cases counts with
    | goes acts room keeps =>
      have more : x'.executed = x.executed + 1 := keeps.executed
      cases m with
      | zero =>
        obtain ⟨z, exceeds, counted, output⟩ := acts.exceeds allowed
        exact ⟨x, z, rfl, allowed, keeps.prints.trans later.closes.prints, exceeds, counted, output⟩
      | succ m =>
        obtain ⟨y, z, steps, counted, prints, halts, rest⟩ := ih ordinary (m := m) (by omega) beyond
        have same : step (x.limited n) = limitedResult n (step x) := step_limited fun _ _ => ⟨room, by omega⟩
        rw [first] at same
        exact ⟨y, z, (stepMany_of_executed first).trans steps, counted, prints, .executed same halts, rest⟩

/-! ### Programs -/

/-- What `run` answers when the steps have come to their end. -/
def printed : EStateM.Result MachineFailure Execution Unit → EStateM.Result MachineFailure Execution String
  | .ok _ x => .ok x.machine.output x
  | .error e x => .error e x

theorem run_eq (x : Execution) : run x = printed (stepMany (x.config.maxInstructions - x.executed + 1) x) := by
  rw [run, run_bind, run_get]
  dsimp only
  rw [run_bind]
  cases stepMany (x.config.maxInstructions - x.executed + 1) x <;> rfl

variable {code : Array Instruction} {config : Config} {journal : Journal}

/-- A program that has been set up has executed nothing. -/
theorem fresh_of_start (started : start code config journal = .ok x) : x.executed = 0 ∧ x.config = config := by
  unfold start at started
  split at started
  · cases started
  · split at started
    · cases started
    · cases started
      exact ⟨rfl, rfl⟩

/-- The run of a program is what its steps come to. -/
theorem halts_run (started : start code config journal = .ok x) : ∃ r, x.Halts r ∧ run x = printed r := by
  obtain ⟨none, same⟩ := fresh_of_start started
  refine ⟨_, halts_stepMany (n := x.config.maxInstructions - x.executed) (by omega), run_eq x⟩

theorem Halts.run_eq (started : start code config journal = .ok x) (halts : x.Halts r) : run x = printed r := by
  obtain ⟨s, ends, same⟩ := halts_run started
  rw [same, halts.unique ends]

end Execution

end FiberMachine
