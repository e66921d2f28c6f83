import FiberMachine.Proofs.Blocking

/-!
# Deadlocks

A deadlock is reported exactly when no context can run while the main context has not ended. The report has every registered
context in the order of their creation, with the instruction at which it has blocked. So a program that ends without an error has
ended its main context.
-/

namespace FiberMachine

open Ideal Heap

/-- In this step the main context ends. -/
def Entry.EndsMain (entry : Entry) : Prop :=
  ∃ n, entry.outcome = .executed entry.before.main n ∧ entry.before.Faces entry.before.main n .done

/-- The report tells of each registered context where it has blocked. -/
structure Execution.Deadlocked (x : Execution) (history : List Entry) (report : List BlockedContext) : Prop where
  each : List.Forall₂ (fun c b => Context.isBlocked c x.machine.heap = .ok true ∧ Context.id c x.machine.heap = .ok b.id ∧
    ∃ entry i, Entry.LastOf entry history c b.pc i ∧ b.instruction = some i) x.machine.heap.contexts report
  once : x.machine.heap.contexts.Nodup
  /-- Contexts are numbered in the order of their creation. -/
  order : report.Pairwise fun b b' => b.id < b'.id

variable {w w' : World} {t t' : Course} {x x' : Execution} {c : Ref} {a n m : Nat} {i j : Instruction} {as : List Nat}
  {log events : List Event} {outcome done : StepOutcome} {code : Array Instruction} {config : Config} {journal : Journal}
  {history : List Entry} {entry : Entry} {report : List BlockedContext}

/-! ### Observations -/

/-- What is observed of each. -/
theorem HeapReader.mapM_ok {α β : Type} {f : α → HeapReader β} {P : α → β → Prop} {l : List α} {h : Heap}
    (each : ∀ a ∈ l, ∃ b, f a h = .ok b ∧ P a b) : ∃ bs, l.mapM f h = .ok bs ∧ List.Forall₂ P l bs := by
  induction l with
  | nil => exact ⟨[], rfl, .nil⟩
  | cons a rest ih =>
    obtain ⟨b, read, p⟩ := each a List.mem_cons_self
    obtain ⟨bs, reads, ps⟩ := ih fun a ha => each a (List.mem_cons_of_mem _ ha)
    exact ⟨b :: bs, by simp only [List.mapM_cons, HeapReader.run_bind, read, reads, HeapReader.run_pure], .cons p ps⟩

/-- What an execution observes of its heap. -/
theorem Execution.run_look {α : Type} {look : HeapReader α} {b : α} (answer : look x.machine.heap = .ok b)
    (same : x'.machine.heap = x.machine.heap) : (liftM look : ExecutionM α) x' = .ok b x' := by
  rw [← same] at answer
  change onMachine (Machine.onHeap (liftM look)) x' = _
  simp only [onMachine, Machine.onHeap, HeapM.run_lift, answer]

/-- A step that finds no context that can run, while the main context waits. -/
theorem Execution.step_stalled (going : x.finished = false) (idle : x.machine.scheduler.dispatch.current = none)
    (waits : x.mainDone = false) (detect : x.config.detectDeadlock = true)
    (blocked : blockedContexts x.machine.heap = .ok as) (some : as ≠ [])
    (reported : deadlockReport x.code as x.machine.heap = .ok report) : ∃ x', step x = .error (.error (.deadlock report)) x' := by
  have empty : as.isEmpty = false := by cases as <;> simp_all
  simp only [step, going, advance, schedule, stall, abort, run_bind, run_modify, run_get, run_ite, run_throw, idle, waits, detect,
    run_look blocked, run_look reported, empty, Bool.not_false, Bool.true_and, if_true, Bool.false_eq_true, if_false]
  exact ⟨_, rfl⟩

/-! ### The end of the main context -/

namespace Ideal

theorem Engine.execute_done {e : Engine} {depth pc : Nat} : Safe Any (Engine.execute depth c pc .done) e fun p _ => p.1 = .finish :=
  Engine.execute_safe (Safe.bind (Q := fun o _ => o = .finish) (.pure rfl) fun _ _ same => .pure same)

end Ideal

/-- What a course that describes a run keeps from its program, and what has become of the main context. -/
structure Accounted (code : Array Instruction) (config : Config) (t : Course) (history : List Entry) : Prop where
  orderly : Course.Orderly t
  code : t.code = code
  detect : t.detect = config.detectDeadlock
  limit : t.limit = config.maxInstructions
  ended : t.mainDone = true ↔ ∃ entry ∈ history, entry.EndsMain

/-- The main context ends in a step exactly when it executes the instruction for that. -/
theorem Stepped.ends {f : Fiber} {o : Outcome} {e : Engine} (stepped : Stepped w t x log outcome w' t' x' (.executed c f.pc) events)
    (sim : Sim w t x) (orderly : Course.Orderly t) (going : t.mainDone = false)
    (executed : Course.Executed (w.capacity + 1) t c f i o events e t') :
    (o = .finish ∧ c = t.main) ↔ Entry.EndsMain ⟨x, outcome⟩ := by
  obtain ⟨home, _⟩ := sim.main going
  obtain ⟨a, ha, faces⟩ := sim.faces executed.turn ⟨f, executed.fiber, rfl⟩ executed.instruction
  have rep := sim.machine.rep
  have same := stepped.same
  cases same with
  | executed home' =>
    cases rep.single _ _ _ home' ha
    constructor
    · rintro ⟨finish, rfl⟩
      cases rep.single _ _ _ home ha
      exact ⟨f.pc, rfl, executed.finishes orderly.unending finish ▸ faces⟩
    · rintro ⟨n, own, done⟩
      obtain ⟨here, _⟩ : a = x.main ∧ f.pc = n := StepOutcome.executed.inj own
      subst here
      obtain ⟨_, rfl⟩ := faces.unique done
      exact ⟨Engine.execute_done.ok executed.run, rep.unique ha home⟩

theorem Accounted.step (accounted : Accounted code config t history) (followed : Followed w t x log history) (own : x.SelectsOwn)
    (fits : code.size < hostLimit) (small : config.maxInstructions < wordLimit)
    (stepped : Stepped w t x log outcome w' t' x' done events) : Accounted code config t' (history ++ [⟨x, outcome⟩]) := by
  have sane := own.sane followed.sim (w.capacity + 1)
  have orderly := Course.step_orderly followed.steady sane accounted.orderly (accounted.code ▸ fits) (accounted.limit ▸ small) stepped.run
  have both : (∃ entry ∈ history ++ [⟨x, outcome⟩], entry.EndsMain) ↔ t.mainDone = true ∨ Entry.EndsMain ⟨x, outcome⟩ := by
    rw [accounted.ended]
    simp [or_and_right, exists_or]
  rcases Course.step_executed followed.steady sane stepped.run with ⟨rfl, _, rests⟩ | ⟨c, f, i, o, e, rfl, executed⟩
  · have silent : ¬Entry.EndsMain ⟨x, outcome⟩ := by
      rintro ⟨n, executed, _⟩
      have same := stepped.same
      cases same
      cases executed
    have mainDone : t'.mainDone = t.mainDone := by cases rests <;> rfl
    refine ⟨orderly, ?_, ?_, ?_, ?_⟩
    · rw [← accounted.code]; cases rests <;> rfl
    · rw [← accounted.detect]; cases rests <;> rfl
    · rw [← accounted.limit]; cases rests <;> rfl
    · rw [both, mainDone, or_iff_left silent]
  · refine ⟨orderly, executed.code.trans accounted.code, executed.detect.trans accounted.detect, executed.limit.trans accounted.limit, ?_⟩
    rw [both, executed.mainDone, Bool.or_eq_true, Bool.and_eq_true, decide_eq_true_eq, beq_iff_eq]
    refine or_congr_right' fun going => ?_
    exact stepped.ends followed.sim accounted.orderly (Bool.eq_false_iff.mpr going) executed

theorem Run.accounted (run : Run code config journal history x) (fits : code.size < hostLimit) (small : config.maxInstructions < wordLimit) :
    ∃ w t log, Followed w t x log history ∧ Accounted code config t history :=
  run.traced (P := fun _ t _ history _ => Accounted code config t history)
    (fun _ _ _ _ => ⟨Course.start_orderly code config, rfl, rfl, rfl, by simp [Course.start]⟩)
    fun followed accounted own stepped => accounted.step followed own fits small stepped

/-! ### The report -/

/-- What a context executed last is in the program. -/
theorem Run.last_instruction (run : Run code config journal history x) (fits : code.size < hostLimit)
    (small : config.maxInstructions < wordLimit) (last : entry.LastOf history a n i) : code[n]? = some i := by
  obtain ⟨earlier, later, rfl, _, faces, _⟩ := last
  obtain ⟨w, t, log, followed, accounted⟩ := run.before.1.accounted fits small
  rw [← accounted.code, ← followed.sim.code, faces.instruction]

/-- The contexts are registered in the order of their numbers. -/
theorem Sim.numbers_increase (sim : Sim w t x) (steady : Steady log t) (orderly : Course.Orderly t)
    (numbered : List.Forall₂ (fun c b => Context.id c x.machine.heap = .ok b.id) x.machine.heap.contexts report) :
    report.Pairwise fun b b' => b.id < b'.id := by
  have rep := sim.machine.rep
  have same : t.engine.store.contexts.map t.engine.store.idOf = report.map BlockedContext.id := by
    rw [← List.forall₂_eq_eq_eq, List.forall₂_map_left_iff, List.forall₂_map_right_iff]
    have contexts : List.Forall₂ (fun c a => c ∈ t.engine.store.contexts ∧ w.home c a) t.engine.store.contexts x.machine.heap.contexts :=
      (List.forall₂_and_left _ _).mpr ⟨fun _ hc => hc, rep.contexts⟩
    refine (related_trans contexts numbered).imp fun c b ⟨a, ⟨hc, ha⟩, answer⟩ => ?_
    obtain ⟨f, hf, number⟩ := steady.linked.typed.hasId (steady.linked.typed.contexts c hc)
    rw [rep.id_eq ha hf] at answer
    rw [← number]
    exact Except.ok.inj answer
  have increasing := orderly.numbers
  rwa [← List.pairwise_map (f := t.engine.store.idOf) (R := (· < ·)), same, List.pairwise_map] at increasing

/-- If no context can run, then all are blocked, and the report tells where. -/
theorem Run.deadlocked (run : Run code config journal history x) (fits : code.size < hostLimit)
    (small : config.maxInstructions < wordLimit) (idle : x.machine.scheduler.dispatch.current = none) :
    ∃ report, Execution.blockedContexts x.machine.heap = .ok x.machine.heap.contexts ∧
      Execution.deadlockReport x.code x.machine.heap.contexts x.machine.heap = .ok report ∧ x.Deadlocked history report := by
  obtain ⟨w, t, log, followed, accounted⟩ := run.accounted fits small
  have sim := followed.sim
  have steady := followed.steady
  have rep := sim.machine.rep
  have none : t.engine.scheduler.dispatch.current = none := by
    have current := sim.machine.dispatch.current
    rw [idle] at current
    generalize t.engine.scheduler.dispatch.current = y at current ⊢
    cases current
    rfl
  obtain ⟨blocked, read, homes⟩ := sim.blocked steady
  rw [Course.all_blocked steady none] at homes
  cases List.right_unique_forall₂' rep.biUnique.2 homes rep.contexts
  obtain ⟨report, reported, each⟩ : ∃ report, Execution.deadlockReport x.code x.machine.heap.contexts x.machine.heap = .ok report ∧
      List.Forall₂ (fun c b => Context.isBlocked c x.machine.heap = .ok true ∧ Context.id c x.machine.heap = .ok b.id ∧
        ∃ entry i, Entry.LastOf entry history c b.pc i ∧ b.instruction = some i) x.machine.heap.contexts report := by
    refine HeapReader.mapM_ok fun a ha => ?_
    obtain ⟨c, hc, home⟩ := related_left rep.contexts ha
    obtain ⟨f, hf⟩ := steady.linked.typed.canonical (steady.linked.typed.contexts c hc)
    have isBlocked : Context.isBlocked a x.machine.heap = .ok true := by
      refine (sim.blocked_iff steady hc home).mpr ?_
      rw [← Course.all_blocked steady none] at hc
      exact (List.mem_filter.mp hc).2
    obtain ⟨entry, n, i, last, pc, _⟩ := run.blocked_last ha isBlocked
    have instruction := run.last_instruction fits small last
    have inside := (Array.getElem?_eq_some_iff.mp instruction).1
    have behind : wrap (n + 1) = n + 1 := Nat.mod_eq_of_lt (Nat.lt_of_le_of_lt inside (fits.trans (by decide)))
    refine ⟨⟨f.id, n, x.code[n]?⟩, ?_, isBlocked, rep.id_eq home hf, entry, i, last, ?_⟩
    · simp only [Execution.describeBlocked, HeapReader.run_bind, HeapReader.run_pure, pc, behind, rep.id_eq home hf, Nat.add_sub_cancel]
    · rw [sim.code, accounted.code, instruction]
  exact ⟨report, read, reported, each, (rep.nodup_iff rep.contexts).mp steady.balanced.nodup,
    sim.numbers_increase steady accounted.orderly (each.imp fun _ _ found => found.2.1)⟩

/-- A deadlock is reported only if no context can run and the main context waits. -/
theorem Sim.idle_of_deadlock (sim : Sim w t x) (steady : Steady log t) (own : x.SelectsOwn)
    (run : Execution.step x = .error (.error (.deadlock report)) x') :
    x.machine.scheduler.dispatch.current = none ∧ x.mainDone = false := by
  rcases sim.failed steady own run with ⟨k, same, size, full⟩ | ⟨k, t', same, failed, _⟩ | ⟨f, t', same, _⟩
  · cases same
    cases full
  · cases same
    obtain ⟨_, waits, idle⟩ := Course.step_reports failed
    have none := idle report rfl
    refine ⟨?_, sim.mainDone.trans (waits report rfl).1⟩
    have current := sim.machine.dispatch.current
    rw [none] at current
    generalize x.machine.scheduler.dispatch.current = y at current ⊢
    cases current
    rfl
  · cases same

/-! ### Running to the end -/

/-- What a step that executes an instruction counts, and what it means that a step executes nothing. -/
theorem Stepped.counted (stepped : Stepped w t x log outcome w' t' x' done events) (sim : Sim w t x) (steady : Steady log t)
    (own : x.SelectsOwn) : (outcome = .finished ∧ x'.finished = true) ∨
      (∃ c n, outcome = .executed c n) ∧ x'.executed = x.executed + 1 := by
  have same := stepped.same
  rcases Course.step_executed steady (own.sane sim (w.capacity + 1)) stepped.run with ⟨rfl, _, rests⟩ | ⟨c, f, i, o, e, rfl, executed⟩
  · cases same
    refine .inl ⟨rfl, stepped.sim.finished.trans ?_⟩
    cases rests with
    | isOver finished => exact finished
    | stalls => rfl
  · cases same
    exact .inr ⟨⟨_, _, rfl⟩, by rw [stepped.sim.executed, executed.executed, sim.executed]⟩

/-- A run goes on as long as it succeeds, and then it is over. -/
theorem Run.stepMany_over (run : Run code config journal history x) (fits : code.size < hostLimit) (small : config.maxInstructions < wordLimit)
    (own : ∀ later y, Run code config journal (history ++ later) y → y.SelectsOwn)
    (enough : x.executed + n = config.maxInstructions + 1) (ran : Execution.stepMany n x = .ok () x') :
    ∃ later, Run code config journal (history ++ later) x' ∧ x'.finished = true := by
  induction n generalizing history x with
  | zero =>
    obtain ⟨w, t, log, followed, accounted⟩ := run.accounted fits small
    have counted := accounted.orderly.counted
    rw [accounted.limit, ← followed.sim.executed] at counted
    omega
  | succ n ih =>
    have mine := own [] x ((List.append_nil history).symm ▸ run)
    rw [Execution.stepMany, run_bind] at ran
    cases step : Execution.step x with
    | error f y =>
      rw [step] at ran
      cases ran
    | ok outcome y =>
      rw [step] at ran
      have next := run.step mine step
      obtain ⟨w, t, log, followed⟩ := run.followed
      obtain ⟨w', t', done, events, stepped⟩ := followed.sim.stepped followed.steady mine step
      rcases stepped.counted followed.sim followed.steady mine with ⟨rfl, isOver⟩ | ⟨⟨c, k, rfl⟩, counted⟩
      · cases ran
        exact ⟨_, next, isOver⟩
      · obtain ⟨later, longer, isOver⟩ := ih next (fun later y run => own _ y (by rwa [List.append_assoc] at run)) (by omega) ran
        exact ⟨_, by rwa [List.append_assoc] at longer, isOver⟩

/-- Deadlocks are detected exactly. A step that is not the end reports a deadlock if and only if the main context has not executed
`done` and no context can run; and then every registered context is blocked and the report tells of each of them, in the order of
their creation, the instruction at which it has blocked. So a program that is run to its end without an error has executed
`done` in its main context. -/
theorem Run.deadlock_exact (run : Run code config journal history x) (detect : config.detectDeadlock = true)
    (fits : code.size < hostLimit) (small : config.maxInstructions < wordLimit) :
    (x.finished = false → x.SelectsOwn →
      ((∃ report x', Execution.step x = .error (.error (.deadlock report)) x') ↔
        ¬(∃ entry ∈ history, entry.EndsMain) ∧ x.machine.scheduler.current = none ∧ x.machine.scheduler.ready = []) ∧
      ∀ report x', Execution.step x = .error (.error (.deadlock report)) x' → x.Deadlocked history report) ∧
    ((∀ later y, Run code config journal (history ++ later) y → y.SelectsOwn) → ∀ output x', Execution.run x = .ok output x' →
      ∃ later, Run code config journal (history ++ later) x' ∧ x'.finished = true ∧ ∃ entry ∈ history ++ later, entry.EndsMain) := by
  obtain ⟨w, t, log, followed, accounted⟩ := run.accounted fits small
  have sim := followed.sim
  have ended : x.mainDone = false ↔ ¬∃ entry ∈ history, entry.EndsMain := by
    rw [← accounted.ended, sim.mainDone, Bool.not_eq_true]
  constructor
  · intro going own
    -- the step in a state in which no context can run
    have stalled (idle : x.machine.scheduler.dispatch.current = none) (waits : x.mainDone = false) :
        ∃ report x', Execution.step x = .error (.error (.deadlock report)) x' ∧ x.Deadlocked history report := by
      obtain ⟨report, blocked, reported, deadlocked⟩ := run.deadlocked fits small idle
      have main := accounted.orderly.registered (sim.mainDone ▸ waits)
      have some : x.machine.heap.contexts ≠ [] := by
        intro none
        have homes := sim.machine.rep.contexts.length_eq
        rw [none, List.length_nil, List.length_eq_zero_iff] at homes
        rw [homes] at main
        cases main
      obtain ⟨x', failed⟩ := Execution.step_stalled going idle waits (sim.detect.trans (accounted.detect.trans detect)) blocked some reported
      exact ⟨report, x', failed, deadlocked⟩
    refine ⟨⟨fun ⟨report, x', failed⟩ => ?_, fun ⟨waits, idle⟩ => ?_⟩, fun report x' failed => ?_⟩
    · obtain ⟨idle, waits⟩ := sim.idle_of_deadlock followed.steady own failed
      exact ⟨ended.mp waits, Scheduler.dispatch_none.mp idle⟩
    · obtain ⟨report, x', failed, _⟩ := stalled (Scheduler.dispatch_none.mpr idle) (ended.mpr waits)
      exact ⟨report, x', failed⟩
    · obtain ⟨idle, waits⟩ := sim.idle_of_deadlock followed.steady own failed
      obtain ⟨report', x'', failed', deadlocked⟩ := stalled idle waits
      rw [failed] at failed'
      cases failed'
      exact deadlocked
  · intro own output x' ran
    have counted := accounted.orderly.counted
    rw [accounted.limit, ← sim.executed] at counted
    have limit : x.config.maxInstructions = config.maxInstructions := sim.limit.trans accounted.limit
    rw [Execution.run, run_bind, run_get] at ran
    dsimp only at ran
    rw [run_bind, limit] at ran
    cases many : Execution.stepMany (config.maxInstructions - x.executed + 1) x with
    | error f y =>
      rw [many] at ran
      cases ran
    | ok _ y =>
      rw [many] at ran
      cases ran
      obtain ⟨later, longer, isOver⟩ := run.stepMany_over fits small own (by omega) many
      obtain ⟨_, t', _, followed', accounted'⟩ := longer.accounted fits small
      have done := accounted'.orderly.isOver (followed'.sim.finished ▸ isOver) (accounted'.detect.trans detect)
      exact ⟨later, longer, isOver, accounted'.ended.mp done⟩

/-- Whether the next step reports a deadlock. -/
def Execution.reports (x : Execution) : Bool :=
  match Execution.step x with
  | .error (.error (.deadlock _)) _ => true
  | _ => false

/-- A program that receives on a channel to which nobody sends. -/
theorem Run.deadlock_exact_recv : ∃ history x report x', Run #[.makeChan false, .recv] { heapWords := 128 } (.start none) history x ∧
    Execution.step x = .error (.error (.deadlock report)) x' ∧ x.Deadlocked history report := by
  obtain ⟨history, x, run, found⟩ := Run.of_follow (P := fun _ x => !x.finished && x.selectsOwn && x.reports) #[.makeChan false, .recv] { heapWords := 128 } (.start none) 2 (by decide +kernel)
  simp only [Bool.and_eq_true, Bool.not_eq_true'] at found
  obtain ⟨⟨going, own⟩, failed⟩ := found
  unfold Execution.reports at failed
  split at failed
  next report x' stops =>
    have detected := (run.deadlock_exact rfl (by decide) (by decide)).1 going (Execution.selectsOwn_sound own)
    exact ⟨history, x, report, x', run, stops, detected.2 report x' stops⟩
  next => cases failed

end FiberMachine
