import FiberMachine.Proofs.Elsewhere
import FiberMachine.Proofs.Limits
import FiberMachine.Proofs.Runs

/-!
# Round robin

The scheduler is a queue. Contexts are put at its back, when they are new, when they no longer have to wait and when their time is up, and
get their turns from its front; so the turns come in the order in which the contexts were queued, and who has not had a turn is still in
the queue. A turn ends when the context cannot go on or when its time slice is used up, and never earlier or later. What the turns are is
told here from the operations and their answers alone.
-/

namespace FiberMachine

namespace Scheduler

/-- What is done to a scheduler, with what it answers. -/
inductive Operation where
  /-- A context is put in the queue, because it is new or need not wait any more. -/
  | queued (context : Addr)
  /-- The scheduler is asked for the context to run. -/
  | asked (answer : Option Addr)
  /-- An instruction is counted. -/
  | ticked (spent : Bool)
  | yielded
  | dropped

/-- How the scheduler does it. -/
inductive Does (s : Scheduler) : Operation → Scheduler → Prop
  | queued (c : Addr) : Does s (.queued c) (s.enqueue c)
  | asked {answer : Option Addr} (answers : s.dispatch.current = answer) : Does s (.asked answer) s.dispatch
  | ticked {spent : Bool} (answers : s.tick.isSpent = spent) : Does s (.ticked spent) s.tick
  | yielded : Does s .yielded s.yieldCurrent
  | dropped : Does s .dropped s.dropCurrent

/-- Where the engine is: between two instructions, executing one, or about to take the turn from a context whose time is up. -/
inductive Phase where
  | between
  | running
  | spent
  deriving DecidableEq

/-- What the engine does next. It asks for a context before each instruction and counts the instruction afterwards, and takes the turn from
the context exactly if it is told that the time is up; or it gives up the turn of a context that cannot go on. Contexts are queued at any
time. -/
inductive Expects : Phase → Operation → Phase → Prop
  | queued (p : Phase) (c : Addr) : Expects p (.queued c) p
  | idle : Expects .between (.asked none) .between
  | turn (c : Addr) : Expects .between (.asked (some c)) .running
  | more : Expects .running (.ticked false) .between
  | up : Expects .running (.ticked true) .spent
  | yield : Expects .spent .yielded .between
  | drop : Expects .running .dropped .between

/-- The next operation of the engine, and what becomes of the scheduler. -/
def Protocol (x : Phase × Scheduler) (e : Operation) (y : Phase × Scheduler) : Prop := Expects x.1 e y.1 ∧ Does x.2 e y.2

theorem follows_cons {p p' : Phase} {s s' : Scheduler} {e : Operation} {es : List Operation} {y : Phase × Scheduler} (expects : Expects p e p')
    (does : Does s e s') (rest : Steps Protocol (p', s') es y) : Steps Protocol (p, s) (e :: es) y := .cons ⟨expects, does⟩ rest

/-! ### Turns -/

/-- A turn, with the number of instructions for which it was given. -/
structure Turn where
  context : Addr
  instructions : Nat
  /-- The turn was taken from the context because its time was up. -/
  preempted : Bool
  deriving DecidableEq

/-- What the operations come to. -/
structure Ledger where
  /-- The contexts put in the queue, the first one first. -/
  queued : List Addr
  /-- The turns that are over, the first one first. -/
  past : List Turn
  present : Option Turn

namespace Ledger

/-- Nothing has been done. -/
def empty : Ledger := ⟨[], [], none⟩

/-- All turns. -/
def turns (l : Ledger) : List Turn := l.past ++ l.present.toList

/-- The turn is over. -/
def close (l : Ledger) (t : Turn) : Ledger := { l with past := l.past ++ [t], present := none }

/-- After one more operation. A context that gets the turn although no turn is over gets one more instruction. -/
def add (l : Ledger) : Operation → Ledger
  | .queued c => { l with queued := l.queued ++ [c] }
  | .asked none | .ticked _ => l
  | .asked (some c) =>
    match l.present with
    | some t => { l with present := some { t with instructions := t.instructions + 1 } }
    | none => { l with present := some ⟨c, 1, false⟩ }
  | .yielded =>
    match l.present with
    | some t => { l.close { t with preempted := true } with queued := l.queued ++ [t.context] }
    | none => l
  | .dropped =>
    match l.present with
    | some t => l.close t
    | none => l

end Ledger

/-- The ledger of a sequence of operations. -/
def ledger (events : List Operation) : Ledger := events.foldl Ledger.add .empty

/-- The contexts that were given the next instruction. -/
def granted (events : List Operation) : List Addr := events.filterMap fun
  | .asked answer => answer
  | _ => none

theorem granted_append (first next : List Operation) : granted (first ++ next) = granted first ++ granted next := List.filterMap_append

theorem granted_queued (cs : List Addr) : granted (cs.map .queued) = [] := by
  induction cs with
  | nil => rfl
  | cons c cs ih => exact ih

/-- The contexts of the instructions of a turn. -/
def Turn.steps (t : Turn) : List Addr := List.replicate t.instructions t.context

variable {n : Nat} {p p' : Phase} {s s' : Scheduler} {e : Operation} {events : List Operation} {l : Ledger} {cs : List Addr}

/-- The ledger is in accord with the scheduler, and with the contexts that were given an instruction. -/
structure Accord (n : Nat) (p : Phase) (s : Scheduler) (l : Ledger) (cs : List Addr) : Prop where
  slice : s.timeSlice = max n 1
  order : l.turns.map Turn.context ++ s.ready = l.queued
  current : s.current = l.present.map Turn.context
  steps : cs = l.turns.flatMap Turn.steps
  /-- The slice is counted from the start of the turn, and an instruction is counted when it is over. -/
  used : ∀ t, l.present = some t → t.preempted = false ∧ t.instructions = s.sliceUsed + if p = .running then 1 else 0
  room : ∀ t, l.present = some t → t.instructions + (if p = .between then 1 else 0) ≤ max n 1
  busy : p ≠ .between → l.present.isSome
  up : p = .spent → s.sliceUsed = max n 1
  past : ∀ t ∈ l.past, t.instructions ≤ max n 1 ∧ (t.preempted = true → t.instructions = max n 1)

theorem Accord.start (n : Nat) : Accord n .between (start n) .empty [] where
  slice := rfl
  order := rfl
  current := rfl
  steps := rfl
  used := nofun
  room := nofun
  busy := nofun
  up := nofun
  past := nofun

namespace Accord

theorem queues (accord : Accord n p s l cs) (c : Addr) : Accord n p (s.enqueue c) (l.add (.queued c)) cs :=
  { accord with
    order := by
      show l.turns.map Turn.context ++ (s.ready ++ [c]) = l.queued ++ [c]
      rw [← accord.order, List.append_assoc] }

/-- The turn under way goes on. -/
theorem goes {t : Turn} (accord : Accord n .between s l cs) (present : l.present = some t) :
    Accord n .running s (l.add (.asked (some t.context))) (cs ++ [t.context]) := by
  have eq : l.add (.asked (some t.context)) = { l with present := some { t with instructions := t.instructions + 1 } } := by
    simp only [Ledger.add, present]
  obtain ⟨fresh, counted⟩ := accord.used t present
  have room := accord.room t present
  rw [eq]
  refine ⟨accord.slice, ?_, ?_, ?_, ?_, ?_, fun _ => rfl, nofun, accord.past⟩
  · simpa [Ledger.turns, present] using accord.order
  · simpa [present] using accord.current
  · simp [accord.steps, Ledger.turns, present, Turn.steps, List.replicate_succ']
  · rintro _ ⟨⟩
    exact ⟨fresh, by simpa using counted⟩
  · rintro _ ⟨⟩
    simpa using room

/-- A turn begins. -/
theorem begins {c : Addr} {rest : List Addr} (accord : Accord n .between s l cs) (none : l.present = none) (ready : s.ready = c :: rest) :
    Accord n .running { s with ready := rest, current := some c, sliceUsed := 0 } (l.add (.asked (some c))) (cs ++ [c]) := by
  have eq : l.add (.asked (some c)) = { l with present := some ⟨c, 1, false⟩ } := by simp only [Ledger.add, none]
  rw [eq]
  refine ⟨accord.slice, ?_, rfl, ?_, ?_, ?_, fun _ => rfl, nofun, accord.past⟩
  · simpa [Ledger.turns, none, ready] using accord.order
  · simp [accord.steps, Ledger.turns, none, Turn.steps]
  · rintro _ ⟨⟩
    exact ⟨rfl, rfl⟩
  · rintro _ ⟨⟩
    simp

/-- An instruction is counted. -/
theorem ticks (accord : Accord n .running s l cs) : Accord n (if s.tick.isSpent then .spent else .between) s.tick l cs := by
  obtain ⟨t, present⟩ := Option.isSome_iff_exists.mp (accord.busy nofun)
  obtain ⟨fresh, counted⟩ := accord.used t present
  have room := accord.room t present
  have slice := accord.slice
  have spent : s.tick.isSpent = true ↔ s.timeSlice ≤ s.sliceUsed + 1 := decide_eq_true_iff
  simp only [if_true, reduceCtorEq, if_false, Nat.add_zero] at counted room
  by_cases up : s.tick.isSpent
  · rw [if_pos up]
    refine ⟨slice, accord.order, accord.current, accord.steps, fun u hu => ?_, fun u hu => ?_, fun _ => accord.busy nofun, fun _ => ?_,
      accord.past⟩
    · cases present.symm.trans hu
      exact ⟨fresh, counted⟩
    · cases present.symm.trans hu
      exact room
    · show s.sliceUsed + 1 = _
      have full := spent.mp up
      omega
  · rw [if_neg up]
    refine ⟨slice, accord.order, accord.current, accord.steps, fun u hu => ?_, fun u hu => ?_, nofun, nofun, accord.past⟩
    · cases present.symm.trans hu
      exact ⟨fresh, counted⟩
    · cases present.symm.trans hu
      show t.instructions + 1 ≤ _
      have below := Nat.not_le.mp fun full => up (spent.mpr full)
      omega

/-- A turn is over. -/
theorem closes {t : Turn} (accord : Accord n p s l cs) (present : l.present = some t) (b : Bool)
    (full : b = true → t.instructions = max n 1) :
    Accord n .between s.dropCurrent (l.close { t with preempted := b }) cs := by
  have most : t.instructions ≤ max n 1 := Nat.le_trans (Nat.le_add_right ..) (accord.room t present)
  refine ⟨accord.slice, ?_, rfl, ?_, nofun, nofun, nofun, nofun, fun u hu => ?_⟩
  · simpa [Ledger.turns, Ledger.close, present, dropCurrent] using accord.order
  · simp [accord.steps, Ledger.turns, Ledger.close, present, Turn.steps]
  · rcases List.mem_append.mp hu with old | new
    · exact accord.past u old
    · cases List.mem_singleton.mp new
      exact ⟨most, full⟩

/-- The context whose time is up is queued. -/
theorem yields (accord : Accord n .spent s l cs) : Accord n .between s.yieldCurrent (l.add .yielded) cs := by
  obtain ⟨t, present⟩ := Option.isSome_iff_exists.mp (accord.busy nofun)
  obtain ⟨-, counted⟩ := accord.used t present
  have current : s.current = some t.context := by rw [accord.current, present]; rfl
  have closed := (accord.closes present true fun _ => counted.trans (accord.up rfl)).queues t.context
  have eq : s.yieldCurrent = s.dropCurrent.enqueue t.context := by simp only [yieldCurrent, current]; rfl
  have same : l.add .yielded = (l.close { t with preempted := true }).add (.queued t.context) := by simp only [Ledger.add, present]; rfl
  rw [eq, same]
  exact closed

/-- The scheduler answers with the context whose turn it is, and otherwise begins the turn of the first one in the queue. -/
theorem asks (accord : Accord n .between s l cs) : Accord n (if s.dispatch.current.isSome then .running else .between) s.dispatch
    (l.add (.asked s.dispatch.current)) (cs ++ s.dispatch.current.toList) := by
  cases present : l.present with
  | some t =>
    have current : s.current = some t.context := by rw [accord.current, present]; rfl
    rw [dispatch_of_current current, current]
    exact accord.goes present
  | none =>
    have current : s.current = none := by rw [accord.current, present]; rfl
    cases ready : s.ready with
    | cons c rest =>
      have eq : s.dispatch = { s with ready := rest, current := some c, sliceUsed := 0 } := by simp [dispatch, current, ready]
      rw [eq]
      exact accord.begins present ready
    | nil =>
      have eq : s.dispatch = { s with ready := [], current := none, sliceUsed := 0 } := by simp [dispatch, current, ready]
      have order := accord.order
      rw [ready] at order
      rw [eq]
      refine ⟨accord.slice, order, by rw [Ledger.add, present]; rfl, ?_, ?_, ?_, ?_, ?_, accord.past⟩
      · simpa [Ledger.add] using accord.steps
      · simp [Ledger.add, present]
      · simp [Ledger.add, present]
      · simp
      · simp

/-- Each operation of the engine is entered correctly. -/
theorem step (accord : Accord n p s l cs) (expects : Expects p e p') (does : Does s e s') : Accord n p' s' (l.add e) (cs ++ granted [e]) := by
  cases expects with
  | queued _ c =>
    cases does
    exact (List.append_nil cs).symm ▸ accord.queues c
  | idle =>
    cases does with
    | asked none => simpa [none, granted] using accord.asks
  | turn c =>
    cases does with
    | asked some => simpa [some, granted] using accord.asks
  | more =>
    cases does with
    | ticked no => simpa [no, Ledger.add, granted] using accord.ticks
  | up =>
    cases does with
    | ticked yes => simpa [yes, Ledger.add, granted] using accord.ticks
  | yield =>
    cases does
    exact (List.append_nil cs).symm ▸ accord.yields
  | drop =>
    cases does
    obtain ⟨t, present⟩ := Option.isSome_iff_exists.mp (accord.busy nofun)
    have fresh := (accord.used t present).1
    have closed := accord.closes present t.preempted fun yes => absurd (fresh.symm.trans yes) Bool.false_ne_true
    simpa [Ledger.add, present, granted] using closed

end Accord

/-- So is every sequence of operations. -/
theorem Accord.follow {x y : Phase × Scheduler} (accord : Accord n x.1 x.2 l cs) (follows : Steps Protocol x events y) :
    Accord n y.1 y.2 (events.foldl Ledger.add l) (cs ++ granted events) := by
  induction follows generalizing l cs with
  | nil => simpa [granted] using accord
  | @cons x₀ x₁ x₂ e es first _ ih =>
    have next := ih (accord.step first.1 first.2)
    rwa [List.foldl_cons, ← List.singleton_append, granted_append, ← List.append_assoc]

end Scheduler

namespace Execution

open Scheduler

variable {α β : Type} {x y : Execution} {c : Addr} {pc : Nat} {o : Outcome} {events more : List Operation}

/-- The action leaves the scheduler alone. -/
def Still (action : ExecutionM α) : Prop := ∀ x : Execution, (finalState (action x)).machine.scheduler = x.machine.scheduler

namespace Still

theorem pure (a : α) : Still (pure a : ExecutionM α) := fun _ => rfl

theorem abort {cause : MachineError} : Still (Execution.abort cause : ExecutionM α) := fun _ => rfl

theorem bind {f : ExecutionM β} {k : β → ExecutionM α} (first : Still f) (next : ∀ b, Still (k b)) : Still (f >>= k) := fun x => by
  have before := first x
  rw [run_bind]
  cases run : f x with
  | ok b x₁ =>
    rw [run] at before
    exact (next b x₁).trans before
  | error e x₁ =>
    rw [run] at before
    exact before

theorem get_bind {k : Execution → ExecutionM α} (next : ∀ x, Still (k x)) : Still (get >>= k) := fun x => next x x

theorem onMachine {action : MachineM α} (still : ∀ m : Machine, (finalState (action m)).scheduler = m.scheduler) :
    Still (liftM action : ExecutionM α) := fun x => by
  have same := still x.machine
  rw [run_machine]
  cases run : action x.machine <;> rwa [run] at same

theorem onHeap {action : HeapM α} : Still (liftM action : ExecutionM α) := @onMachine α (liftM action) fun m => by
  rw [Machine.run_heap]
  cases action m.heap <;> rfl

theorem onReader {look : HeapReader α} : Still (liftM look : ExecutionM α) := @onHeap α (liftM look)

theorem note {severity : Severity} {text : Unit → String} : Still (Execution.note severity text) := fun _ => rfl

theorem finish : Still Execution.finish := by
  refine get_bind fun x => ?_
  dsimp only
  split
  · exact .bind note fun _ _ => rfl
  · exact fun _ => rfl

theorem stall : Still Execution.stall := by
  have isOver : Still (do Execution.finish; return StepOutcome.finished) := .bind finish fun _ => .pure _
  refine get_bind fun x => ?_
  split
  · refine .bind onReader fun blocked => ?_
    split
    · exact .bind onReader fun _ => .bind abort fun _ => isOver
    · exact isOver
  · exact isOver

theorem fetch : Still (Execution.fetch c) := by
  refine .bind onReader fun pc => get_bind fun x => ?_
  split
  · exact abort
  · exact .bind onHeap fun _ => .bind note fun _ => .pure _

theorem scheduler_eq {action : ExecutionM α} {a : α} (still : Still action) (run : action x = .ok a y) :
    y.machine.scheduler = x.machine.scheduler := by
  have same := still x
  rwa [run] at same

end Still

/-- What is done to the scheduler after an instruction. -/
theorem settle_follows {u : Unit} (run : settle c pc o x = .ok u y) :
    ∃ events, Steps Protocol (.running, x.machine.scheduler) events (.between, y.machine.scheduler) ∧ granted events = [] := by
  have dropped {k : ExecutionM Unit} (still : Still k) (run : (schedule .dropCurrent >>= fun _ => k) x = .ok u y) :
      ∃ events, Steps Protocol (.running, x.machine.scheduler) events (.between, y.machine.scheduler) ∧ granted events = [] := by
    rw [schedule, run_bind, run_modify] at run
    refine ⟨[.dropped], follows_cons .drop .dropped ?_, rfl⟩
    rw [still.scheduler_eq run]
    exact .nil
  cases o with
  | proceed =>
    simp only [settle, endTurnIfSpent, schedule, run_bind, run_modify, run_get] at run
    by_cases up : x.machine.scheduler.tick.isSpent = true
    · refine ⟨[.ticked true, .yielded], follows_cons .up (.ticked up) (follows_cons .yield .yielded ?_), rfl⟩
      rw [if_pos up] at run
      revert run
      cases x.machine.scheduler.tick.current <;> intro run <;> cases run <;> exact .nil
    · refine ⟨[.ticked false], follows_cons .more (.ticked (Bool.eq_false_iff.mpr up)) ?_, rfl⟩
      rw [if_neg up] at run
      cases run
      exact .nil
  | block => exact dropped (.bind .onReader fun _ => .note) run
  | finish =>
    refine dropped (.bind .onHeap fun _ => .bind .onReader fun _ => .bind .note fun _ => .bind (fun _ => rfl) fun _ => .get_bind fun x => ?_) run
    split
    · exact .finish
    · exact .pure _

theorem queued_follows {p : Phase} {s : Scheduler} (cs : List Addr) :
    Steps Protocol (p, s) (cs.map .queued) (p, { s with ready := s.ready ++ cs }) := by
  induction cs generalizing s with
  | nil =>
    rw [List.append_nil]
    exact .nil
  | cons c cs ih =>
    have rest := ih (s := s.enqueue c)
    rw [enqueue, List.append_assoc] at rest
    exact follows_cons (.queued p c) (.queued c) rest

/-- An action on the machine queues contexts. -/
theorem queues_machine {action : MachineM α} {a : α} (queues : ∀ {m : Machine}, m.Queues (finalState (action m)))
    (run : (liftM action : ExecutionM α) x = .ok a y) :
    ∃ cs, y.machine.scheduler = { x.machine.scheduler with ready := x.machine.scheduler.ready ++ cs } := by
  have more := queues (m := x.machine)
  rw [run_machine] at run
  cases done : action x.machine with
  | ok b m =>
    rw [done] at run more
    cases run
    exact more
  | error e m =>
    rw [done] at run
    cases run

/-- The contexts of the instructions in a sequence of outcomes. -/
def contextsOf (os : List StepOutcome) : List Addr := os.filterMap fun
  | .executed c _ => some c
  | .finished => none

/-- The execution makes a step. -/
def Makes (x : Execution) (o : StepOutcome) (y : Execution) : Prop := step x = .ok o y

/-- A step follows the protocol, and its instruction is one of the context that was given the turn. -/
theorem step_follows {o : StepOutcome} (run : step x = .ok o y) :
    ∃ events, Steps Protocol (.between, x.machine.scheduler) events (.between, y.machine.scheduler) ∧ granted events = contextsOf [o] := by
  rcases over_idle_or_acts x with isOver | ⟨going, idle⟩ | ⟨c, going, current⟩
  · rw [step_over isOver] at run
    cases run
    exact ⟨[], .nil, rfl⟩
  · rw [step_idle going idle] at run
    have ends := ok_of_ending run
    obtain ⟨rfl, -⟩ := stall_ok ends
    refine ⟨[.asked none], follows_cons .idle (.asked idle) ?_, rfl⟩
    rw [Still.stall.scheduler_eq ends]
    exact .nil
  · rw [step_turn going current] at run
    have ends := ok_of_ending run
    split at ends
    next => cases ends
    next =>
      obtain ⟨p, x₁, fetched, rest⟩ := ok_of_bind ends
      obtain ⟨outcome, x₂, executed, rest⟩ := ok_of_bind rest
      obtain ⟨_, x₃, pruned, rest⟩ := ok_of_bind rest
      obtain ⟨_, x₄, settled, rest⟩ := ok_of_bind rest
      cases rest
      obtain ⟨cs, first⟩ := queues_machine Machine.queues_execute executed
      obtain ⟨ds, second⟩ := queues_machine Machine.queues_pruneOrigins pruned
      obtain ⟨events, follows, none⟩ := settle_follows settled
      rw [second, first, Still.fetch.scheduler_eq fetched] at follows
      refine ⟨.asked (some c) :: ((cs.map .queued ++ ds.map .queued) ++ events), follows_cons (.turn c) (.asked current) ?_, ?_⟩
      · exact ((queued_follows cs).append (queued_follows ds)).append follows
      · show c :: granted (cs.map .queued ++ ds.map .queued ++ events) = [c]
        rw [granted_append, granted_append, granted_queued, granted_queued, none]
        rfl

/-- The engine follows the protocol. -/
theorem steps_follow {os : List StepOutcome} (run : Steps Makes x os y) :
    ∃ events, Steps Protocol (.between, x.machine.scheduler) events (.between, y.machine.scheduler) ∧ granted events = contextsOf os := by
  induction run with
  | nil => exact ⟨[], .nil, rfl⟩
  | @cons x x₁ y o os first _ ih =>
    obtain ⟨events, follows, given⟩ := step_follows first
    obtain ⟨rest, follows', given'⟩ := ih
    refine ⟨events ++ rest, follows.append follows', ?_⟩
    rw [granted_append, given, given', contextsOf, contextsOf, contextsOf, ← List.filterMap_append, List.singleton_append]

theorem scheduler_start {code : Array Instruction} {config : Config} {journal : Journal} (begins : start code config journal = .ok x) :
    x.machine.scheduler = (Scheduler.start config.timeSlice).enqueue x.main := by
  unfold start at begins
  split at begins
  · cases begins
  · split at begins
    · cases begins
    · cases begins
      rfl

end Execution

theorem Run.steps {code : Array Instruction} {config : Config} {journal : Journal} {history : List Entry} {x : Execution}
    (run : Run code config journal history x) :
    ∃ x₀, Execution.start code config journal = .ok x₀ ∧ Steps Execution.Makes x₀ (history.map Entry.outcome) x := by
  induction run with
  | start begins => exact ⟨_, begins, .nil⟩
  | step _ _ makes ih =>
    obtain ⟨x₀, begins, steps⟩ := ih
    exact ⟨x₀, begins, by simpa using steps.append (.cons makes .nil)⟩

/-- Scheduling is round robin. Whatever operations are done that follow the protocol of the engine, the contexts that got turns, in order, and
then those in the queue are the contexts that were queued; who has the turn is who began it last and has not ended it; no turn is for more
instructions than the time slice, nor less than one, and a turn that is taken away is for exactly as many; and each turn is for consecutive
instructions. The engine follows the protocol: whatever steps it makes, there are such operations, with the first context queued at the
start, and the instructions of the steps are those of the turns. -/
theorem scheduling_is_round_robin :
    (∀ (n : Nat) (events : List Scheduler.Operation) (p : Scheduler.Phase) (s : Scheduler),
      Steps Scheduler.Protocol (.between, .start n) events (p, s) →
      (Scheduler.ledger events).turns.map Scheduler.Turn.context ++ s.ready = (Scheduler.ledger events).queued ∧
      s.current = (Scheduler.ledger events).present.map Scheduler.Turn.context ∧
      (∀ t ∈ (Scheduler.ledger events).turns, t.instructions ≤ max n 1 ∧ (t.preempted = true → t.instructions = max n 1)) ∧
      Scheduler.granted events = (Scheduler.ledger events).turns.flatMap Scheduler.Turn.steps) ∧
    ∀ (code : Array Instruction) (config : Config) (journal : Journal) (x y : Execution) (os : List StepOutcome),
      Execution.start code config journal = .ok x → Steps Execution.Makes x os y →
      ∃ events, Steps Scheduler.Protocol (.between, .start config.timeSlice) events (.between, y.machine.scheduler) ∧
        Scheduler.granted events = Execution.contextsOf os := by
  refine ⟨fun n events p s follows => ?_, fun code config journal x y os begins run => ?_⟩
  · have accord := (Scheduler.Accord.start n).follow (x := (.between, .start n)) follows
    refine ⟨accord.order, accord.current, fun t ht => ?_, accord.steps⟩
    rcases List.mem_append.mp ht with old | new
    · exact accord.past t old
    · have present : (Scheduler.ledger events).present = some t := by simpa using new
      obtain ⟨fresh, -⟩ := accord.used t present
      exact ⟨Nat.le_trans (Nat.le_add_right ..) (accord.room t present), fun yes => absurd (fresh.symm.trans yes) Bool.false_ne_true⟩
  · obtain ⟨events, follows, given⟩ := Execution.steps_follow run
    rw [Execution.scheduler_start begins] at follows
    exact ⟨.queued x.main :: events, Scheduler.follows_cons (.queued _ _) (.queued x.main) follows, given⟩

/-- Two contexts; the first one gets a turn that is taken from it, and the second one cannot go on. -/
def sharing : List Scheduler.Operation :=
  [.queued 10, .queued 20, .asked (some 10), .ticked false, .asked (some 10), .ticked true, .yielded, .asked (some 20), .dropped]

/-- The first context is in the queue again; and a program executes the instructions of its turns. -/
theorem scheduling_is_round_robin_sharing :
    (∃ s, Steps Scheduler.Protocol (.between, .start 2) sharing (.between, s) ∧ [10, 20] ++ s.ready = [10, 20, 10]) ∧
    ∃ history x events, Run #[.nop, .nop, .done] { heapWords := 256, timeSlice := 2 } (.start none) history x ∧
      Steps Scheduler.Protocol (.between, .start 2) events (.between, x.machine.scheduler) ∧ Scheduler.granted events = [32, 32, 32] := by
  obtain ⟨turns, engine⟩ := scheduling_is_round_robin
  constructor
  · have follows : Steps Scheduler.Protocol (.between, .start 2) sharing (.between, ⟨[10], none, 0, 2⟩) :=
      Scheduler.follows_cons (.queued _ _) (.queued _) <|
      Scheduler.follows_cons (.queued _ _) (.queued _) <|
      Scheduler.follows_cons (.turn _) (.asked rfl) <|
      Scheduler.follows_cons .more (.ticked rfl) <|
      Scheduler.follows_cons (.turn _) (.asked rfl) <|
      Scheduler.follows_cons .up (.ticked rfl) <|
      Scheduler.follows_cons .yield .yielded <|
      Scheduler.follows_cons (.turn _) (.asked rfl) <|
      Scheduler.follows_cons .drop .dropped .nil
    exact ⟨_, follows, (turns 2 sharing .between _ follows).1⟩
  · obtain ⟨history, x, run, found⟩ := Run.of_follow (P := fun history _ => Execution.contextsOf (history.map Entry.outcome) == [32, 32, 32])
      #[.nop, .nop, .done] { heapWords := 256, timeSlice := 2 } (.start none) 3 (by decide +kernel)
    obtain ⟨x₀, begins, steps⟩ := run.steps
    obtain ⟨events, follows, given⟩ := engine _ _ _ x₀ x _ begins steps
    exact ⟨history, x, events, run, follows, given.trans (eq_of_beq found)⟩

end FiberMachine
