import FiberMachine.Proofs.Ideal.Steady
import FiberMachine.Proofs.Refinement.Steps
import FiberMachine.Proofs.Refinement.Views

/-!
# Runs

A run is a sequence of successful steps from the first state of a program. Every state of a run is described by
a steady course, provided that each select finds only requests of its own context.
-/

namespace FiberMachine

open Ideal Heap

namespace Execution

/-- What a step notes when it succeeds. -/
def notes (x : Execution) : List Event :=
  match stepNoting x with
  | .ok (_, events) _ => events
  | .error _ _ => []

/-- The next step executes the instruction `i`, which is at `n`, in the context `c`. -/
structure Faces (x : Execution) (c : Addr) (n : Nat) (i : Instruction) : Prop where
  turn : x.machine.scheduler.dispatch.current = some c
  pc : Context.pc c x.machine.heap = .ok n
  instruction : x.code[n]? = some i

/-- If the next step is a select, then the requests that it takes off the stack belong to its context. -/
def SelectsOwn (x : Execution) : Prop :=
  ∀ c pc n default?, x.Faces c pc (.select n default?) →
    ∀ rest qs, qs.length = n → Context.operands c x.machine.heap = .ok (rest ++ qs) →
      ∀ q ∈ qs, tag q x.machine.heap = .ok .channelRequest → Request.contextOf q x.machine.heap = .ok c

end Execution

/-- A step of a run: the state before, and what it did. -/
structure Entry where
  before : Execution
  outcome : StepOutcome

/-- What happens on channels in the course of a run. -/
def noted (history : List Entry) : List Event := history.flatMap fun entry => entry.before.notes

/-- The run with the given steps leads from the first state of the program to the last one. -/
inductive Run (code : Array Instruction) (config : Config) (journal : Journal) : List Entry → Execution → Prop where
  | start {x : Execution} (run : Execution.start code config journal = .ok x) : Run code config journal [] x
  | step {history : List Entry} {x x' : Execution} {outcome : StepOutcome} (before : Run code config journal history x)
      (own : x.SelectsOwn) (run : Execution.step x = .ok outcome x') : Run code config journal (history ++ [⟨x, outcome⟩]) x'

namespace Execution

/-- Whether the given requests belong to the context `c`, as far as they are requests. -/
def areOwn (h : Heap) (c : Addr) (qs : List Addr) : Bool :=
  qs.all fun q =>
    match tag q h with
    | .ok .channelRequest => (Request.contextOf q h).toOption == some c
    | _ => true

/-- Whether the next step, if it is a select, takes only requests of its own context off the stack. -/
def selectsOwn (x : Execution) : Bool :=
  x.machine.scheduler.dispatch.current.all fun c =>
    match Context.pc c x.machine.heap, Context.operands c x.machine.heap with
    | .ok n, .ok xs =>
      match x.code[n]? with
      | some (.select k _) => areOwn x.machine.heap c (xs.drop (xs.length - k))
      | _ => true
    | _, _ => true

theorem selectsOwn_sound {x : Execution} (own : x.selectsOwn = true) : x.SelectsOwn := by
  rintro c n k default? ⟨turn, pc, instruction⟩ rest qs length operands q hq tagged
  rw [selectsOwn, turn, Option.all_some, pc, operands] at own
  dsimp only at own
  rw [instruction] at own
  have taken : (rest ++ qs).drop ((rest ++ qs).length - k) = qs := by
    rw [List.length_append, length, Nat.add_sub_cancel, List.drop_left]
  dsimp only at own
  rw [taken] at own
  have mine := List.all_eq_true.mp own q hq
  rw [tagged] at mine
  have owner := eq_of_beq mine
  cases read : Request.contextOf q x.machine.heap with
  | ok d =>
    rw [read] at owner
    cases owner
    rfl
  | error e =>
    rw [read] at owner
    cases owner

/-- The next steps, at most `n`, as long as they succeed and every select finds only requests of its own context. -/
def follow : Nat → Execution → List Entry × Execution
  | 0, x => ([], x)
  | n + 1, x =>
    if x.selectsOwn then
      match step x with
      | .ok outcome x' =>
        let (later, last) := follow n x'
        (⟨x, outcome⟩ :: later, last)
      | .error _ _ => ([], x)
    else ([], x)

end Execution

theorem noted_append (before after : List Entry) : noted (before ++ after) = noted before ++ noted after :=
  List.flatMap_append

variable {w w' : World} {t : Course} {x x' : Execution} {c : Ref} {a n : Nat} {i : Instruction} {log : List Event}
  {outcome : StepOutcome} {code : Array Instruction} {config : Config} {journal : Journal} {history : List Entry}

/-- There is one instruction that the next step executes. -/
theorem Execution.Faces.unique {m : Nat} {j : Instruction} (faces : x.Faces a n i) (other : x.Faces a m j) : n = m ∧ i = j := by
  have pc := faces.pc
  rw [other.pc] at pc
  cases pc
  have instruction := faces.instruction
  rw [other.instruction] at instruction
  cases instruction
  exact ⟨rfl, rfl⟩

/-! ### The end -/

/-- Nothing happens once the execution is over. -/
theorem Execution.step_finished (isOver : x.finished = true) : step x = .ok .finished x.clean := by
  simp only [step, isOver, if_true]
  rw [clean, isOver]

/-! ### Computing runs -/

theorem Run.follow (run : Run code config journal history x) (n : Nat) :
    Run code config journal (history ++ (x.follow n).1) (x.follow n).2 := by
  induction n generalizing history x with
  | zero => exact (List.append_nil history).symm ▸ run
  | succ n ih =>
    rw [Execution.follow]
    split
    next own =>
      split
      next outcome x' step =>
        have longer := ih (.step run (Execution.selectsOwn_sound own) step)
        rwa [List.append_assoc] at longer
      next => exact (List.append_nil history).symm ▸ run
    next => exact (List.append_nil history).symm ▸ run

/-- What is computed of the first `n` steps of a program is true of a run. -/
theorem Run.of_follow {P : List Entry → Execution → Bool} (code : Array Instruction) (config : Config) (journal : Journal) (n : Nat)
    (found : (Execution.start code config journal).toOption.any (fun x => P (x.follow n).1 (x.follow n).2) = true) :
    ∃ history x, Run code config journal history x ∧ P history x = true := by
  cases run : Execution.start code config journal with
  | error e =>
    rw [run] at found
    cases found
  | ok x =>
    rw [run] at found
    exact ⟨_, _, (Run.start run).follow n, found⟩

/-! ### Runs and courses -/

/-- The context that has the next turn. -/
theorem Sim.turn (sim : Sim w t x) (turn : x.machine.scheduler.dispatch.current = some a) :
    ∃ c, t.engine.scheduler.dispatch.current = some c ∧ w.home c a := by
  have current := sim.machine.dispatch.current
  rw [turn] at current
  generalize t.engine.scheduler.dispatch.current = y at current ⊢
  cases current with
  | some home => exact ⟨_, rfl, home⟩

/-- The instruction that is about to be executed. -/
theorem Sim.faces (sim : Sim w t x) (turn : t.engine.scheduler.dispatch.current = some c)
    (pc : t.engine.store.PcAt c n) (instruction : t.code[n]? = some i) : ∃ a, w.home c a ∧ x.Faces a n i := by
  have current := sim.machine.dispatch.current
  rw [turn] at current
  generalize eq : x.machine.scheduler.dispatch.current = y at current
  cases current with
  | some home =>
    obtain ⟨f, hf, rfl⟩ := pc
    exact ⟨_, home, eq, sim.machine.rep.pc_eq home hf, sim.code ▸ instruction⟩

/-- Where an object was last is where it is. -/
theorem World.marks.same {s : Store} {h : Heap} {b : Nat} (marks : w.marks c a) (rep : Rep w s h) (home : w.home c b) : b = a :=
  (rep.start c b home).symm.trans marks.2

theorem World.marks_same {s : Store} {h : Heap} {rs : List Ref} {as bs : List Nat} (marks : List.Forall₂ w.marks rs as) (rep : Rep w s h)
    (homes : List.Forall₂ w.home rs bs) : bs = as := by
  induction marks generalizing bs with
  | nil => cases homes; rfl
  | cons mark _ ih =>
    cases homes with
    | cons home homes => rw [mark.same rep home, ih homes]

/-- A registered context is where it was last. -/
theorem Sim.home_of_marks (sim : Sim w t x) (registered : c ∈ t.engine.store.contexts) (mark : w.marks c a) : w.home c a := by
  obtain ⟨b, _, home⟩ := related_right sim.machine.rep.contexts registered
  exact mark.same sim.machine.rep home ▸ home

/-- The top operands of a context. -/
theorem Rep.taken {s : Store} {h : Heap} {rest xs : List Ref} (rep : Rep w s h) (home : w.home c a) (operands : s.Operands c (rest ++ xs)) :
    ∃ low high, Context.operands a h = .ok (low ++ high) ∧ List.Forall₂ w.home xs high := by
  obtain ⟨f, hf, operands⟩ := operands
  obtain ⟨as, read, homes⟩ := rep.operands_eq home hf
  rw [operands] at homes
  obtain ⟨low, high, rfl, _, taken⟩ := related_append homes
  exact ⟨low, high, read, taken⟩

/-- The course, too, selects only requests of its own context. -/
theorem Execution.SelectsOwn.sane (own : x.SelectsOwn) (sim : Sim w t x) (depth : Nat) :
    Course.Sane True depth t := by
  intro c n i turn pc instruction
  obtain ⟨a, home, faces⟩ := sim.faces turn pc instruction
  refine ⟨?_, .inl trivial, .inl trivial, .inl trivial⟩
  rintro k default? rfl rest qs length operands q hq r hr
  have rep := sim.machine.rep
  obtain ⟨low, high, read, taken⟩ := rep.taken home operands
  obtain ⟨b, hb, at_⟩ : ∃ b ∈ high, w.home q b := related_right taken hq
  have tagged : tag b x.machine.heap = .ok .channelRequest := rep.tag_eq at_ hr
  have mine := own a n k default? faces low high (taken.length_eq.symm.trans length) read b hb tagged
  obtain ⟨d, answer, owner⟩ := rep.contextOf_eq at_ hr
  rw [mine] at answer
  cases answer
  exact rep.unique owner home

/-- The notes of a step, and the step without them. -/
theorem Execution.run_step (x : Execution) : Execution.step x = match stepNoting x with
    | .ok p x' => .ok p.1 x'
    | .error e x' => .error e x' := by
  rw [← Execution.silently_step, silently_run]
  cases stepNoting x <;> rfl

/-- The step of an execution and that of its course. -/
structure Stepped (w : World) (t : Course) (x : Execution) (log : List Event) (outcome : StepOutcome) (w' : World) (t' : Course)
    (x' : Execution) (done : StepOutcome) (events : List Event) : Prop where
  ran : Execution.step x = .ok outcome x'
  run : Course.step (w.capacity + 1) t = .ok (done, events) t'
  sim : Sim w' t' x'
  abides : Abides w t.engine.store w' t'.engine.store
  same : SameTurn w done outcome
  notes : w'.notes events x.notes
  steady : Steady (log ++ events) t'

/-- A successful step is that of the course. -/
theorem Sim.stepped (sim : Sim w t x) (steady : Steady log t) (own : x.SelectsOwn) (run : Execution.step x = .ok outcome x') :
    ∃ w' t' done events, Stepped w t x log outcome w' t' x' done events := by
  have lands := Lands.step sim
  have safe := Course.step_safe steady (own.sane sim (w.capacity + 1))
  have ran := run
  rw [Execution.run_step] at run
  have notes : x.notes = match Execution.stepNoting x with
    | .ok (_, events) _ => events
    | .error _ _ => [] := rfl
  generalize Execution.stepNoting x = y at lands run notes
  generalize eq : Course.step (w.capacity + 1) t = z at lands
  cases lands with
  | full => cases run
  | error => cases run
  | fault => cases run
  | wild => exact absurd (safe.error eq) id
  | ok w' sim' abides q =>
    cases run
    exact ⟨w', _, _, _, ran, eq, sim', abides, q.1, notes ▸ q.2, safe.ok eq⟩

/-- A step fails because the memory is used up, or as the step of the course does. -/
theorem Sim.failed {e : MachineFailure} (sim : Sim w t x) (steady : Steady log t) (own : x.SelectsOwn)
    (run : Execution.step x = .error e x') : (∃ k, e = .error k ∧ Exhausted k) ∨
      (∃ k t', e = .error k ∧ Course.step (w.capacity + 1) t = .error (.error k.erase) t' ∧
        Shown t'.engine.output x'.machine.output) ∨
      ∃ f t', e = .fault f ∧ Course.step (w.capacity + 1) t = .error .fault t' := by
  have lands := Lands.step sim
  have safe := Course.step_safe steady (own.sane sim (w.capacity + 1))
  rw [Execution.run_step] at run
  generalize Execution.stepNoting x = y at lands run
  generalize eq : Course.step (w.capacity + 1) t = z at lands
  cases lands with
  | full full => cases run; exact .inl ⟨_, rfl, full⟩
  | error same shown => cases run; cases same; exact .inr (.inl ⟨_, _, rfl, rfl, shown⟩)
  | fault => cases run; exact .inr (.inr ⟨_, _, rfl, rfl⟩)
  | wild => exact absurd (safe.error eq) id
  | ok => cases run

/-- A state of a run and the course that describes it. -/
structure Followed (w : World) (t : Course) (x : Execution) (log : List Event) (history : List Entry) : Prop where
  sim : Sim w t x
  steady : Steady log t
  notes : w.notes log (noted history)

theorem Followed.step (followed : Followed w t x log history) {t' : Course} {done : StepOutcome} {events : List Event}
    (stepped : Stepped w t x log outcome w' t' x' done events) :
    Followed w' t' x' (log ++ events) (history ++ [⟨x, outcome⟩]) where
  sim := stepped.sim
  steady := stepped.steady
  notes := by
    have before := followed.notes.keep followed.sim.machine.rep stepped.sim.machine.rep stepped.abides
    rw [noted_append]
    have last : noted [⟨x, outcome⟩] = x.notes := List.flatMap_singleton ..
    rw [last]
    exact List.rel_append before stepped.notes

/-- Every state of a run is described by a steady course, and by one of which `P` is true, if `P` is true of the first course and
is kept by the steps. -/
theorem Run.traced {P : World → Course → List Event → List Entry → Execution → Prop} (run : Run code config journal history x)
    (start : ∀ w x, Execution.start code config journal = .ok x → Sim w (Course.start code config) x → P w (Course.start code config) [] [] x)
    (step : ∀ {w t log history x w' t' done events x' outcome}, Followed w t x log history → P w t log history x → x.SelectsOwn →
      Stepped w t x log outcome w' t' x' done events → P w' t' (log ++ events) (history ++ [⟨x, outcome⟩]) x') :
    ∃ w t log, Followed w t x log history ∧ P w t log history x := by
  induction run with
  | start run =>
    obtain ⟨w, sim⟩ := Sim.start run
    exact ⟨w, _, [], ⟨sim, Course.start_steady code config, .nil⟩, start w _ run sim⟩
  | step _ own run ih =>
    obtain ⟨w, t, log, followed, p⟩ := ih
    obtain ⟨w', t', done, events, stepped⟩ := followed.sim.stepped followed.steady own run
    exact ⟨w', t', log ++ events, followed.step stepped, step followed p own stepped⟩

theorem Run.followed (run : Run code config journal history x) : ∃ w t log, Followed w t x log history := by
  obtain ⟨w, t, log, followed, _⟩ := run.traced (P := fun _ _ _ _ _ => True) (fun _ _ _ _ => trivial) fun _ _ _ _ => trivial
  exact ⟨w, t, log, followed⟩

/-- A run up to a step, and the step. -/
theorem Run.before {earlier later : List Entry} {entry : Entry} (run : Run code config journal (earlier ++ entry :: later) x) :
    Run code config journal earlier entry.before ∧ entry.before.SelectsOwn ∧
      ∃ x', Execution.step entry.before = .ok entry.outcome x' ∧ Run code config journal (earlier ++ [entry]) x' := by
  generalize eq : earlier ++ entry :: later = history at run
  induction run generalizing later with
  | start => simp at eq
  | @step history x x' outcome before own run ih =>
    rcases List.eq_nil_or_concat later with rfl | ⟨rest, last, rfl⟩
    · obtain ⟨rfl, same⟩ := List.append_inj' eq rfl
      cases same
      exact ⟨before, own, x', run, .step before own run⟩
    · rw [List.concat_eq_append, ← List.cons_append, ← List.append_assoc] at eq
      exact ih (List.append_inj' eq rfl).1

end FiberMachine
