import FiberMachine.Proofs.Constancy
import FiberMachine.Proofs.Limits

/-!
# Origins of frames

For each frame the machine keeps the instruction that brought it into being. After a step in which a collection has run it looks
through the entries, and those stay at whose address there is what reads as the header of an allocated frame. That of a reclaimed
frame reads so, too, once the frame has become the upper half of a larger free block, so its entry can stay.
-/

namespace FiberMachine

/-- The word at `a` reads as the header of an allocated frame, whether a block starts there or not. -/
def Heap.looksFramed (h : Heap) (a : Addr) : Bool := !h.freeAt a && h.tagAt a == .frame

/-- The machine once reclaimed frames have been forgotten. -/
def Machine.pruned (m : Machine) : Machine :=
  if m.heap.stats.collections = m.prunedAt then m
  else { m with prunedAt := m.heap.stats.collections, origins := m.origins.filter fun p => m.heap.looksFramed p.1 }

/-- What is left alone when it is settled what becomes of a turn: the arena, the collections, and the origins of frames. No context is
new. -/
structure Execution.Spares (x x' : Execution) : Prop where
  arena : x.machine.heap.SameArena x'.machine.heap
  contexts : x'.machine.heap.contexts.Sublist x.machine.heap.contexts
  stats : x'.machine.heap.stats = x.machine.heap.stats
  origins : x'.machine.origins = x.machine.origins
  prunedAt : x'.machine.prunedAt = x.machine.prunedAt

variable {α β : Type} {m m' : Machine} {h : Heap} {origins live : FrameOrigins} {a c n f pc : Nat} {x x' y : Execution} {i : Instruction}
  {o : Outcome} {outcome : StepOutcome} {code : Array Instruction} {config : Config} {journal : Journal} {history : List Entry}

/-! ### Forgetting -/

theorem Heap.looksFramed_iff : h.looksFramed a = true ↔ h.freeAt a = false ∧ h.tagAt a = .frame := by
  simp [looksFramed]

theorem Heap.SameArena.looksFramed {k : Heap} (same : h.SameArena k) : k.looksFramed a = h.looksFramed a := by
  simp only [Heap.looksFramed, freeAt, tagAt, same.wordAt]

/-- The entries that stay. -/
theorem Machine.liveOrigins_ok (run : liveOrigins origins h = .ok live) : live = origins.filter fun p => h.looksFramed p.1 := by
  induction origins generalizing live with
  | nil => cases run; rfl
  | cons p rest ih =>
    rw [liveOrigins] at run
    rcases Nat.lt_or_ge p.1 h.capacity with inside | outside
    · have seen : (do
          if ← Heap.isFree p.1 then return false else return (← Heap.tag p.1) == .frame : HeapReader Bool) h = .ok (h.looksFramed p.1) := by
        rw [HeapReader.run_bind, Heap.isFree_eq inside]
        cases free : h.freeAt p.1 with
        | true => simp [HeapReader.run_pure, Heap.looksFramed, free]
        | false => simp [HeapReader.run_bind, HeapReader.run_pure, Heap.tag_eq inside, Heap.looksFramed, free]
      rw [HeapReader.run_bind, seen] at run
      simp only [HeapReader.run_bind] at run
      cases others : liveOrigins rest h with
      | error e => simp [others] at run
      | ok kept =>
        simp only [others, HeapReader.run_pure] at run
        cases run
        rw [List.filter_cons, ih others]
    · simp [HeapReader.run_bind, Heap.isFree, Heap.field_of_le _ outside] at run

theorem Machine.pruneOrigins_ok (run : pruneOrigins m = .ok () m') : m' = m.pruned := by
  unfold pruneOrigins at run
  simp only [run_bind, run_get, run_ite, Machine.run_reader] at run
  unfold pruned
  by_cases same : m.heap.stats.collections = m.prunedAt
  · rw [if_neg (not_not.mpr same)] at run
    rw [if_pos same]
    cases run
    rfl
  · rw [if_pos same] at run
    rw [if_neg same]
    cases found : liveOrigins m.origins m.heap with
    | error e => simp [found] at run
    | ok live =>
      simp only [found] at run
      cases run
      rw [liveOrigins_ok found]

theorem Machine.pruned_heap (m : Machine) : m.pruned.heap = m.heap := by
  unfold pruned
  split <;> rfl

theorem Machine.pruned_prunedAt (m : Machine) : m.pruned.prunedAt = m.heap.stats.collections := by
  unfold pruned
  split
  next same => exact same.symm
  next => rfl

/-- What stays if collections have run since entries were last forgotten. -/
theorem Machine.pruned_origins (some : m.prunedAt < m.heap.stats.collections) :
    m.pruned.origins = m.origins.filter fun p => m.heap.looksFramed p.1 := by
  unfold pruned
  rw [if_neg (Nat.ne_of_gt some)]

/-! ### Settling -/

namespace Execution

theorem Spares.refl : x.Spares x := ⟨⟨rfl, rfl, rfl⟩, .refl _, rfl, rfl, rfl⟩

theorem Spares.trans (first : x.Spares y) (next : y.Spares x') : x.Spares x' :=
  ⟨first.arena.trans next.arena, next.contexts.trans first.contexts, next.stats.trans first.stats, next.origins.trans first.origins,
    next.prunedAt.trans first.prunedAt⟩

/-- The action leaves alone what settling leaves alone. -/
def Sparing (action : ExecutionM α) : Prop := ∀ x a x', action x = .ok a x' → x.Spares x'

namespace Sparing

theorem pure (a : α) : Sparing (pure a) := fun _ _ _ run => by cases run; exact .refl

theorem bind {f : ExecutionM β} {k : β → ExecutionM α} (first : Sparing f) (next : ∀ b, Sparing (k b)) : Sparing (f >>= k) := by
  intro x a x' run
  rw [run_bind] at run
  cases ran : f x with
  | error e x₁ => simp [ran] at run
  | ok b x₁ =>
    rw [ran] at run
    exact (first _ _ _ ran).trans (next b _ _ _ run)

theorem modify {f : Execution → Execution} (spares : ∀ x : Execution, x.Spares (f x)) : Sparing (modify f : ExecutionM PUnit) := fun x _ _ run => by
  cases run
  exact spares x

theorem get_bind {k : Execution → ExecutionM α} (next : ∀ x, Sparing (k x)) : Sparing (get >>= k) := fun x => next x x

theorem onReader {look : HeapReader α} : Sparing (liftM look : ExecutionM α) := fun x a x' run => by
  change (liftM (liftM look : MachineM α) : ExecutionM α) x = _ at run
  rw [run_machine, Machine.run_reader] at run
  cases seen : look x.machine.heap with
  | error e => simp [seen] at run
  | ok b =>
    simp only [seen] at run
    cases run
    exact .refl

theorem throw (e : MachineFailure) : Sparing (throw e : ExecutionM α) := fun _ _ _ run => by cases run

theorem schedule {f : Scheduler → Scheduler} : Sparing (Execution.schedule f) := modify fun _ => ⟨⟨rfl, rfl, rfl⟩, .refl _, rfl, rfl, rfl⟩

theorem note {severity : Severity} {text : Unit → String} : Sparing (Execution.note severity text) := modify fun _ => ⟨⟨rfl, rfl, rfl⟩, .refl _, rfl, rfl, rfl⟩

theorem retire : Sparing (liftM (Heap.retireContext c) : ExecutionM Unit) := fun x _ _ run => by
  cases run
  exact ⟨⟨rfl, rfl, rfl⟩, List.erase_sublist, rfl, rfl, rfl⟩

theorem finish : Sparing Execution.finish := by
  have isOver : Sparing (MonadStateOf.modifyGet fun e : Execution => (PUnit.unit, { e with finished := true }) : ExecutionM PUnit) :=
    modify fun _ => ⟨⟨rfl, rfl, rfl⟩, .refl _, rfl, rfl, rfl⟩
  refine get_bind fun x => ?_
  dsimp only
  split
  · exact .bind note fun _ => isOver
  · exact isOver

theorem stall : Sparing Execution.stall := by
  have isOver : Sparing (do Execution.finish; return StepOutcome.finished) := .bind finish fun _ => .pure _
  refine get_bind fun x => ?_
  split
  · refine .bind onReader fun blocked => ?_
    split
    · exact .bind onReader fun _ => .bind (throw _) fun _ => isOver
    · exact isOver
  · exact isOver

theorem endTurnIfSpent : Sparing Execution.endTurnIfSpent := by
  refine .bind schedule fun _ => get_bind fun x => ?_
  dsimp only
  split
  · split
    · exact .bind note fun _ => schedule
    · exact schedule
  · exact .pure _

theorem terminate : Sparing (Execution.terminate c) := by
  refine .bind schedule fun _ => .bind retire fun _ => .bind onReader fun _ => .bind note fun _ => ?_
  refine .bind (modify fun _ => ⟨⟨rfl, rfl, rfl⟩, .refl _, rfl, rfl, rfl⟩) fun _ => get_bind fun x => ?_
  split
  · exact finish
  · exact .pure _

theorem settle : Sparing (Execution.settle c pc o) := by
  cases o with
  | proceed => exact endTurnIfSpent
  | block => exact .bind schedule fun _ => .bind onReader fun _ => note
  | finish => exact terminate

end Sparing

/-! ### Steps -/

theorem ending_ok {r : EStateM.Result MachineFailure Execution StepOutcome} (ok : ending r = .ok outcome x') : r = .ok outcome x' := by
  rcases r with _ | ⟨_ | _, _⟩ <;> simp_all [ending]

/-- The instruction is fetched and executed, then reclaimed frames are forgotten and the turn is settled. -/
structure Acted (x : Execution) (c n : Nat) (i : Instruction) (y : Execution) (o : Outcome) (m : Machine) (x' : Execution) : Prop where
  acts : x.Acts c
  room : x.executed < x.config.maxInstructions
  fetched : fetch c x.counted = .ok (n, i) y
  executed : Machine.execute c n i y.machine = .ok o m
  spares : Spares { y with machine := m.pruned } x'

theorem Acted.arena {m : Machine} (acted : x.Acted c n i y o m x') : m.heap.SameArena x'.machine.heap := by
  have same := acted.spares.arena
  rwa [show ({ y with machine := m.pruned } : Execution).machine.heap = m.heap from m.pruned_heap] at same

/-- A step that executes nothing says so. -/
theorem stall_outcome (run : stall x = .ok outcome x') : outcome = .finished := by
  have finished (y : Execution) (run : (do finish; return StepOutcome.finished : ExecutionM StepOutcome) y = .ok outcome x') :
      outcome = .finished := by
    rw [run_bind] at run
    cases ended : finish y with
    | error e y' => simp [ended] at run
    | ok u y' =>
      rw [ended] at run
      cases run
      rfl
  unfold stall at run
  rw [run_bind, run_get] at run
  dsimp only at run
  split at run
  · rw [run_bind] at run
    split at run
    · split at run
      · rw [run_bind] at run
        split at run
        · cases run
        · cases run
      · exact finished _ run
    · cases run
  · exact finished _ run

/-- A step that executes an instruction. -/
theorem step_acted (run : step x = .ok (.executed c n) x') : ∃ i y o m, x.Acted c n i y o m x' := by
  rcases over_idle_or_acts x with isOver | ⟨going, idle⟩ | ⟨d, acts⟩
  · rw [step_over isOver] at run
    cases run
  · rw [step_idle going idle] at run
    exact absurd (stall_outcome (ending_ok run)) nofun
  · rw [step_turn acts.1 acts.2] at run
    have run := ending_ok run
    split at run
    next => cases run
    next room =>
      unfold turn at run
      rw [run_bind] at run
      cases fetched : fetch d x.counted with
      | error e y => simp [fetched] at run
      | ok p y =>
        obtain ⟨pc, i⟩ := p
        simp only [fetched, run_bind, run_machine] at run
        cases executed : Machine.execute d pc i y.machine with
        | error e m => simp [executed] at run
        | ok o m =>
          simp only [executed] at run
          cases forgotten : Machine.pruneOrigins m with
          | error e m' => simp [forgotten] at run
          | ok u m' =>
            simp only [forgotten] at run
            cases settled : settle d pc o { y with machine := m' } with
            | error e z => simp [settled] at run
            | ok u z =>
              simp only [settled, run_pure] at run
              cases run
              cases Machine.pruneOrigins_ok forgotten
              exact ⟨i, y, o, m, acts, by omega, fetched, executed, Sparing.settle _ _ _ settled⟩

/-- A step that executes nothing. -/
theorem step_rested (run : step x = .ok .finished x') : x.Spares x' := by
  rcases over_idle_or_acts x with isOver | ⟨going, idle⟩ | ⟨c, acts⟩
  · rw [step_over isOver] at run
    cases run
    exact ⟨⟨rfl, rfl, rfl⟩, .refl _, rfl, rfl, rfl⟩
  · rw [step_idle going idle] at run
    have before : x.Spares x.scheduled := ⟨⟨rfl, rfl, rfl⟩, .refl _, rfl, rfl, rfl⟩
    exact before.trans (Sparing.stall _ _ _ (ending_ok run))
  · rw [step_turn acts.1 acts.2] at run
    have run := ending_ok run
    split at run
    next => cases run
    next =>
      unfold turn at run
      simp only [run_bind] at run
      repeat' split at run
      all_goals cases run

/-- What fetching an instruction leaves alone of what is known of frames. -/
theorem fetch_origins (run : fetch c x = .ok (n, i) y) : y.machine.origins = x.machine.origins ∧ y.machine.prunedAt = x.machine.prunedAt := by
  unfold fetch at run
  rw [run_bind] at run
  cases counter : (liftM (Context.pc c) : ExecutionM Nat) x with
  | error e x₁ => simp [counter] at run
  | ok pc x₁ =>
    have seen : Sparing (liftM (Context.pc c) : ExecutionM Nat) := .onReader
    have first := seen _ _ _ counter
    rw [counter] at run
    simp only [run_bind, run_get] at run
    cases found : x₁.code[pc]? with
    | none => simp [found, abort, run_throw] at run
    | some j =>
      simp only [found, run_bind] at run
      have wrote (x₂ : Execution) (written : (liftM (Context.setPc c (pc + 1)) : ExecutionM Unit) x₁ = .ok () x₂) :
          x₂.machine.origins = x₁.machine.origins ∧ x₂.machine.prunedAt = x₁.machine.prunedAt := by
        change (liftM (liftM (Context.setPc c (pc + 1)) : MachineM Unit) : ExecutionM Unit) x₁ = _ at written
        rw [run_machine, Machine.run_heap] at written
        cases set : Context.setPc c (pc + 1) x₁.machine.heap with
        | error e h => simp [set] at written
        | ok u h =>
          simp only [set] at written
          cases written
          exact ⟨rfl, rfl⟩
      cases written : (liftM (Context.setPc c (pc + 1)) : ExecutionM Unit) x₁ with
      | error e x₂ => simp [written] at run
      | ok u x₂ =>
        simp only [written] at run
        cases run
        have second := wrote x₂ written
        exact ⟨second.1.trans first.origins, second.2.trans first.prunedAt⟩

end Execution

/-! ### Runs -/

theorem start_origins (run : Execution.start code config journal = .ok x) : x.machine.origins = [] ∧ x.machine.prunedAt = 0 := by
  unfold Execution.start at run
  split at run
  · cases run
  · split at run
    · cases run
    · cases run
      exact ⟨rfl, rfl⟩

/-- Origins have been forgotten last before no more collections than now. -/
theorem Run.prunedAt_le (run : Run code config journal history x) : x.machine.prunedAt ≤ x.machine.heap.stats.collections := by
  induction run with
  | start run => exact (start_origins run).2 ▸ Nat.zero_le _
  | step before own run ih =>
    rename_i outcome
    cases outcome with
    | finished =>
      have spares := Execution.step_rested run
      rw [spares.prunedAt, spares.stats]
      exact ih
    | executed c n =>
      obtain ⟨i, y, o, m, acted⟩ := Execution.step_acted run
      rw [acted.spares.prunedAt, acted.spares.stats]
      exact Nat.le_of_eq (by rw [m.pruned_prunedAt, m.pruned_heap])

/-- After a step in which a collection has run, there is what reads as the header of an allocated frame wherever a frame is known to
have been. Where a block starts, it is an allocated frame. -/
theorem Run.origins_pruned (run : Run code config journal history x) (own : x.SelectsOwn) (step : Execution.step x = .ok outcome x')
    (collected : x.machine.heap.stats.collections < x'.machine.heap.stats.collections) (known : (f, n) ∈ x'.machine.origins) :
    x'.machine.heap.looksFramed f = true ∧
      ∀ b ∈ x'.machine.heap.blocks, b.addr = f → x'.machine.heap.Allocated f ∧ x'.machine.heap.tagAt f = .frame := by
  obtain ⟨w, t, log, followed⟩ := run.followed
  have lasts := followed.sim.lasts followed.steady own step
  cases outcome with
  | finished =>
    have same := (Execution.step_rested step).stats
    rw [same] at collected
    exact absurd collected (Nat.lt_irrefl _)
  | executed c k =>
    obtain ⟨i, y, o, m, acted⟩ := Execution.step_acted step
    have stats : x'.machine.heap.stats = m.heap.stats := acted.spares.stats.trans (by rw [m.pruned_heap])
    have unpruned : m.prunedAt = x.machine.prunedAt := by
      have same : y.machine.SamePruning (finalState (Machine.execute c k i y.machine)) := Machine.samePruning_execute
      rw [acted.executed] at same
      exact same.trans (Execution.fetch_origins acted.fetched).2
    have new : m.prunedAt < m.heap.stats.collections := by
      have := run.prunedAt_le
      rw [unpruned, ← stats]
      omega
    rw [acted.spares.origins, m.pruned_origins new] at known
    have framed : x'.machine.heap.looksFramed f = true := acted.arena.looksFramed.trans (List.mem_filter.mp known).2
    obtain ⟨used, tag⟩ := Heap.looksFramed_iff.mp framed
    refine ⟨framed, ?_⟩
    rintro b hb rfl
    have free : b.free = false := by
      rw [Heap.ofHeader_of_mem_blocks hb]
      exact used
    exact ⟨⟨b, hb, rfl, free⟩, tag⟩

/-- A scope is entered behind two numbers and left again. Then numbers are made until the memory is used up. -/
def passingScope : Array Instruction :=
  #[.loadInt 1, .pop, .loadInt 1, .pop, .enterScope ["x"], .exitScope, .loadInt 1, .loadInt 1, .pop, .jump 7]

/-- The step in which a collection reclaims the frame of the scope. -/
theorem Run.origins_pruned_passing : ∃ history x outcome x', Run passingScope { heapWords := 64 } (.start none) history x ∧
    Execution.step x = .ok outcome x' ∧ x.machine.heap.stats.collections < x'.machine.heap.stats.collections ∧ (44, 4) ∈ x'.machine.origins ∧
      x'.machine.heap.looksFramed 44 = true := by
  obtain ⟨history, x, run, found⟩ := Run.of_follow (P := fun _ x => x.selectsOwn && Passes (fun _ x' =>
      decide (x.machine.heap.stats.collections < x'.machine.heap.stats.collections) && x'.machine.origins == [(44, 4)]) (Execution.step x))
    passingScope { heapWords := 64 } (.start none) 22 (by decide +kernel)
  obtain ⟨own, passed⟩ := Bool.and_eq_true_iff.mp found
  obtain ⟨outcome, x', step, found⟩ := passes_iff.mp passed
  simp only [Bool.and_eq_true, decide_eq_true_eq, beq_iff_eq] at found
  obtain ⟨collected, origins⟩ := found
  have known : (44, 4) ∈ x'.machine.origins := origins ▸ List.mem_singleton_self _
  exact ⟨history, x, outcome, x', run, step, collected, known,
    (run.origins_pruned (Execution.selectsOwn_sound own) step collected known).1⟩

/-- The reclaimed frame is still known as one, but is now within a free block. -/
theorem Run.origin_stale : ∃ history x, Run passingScope { heapWords := 64 } (.start none) history x ∧ (44, 4) ∈ x.machine.origins ∧
    (¬∃ b ∈ x.machine.heap.blocks, b.addr = 44) ∧ ∃ b ∈ x.machine.heap.blocks, b.free = true ∧ b.addr < 44 ∧ 44 < b.addr + b.words := by
  obtain ⟨history, x, run, found⟩ := Run.of_follow (P := fun _ x => x.machine.origins == [(44, 4)] &&
      (x.machine.heap.blocks.all fun b => b.addr != 44) && x.machine.heap.blocks.any fun b =>
        b.free && decide (b.addr < 44) && decide (44 < b.addr + b.words))
    passingScope { heapWords := 64 } (.start none) 23 (by decide +kernel)
  simp only [Bool.and_eq_true, List.all_eq_true, List.any_eq_true, bne_iff_ne, beq_iff_eq, decide_eq_true_eq] at found
  obtain ⟨⟨origins, none⟩, b, hb, ⟨free, below⟩, above⟩ := found
  exact ⟨history, x, run, origins ▸ List.mem_singleton_self _, fun ⟨b, hb, at_⟩ => none b hb at_, b, hb, free, below, above⟩

end FiberMachine
