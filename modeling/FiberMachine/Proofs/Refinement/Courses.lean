import FiberMachine.Proofs.Ideal.Course
import FiberMachine.Proofs.Refinement.Dispatch

/-!
# Executions and courses

An execution takes the same steps as the course of its program. Only the end of a context takes a root away, so
this is shown by itself; whatever comes before it follows the course as the instructions follow the engine.
-/

namespace FiberMachine

open Ideal

/-- The course `t` describes the execution `x`. -/
structure Sim (w : World) (t : Course) (x : Execution) : Prop where
  machine : Describes w t.engine x.machine
  code : x.code = t.code
  limit : x.config.maxInstructions = t.limit
  detect : x.config.detectDeadlock = t.detect
  executed : x.executed = t.executed
  mainDone : x.mainDone = t.mainDone
  finished : x.finished = t.finished
  main : t.mainDone = false → w.home t.main x.main ∧ t.main ∈ t.engine.store.contexts

/-- Executions and courses. -/
def executionLevel : Level Course Execution MachineError where
  rel := Sim
  store t := t.engine.store
  cause := id
  failed t x := Shown t.engine.output x.machine.output

/-- The action on the execution follows the action on the course. -/
abbrev Takes {α β : Type} := @Follows Course Execution MachineError α β executionLevel

variable {α β γ δ : Type} {w w' : World} {t : Course} {x : Execution} {e : Engine} {m : Machine} {c : Ref} {a n : Nat}

/-! ### Schedulers -/

namespace Describes

theorem schedule (d : Describes w e m) {f : Scheduler → Scheduler}
    (ready : List.Forall₂ w.home (f e.scheduler).ready (f m.scheduler).ready)
    (current : Option.Rel w.home (f e.scheduler).current (f m.scheduler).current)
    (used : (f m.scheduler).sliceUsed = (f e.scheduler).sliceUsed)
    (slice : (f m.scheduler).timeSlice = (f e.scheduler).timeSlice)
    (registered : ∀ c ∈ (f e.scheduler).ready ++ (f e.scheduler).current.toList,
      c ∈ e.scheduler.ready ++ e.scheduler.current.toList) :
    Describes w { e with scheduler := f e.scheduler } { m with scheduler := f m.scheduler } :=
  { d with
    ready := ready
    current := current
    sliceUsed := used
    timeSlice := slice
    registered := fun c hc => d.registered c (registered c hc) }

theorem dispatch (d : Describes w e m) :
    Describes w { e with scheduler := e.scheduler.dispatch } { m with scheduler := m.scheduler.dispatch } := by
  have current := d.current
  have ready := d.ready
  cases hx : e.scheduler.current with
  | some c =>
    rw [hx] at current
    obtain ⟨a, hy, _⟩ : ∃ a, m.scheduler.current = some a ∧ w.home c a := by
      cases hy : m.scheduler.current with
      | none =>
        rw [hy] at current
        cases current
      | some a =>
        rw [hy] at current
        cases current with
        | some home => exact ⟨a, rfl, home⟩
    rw [Scheduler.dispatch_of_current hx, Scheduler.dispatch_of_current hy]
    exact d
  | none =>
    have hy : m.scheduler.current = none := by
      cases hy : m.scheduler.current with
      | none => rfl
      | some a =>
        rw [hx, hy] at current
        cases current
    refine d.schedule (f := Scheduler.dispatch) ?_ ?_ ?_ ?_ ?_
    · simp only [Scheduler.dispatch, hx, hy]
      generalize e.scheduler.ready = xs, m.scheduler.ready = as at ready ⊢
      cases ready with
      | nil => exact .nil
      | cons _ rest => exact rest
    · simp only [Scheduler.dispatch, hx, hy]
      generalize e.scheduler.ready = xs, m.scheduler.ready = as at ready ⊢
      cases ready with
      | nil => exact .none
      | cons home _ => exact .some home
    · simp only [Scheduler.dispatch, hx, hy]
    · simp only [Scheduler.dispatch, hx, hy]
      exact d.timeSlice
    · intro c hc
      have queue := e.scheduler.dispatch_queue
      rw [hx] at queue
      have hc : c ∈ e.scheduler.dispatch.current.toList ++ e.scheduler.dispatch.ready := by
        rcases List.mem_append.mp hc with hc | hc
        · exact List.mem_append_right _ hc
        · exact List.mem_append_left _ hc
      rw [queue] at hc
      exact List.mem_append_left _ hc

theorem tick (d : Describes w e m) :
    Describes w { e with scheduler := e.scheduler.tick } { m with scheduler := m.scheduler.tick } :=
  d.schedule (f := Scheduler.tick) d.ready d.current (congrArg (· + 1) d.sliceUsed) d.timeSlice fun _ hc => hc

theorem dropCurrent (d : Describes w e m) :
    Describes w { e with scheduler := e.scheduler.dropCurrent } { m with scheduler := m.scheduler.dropCurrent } :=
  d.schedule (f := Scheduler.dropCurrent) d.ready .none d.sliceUsed d.timeSlice fun _ hc => by
    exact List.mem_append_left _ (by simpa [Scheduler.dropCurrent] using hc)

theorem yieldCurrent (d : Describes w e m) :
    Describes w { e with scheduler := e.scheduler.yieldCurrent } { m with scheduler := m.scheduler.yieldCurrent } := by
  have current := d.current
  cases hx : e.scheduler.current with
  | none =>
    cases hy : m.scheduler.current with
    | none =>
      simp only [Scheduler.yieldCurrent, hx, hy]
      exact d
    | some a =>
      rw [hx, hy] at current
      cases current
  | some c =>
    cases hy : m.scheduler.current with
    | none =>
      rw [hx, hy] at current
      cases current
    | some a =>
      rw [hx, hy] at current
      cases current with
      | some home =>
        refine d.schedule (f := Scheduler.yieldCurrent) ?_ ?_ ?_ ?_ ?_
        all_goals simp only [Scheduler.yieldCurrent, hx, hy]
        · exact List.rel_append d.ready (.cons home .nil)
        · exact .none
        · exact d.sliceUsed
        · exact d.timeSlice
        · intro b hb
          simpa using hb

theorem isSpent (d : Describes w e m) : m.scheduler.isSpent = e.scheduler.isSpent := by
  rw [Scheduler.isSpent, Scheduler.isSpent, d.sliceUsed, d.timeSlice]

theorem hasWork (d : Describes w e m) : m.scheduler.hasWork = e.scheduler.hasWork := by
  have current : m.scheduler.current.isSome = e.scheduler.current.isSome := by
    have current := d.current
    generalize e.scheduler.current = x, m.scheduler.current = y at current
    cases current <;> rfl
  have ready : m.scheduler.ready.isEmpty = e.scheduler.ready.isEmpty := by
    have ready := d.ready
    generalize e.scheduler.ready = x, m.scheduler.ready = y at ready
    cases ready <;> rfl
  rw [Scheduler.hasWork, Scheduler.hasWork, current, ready]

end Describes

/-! ### Actions on the machine -/

theorem Execution.run_observation (look : HeapReader α) (x : Execution) :
    (liftM look : ExecutionM α) x = match look x.machine.heap with
      | .ok a => .ok a x
      | .error e => .error (e.map .heap) x := by
  change (liftM (liftM look : MachineM α) : ExecutionM α) x = _
  rw [run_machine, Machine.run_reader]
  cases look x.machine.heap <;> rfl

theorem Sim.evolve (sim : Sim w t x) (d : Describes w' e m) (keeps : Keeps w t.engine.store w' e.store) :
    Sim w' { t with engine := e } { x with machine := m } :=
  { sim with
    machine := d
    main := fun running => by
      obtain ⟨home, known⟩ := sim.main running
      exact ⟨keeps.placed _ (List.mem_append_left _ known) _ home, keeps.contexts.subset known⟩ }

namespace Takes

theorem machine {action : MachineM α} {n : EngineM β} {Q : World → β → α → Prop} (sim : Sim w t x)
    (f : Drives w t.engine x.machine action n Q) : Takes w t x (liftM action) (liftM n) Q := by
  unfold Drives Follows at f
  unfold Takes Follows
  rw [Execution.run_machine, Course.run_engine]
  generalize action x.machine = y, n t.engine = z at f ⊢
  cases f with
  | full full => exact .full full
  | ok w' rel keeps q => exact .ok w' (sim.evolve rel keeps) keeps q
  | error same failed => exact .error same failed
  | fault => exact .fault
  | wild => exact .wild

theorem machine_bind {action : MachineM α} {n : EngineM β} {Q : World → β → α → Prop} {k : α → ExecutionM γ}
    {l : β → CourseM δ} {R : World → δ → γ → Prop} (sim : Sim w t x) (f : Drives w t.engine x.machine action n Q)
    (next : ∀ b t' a x' w', Sim w' t' x' → Keeps w t.engine.store w' t'.engine.store → Q w' b a →
      Takes w' t' x' (k a) (l b) R) : Takes w t x (liftM action >>= k) (liftM n >>= l) R :=
  Follows.bind (machine sim f) next

/-- The heap is observed. -/
theorem read_bind {look : HeapReader α} {n : StoreM β} {Q : β → α → Prop} {k : α → ExecutionM γ}
    {l : β → CourseM δ} {R : World → δ → γ → Prop} (sim : Sim w t x)
    (f : Reads t.engine.store x.machine.heap look n Q) (next : ∀ b a, Q b a → Takes w t x (k a) (l b) R) :
    Takes w t x (liftM look >>= k) (liftM n >>= l) R := by
  unfold Reads at f
  unfold Takes Follows at next ⊢
  rw [run_bind, run_bind, Execution.run_observation, Course.run_observation]
  generalize look x.machine.heap = y, n t.engine.store = z at f ⊢
  cases f with
  | ok q => exact next _ _ q
  | error same => exact .error same sim.machine.output
  | fault => exact .fault
  | wild => exact .wild

theorem answer {y : α} {z : β} {Q : World → β → α → Prop} (sim : Sim w t x) (q : Q w z y) :
    Takes w t x (pure y) (pure z) Q := Follows.pure sim q

theorem aborts {k k' : MachineError} {Q : World → β → α → Prop} (sim : Sim w t x) (same : k.erase = k') :
    Takes w t x (Execution.abort k) (Course.abort k') Q := Matches.error same sim.machine.output

/-- Both change in a way that keeps them related, without touching the heap. -/
theorem modify_bind {f : Execution → Execution} {g : Course → Course} {k : PUnit → ExecutionM γ} {l : PUnit → CourseM δ}
    {R : World → δ → γ → Prop} (store : (g t).engine.store = t.engine.store) (next : Takes w (g t) (f x) (k ⟨⟩) (l ⟨⟩) R) :
    Takes w t x (modify f >>= k) (modify g >>= l) R := by
  unfold Takes Follows at next ⊢
  change Matches executionLevel w t.engine.store R (k ⟨⟩ (f x)) (l ⟨⟩ (g t))
  rw [← store]
  exact next

theorem aside {f : Execution → Execution} {k : PUnit → ExecutionM γ} {l : CourseM δ} {R : World → δ → γ → Prop}
    (next : Takes w t (f x) (k ⟨⟩) l R) : Takes w t x (modify f >>= k) l R := next

theorem note {severity : Severity} {text : Unit → String} {k : Unit → ExecutionM γ} {l : CourseM δ}
    {R : World → δ → γ → Prop} (sim : Sim w t x) (next : ∀ x', Sim w t x' → Takes w t x' (k ()) l R) :
    Takes w t x (Execution.note severity text >>= k) l R :=
  aside (next _ { sim with machine := sim.machine.record severity text })

theorem schedule {f : Scheduler → Scheduler} {k : Unit → ExecutionM γ} {l : Unit → CourseM δ} {R : World → δ → γ → Prop}
    (sim : Sim w t x)
    (d : Describes w { t.engine with scheduler := f t.engine.scheduler } { x.machine with scheduler := f x.machine.scheduler })
    (next : ∀ t' x', t' = { t with engine := { t.engine with scheduler := f t.engine.scheduler } } →
      Sim w t' x' → Takes w t' x' (k ()) (l ()) R) :
    Takes w t x (Execution.schedule f >>= k) (Course.schedule f >>= l) R :=
  modify_bind rfl (next _ _ rfl { sim with machine := d })

/-! ### One turn -/

theorem countInstruction (sim : Sim w t x) {k : Unit → ExecutionM γ} {l : Unit → CourseM δ} {R : World → δ → γ → Prop}
    (next : ∀ x', Sim w { t with executed := t.executed + 1 } x' →
      Takes w { t with executed := t.executed + 1 } x' (k ()) (l ()) R) :
    Takes w t x (Execution.countInstruction >>= k) (Course.countInstruction >>= l) R := by
  have counted : Sim w { t with executed := t.executed + 1 } { x with executed := x.executed + 1 } :=
    { sim with executed := congrArg (· + 1) sim.executed }
  have run : Execution.countInstruction x = if t.limit < t.executed + 1 then
      .error (.error (.timeLimitExceeded t.limit)) { x with executed := x.executed + 1 }
      else .ok () { x with executed := x.executed + 1 } := by
    simp only [Execution.countInstruction, run_bind, run_modify, run_get, run_ite, sim.limit, sim.executed]
    rfl
  have run' : Course.countInstruction t = if t.limit < t.executed + 1 then
      .error (.error (.timeLimitExceeded t.limit)) { t with executed := t.executed + 1 }
      else .ok () { t with executed := t.executed + 1 } := by
    simp only [Course.countInstruction, run_bind, run_modify, run_get, run_ite]
    rfl
  unfold Takes Follows
  rw [run_bind, run_bind, run, run']
  by_cases isOver : t.limit < t.executed + 1
  · rw [if_pos isOver, if_pos isOver]
    exact Matches.error rfl sim.machine.output
  · rw [if_neg isOver, if_neg isOver]
    exact next _ counted

/-- The instruction is fetched, and the program counter moves on. -/
theorem fetch (sim : Sim w t x) (hc : w.home c a) :
    Takes w t x (Execution.fetch a) (Course.fetch c) fun w' y z => w' = w ∧ y = z := by
  refine read_bind sim (.pc sim.machine.rep hc) ?_
  rintro f _ rfl
  refine Follows.skip (m := get) (n := get) rfl rfl ?_
  rw [sim.code]
  cases t.code[f.pc]? with
  | none => exact aborts sim rfl
  | some i =>
    refine machine_bind sim (Drives.heap sim.machine (.setPc sim.machine.rep hc (f.pc + 1))) ?_
    rintro _ t₁ _ x₁ _ sim₁ keeps rfl
    exact note sim₁ fun x₂ sim₂ => answer sim₂ ⟨rfl, rfl⟩

theorem endTurnIfSpent (sim : Sim w t x) :
    Takes w t x Execution.endTurnIfSpent Course.endTurnIfSpent fun w' _ _ => w' = w := by
  refine schedule sim sim.machine.tick fun t₁ x₁ _ sim₁ => ?_
  refine Follows.skip (m := get) (n := get) rfl rfl ?_
  simp only [sim₁.machine.isSpent]
  split
  next spent =>
    have yields {x : Execution} (sim : Sim w t₁ x) :
        Takes w t₁ x (Execution.schedule .yieldCurrent) (Course.schedule .yieldCurrent) fun w' _ _ => w' = w := by
      refine (schedule (k := pure) (l := pure) sim sim.machine.yieldCurrent fun t₂ x₂ _ sim₂ => answer sim₂ rfl).congr ?_ ?_
      · rw [bind_pure]
      · rw [bind_pure]
    cases x₁.machine.scheduler.current with
    | none => exact yields sim₁
    | some a => exact note sim₁ fun x₂ sim₂ => yields sim₂
  next => exact answer sim₁ rfl

theorem block (sim : Sim w t x) (hc : w.home c a) (pc : Nat) :
    Takes w t x (Execution.settle a pc .block) (Course.settle c .block) fun w' _ _ => w' = w := by
  refine schedule sim sim.machine.dropCurrent fun t₁ x₁ _ sim₁ => ?_
  refine read_bind sim₁ (.contextId sim₁.machine.rep hc) fun f id _ => ?_
  exact aside (k := pure) (answer { sim₁ with machine := sim₁.machine.record _ _ } rfl)

theorem finish (sim : Sim w t x) : Takes w t x Execution.finish Course.finish fun w' _ _ => w' = w := by
  refine Follows.congr (k := (if 0 < x.machine.heap.contexts.length then
      Execution.note .debug fun _ => s!"process finished, abandoning {x.machine.heap.contexts.length} blocked contexts"
      else pure ()) >>= fun _ => modify fun x => { x with finished := true })
    (l := modify (fun t => { t with finished := true }) >>= pure) ?_ ?_ (by rw [bind_pure]; rfl)
  · have finished {x : Execution} (sim : Sim w t x) : Takes w t x (modify fun x => { x with finished := true })
        (modify (fun t => { t with finished := true }) >>= pure) fun w' _ _ => w' = w :=
      (modify_bind (k := pure) rfl (answer { sim with finished := rfl } rfl)).congr (by rw [bind_pure]) rfl
    split
    · exact note sim fun _ sim' => finished sim'
    · exact finished sim
  · unfold Execution.finish
    by_cases some : 0 < x.machine.heap.contexts.length
    · simp only [run_bind, run_get, some, if_true]
    · simp only [run_bind, run_get, some, if_false, run_pure]

end Takes

/-! ### The end -/

theorem Reads.blockedAmong {s : Store} {h : Heap} {xs : List Ref} {as : List Nat} (rep : Rep w s h)
    (homes : List.Forall₂ w.home xs as) :
    Reads s h (Execution.blockedAmong as) (Course.blockedAmong xs) (List.Forall₂ w.home) := by
  induction homes with
  | nil => exact .pure .nil
  | cons hx _ ih =>
    refine (Reads.isBlocked rep hx).bind ?_
    rintro f _ rfl
    refine ih.bind fun ys bs homes => .pure ?_
    cases f.blocked with
    | true => exact .cons hx homes
    | false => exact homes

theorem Reads.describeBlocked {s : Store} {h : Heap} (rep : Rep w s h) (hc : w.home c a) (code : Array Instruction) :
    Reads s h (Execution.describeBlocked code a) (Course.describeBlocked code c) Eq := by
  refine (Reads.pc rep hc).bind ?_
  rintro f _ rfl
  refine (Reads.contextId rep hc).bind ?_
  rintro f _ rfl
  exact .pure rfl

theorem Reads.deadlockReport {s : Store} {h : Heap} {xs : List Ref} {as : List Nat} (rep : Rep w s h)
    (homes : List.Forall₂ w.home xs as) (code : Array Instruction) :
    Reads s h (Execution.deadlockReport code as) (Course.deadlockReport code xs) Eq :=
  (Reads.mapM homes fun _ _ hc => .describeBlocked rep hc code).weaken fun _ _ same => List.forall₂_eq_eq_eq ▸ same

namespace Takes

theorem finished (sim : Sim w t x) : Takes w t x (do
    Execution.finish
    return .finished : ExecutionM StepOutcome) (do
    Course.finish
    return .finished : CourseM StepOutcome) fun w' y z => w' = w ∧ y = .finished ∧ z = .finished :=
  (finish sim).bind fun _ _ _ _ _ sim₁ _ same => answer sim₁ ⟨same, rfl, rfl⟩

theorem stall (sim : Sim w t x) :
    Takes w t x Execution.stall Course.stall fun w' y z => w' = w ∧ y = .finished ∧ z = .finished := by
  refine Follows.skip (m := get) (n := get) rfl rfl ?_
  rw [sim.mainDone]
  cases t.mainDone with
  | true => exact finished sim
  | false =>
    refine read_bind sim (.blockedAmong sim.machine.rep sim.machine.rep.contexts) fun ys bs homes => ?_
    have empty : bs.isEmpty = ys.isEmpty := by cases homes <;> rfl
    rw [sim.detect, empty, sim.code]
    cases t.detect && !ys.isEmpty with
    | false => exact finished sim
    | true =>
      refine read_bind sim (.deadlockReport sim.machine.rep homes t.code) ?_
      rintro report _ rfl
      exact Matches.error rfl sim.machine.output

end Takes

/-- A context ends: it is no longer a root. -/
theorem Sim.retire (sim : Sim w t x) (hc : w.home c a) (idle : c ∉ t.engine.scheduler.ready)
    (current : t.engine.scheduler.current = none) :
    Sim w { t with
        engine := { t.engine with store := { t.engine.store with contexts := t.engine.store.contexts.erase c } }
        mainDone := t.mainDone || c == t.main }
      { x with
        machine := { x.machine with heap := { x.machine.heap with contexts := x.machine.heap.contexts.erase a } }
        mainDone := x.mainDone || a == x.main } := by
  have rep := sim.machine.rep
  refine { sim with machine := { sim.machine with rep := ?_, registered := ?_ }, mainDone := ?_, main := ?_ }
  · exact rep.reroot ⟨rfl, rfl, rfl⟩ rfl (erase_home rep rep.contexts hc) rep.temporaries
  · intro b hb
    refine (List.mem_erase_of_ne ?_).mpr (sim.machine.registered b hb)
    rintro rfl
    rw [current] at hb
    exact idle (by simpa using hb)
  · rw [sim.mainDone]
    cases running : t.mainDone with
    | true => rfl
    | false =>
      obtain ⟨home, _⟩ := sim.main running
      rw [Bool.false_or, Bool.false_or, Bool.eq_iff_iff, beq_iff_eq, beq_iff_eq]
      exact rep.eq_iff hc home
  · intro running
    obtain ⟨running, other⟩ := Bool.or_eq_false_iff.mp running
    obtain ⟨home, known⟩ := sim.main running
    refine ⟨home, (List.mem_erase_of_ne fun same => ?_).mpr known⟩
    have same : t.main = c := same
    rw [same] at other
    exact absurd (beq_self_eq_true c) (ne_true_of_eq_false other)

end FiberMachine
