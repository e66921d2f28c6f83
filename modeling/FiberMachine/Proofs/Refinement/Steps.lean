import FiberMachine.Proofs.Refinement.Courses

/-!
# Steps

A step of an execution follows the step of its course. The context that ends is no longer protected afterwards,
so all that is kept over a step is that no object moves.
-/

namespace FiberMachine

open Ideal

variable {α β γ δ : Type} {w w' w'' : World} {s s' s'' : Store} {t t' : Course} {x x' : Execution} {c : Ref} {a : Nat}

/-- How the result of a step compares with that of the course, begun in the world `w` with the store `s`. -/
inductive Lands (w : World) (s : Store) (Q : World → β → α → Prop) :
    EStateM.Result MachineFailure Execution α → EStateM.Result Lapse Course β → Prop where
  | full {k x r} (full : Exhausted k) : Lands w s Q (.error (.error k) x) r
  | ok {y x z t} (w' : World) (sim : Sim w' t x) (abides : Abides w s w' t.engine.store) (q : Q w' z y) :
      Lands w s Q (.ok y x) (.ok z t)
  | error {k x cause t} (same : k.erase = cause) (shown : Shown t.engine.output x.machine.output) :
      Lands w s Q (.error (.error k) x) (.error (.error cause) t)
  | fault {f x t} : Lands w s Q (.error (.fault f) x) (.error .fault t)
  | wild {r t} : Lands w s Q r (.error .wild t)

namespace Lands

variable {m : ExecutionM α} {n : CourseM β} {Q : World → β → α → Prop} {R : World → δ → γ → Prop}

theorem ofTakes (f : Takes w t x m n Q) : Lands w t.engine.store Q (m x) (n t) := by
  unfold Takes Follows at f
  generalize m x = y, n t = z at f ⊢
  cases f with
  | full full => exact .full full
  | ok w' rel keeps q => exact .ok w' rel keeps.abides q
  | error same failed => exact .error same failed
  | fault => exact .fault
  | wild => exact .wild

/-- One action after another. -/
theorem bind {k : α → ExecutionM γ} {l : β → CourseM δ} (f : Lands w s Q (m x) (n t))
    (next : ∀ z t' y x' w', Sim w' t' x' → Abides w s w' t'.engine.store → Q w' z y →
      Lands w' t'.engine.store R (k y x') (l z t')) : Lands w s R ((m >>= k) x) ((n >>= l) t) := by
  rw [run_bind, run_bind]
  generalize m x = y, n t = z at f ⊢
  cases f with
  | full full => exact .full full
  | error same shown => exact .error same shown
  | fault => exact .fault
  | wild => exact .wild
  | ok w' sim abides q =>
    have g := next _ _ _ _ w' sim abides q
    simp only
    generalize k _ _ = y, l _ _ = z at g ⊢
    cases g with
    | full full => exact .full full
    | ok w'' sim' abides' q' => exact .ok w'' sim' (abides.trans abides') q'
    | error same shown => exact .error same shown
    | fault => exact .fault
    | wild => exact .wild

/-- One action after another, the first of which follows the course. -/
theorem after {k : α → ExecutionM γ} {l : β → CourseM δ} (f : Takes w t x m n Q)
    (next : ∀ z t' y x' w', Sim w' t' x' → Keeps w t.engine.store w' t'.engine.store → Q w' z y →
      Lands w' t'.engine.store R (k y x') (l z t')) : Lands w t.engine.store R ((m >>= k) x) ((n >>= l) t) := by
  unfold Takes Follows at f
  rw [run_bind, run_bind]
  generalize m x = y, n t = z at f ⊢
  cases f with
  | full full => exact .full full
  | error same failed => exact .error same failed
  | fault => exact .fault
  | wild => exact .wild
  | ok w' sim keeps q =>
    have g := next _ _ _ _ w' sim keeps q
    simp only
    generalize k _ _ = y, l _ _ = z at g ⊢
    cases g with
    | full full => exact .full full
    | ok w'' sim' abides' q' => exact .ok w'' sim' (keeps.abides.trans abides') q'
    | error same shown => exact .error same shown
    | fault => exact .fault
    | wild => exact .wild

theorem weaken {y : EStateM.Result MachineFailure Execution α} {z : EStateM.Result Lapse Course β}
    {Q' : World → β → α → Prop} (f : Lands w s Q y z) (more : ∀ w' b a, Q w' b a → Q' w' b a) : Lands w s Q' y z := by
  cases f with
  | full full => exact .full full
  | ok w' sim abides q => exact .ok w' sim abides (more _ _ _ q)
  | error same shown => exact .error same shown
  | fault => exact .fault
  | wild => exact .wild

/-- The roots at the beginning do not matter. -/
theorem since {y : EStateM.Result MachineFailure Execution α} {z : EStateM.Result Lapse Course β}
    (f : Lands w s Q y z) (same : s'.objects = s.objects) : Lands w s' Q y z := by
  cases f with
  | full full => exact .full full
  | ok w' sim abides q => exact .ok w' sim ⟨abides.capacity, abides.origin, same ▸ abides.length, same ▸ abides.old, same ▸ abides.spot⟩ q
  | error same shown => exact .error same shown
  | fault => exact .fault
  | wild => exact .wild

end Lands

/-! ### The end of a context -/

/-- Once the main context has ended and no other can run, the execution is over. -/
theorem Lands.closing (sim : Sim w t x) : Lands w t.engine.store (fun _ _ _ => True)
    ((do
      let e ← get
      if e.mainDone && !e.machine.scheduler.hasWork then Execution.finish : ExecutionM Unit) x)
    ((do
      let t ← get
      if t.mainDone && !t.engine.scheduler.hasWork then Course.finish : CourseM Unit) t) := by
  simp only [run_bind, run_get, sim.mainDone, sim.machine.hasWork, run_ite]
  split
  · exact (Lands.ofTakes (Takes.finish sim)).weaken fun _ _ _ _ => trivial
  · exact .ok w sim .refl trivial

theorem Sim.noted (sim : Sim w t x) (severity : Severity) (text : Unit → String) :
    Sim w t { x with machine := x.machine.record severity text } :=
  { sim with machine := sim.machine.record severity text }

/-- What is left to do once the turn of a context that ends is over. -/
theorem Lands.bury (sim : Sim w t x) (hc : w.home c a) (idle : c ∉ t.engine.scheduler.ready)
    (current : t.engine.scheduler.current = none) : Lands w t.engine.store (fun _ _ _ => True)
    ((do
      Heap.retireContext a
      let id ← Context.id a
      Execution.note .debug fun _ => s!"context {id} terminated"
      modify fun e => { e with mainDone := e.mainDone || a == e.main }
      let e ← get
      if e.mainDone && !e.machine.scheduler.hasWork then Execution.finish : ExecutionM Unit) x)
    ((do
      Ideal.retireContext c
      let _ ← fiber c
      modify fun t => { t with mainDone := t.mainDone || c == t.main }
      let t ← get
      if t.mainDone && !t.engine.scheduler.hasWork then Course.finish : CourseM Unit) t) := by
  have retired := sim.retire hc idle current
  have seen := Reads.contextId retired.machine.rep hc
  have retire : (liftM (Heap.retireContext a) : ExecutionM Unit) x = .ok ()
      { x with machine := { x.machine with heap := { x.machine.heap with contexts := x.machine.heap.contexts.erase a } } } := rfl
  have retire' : (liftM (Ideal.retireContext c) : CourseM Unit) t = .ok ()
      { t with engine := { t.engine with store := { t.engine.store with contexts := t.engine.store.contexts.erase c } } } := rfl
  rw [run_bind, run_bind, retire, retire']
  simp only [run_bind, Execution.run_observation, Course.run_observation]
  unfold Reads at seen
  generalize Context.id a _ = y, fiber c _ = z at seen ⊢
  cases seen with
  | error same => exact .error same sim.machine.output
  | fault => exact .fault
  | wild => exact .wild
  | ok _ => exact (Lands.closing (retired.noted _ _)).since rfl

theorem Lands.terminate (sim : Sim w t x) (hc : w.home c a) :
    Lands w t.engine.store (fun _ _ _ => True) (Execution.terminate a x) (Course.terminate c t) := by
  have dropped : Sim w { t with engine := { t.engine with scheduler := t.engine.scheduler.dropCurrent } }
      { x with machine := { x.machine with scheduler := x.machine.scheduler.dropCurrent } } :=
    { sim with machine := sim.machine.dropCurrent }
  by_cases busy : c ∈ t.engine.scheduler.dropCurrent.ready
  · have run : Course.terminate c t =
        .error .wild { t with engine := { t.engine with scheduler := t.engine.scheduler.dropCurrent } } := by
      simp only [Course.terminate, Course.schedule, run_bind, run_modify, run_get, run_ite, if_pos busy, run_throw]
    rw [run]
    exact .wild
  · have rest := Lands.bury dropped hc busy rfl
    simp only [Execution.terminate, Course.terminate, Execution.schedule, Course.schedule, run_bind, run_modify, run_get,
      run_ite, if_neg busy, run_pure] at rest ⊢
    exact rest

/-! ### Steps -/

/-- The same was done, by the context at the address of the other. -/
inductive SameTurn (w : World) : StepOutcome → StepOutcome → Prop where
  | executed {c a pc} (home : w.home c a) : SameTurn w (.executed c pc) (.executed a pc)
  | finished : SameTurn w .finished .finished

theorem Sim.held (sim : Sim w t x) (turn : t.engine.scheduler.current = some c) (hc : w.home c a) :
    Held w t.engine.store c a :=
  ⟨hc, List.mem_append_left _ (sim.machine.registered c (by simp [turn]))⟩

theorem Lands.settle (sim : Sim w t x) (hc : w.home c a) (pc : Nat) (outcome : Outcome) :
    Lands w t.engine.store (fun _ _ _ => True) (Execution.settle a pc outcome x) (Course.settle c outcome t) := by
  cases outcome with
  | proceed => exact (Lands.ofTakes (Takes.endTurnIfSpent sim)).weaken fun _ _ _ _ => trivial
  | block => exact (Lands.ofTakes (Takes.block sim hc pc)).weaken fun _ _ _ _ => trivial
  | finish => exact Lands.terminate sim hc

/-- Forgetting origins of frames is nothing that the course sees. -/
theorem Lands.prune {k : ExecutionM α} {z : EStateM.Result Lapse Course β} {Q : World → β → α → Prop} (sim : Sim w t x)
    (next : ∀ x', Sim w t x' → Lands w t.engine.store Q (k x') z) :
    Lands w t.engine.store Q ((liftM Machine.pruneOrigins >>= fun _ => k : ExecutionM α) x) z := by
  obtain ⟨m, run, d⟩ := sim.machine.prune
  rw [run_bind, Execution.run_machine, run]
  exact next _ { sim with machine := d }

/-- The turn of a context. -/
theorem Lands.turn (sim : Sim w t x) (held : Held w t.engine.store c a) : Lands w t.engine.store (Noted fun _ => SameTurn w)
    ((do
      Execution.countInstruction
      let (pc, i) ← Execution.fetch a
      let (outcome, events) ← Machine.executeNoting a pc i
      Machine.pruneOrigins
      Execution.settle a pc outcome
      return (.executed a pc, events) : ExecutionM (StepOutcome × List Event)) x)
    ((do
      Course.countInstruction
      let (pc, i) ← Course.fetch c
      let (outcome, events) ← Engine.execute (w.capacity + 1) c pc i
      Course.settle c outcome
      return (.executed c pc, events) : CourseM (StepOutcome × List Event)) t) := by
  have counted : Takes w t x Execution.countInstruction Course.countInstruction fun w' _ _ => w' = w :=
    (Takes.countInstruction (k := pure) (l := pure) sim fun _ sim => Takes.answer sim rfl).congr
      (by rw [bind_pure]) (by rw [bind_pure])
  refine Lands.after counted ?_
  rintro _ t₁ _ x₁ _ sim₁ keeps₁ rfl
  have held₁ := held.keep keeps₁
  refine Lands.after (Takes.fetch sim₁ held₁.home) ?_
  rintro ⟨pc, i⟩ t₂ _ x₂ _ sim₂ keeps₂ ⟨rfl, rfl⟩
  have held₂ := held₁.keep keeps₂
  refine Lands.after (Takes.machine sim₂ (.execute sim₂.machine held₂ pc i)) ?_
  rintro ⟨outcome, events⟩ t₃ ⟨_, events'⟩ x₃ w₃ sim₃ keeps₃ ⟨rfl, notes⟩
  refine Lands.prune sim₃ fun x₄ sim₄ => ?_
  refine Lands.bind (Lands.settle sim₄ (held₂.keep keeps₃).home pc outcome) ?_
  intro _ t₅ _ x₅ w₅ sim₅ abides _
  exact .ok w₅ sim₅ .refl ⟨.executed held.home, notes.keep sim₄.machine.rep sim₅.machine.rep abides⟩

theorem Lands.advance (sim : Sim w t x) :
    Lands w t.engine.store (Noted fun _ => SameTurn w) (Execution.advanceNoting x) (Course.advance (w.capacity + 1) t) := by
  have dispatched : Sim w { t with engine := { t.engine with scheduler := t.engine.scheduler.dispatch } }
      { x with machine := { x.machine with scheduler := x.machine.scheduler.dispatch } } :=
    { sim with machine := sim.machine.dispatch }
  have current := dispatched.machine.current
  rw [Execution.advanceNoting, Course.advance, Execution.schedule, Course.schedule, run_bind, run_bind, run_modify, run_modify]
  simp only
  rw [run_bind, run_bind, run_get, run_get]
  simp only
  cases turn : t.engine.scheduler.dispatch.current with
  | none =>
    rw [turn] at current
    generalize x.machine.scheduler.dispatch.current = y at current ⊢
    cases current
    refine Lands.bind ((Lands.ofTakes (Takes.stall dispatched)).since rfl) ?_
    rintro _ t₁ _ x₁ w₁ sim₁ _ ⟨_, rfl, rfl⟩
    exact .ok w₁ sim₁ .refl ⟨.finished, .nil⟩
  | some c =>
    rw [turn] at current
    generalize x.machine.scheduler.dispatch.current = y at current ⊢
    cases current with
    | some home => exact (Lands.turn dispatched (dispatched.held turn home)).since rfl

/-- The execution without the notes of its last step. -/
def Execution.clean (x : Execution) : Execution := { x with machine := { x.machine with dirty := [] } }

/-- The execution after an error. -/
def Execution.aborted (x : Execution) (cause : MachineError) : Execution :=
  { x with
    machine := x.machine.record .error fun _ => s!"process aborted after {x.executed} instructions: {cause.message}"
    finished := true }

theorem Execution.stepNoting_eq (x : Execution) : stepNoting x =
    if x.finished then .ok (.finished, []) x.clean
    else match advanceNoting x.clean with
      | .ok result x => .ok result x
      | .error (.fault f) x => .error (.fault f) x
      | .error (.error cause) x => .error (.error cause) (x.aborted cause) := rfl

/-- A step follows the step of the course. -/
theorem Lands.step (sim : Sim w t x) :
    Lands w t.engine.store (Noted fun _ => SameTurn w) (Execution.stepNoting x) (Course.step (w.capacity + 1) t) := by
  have clean : Sim w t x.clean := { sim with machine := { sim.machine with } }
  rw [Execution.stepNoting_eq, Course.step, sim.finished]
  split
  · exact .ok w clean .refl ⟨.finished, .nil⟩
  · have f := Lands.advance clean
    generalize Execution.advanceNoting x.clean = y, Course.advance _ t = z at f ⊢
    cases f with
    | full full => exact .full full
    | ok w' sim' abides q => exact .ok w' sim' abides q
    | error same shown => exact .error same shown
    | fault => exact .fault
    | wild => exact .wild

end FiberMachine

/-! ## The first state

A new heap holds the unassigned object and nothing else. The main context is made in it, and from then on the
execution takes the steps of the course.
-/

namespace FiberMachine

open Ideal

/-- The world in which only the unassigned object is. -/
def World.blank (h : Heap) : World where
  owns r k b := r = unassigned ∧ k = 0 ∧ b = unassigned
  part _ _ := 0
  capacity := h.capacity
  size := 1
  origin := h

theorem Heap.Blank.rep {h : Heap} (blank : h.Blank) : Rep (.blank h) Course.blank h where
  tidy := blank.tidy
  capacity := rfl
  owner := by
    rintro r k r' k' b ⟨rfl, rfl, rfl⟩ ⟨rfl, rfl, _⟩
    exact ⟨rfl, rfl⟩
  allocated := by
    rintro r k b ⟨rfl, rfl, rfl⟩
    exact (blank.allocated _).mpr rfl
  main := by
    rintro r k b ⟨rfl, rfl, rfl⟩
    exact ⟨unassigned, rfl, rfl, rfl⟩
  single := by
    rintro r a a' ⟨_, _, rfl⟩ ⟨_, _, rfl⟩
    rfl
  start := by
    rintro r a ⟨_, _, rfl⟩
    rfl
  size := rfl
  object := by
    rintro r a ⟨rfl, _, rfl⟩
    exact ⟨.unassigned, rfl, (blank.allocated _).mpr rfl, blank.tagAt, Nat.zero_le _⟩
  nil := ⟨rfl, rfl, rfl⟩
  contexts := by
    rw [blank.contexts]
    exact .nil
  temporaries := by
    rw [blank.temporaries]
    exact .nil
  lasts := .refl fun _ hb => hb

/-- Making the main context. -/
theorem Tracks.createMain {w : World} {h : Heap} (rep : Rep w Course.blank h) :
    Tracks w Course.blank h Execution.createMain Course.createMain fun w' c a => w'.home c a := by
  refine Tracks.bind (Tracks.newSequence (t := .environment) rep rfl 0) fun env s₁ a h₁ w₁ rep₁ _ made => ?_
  refine Tracks.bind (Tracks.newContext rep₁ made.1 0 0) fun c s₂ b h₂ w₂ rep₂ _ made' => ?_
  refine Tracks.bind (Tracks.registerContext rep₂ made'.1) ?_
  rintro _ s₃ _ h₃ _ rep₃ _ rfl
  exact .answer rep₃ made'.1

variable {code : Array Instruction} {config : Config} {journal : Journal} {x : Execution}

/-- An execution that has been set up takes the steps of the course of its program. -/
theorem Sim.start (run : Execution.start code config journal = .ok x) :
    ∃ w, Sim w (Course.start code config) x := by
  unfold Execution.start at run
  split at run
  next => cases run
  next h created =>
    split at run
    next => cases run
    next a h' made =>
      cases run
      have blank : h.Blank := by
        have enough : levelWords minLevel ≤ config.heapWords := by
          by_contra small
          rw [Heap.create, if_pos (Nat.not_le.mp small)] at created
          cases created
        obtain ⟨h₀, run, blank, _⟩ := Heap.create_eq enough journal
        rw [created] at run
        cases run
        exact blank
      have f := Tracks.createMain blank.rep
      unfold Tracks Follows at f
      rw [made, Course.createMain_eq] at f
      cases f with
      | ok w' rel keeps home =>
        have rep : Rep w' Course.initial h' := rel
        refine ⟨w', ?_⟩
        refine {
          machine := ?_
          code := rfl
          limit := rfl
          detect := rfl
          executed := rfl
          mainDone := rfl
          finished := rfl
          main := fun _ => ⟨home, List.mem_singleton_self 2⟩ }
        exact {
          rep := rep.reroot ⟨rfl, rfl, rfl⟩ rfl rep.contexts rep.temporaries
          ready := .cons home .nil
          current := .none
          sliceUsed := rfl
          timeSlice := rfl
          registered := by
            intro c hc
            exact hc
          output := by
            intro text same
            cases same
            rfl
          generator := rfl
          nextId := rfl
          origins := fun _ hp => absurd hp List.not_mem_nil }

end FiberMachine
