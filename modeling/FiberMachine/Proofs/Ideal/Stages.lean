import FiberMachine.Proofs.Ideal.Leading
import FiberMachine.Proofs.Ideal.Steady

/-!
# The stages of a step

A step that succeeds has found the course at its end, or it has fetched an instruction, executed it, and settled what
becomes of the turn of its context. A step that reports a deadlock has found no context that can run.
-/

namespace FiberMachine.Ideal

variable {α : Type} {s : Store} {c : Ref} {l : List Ref} {events : List Event} {i : Instruction} {depth : Nat} {t t' : Course}
  {done : StepOutcome} {o : Outcome} {f : Fiber} {e : Engine}

/-- A run is what it is. -/
theorem Safe.self {τ : Type} (n : EStateM Lapse τ α) (t : τ) : Safe Any n t fun a t' => n t = .ok a t' := by
  unfold Safe
  split
  · assumption
  · trivial

namespace Course

/-- The store in which the fetched instruction of the context `c` is executed. -/
def fetchedStore (t : Course) (c : Ref) (f : Fiber) : Store := t.engine.store.set c (.context { f with pc := wrap (f.pc + 1) })

/-- The engine that executes the fetched instruction. -/
def fetchedEngine (t : Course) (c : Ref) (f : Fiber) : Engine :=
  { t.engine with store := t.fetchedStore c f, scheduler := t.engine.scheduler.dispatch }

/-- The step fetches the instruction `i` of the context `c` with the registers `f`, and executes it. -/
structure Acted (depth : Nat) (t : Course) (c : Ref) (f : Fiber) (i : Instruction) (o : Outcome) (events : List Event) (e : Engine)
    (t' : Course) : Prop where
  turn : t.engine.scheduler.dispatch.current = some c
  going : t.finished = false
  counted : t.executed + 1 ≤ t.limit
  fiber : t.engine.store.objects[c]? = some (.context f)
  instruction : t.code[f.pc]? = some i
  run : Engine.execute depth c f.pc i (t.fetchedEngine c f) = .ok (o, events) e
  settled : settle c o { t with engine := e, executed := t.executed + 1 } = .ok () t'

/-- There is nothing to report when no context can run. -/
def Content (t : Course) : Prop :=
  t.mainDone = true ∨ t.detect = false ∨ ∃ s, blockedAmong t.engine.store.contexts t.engine.store = .ok [] s

/-- What a step leaves that executes nothing: the course is over, or no context can run. -/
inductive Rests (t : Course) : Course → Prop
  | isOver (finished : t.finished = true) : Rests t t
  | stalls (idle : t.engine.scheduler.dispatch.current = none) (content : t.Content) :
      Rests t { t with engine := { t.engine with scheduler := t.engine.scheduler.dispatch }, finished := true }

theorem Rests.store (rests : t.Rests t') : t'.engine.store = t.engine.store := by cases rests <;> rfl

/-- The failure is the report of a deadlock only if the main context should have gone on. -/
def Waits (t : Course) (l : Lapse) : Prop := ∀ report, l = .error (.deadlock report) → t.mainDone = false ∧ t.detect = true

/-- The failure is the report of a deadlock only if no context can run and the main context should have gone on. -/
def Reports (t : Course) (l : Lapse) : Prop := t.Waits l ∧ ∀ report, l = .error (.deadlock report) → t.engine.scheduler.dispatch.current = none

/-! ### Observations -/

theorem look_same {view : Obj → Option α} {r : Ref} : Safe Lapse.Ordinary (look view r) s fun _ s' => s' = s :=
  Safe.look (fun _ _ => rfl) fun _ => trivial

/-- An observation of the store leaves the course as it is. -/
theorem observe_same {A : Lapse → Prop} {β : Type} {m : StoreM α} {k : α → CourseM β} {Q : β → Course → Prop}
    (same : Safe A m t.engine.store fun _ s' => s' = t.engine.store) (next : ∀ a, Safe A (k a) t Q) :
    Safe A (liftM m >>= k) t Q :=
  Safe.bind (Q := fun _ t' => t' = t) (safe_store (same.weaken fun _ _ e => by rw [e])) fun a _ e => e ▸ next a

theorem blockedAmong_same : Safe Lapse.Ordinary (blockedAmong l) s fun _ s' => s' = s := by
  induction l with
  | nil => exact .pure rfl
  | cons c rest ih =>
    refine Safe.bind look_same ?_
    rintro f _ rfl
    refine Safe.bind ih ?_
    rintro others _ rfl
    exact .pure rfl

theorem deadlockReport_same (code : Array Instruction) : Safe Lapse.Ordinary (deadlockReport code l) s fun _ s' => s' = s := by
  refine (Safe.mapM (P := fun _ _ => True) fun c _ => ?_).weaken fun _ _ found => found.1
  refine Safe.bind look_same ?_
  rintro f _ rfl
  refine Safe.bind look_same ?_
  rintro f _ rfl
  exact .pure ⟨rfl, trivial⟩

theorem stall_stage : Safe t.Waits stall t fun p t' => p = .finished ∧ t' = { t with finished := true } ∧ t.Content := by
  have isOver (content : t.Content) : Safe t.Waits (do finish; return StepOutcome.finished) t fun p t' =>
      p = .finished ∧ t' = { t with finished := true } ∧ t.Content :=
    Safe.bind (Q := fun _ t' => t' = { t with finished := true }) (.of_ok rfl rfl) fun _ _ same => .pure ⟨rfl, same, content⟩
  refine Safe.skip (a := t) rfl ?_
  split
  next going =>
    have admitted (l : Lapse) (ordinary : l.Ordinary) : t.Waits l := fun report same => (same ▸ ordinary :).elim
    refine Safe.bind (Q := fun l t' => t' = t ∧ ∃ s, blockedAmong t.engine.store.contexts t.engine.store = .ok l s)
      (safe_store (((blockedAmong_same.both (Safe.self _ _)).relax admitted).weaken fun l s ⟨same, run⟩ => ⟨by rw [same], s, run⟩)) ?_
    rintro l t ⟨rfl, run⟩
    split
    next detect =>
      exact observe_same ((deadlockReport_same t.code).relax admitted) fun _ _ _ =>
        ⟨by simpa using going, (Bool.and_eq_true_iff.mp detect).1⟩
    next silent =>
      refine isOver ?_
      cases l with
      | nil => exact .inr (.inr run)
      | cons => exact .inr (.inl (by simpa using silent))
  next done => exact isOver (.inl (by simpa using done))

/-! ### Settling -/

/-- What is settled leaves all objects and most of the rest as it is. -/
structure Settled (c : Ref) (o : Outcome) (t t' : Course) : Prop where
  objects : t'.engine.store.objects = t.engine.store.objects
  contexts : t'.engine.store.contexts = if o = .finish then t.engine.store.contexts.erase c else t.engine.store.contexts
  code : t'.code = t.code
  main : t'.main = t.main
  mainDone : t'.mainDone = (t.mainDone || (o = .finish && c == t.main))
  output : t'.engine.output = t.engine.output
  nextId : t'.engine.nextId = t.engine.nextId
  limit : t'.limit = t.limit
  detect : t'.detect = t.detect
  executed : t'.executed = t.executed
  finished : t'.finished = true → t.finished = true ∨ t'.mainDone = true

theorem settle_settled : Safe Lapse.Ordinary (settle c o) t fun _ t' => Settled c o t t' := by
  cases o with
  | proceed =>
    refine Safe.bind (Q := fun _ t' => t' = { t with engine := { t.engine with scheduler := t.engine.scheduler.tick } })
      (.of_ok rfl rfl) ?_
    rintro _ _ rfl
    refine Safe.skip rfl ?_
    dsimp only
    split
    · exact ⟨rfl, rfl, rfl, rfl, (Bool.or_false _).symm, rfl, rfl, rfl, rfl, rfl, .inl⟩
    · exact ⟨rfl, rfl, rfl, rfl, (Bool.or_false _).symm, rfl, rfl, rfl, rfl, rfl, .inl⟩
  | block =>
    refine Safe.bind (Q := fun _ t' => t' = { t with engine := { t.engine with scheduler := t.engine.scheduler.dropCurrent } })
      (.of_ok rfl rfl) ?_
    rintro _ _ rfl
    exact observe_same look_same fun _ => .pure ⟨rfl, rfl, rfl, rfl, (Bool.or_false _).symm, rfl, rfl, rfl, rfl, rfl, .inl⟩
  | finish =>
    refine Safe.bind (Q := fun _ t' => t' = { t with engine := { t.engine with scheduler := t.engine.scheduler.dropCurrent } })
      (.of_ok rfl rfl) ?_
    rintro _ _ rfl
    refine Safe.skip rfl ?_
    split
    · trivial
    refine Safe.bind (Q := fun _ t' => t' = { t with engine := { t.engine with
      scheduler := t.engine.scheduler.dropCurrent, store := { t.engine.store with contexts := t.engine.store.contexts.erase c } } })
      (.of_ok rfl rfl) ?_
    rintro _ _ rfl
    refine observe_same look_same fun _ => ?_
    refine Safe.bind (Q := fun _ t' => Settled c .finish t t') ⟨rfl, rfl, rfl, rfl, rfl, rfl, rfl, rfl, rfl, rfl, .inl⟩ fun _ t₁ settled => ?_
    refine Safe.skip (a := t₁) rfl ?_
    split
    next isOver =>
      exact { settled with finished := fun _ => .inr (Bool.and_eq_true_iff.mp isOver).1 }
    · exact settled

/-- A context that proceeds goes on with its turn or is the last that is ready. -/
theorem settle_proceed (turn : t.engine.scheduler.current = some c) : Safe Lapse.Ordinary (settle c .proceed) t fun _ t' =>
    t'.engine.scheduler.ready ++ t'.engine.scheduler.current.toList = t.engine.scheduler.ready ++ [c] := by
  refine Safe.bind (Q := fun _ t' => t' = { t with engine := { t.engine with scheduler := t.engine.scheduler.tick } }) (.of_ok rfl rfl) ?_
  rintro _ _ rfl
  refine Safe.skip rfl ?_
  dsimp only
  split
  · refine Safe.of_ok rfl ?_
    simp [Scheduler.yieldCurrent, Scheduler.tick, turn]
  · exact .pure (by simp [Scheduler.tick, turn])

/-- A context that blocks has no turn any more. -/
theorem settle_block : Safe Lapse.Ordinary (settle c .block) t fun _ t' =>
    t'.engine.scheduler.ready = t.engine.scheduler.ready ∧ t'.engine.scheduler.current = none := by
  refine Safe.bind (Q := fun _ t' => t' = { t with engine := { t.engine with scheduler := t.engine.scheduler.dropCurrent } }) (.of_ok rfl rfl) ?_
  rintro _ _ rfl
  exact observe_same look_same fun _ => .pure ⟨rfl, rfl⟩

/-! ### Fetching and executing -/

theorem fetch_stage : Safe Lapse.Ordinary (fetch c) t fun p t' => ∃ f, t.engine.store.objects[c]? = some (.context f) ∧ p.1 = f.pc ∧
    t.code[f.pc]? = some p.2 ∧ t' = { t with engine := { t.engine with store := t.fetchedStore c f } } := by
  refine Safe.bind (Q := fun f t' => t' = t ∧ t.engine.store.objects[c]? = some (.context f))
    (safe_store (Safe.look (fun f seen => ⟨rfl, object_of_fiber seen⟩) fun _ => trivial)) ?_
  rintro f t ⟨rfl, ho⟩
  refine Safe.skip (a := t) rfl ?_
  cases instruction : t.code[f.pc]? with
  | none => trivial
  | some i =>
    refine Safe.bind (Q := fun _ t' => t' = { t with engine := { t.engine with store := t.fetchedStore c f } })
      (safe_store (Safe.look_bind (fun g seen => ?_) fun _ => trivial)) ?_
    · rw [object_of_fiber seen] at ho
      cases ho
      exact Safe.replace rfl
    · rintro _ _ rfl
      exact .pure ⟨f, ho, rfl, instruction, rfl⟩

theorem advance_stages (going : t.finished = false) : Safe t.Reports (advance depth) t fun p t' => (p = (.finished, []) ∧ t.Rests t') ∨
    ∃ c f i o e, p.1 = .executed c f.pc ∧ Acted depth t c f i o p.2 e t' := by
  have admitted (l : Lapse) (ordinary : l.Ordinary) : t.Reports l :=
    ⟨fun report same => (same ▸ ordinary :).elim, fun report same => (same ▸ ordinary :).elim⟩
  refine Safe.bind (Q := fun _ t' => t' = { t with engine := { t.engine with scheduler := t.engine.scheduler.dispatch } })
    (.of_ok rfl rfl) ?_
  rintro _ _ rfl
  refine Safe.skip rfl ?_
  dsimp only
  cases turn : t.engine.scheduler.dispatch.current with
  | none =>
    refine Safe.bind (stall_stage.relax fun l waits => ⟨waits, fun _ _ => turn⟩) ?_
    rintro _ _ ⟨rfl, rfl, content⟩
    exact .pure (.inl ⟨rfl, .stalls turn content⟩)
  | some c =>
    refine Safe.bind (Q := fun _ t' => t.executed + 1 ≤ t.limit ∧ t' = { t with
      engine := { t.engine with scheduler := t.engine.scheduler.dispatch }, executed := t.executed + 1 }) ?_ ?_
    · refine Safe.bind (Q := fun _ t' => t' = { t with
        engine := { t.engine with scheduler := t.engine.scheduler.dispatch }, executed := t.executed + 1 }) (.of_ok rfl rfl) ?_
      rintro _ _ rfl
      refine Safe.skip rfl (Safe.skip rfl ?_)
      split
      · exact admitted _ trivial
      next within => exact ⟨Nat.le_of_not_lt within, rfl⟩
    rintro _ _ ⟨counted, rfl⟩
    refine Safe.bind (fetch_stage.relax admitted) ?_
    rintro ⟨_, i⟩ _ ⟨f, ho, rfl, instruction, rfl⟩
    refine Safe.bind (Q := fun p t' => ∃ e, t' = { t with engine := e, executed := t.executed + 1 } ∧
      Engine.execute depth c f.pc i (t.fetchedEngine c f) = .ok p e)
      (safe_engine (((Engine.execute_led.both (Safe.self _ _)).relax admitted).weaken fun p e ⟨_, run⟩ => ⟨e, rfl, run⟩)) ?_
    rintro ⟨o, events⟩ _ ⟨e, rfl, run⟩
    refine Safe.bind ((settle_settled.both (Safe.self _ _)).relax admitted) fun _ t' ⟨_, settled⟩ => .pure (.inr ⟨c, f, i, o, e, rfl, ?_⟩)
    exact ⟨turn, going, counted, ho, instruction, run, settled⟩

/-- What a successful step has done. -/
theorem step_stages (run : step depth t = .ok (done, events) t') : (done = .finished ∧ events = [] ∧ t.Rests t') ∨
    ∃ c f i o e, done = .executed c f.pc ∧ Acted depth t c f i o events e t' := by
  rw [step_eq] at run
  split at run
  next isOver =>
    cases run
    exact .inl ⟨rfl, rfl, .isOver isOver⟩
  next going =>
    have stages : Safe t.Reports (advance depth) t _ := advance_stages (Bool.eq_false_iff.mpr going)
    unfold Safe at stages
    split at run
    next eq =>
      cases run
      rw [eq] at stages
      rcases stages with ⟨same, rests⟩ | acted
      · cases same
        exact .inl ⟨rfl, rfl, rests⟩
      · exact .inr acted
    next => cases run
    next => cases run

/-- When a step reports a deadlock. -/
theorem step_reports {l : Lapse} (run : step depth t = .error l t') : t.finished = false ∧ t.Reports l := by
  rw [step_eq] at run
  split at run
  · cases run
  next going =>
    have going := Bool.eq_false_iff.mpr going
    refine ⟨going, ?_⟩
    split at run
    · cases run
    next eq => cases run; exact (advance_stages going).error eq
    next eq => cases run; exact (advance_stages going).error eq

end Course

end FiberMachine.Ideal
