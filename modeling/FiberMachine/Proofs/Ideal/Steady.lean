import FiberMachine.Proofs.Ideal.Course
import FiberMachine.Proofs.Ideal.Dispatch

/-!
# Steady courses

The invariants of a course between two steps, together with what has been noted since its start. Every step keeps them,
and a course that is steady never goes wild.
-/

namespace FiberMachine.Ideal

variable {F : Prop} {α β : Type} {s s' : Store} {c d q : Ref} {xs l : List Ref} {log events : List Event} {i : Instruction} {n depth : Nat}
  {t t' : Course}

/-- The channels and the contexts named in the notes are known. -/
def Event.Known (s : Store) (events : List Event) : Prop :=
  ∀ x ∈ events, ∀ d, x.channel? = some d ∨ x = .made d → s.Known d

/-- A context that waits for more than one thing has blocked in a select. -/
def Choosing (code : Array Instruction) (s : Store) (c : Ref) : Prop :=
  ∃ k n default?, code[k]? = some (.select n default?) ∧ s.blockedAt c = some (wrap (k + 1))

/-- The invariants after what is noted in `log`, when the contexts in `turn` are neither ready nor blocked. -/
structure Poised (log : List Event) (turn : List Ref) (t : Course) : Prop where
  linked : Linked t.engine.store
  balanced : Balanced t.engine.store turn t.engine.scheduler.ready
  choosing : ∀ c, 2 ≤ (t.engine.store.waits c).length → Choosing t.code t.engine.store c
  stranded : ∀ c, (t.engine.store.blockedAt c).isSome → t.engine.store.waits c = [] → .stranded c ∈ log
  flow : Flow Course.initial t.engine.store log
  known : Event.Known t.engine.store log

/-- The invariants between two steps: only the context that has the turn is neither ready nor blocked. -/
def Steady (log : List Event) (t : Course) : Prop := Poised log t.engine.scheduler.current.toList t

/-- The course is over, or goes on, but nothing else has changed. -/
def Course.Still (t t' : Course) : Prop := ∃ finished, t' = { t with finished := finished }

theorem Steady.still (steady : Steady log t) (still : t.Still t') : Steady log t' := by
  obtain ⟨finished, rfl⟩ := still
  exact ⟨steady.linked, steady.balanced, steady.choosing, steady.stranded, steady.flow, steady.known⟩

namespace Course

/-- An action on the engine of the course. -/
theorem safe_engine {A : Lapse → Prop} {m : EngineM α} {Q : α → Course → Prop}
    (f : Safe A m t.engine fun a e => Q a { t with engine := e }) : Safe A (liftM m : CourseM α) t Q := by
  unfold Safe at f ⊢
  rw [run_engine]
  split at f
  next eq => simpa only [eq] using f
  next eq => simpa only [eq] using f

/-- An action on the store of the course. -/
theorem safe_store {A : Lapse → Prop} {m : StoreM α} {Q : α → Course → Prop}
    (f : Safe A m t.engine.store fun a s => Q a { t with engine := { t.engine with store := s } }) :
    Safe A (liftM m : CourseM α) t Q :=
  safe_engine (Engine.safe_store f)

/-- An observation of the store. -/
theorem observe {m : StoreM α} {k : α → CourseM β} {P : α → Prop} {Q : β → Course → Prop} (f : Observes F m t.engine.store P)
    (next : ∀ a, P a → Safe (Admits F) (k a) t Q) : Safe (Admits F) (liftM m >>= k) t Q :=
  Safe.bind (Q := fun a t' => t' = t ∧ P a) (safe_store (Safe.weaken f fun _ _ ⟨same, p⟩ => ⟨by rw [same], p⟩))
    fun a _ ⟨same, p⟩ => same ▸ next a p

/-! ### The end -/

theorem blockedAmong_safe (contexts : ∀ c ∈ l, s.IsTag c .context) (typed : s.Typed) :
    Observes F (blockedAmong l) s fun blocked => ∀ c ∈ blocked, c ∈ l := by
  induction l with
  | nil => exact .pure fun _ no => no
  | cons c rest ih =>
    obtain ⟨f, ho, _⟩ := typed.fiber (contexts c List.mem_cons_self)
    refine (Observes.fiber ho).bind fun f _ => ?_
    refine (ih fun c hc => contexts c (List.mem_cons_of_mem _ hc)).bind fun blocked sub => Observes.pure fun x hx => ?_
    split at hx
    · rcases List.mem_cons.mp hx with rfl | hx
      · exact List.mem_cons_self
      · exact List.mem_cons_of_mem _ (sub x hx)
    · exact List.mem_cons_of_mem _ (sub x hx)

theorem deadlockReport_safe (code : Array Instruction) (contexts : ∀ c ∈ l, s.IsTag c .context) (typed : s.Typed) :
    Observes F (deadlockReport code l) s fun _ => True := by
  refine (Safe.mapM (P := fun _ _ => True) fun c hc => ?_).weaken fun _ _ found => ⟨found.1, trivial⟩
  obtain ⟨f, ho, _⟩ := typed.fiber (contexts c hc)
  exact (Observes.fiber ho).bind fun _ _ => (Observes.fiber ho).bind fun _ _ => Observes.pure trivial

theorem finish_still : Safe (Admits F) finish t fun _ t' => Still t t' := ⟨true, rfl⟩

theorem stall_safe (steady : Steady log t) : Safe (Admits F) stall t fun _ t' => Still t t' := by
  have done : Safe (Admits F) (do finish; return StepOutcome.finished) t fun _ t' => Still t t' :=
    Safe.bind finish_still fun _ _ still => .pure still
  refine Safe.skip (a := t) rfl ?_
  split
  · refine observe (blockedAmong_safe steady.linked.typed.contexts steady.linked.typed) fun blocked sub => ?_
    split
    · refine observe (deadlockReport_safe t.code (fun c hc => steady.linked.typed.contexts c (sub c hc)) steady.linked.typed) fun report _ => ?_
      exact MachineError.noConfusion
    · exact done
  · exact done

end Course

/-- Who can run may be told in another order. -/
theorem Balanced.requeue {turn turn' ready ready' : List Ref} (balanced : Balanced s turn ready)
    (same : (turn' ++ ready').Perm (turn ++ ready)) : Balanced s turn' ready' :=
  ⟨balanced.nodup, balanced.split.trans (same.symm.append_right _)⟩

/-- Only the scheduler has changed. -/
theorem Poised.reschedule {turn turn' : List Ref} {scheduler : Scheduler} (poised : Poised log turn t)
    (same : (turn' ++ scheduler.ready).Perm (turn ++ t.engine.scheduler.ready)) :
    Poised log turn' { t with engine := { t.engine with scheduler := scheduler } } where
  linked := poised.linked
  balanced := poised.balanced.requeue same
  choosing := poised.choosing
  stranded := poised.stranded
  flow := poised.flow
  known := poised.known

namespace Course

theorem endTurnIfSpent_safe (steady : Steady log t) : Safe (Admits F) endTurnIfSpent t fun _ t' => Steady log t' := by
  refine Safe.bind (Q := fun _ t' => Steady log t') (Poised.reschedule steady (.refl _)) fun _ t₁ steady => ?_
  refine Safe.skip (a := t₁) rfl ?_
  dsimp only
  split
  · exact Poised.reschedule steady t₁.engine.scheduler.yieldCurrent_perm
  · exact steady

/-- The context that has the turn ends. -/
theorem terminate_safe (poised : Poised log [c] t) : Safe (Admits F) (terminate c) t fun _ t' => Steady log t' := by
  have out : c ∉ t.engine.scheduler.ready := (List.nodup_cons.mp poised.balanced.once).1
  have idle := poised.balanced.running.idle
  obtain ⟨f, ho⟩ := poised.linked.typed.canonical (poised.linked.typed.contexts c poised.balanced.running.registered)
  have retired : Poised log [] { t with engine := { t.engine with
      store := { t.engine.store with contexts := t.engine.store.contexts.erase c }
      scheduler := t.engine.scheduler.dropCurrent } } :=
    ⟨poised.linked.retire idle, poised.balanced.retire, poised.choosing, poised.stranded,
      ⟨poised.flow.buffer, poised.flow.line⟩, poised.known⟩
  generalize ht : ({ t with engine := { t.engine with
      store := { t.engine.store with contexts := t.engine.store.contexts.erase c }
      scheduler := t.engine.scheduler.dropCurrent } } : Course) = t₁ at retired
  have ho₁ : t₁.engine.store.objects[c]? = some (.context f) := ht ▸ ho
  have none : t₁.engine.scheduler.current = none := ht ▸ rfl
  refine Safe.bind (Q := fun _ t' => t' = { t with engine := { t.engine with scheduler := t.engine.scheduler.dropCurrent } })
    (.of_ok rfl rfl) ?_
  rintro _ _ rfl
  refine Safe.skip rfl ?_
  rw [if_neg (show c ∉ t.engine.scheduler.dropCurrent.ready from out)]
  refine Safe.bind (Q := fun _ t' => t' = t₁) (.of_ok rfl ht) ?_
  rintro _ t₁ rfl
  refine observe (Observes.fiber ho₁) fun _ _ => ?_
  have steady : Steady log t₁ := by
    rw [Steady, none]
    exact retired
  refine Safe.bind (Q := fun _ t' => Steady log t') ?_ fun _ t₂ steady => ?_
  · exact ⟨steady.linked, steady.balanced, steady.choosing, steady.stranded, steady.flow, steady.known⟩
  refine Safe.skip (a := t₂) rfl ?_
  split
  · exact finish_still.weaken fun _ _ still => Steady.still steady still
  · exact steady

theorem settle_safe {o : Outcome} (poised : Poised log (if o = .block then [] else [c]) t) (turn : t.engine.scheduler.current = some c)
    (isContext : t.engine.store.IsTag c .context) : Safe (Admits F) (settle c o) t fun _ t' => Steady log t' := by
  cases o with
  | proceed =>
    refine endTurnIfSpent_safe ?_
    rw [Steady, turn]
    exact poised
  | block =>
    obtain ⟨f, ho, _⟩ := poised.linked.typed.fiber isContext
    refine Safe.bind (Q := fun _ t' => Steady log t' ∧ t'.engine.store = t.engine.store) ⟨Poised.reschedule poised (.refl _), rfl⟩ ?_
    rintro _ t₁ ⟨steady, same⟩
    exact observe (same ▸ Observes.fiber ho) fun _ _ => .pure steady
  | finish => exact terminate_safe poised

/-! ### Steps -/

/-- The next step breaks no assertion that a program can break, unless `F`, and a select finds only requests of its context. -/
def Sane (F : Prop) (depth : Nat) (t : Course) : Prop :=
  ∀ c pc i, t.engine.scheduler.dispatch.current = some c → t.engine.store.PcAt c pc → t.code[pc]? = some i →
    Engine.Permits F depth t.engine.store c i

/-- The next step prints a value of which an address is displayed. -/
def Reveals (t : Course) : Prop :=
  ∃ c pc n newline rest xs, t.engine.scheduler.dispatch.current = some c ∧ t.engine.store.PcAt c pc ∧
    t.code[pc]? = some (.print n newline) ∧ xs.length = n ∧ t.engine.store.Operands c (rest ++ xs) ∧
    ∃ x ∈ xs, t.engine.store.ShowsAddress x

/-- The state in which the fetched instruction is executed. -/
structure Fetched (c : Ref) (pc : Nat) (i : Instruction) (t t' : Course) : Prop where
  code : t'.code = t.code
  scheduler : t'.engine.scheduler = t.engine.scheduler
  output : t'.engine.output = t.engine.output
  calm : Calm t.engine.store t'.engine.store
  before : t.engine.store.PcAt c pc
  instruction : t.code[pc]? = some i
  after : t'.engine.store.PcAt c (wrap (pc + 1))
  others : t.engine.store.OnlyAt c t'.engine.store
  operands : ∀ xs, t'.engine.store.Operands c xs → t.engine.store.Operands c xs

theorem fetch_safe (typed : t.engine.store.Typed) (running : t.engine.store.Running c) :
    Safe (Admits F) (fetch c) t fun p t' => Fetched c p.1 p.2 t t' := by
  obtain ⟨f, ho, env, operands, returns⟩ := typed.fiber (typed.contexts c running.registered)
  refine observe (Observes.fiber ho) ?_
  rintro f rfl
  refine Safe.skip (a := t) rfl ?_
  cases instruction : t.code[f.pc]? with
  | none => exact MachineError.noConfusion
  | some i =>
    have idle := running.idle.not_blocked ho
    have moved : Quiet F (setPc c (f.pc + 1)) t.engine.store fun _ s' => s' = t.engine.store.set c (.context { f with pc := wrap (f.pc + 1) }) :=
      Quiet.update typed ho rfl ⟨env, operands, returns⟩ (by simp only [Obj.wiring, idle]; rfl)
    refine Safe.bind (Q := fun _ t' => Fetched c f.pc i t t') (safe_store (Safe.weaken moved ?_)) fun _ _ fetched => .pure fetched
    rintro _ s' ⟨calm, rfl⟩
    have here := Store.getElem?_set ⟨_, ho⟩ (.context { f with pc := wrap (f.pc + 1) })
    refine ⟨rfl, rfl, rfl, calm, ⟨f, ho, rfl⟩, instruction, ⟨_, (here c).trans (if_pos rfl), rfl⟩, fun q ne => (here q).trans (if_neg ne), ?_⟩
    rintro xs ⟨g, hg, rfl⟩
    rw [here, if_pos rfl] at hg
    cases hg
    exact ⟨f, ho, rfl⟩

end Course

/-- The fetched instruction finds the invariants as they were. -/
theorem Poised.fetched {turn : List Ref} {pc : Nat} (poised : Poised log turn t) (fetched : Course.Fetched c pc i t t') :
    Poised log turn t' where
  linked := poised.linked.calm fetched.calm
  balanced := by
    rw [fetched.scheduler]
    exact poised.balanced.congr fetched.calm.contexts fetched.calm.blockedAt
  choosing x many := by
    rw [fetched.calm.waits] at many
    obtain ⟨k, n, default?, code, at_⟩ := poised.choosing x many
    exact ⟨k, n, default?, fetched.code ▸ code, (fetched.calm.blockedAt x).trans at_⟩
  stranded x blocked none := by
    rw [fetched.calm.blockedAt] at blocked
    rw [fetched.calm.waits] at none
    exact poised.stranded x blocked none
  flow := by
    have flow := poised.flow.trans (.calm poised.linked.typed fetched.calm)
    rwa [List.append_nil] at flow
  known x hx d about := (poised.known x hx d about).grow fetched.calm.grows

/-- What is noted is about channels that are known. -/
theorem About.known (about : About s c s' events) (typed : s.Typed) (typed' : s'.Typed) (grows : s.Grows s') :
    Event.Known s' events := by
  have mentioned {u : Store} {d : Ref} (typed : u.Typed) (mentions : u.Mentions c d) : u.Known d := by
    obtain ⟨xs, operands, here | ⟨q, hq, r, hr, rfl⟩⟩ := mentions
    · exact operands.known typed d here
    · obtain ⟨_, none | isChannel, _⟩ := typed.good q _ hr
      · exact none ▸ typed.nil.known
      · exact isChannel.known
  rcases about with ⟨d, rfl, _, mentions⟩ | about
  · rintro x hx d' (channel | made)
    · rw [List.mem_singleton.mp hx] at channel
      cases channel
    · rw [List.mem_singleton.mp hx] at made
      cases made
      exact mentioned typed' mentions
  · intro x hx d' noted
    rcases about x hx with rfl | ⟨d, channel, mentions⟩
    · rcases noted with noted | noted <;> cases noted
    · rcases noted with noted | rfl
      · rw [channel] at noted
        cases noted
        exact (mentioned typed mentions).grow grows
      · cases channel

/-- One instruction has been executed. -/
theorem Poised.turned {pc : Nat} {e : Engine} {p : Outcome × List Event} (poised : Poised log [c] t) (after : t.engine.store.PcAt c (wrap (pc + 1)))
    (instruction : t.code[pc]? = some i) (turned : Engine.Turned i c t.engine p e) :
    Poised (log ++ p.2) (if p.1 = .block then [] else [c]) { t with engine := e } := by
  have idle : p.1 ≠ .block → e.store.blockedAt c = none := fun still => by
    have balanced := turned.balanced
    rw [if_neg still] at balanced
    exact balanced.running.idle
  have resting {x : Ref} (none : e.store.blockedAt x = none) : e.store.waits x = [] := turned.linked.wired.nothing none
  refine ⟨turned.linked, turned.balanced, fun x many => ?_, fun x blocked none => ?_, poised.flow.trans turned.flow, ?_⟩
  · have waiting : e.store.blockedAt x ≠ none := fun none => by
      change 2 ≤ (e.store.waits x).length at many
      rw [resting none] at many
      cases many
    by_cases own : x = c
    · subst own
      by_cases still : p.1 = .block
      · obtain ⟨⟨n, default?, rfl⟩, stays⟩ := turned.choosing still many
        exact ⟨pc, n, default?, instruction, stays _ after⟩
      · exact absurd (idle still) waiting
    · obtain none | ⟨blockedAt, waits⟩ := turned.others x own
      · exact absurd none waiting
      · change 2 ≤ (e.store.waits x).length at many
        rw [waits] at many
        obtain ⟨k, n, default?, code, at_⟩ := poised.choosing x many
        exact ⟨k, n, default?, code, blockedAt.trans at_⟩
  · by_cases own : x = c
    · subst own
      by_cases still : p.1 = .block
      · exact List.mem_append_right _ (turned.stranded still none)
      · change (e.store.blockedAt x).isSome at blocked
        rw [idle still] at blocked
        cases blocked
    · obtain free | ⟨blockedAt, waits⟩ := turned.others x own
      · change (e.store.blockedAt x).isSome at blocked
        rw [free] at blocked
        cases blocked
      · exact List.mem_append_left _ (poised.stranded x (blockedAt ▸ blocked) (waits ▸ none))
  · intro x hx d noted
    rcases List.mem_append.mp hx with old | new
    · exact (poised.known x old d noted).grow turned.grows
    · exact turned.about.known poised.linked.typed turned.linked.typed turned.grows x new d noted

namespace Course

theorem countInstruction_safe {Q : Unit → Course → Prop} (q : Q () { t with executed := t.executed + 1 }) :
    Safe (Admits F) countInstruction t Q := by
  refine Safe.bind (Q := fun _ t' => t' = { t with executed := t.executed + 1 }) (.of_ok rfl rfl) ?_
  rintro _ _ rfl
  refine Safe.skip rfl (Safe.skip rfl ?_)
  split
  · exact MachineError.noConfusion
  · exact q

/-- An instruction of the context that has the turn. -/
theorem turn_safe (poised : Poised log [c] t) (turn : t.engine.scheduler.current = some c)
    (permits : ∀ pc i, t.engine.store.PcAt c pc → t.code[pc]? = some i → Engine.Permits F depth t.engine.store c i) :
    Safe (Admits F) (do
      let (pc, i) ← fetch c
      let (outcome, events) ← Engine.execute depth c pc i
      settle c outcome
      return (StepOutcome.executed c pc, events)) t fun p t' => Steady (log ++ p.2) t' := by
  refine Safe.bind (fetch_safe poised.linked.typed poised.balanced.running) ?_
  rintro ⟨pc, i⟩ t₁ fetched
  have isContext := poised.linked.typed.contexts c poised.balanced.running.registered
  have isContext₁ := isContext.grow fetched.calm.grows
  have poised₁ := poised.fetched fetched
  have permitted := (permits pc i fetched.before fetched.instruction).onlyAt fetched.others isContext isContext₁ fetched.operands
  have instruction : t₁.code[pc]? = some i := fetched.code ▸ fetched.instruction
  refine Safe.bind (Q := fun p t' => ∃ e, t' = { t₁ with engine := e } ∧ Engine.Turned i c t₁.engine p e)
    (safe_engine ((Engine.execute_turned ⟨poised₁.linked, poised₁.balanced.running⟩ poised₁.balanced permitted).weaken
      fun p e turned => ⟨e, rfl, turned⟩)) ?_
  rintro ⟨outcome, events⟩ _ ⟨e, rfl, turned⟩
  have still : e.scheduler.current = some c := by
    rw [turned.scheduler, fetched.scheduler]
    exact turn
  refine Safe.bind (settle_safe (poised₁.turned fetched.after instruction turned) still (isContext₁.grow turned.grows)) ?_
  exact fun _ _ steady => .pure steady

theorem step_eq (depth : Nat) (t : Course) : step depth t =
    if t.finished then .ok (.finished, []) t
    else match advance depth t with
      | .ok result t => .ok result t
      | .error (.error cause) t => .error (.error cause) { t with finished := true }
      | .error l t => .error l t := rfl

/-- A step keeps the invariants. -/
theorem step_safe (steady : Steady log t) (sane : Sane F depth t) :
    Safe (Admits F) (step depth) t fun p t' => Steady (log ++ p.2) t' := by
  have safe : Safe (Admits F) (advance depth) t fun p t' => Steady (log ++ p.2) t' := by
    have dispatched : Steady log { t with engine := { t.engine with scheduler := t.engine.scheduler.dispatch } } :=
      steady.reschedule (.of_eq t.engine.scheduler.dispatch_queue)
    refine Safe.bind (Q := fun _ t' => t' = { t with engine := { t.engine with scheduler := t.engine.scheduler.dispatch } })
      (.of_ok rfl rfl) ?_
    rintro _ _ rfl
    refine Safe.skip rfl ?_
    dsimp only
    cases turn : t.engine.scheduler.dispatch.current with
    | none =>
      refine Safe.bind (stall_safe dispatched) fun _ t' still => .pure ?_
      rw [List.append_nil]
      exact dispatched.still still
    | some c =>
      have poised : Poised log [c] { t with engine := { t.engine with scheduler := t.engine.scheduler.dispatch } } := by
        rw [Steady, turn] at dispatched
        exact dispatched
      refine Safe.bind (countInstruction_safe (Q := fun _ t' => t' =
        { t with engine := { t.engine with scheduler := t.engine.scheduler.dispatch }, executed := t.executed + 1 }) rfl) ?_
      rintro _ _ rfl
      refine turn_safe (t := { t with
        engine := { t.engine with scheduler := t.engine.scheduler.dispatch }, executed := t.executed + 1 }) ?_ turn ?_
      · exact ⟨poised.linked, poised.balanced, poised.choosing, poised.stranded, poised.flow, poised.known⟩
      · exact fun pc i at_ instruction => sane c pc i turn at_ instruction
  unfold Safe at safe ⊢
  rw [step_eq]
  by_cases isOver : t.finished = true
  · rw [if_pos isOver]
    dsimp only
    rwa [List.append_nil]
  · rw [if_neg isOver]
    split at safe
    next run => rw [run]; exact safe
    next l t' run =>
      rw [run]
      cases l <;> exact safe

/-- The objects of the first state. -/
theorem initial_cases {r : Ref} {o : Obj} (ho : initial.objects[r]? = some o) :
    r = 0 ∧ o = .unassigned ∨ r = 1 ∧ o = .sequence .environment [] ∨ r = 2 ∧ o = .context ⟨0, [], [], 1, false, [], 0⟩ := by
  match r, ho with
  | 0, ho => exact .inl ⟨rfl, (Option.some.inj ho).symm⟩
  | 1, ho => exact .inr (.inl ⟨rfl, (Option.some.inj ho).symm⟩)
  | 2, ho => exact .inr (.inr ⟨rfl, (Option.some.inj ho).symm⟩)

/-- Nothing waits. -/
theorem initial_wiring (r : Ref) : initial.wiring r = .none := by
  rw [Store.wiring]
  cases ho : initial.objects[r]? with
  | none => rfl
  | some o => obtain ⟨_, rfl⟩ | ⟨_, rfl⟩ | ⟨_, rfl⟩ := initial_cases ho <;> rfl

theorem initial_typed : initial.Typed where
  nil := ⟨_, rfl, rfl⟩
  good r o ho := by
    obtain ⟨_, rfl⟩ | ⟨_, rfl⟩ | ⟨_, rfl⟩ := initial_cases ho
    · trivial
    · exact .inr ⟨rfl, fun _ no => absurd no List.not_mem_nil⟩
    · exact ⟨⟨_, rfl, rfl⟩, fun _ no => absurd no List.not_mem_nil, fun _ no => absurd no List.not_mem_nil⟩
  contexts c hc := List.mem_singleton.mp hc ▸ ⟨_, rfl, rfl⟩
  nested r := ⟨r, fun x ⟨xs, ho, _⟩ => by obtain ⟨_, no⟩ | ⟨_, no⟩ | ⟨_, no⟩ := initial_cases ho <;> cases no⟩

theorem initial_linked : Linked initial := by
  have waits (x : Ref) : initial.waits x = [] := by rw [Store.waits, initial_wiring]; rfl
  have blockedAt (x : Ref) : initial.blockedAt x = none := by rw [Store.blockedAt, initial_wiring]; rfl
  have waiters (x : Ref) : initial.waiters x = [] := by rw [Store.waiters, initial_wiring]; rfl
  have buffer (x : Ref) : initial.buffer x = [] := by rw [Store.buffer, initial_wiring]; rfl
  have queue (x : Ref) : initial.queue x = [] := by rw [Store.queue, initial_wiring]; rfl
  refine ⟨initial_typed, ⟨fun c _ _ => waits c, ?_, ?_, fun c => .inl ?_, ?_⟩, ⟨?_, ?_, ?_, ?_⟩⟩
  · exact fun d q hq => absurd (waiters d ▸ hq) List.not_mem_nil
  · exact fun g c hc => absurd (queue g ▸ hc) List.not_mem_nil
  · exact fun q hq => absurd (waits c ▸ hq) List.not_mem_nil
  · intro c blocked
    rw [blockedAt] at blocked
    cases blocked
  · exact fun d n _ => by rw [buffer]; exact Nat.zero_le n
  · exact fun d _ _ q hq => absurd (waiters d ▸ hq) List.not_mem_nil
  · exact fun d q hq => absurd (waiters d ▸ hq) List.not_mem_nil
  · exact fun d q hq => absurd (waiters d ▸ hq) List.not_mem_nil

/-- The first state is steady, and nothing has been noted. -/
theorem start_steady (code : Array Instruction) (config : Config) : Steady [] (start code config) where
  linked := initial_linked
  balanced := ⟨List.nodup_singleton 2, List.Perm.refl _⟩
  choosing c many := by
    change 2 ≤ (initial.wiring c).waits.length at many
    rw [initial_wiring] at many
    cases many
  stranded c blocked := by
    change (initial.wiring c).blockedAt.isSome at blocked
    rw [initial_wiring] at blocked
    cases blocked
  flow := .calm initial_typed (.refl initial_typed)
  known _ no := absurd no List.not_mem_nil

end Course

end FiberMachine.Ideal
