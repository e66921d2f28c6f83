import FiberMachine.Proofs.Ideal.Acting
import FiberMachine.Proofs.Ideal.Silence
import FiberMachine.Proofs.Nesting
import FiberMachine.Proofs.Runs

/-!
# Memories of different sizes

The size of the memory decides where objects are and when there is a collection. Nothing of that is visible to a program: as long as
the memory lasts, two executions of it that differ only in the size of their memories are described by the same course. They take the same
steps, print the same as long as no address is printed, and end in the same way.

The size decides, too, to which depth a value is displayed, but every value that does not contain itself is displayed completely.
-/

namespace FiberMachine

open Ideal Heap

variable {w w' : World} {s : Store} {t t' : Course} {x y : Execution} {e : Engine} {c r : Ref} {a n argc pc depth depth' : Nat} {i : Instruction}
  {newline : Bool} {log events : List Event} {done : StepOutcome}

/-! ### Depths -/

namespace Ideal

theorem bind_congr_at {τ α β : Type} {m : EStateM Lapse τ α} {k k' : α → EStateM Lapse τ β} {t : τ}
    (same : ∀ a t', m t = .ok a t' → k a t' = k' a t') : (m >>= k) t = (m >>= k') t := by
  rw [run_bind, run_bind]
  cases run : m t with
  | ok a t' => exact same a t' run
  | error => rfl

/-- All that the context prints is displayed completely to both depths, or to neither. -/
def Alike (depth depth' : Nat) (s : Store) (c : Ref) (i : Instruction) : Prop :=
  ∀ n newline, i = .print n newline → ∀ rest xs, xs.length = n → s.Operands c (rest ++ xs) →
    ∀ r ∈ xs, (s.Shallow depth r ↔ s.Shallow depth' r)

theorem Store.shallow_iff_onlyAt {s' : Store} (k : s.IsTag c .context) (others : s.OnlyAt c s') (k' : s'.IsTag c .context) :
    s'.Shallow n r ↔ s.Shallow n r := by
  have back : s'.OnlyAt c s := fun q ne => (others q ne).symm
  exact ⟨shallow_onlyAt k' back k, shallow_onlyAt k others k'⟩

namespace Engine

theorem execPrint_depth (active : Active e.store c) (alike : Alike depth depth' e.store c (.print argc newline)) :
    execPrint depth c argc newline e = execPrint depth' c argc newline e := by
  refine bind_congr_at fun xs e₁ run => ?_
  obtain ⟨calm, _, known, ⟨length, rest, before, _⟩, others⟩ := (Quiet.popMany active argc (F := True) (.inl trivial)).ok run
  have k := active.isContext
  have k' := (active.keep calm).isContext
  have displayed : xs.mapM (fun v => (displayWithin depth v : EngineM (Option String))) e₁ =
      xs.mapM (fun v => (displayWithin depth' v : EngineM (Option String))) e₁ := by
    refine mapM_agree (fun x hx => ?_) fun x hx text e₂ run => ?_
    · have same := alike argc newline rfl rest xs length before x hx
      rw [← Store.shallow_iff_onlyAt k others k', ← Store.shallow_iff_onlyAt k others k'] at same
      rw [run_store, run_store, displayWithin_depth calm.typed (known x hx) same]
    · rw [run_store] at run
      split at run
      next s run' =>
        cases run
        rw [displayWithin_still calm.typed (known x hx) run']
      next => cases run
  rw [run_bind, run_bind, displayed]

theorem execute_depth (active : Active e.store c) (alike : Alike depth depth' e.store c i) :
    execute depth c pc i e = execute depth' c pc i e := by
  have same : dispatch depth c pc i e = dispatch depth' c pc i e := by
    cases i with
    | print argc newline =>
      simp only [dispatch, proceeding, quietly, run_bind, execPrint_depth active alike]
    | _ => rfl
  rw [execute, execute, same]

end Engine

namespace Course

/-- A step does not depend on the depth either. -/
theorem step_depth (steady : Steady log t)
    (alike : ∀ c pc i, t.engine.scheduler.dispatch.current = some c → t.engine.store.PcAt c pc → t.code[pc]? = some i →
      Alike depth depth' t.engine.store c i) : step depth t = step depth' t := by
  suffices same : advance depth t = advance depth' t by rw [step_eq, step_eq, same]
  have typed := steady.linked.typed
  refine bind_congr_at fun _ t₁ run => ?_
  cases run
  refine bind_congr_at fun _ t₁ run => ?_
  cases run
  dsimp only
  cases turn : t.engine.scheduler.dispatch.current with
  | none => rfl
  | some c =>
    have balanced : Balanced t.engine.store [c] t.engine.scheduler.dispatch.ready := by
      refine steady.balanced.requeue (.of_eq ?_)
      rw [← t.engine.scheduler.dispatch_queue, turn]
      rfl
    refine bind_congr_at fun _ t₁ run => ?_
    obtain rfl := (countInstruction_safe (F := True) (Q := fun _ t' => t' = _) rfl).ok run
    refine bind_congr_at fun p t₁ run => ?_
    have fetched := Safe.ok (fetch_safe (F := True) (by exact typed) (by exact balanced.running)) run
    have isContext := typed.contexts c balanced.running.registered
    have isContext' := isContext.grow fetched.calm.grows
    have active : Engine.Active t₁.engine.store c := ⟨fetched.calm.typed, balanced.running.keep fetched.calm⟩
    have same : Engine.execute depth c p.1 p.2 t₁.engine = Engine.execute depth' c p.1 p.2 t₁.engine := by
      refine Engine.execute_depth active fun n newline print rest xs length operands r hr => ?_
      rw [Store.shallow_iff_onlyAt isContext fetched.others isContext', Store.shallow_iff_onlyAt isContext fetched.others isContext']
      exact alike c p.1 p.2 turn fetched.before fetched.instruction n newline print rest xs length (fetched.operands _ operands) r hr
    rw [run_bind, run_bind, run_engine, run_engine, same]

/-- What has been printed stays known as long as no address is displayed. -/
theorem output_known (steady : Steady log t) (sane : Sane True depth t) (run : step depth t = .ok (done, events) t') (discreet : ¬t.Reveals)
    (known : t.engine.output.isSome) : t'.engine.output.isSome := by
  rcases step_executed steady sane run with ⟨_, _, rests⟩ | ⟨c, f, i, o, e, _, executed⟩
  · cases rests <;> exact known
  · rw [executed.output]
    by_contra unknown
    obtain ⟨n, newline, rest, xs, rfl, length, ⟨g, hg, operands⟩, r, hr, shows⟩ :=
      executed.turned.output known (Option.not_isSome_iff_eq_none.mp unknown)
    cases Option.some.inj (hg.symm.trans (Store.context_set executed.fiber _))
    have isContext : t.engine.store.IsTag c .context := ⟨_, executed.fiber, rfl⟩
    have here := Store.getElem?_set ⟨_, executed.fiber⟩ (.context { f with pc := wrap (f.pc + 1) })
    refine discreet ⟨c, f.pc, n, newline, rest, xs, executed.turn, ⟨f, executed.fiber, rfl⟩, executed.instruction, length,
      ⟨f, executed.fiber, operands⟩, r, hr, ?_⟩
    exact Store.showsAddress_onlyAt isContext (fun q ne => (here q).trans (if_neg ne)) (isContext.grow executed.calm.grows) shows

end Course

end Ideal

/-! ### Executions of one course -/

namespace Heap

/-- Something in the value is displayed by its address. -/
def ShowsAddress (h : Heap) (r : Addr) : Prop :=
  ∃ b t, Relation.ReflTransGen h.Displays b r ∧ tag b h = .ok t ∧ Tag.Addressed t

end Heap

/-- The next step prints nothing that is displayed by its address. -/
def Execution.Discreet (x : Execution) : Prop :=
  ∀ c n k newline, x.Faces c n (.print k newline) → ∀ rest vs, vs.length = k →
    Context.operands c x.machine.heap = .ok (rest ++ vs) → ∀ v ∈ vs, ¬x.machine.heap.ShowsAddress v

/-- How an execution ends, and what it has printed then: it is over, or its next step fails, or breaks an assertion. Nothing is said about the
state that is left if an assertion breaks. -/
inductive Execution.Ends (x : Execution) : Option MachineFailure → String → Prop
  | finished (isOver : x.finished = true) : x.Ends none x.machine.output
  | failed {k : MachineError} {x' : Execution} (run : Execution.step x = .error (.error k) x') : x.Ends (some (.error k)) x'.machine.output
  | broken {f : Fault} {x' : Execution} (run : Execution.step x = .error (.fault f) x') : x.Ends (some (.fault f)) x.machine.output

/-- A run to the end. -/
structure Completes (code : Array Instruction) (config : Config) (journal : Journal) (history : List Entry) (x : Execution)
    (failure? : Option MachineFailure) (output : String) : Prop where
  run : Run code config journal history x
  own : x.SelectsOwn
  going : ∀ entry ∈ history, entry.before.finished = false
  ends : x.Ends failure? output
  /-- The memory has lasted. -/
  lasted : ∀ size, failure? ≠ some (.error (.heap (.outOfMemory size)))

/-- The steps have executed the same instruction in the same context, or none. -/
inductive SameStep (first second : Entry) : Prop
  | executed {c d : Addr} {pc id : Nat} (ran : first.outcome = .executed c pc) (ran' : second.outcome = .executed d pc)
      (number : Context.id c first.before.machine.heap = .ok id) (number' : Context.id d second.before.machine.heap = .ok id)
  | finished (ran : first.outcome = .finished) (ran' : second.outcome = .finished)

/-- Both executions are over, or have failed in the same way, but the addresses that the errors name may differ. -/
inductive SameEnd : Option MachineFailure → Option MachineFailure → Prop
  | finished : SameEnd none none
  | error {k k' : MachineError} (same : k.erase = k'.erase) : SameEnd (some (.error k)) (some (.error k'))
  | fault {f f' : Fault} : SameEnd (some (.fault f)) (some (.fault f'))

/-- The steps of a run determine where it leads. -/
theorem Run.unique {code : Array Instruction} {config : Config} {journal : Journal} {history : List Entry} {x y : Execution}
    (run : Run code config journal history x) (other : Run code config journal history y) : x = y := by
  induction run generalizing y with
  | start start =>
    generalize eq : ([] : List Entry) = history at other
    cases other with
    | start start' => exact Except.ok.inj (start.symm.trans start')
    | step => simp at eq
  | @step history x x' outcome before own run ih =>
    generalize eq : history ++ [⟨x, outcome⟩] = history' at other
    cases other with
    | start => simp at eq
    | step before' own' run' =>
      obtain ⟨rfl, same⟩ := List.append_inj' eq rfl
      cases same
      cases run.symm.trans run'
      rfl

namespace Sim

/-- What is printed is nested no deeper than to the depth to which it is displayed, unless it contains itself. -/
theorem shallow_iff {rest xs : List Ref} (sim : Sim w t x) (typed : t.engine.store.Typed) (turn : t.engine.scheduler.dispatch.current = some c)
    (pc : t.engine.store.PcAt c n) (instruction : t.code[n]? = some i) (operands : t.engine.store.Operands c (rest ++ xs)) (hr : r ∈ xs) :
    t.engine.store.Shallow (w.capacity + 1) r ↔ t.engine.store.Founded r := by
  obtain ⟨a, home, _⟩ := sim.faces turn pc instruction
  obtain ⟨_, _, _, homes⟩ := sim.machine.rep.taken home operands
  obtain ⟨b, _, home⟩ := related_right homes hr
  exact sim.machine.rep.shallow_iff typed home

/-- Both executions of one course display to a sufficient depth. -/
theorem step_eq (sim : Sim w t x) (sim' : Sim w' t y) (steady : Steady log t) :
    Course.step (w'.capacity + 1) t = Course.step (w.capacity + 1) t := by
  have typed := steady.linked.typed
  refine Course.step_depth steady fun c pc i turn at_ instruction n newline _ rest xs _ operands r hr => ?_
  rw [sim.shallow_iff typed turn at_ instruction operands hr, sim'.shallow_iff typed turn at_ instruction operands hr]

/-- Nothing is displayed by its address. -/
theorem discreet (sim : Sim w t x) (typed : t.engine.store.Typed) (discreet : x.Discreet) : ¬t.Reveals := by
  rintro ⟨c, pc, n, newline, rest, xs, turn, at_, instruction, length, operands, r, hr, d, u, inside, ⟨o, ho, rfl⟩, addressed⟩
  obtain ⟨a, home, faces⟩ := sim.faces turn at_ instruction
  have rep := sim.machine.rep
  obtain ⟨low, high, read, homes⟩ := rep.taken home operands
  obtain ⟨v, hv, home_v⟩ := related_right homes hr
  obtain ⟨b, home_b, displays⟩ := rep.displays_within typed home_v inside
  exact discreet a pc n newline faces low high (homes.length_eq.symm.trans length) read v hv ⟨b, o.tag, displays, rep.tag_eq home_b ho, addressed⟩

end Sim

section

variable {u u' : World} {x' y' : Execution} {outcome outcome' : StepOutcome} {code : Array Instruction} {config config' : Config}
  {journal journal' : Journal} {history history' : List Entry} {failure? failure?' : Option MachineFailure} {output output' : String}

/-- The steps of two executions of one course. -/
theorem Stepped.same_step (stepped : Stepped w t x log outcome w' t' x' done events) (sim : Sim w t x)
    (other : Stepped u t y log outcome' u' t' y' done events) (sim' : Sim u t y) : SameStep ⟨x, outcome⟩ ⟨y, outcome'⟩ := by
  rcases Course.step_stages stepped.run with ⟨rfl, _, _⟩ | ⟨c, f, i, o, e, rfl, acted⟩
  · have same := stepped.same
    have same' := other.same
    cases same
    cases same'
    exact .finished rfl rfl
  · have same := stepped.same
    have same' := other.same
    cases same with
    | executed home =>
      cases same' with
      | executed home' => exact .executed rfl rfl (sim.machine.rep.id_eq home acted.fiber) (sim'.machine.rep.id_eq home' acted.fiber)

/-- The execution of a program has come as far as another one of its course. -/
structure Abreast (w : World) (t : Course) (code : Array Instruction) (config : Config) (journal : Journal) (history all : List Entry) :
    Prop where
  known : t.engine.output.isSome
  other : ∃ before after u y, all = before ++ after ∧ List.Forall₂ SameStep history before ∧ Run code config journal before y ∧ Sim u t y

/-- An execution that is not over when another one of its course is not takes the next step, too. -/
theorem Abreast.step (abreast : Abreast w t code config' journal' history history') (followed : Followed w t x log history)
    (second : Completes code config' journal' history' y failure?' output') (own : x.SelectsOwn) (going : x.finished = false)
    (discreet : x.Discreet) (stepped : Stepped w t x log outcome w' t' x' done events) :
    Abreast w' t' code config' journal' (history ++ [⟨x, outcome⟩]) history' := by
  have sim := followed.sim
  have steady := followed.steady
  refine ⟨Course.output_known steady (own.sane sim _) stepped.run (sim.discreet steady.linked.typed discreet) abreast.known, ?_⟩
  obtain ⟨before, after, u, z, rfl, same, run, sim'⟩ := abreast.other
  have run' : Course.step (u.capacity + 1) t = .ok (done, events) t' := (sim.step_eq sim' steady).trans stepped.run
  cases after with
  | nil =>
    -- the other execution cannot have come to its end
    rw [List.append_nil] at second
    obtain rfl := run.unique second.run
    have failed {e : MachineFailure} {z' : Execution} (fails : Execution.step z = .error e z') : ∃ size, e = .error (.heap (.outOfMemory size)) := by
      rcases sim'.failed steady second.own fails with ⟨_, rfl, size, rfl⟩ | ⟨_, _, _, no, _⟩ | ⟨_, _, _, no⟩
      · exact ⟨size, rfl⟩
      · cases run'.symm.trans no
      · cases run'.symm.trans no
    cases second.ends with
    | finished isOver =>
      rw [sim'.finished, ← sim.finished, going] at isOver
      cases isOver
    | failed fails =>
      obtain ⟨size, full⟩ := failed fails
      exact absurd (congrArg some full) (second.lasted size)
    | broken breaks =>
      obtain ⟨size, no⟩ := failed breaks
      cases no
  | cons entry after =>
    obtain ⟨run₀, own', y', step, run₁⟩ := second.run.before
    obtain rfl := run.unique run₀
    obtain ⟨u', t₁, done', events', stepped'⟩ := sim'.stepped steady own' step
    cases run'.symm.trans stepped'.run
    exact ⟨before ++ [entry], after, u', y', by simp, List.rel_append same (.cons (stepped.same_step sim stepped' sim') .nil), run₁,
      stepped'.sim⟩

/-- Every run has a first state. -/
theorem Run.first (run : Run code config journal history x) : ∃ y, Execution.start code config journal = .ok y := by
  induction run with
  | start run => exact ⟨_, run⟩
  | step _ _ _ ih => exact ih

/-- A run keeps abreast of a complete run of its program in another memory. -/
theorem Run.abreast {words : Nat} (run : Run code config journal history x)
    (second : Completes code (config.withHeapWords words) journal' history' y failure?' output')
    (going : ∀ entry ∈ history, entry.before.finished = false) (discreet : ∀ entry ∈ history, entry.before.Discreet) :
    ∃ w t log, Followed w t x log history ∧ Abreast w t code (config.withHeapWords words) journal' history history' := by
  obtain ⟨z, first⟩ := second.run.first
  obtain ⟨u, sim⟩ := Sim.start first
  have keeps := run.traced (P := fun w t _ history _ => (∀ entry ∈ history, entry.before.finished = false ∧ entry.before.Discreet) →
      Abreast w t code (config.withHeapWords words) journal' history history')
    (fun w x run' _ _ => ⟨rfl, [], history', u, z, rfl, .nil, .start first, sim⟩)
    fun followed keeps own stepped each => by
      have last := each _ (List.mem_append_right _ List.mem_cons_self)
      exact (keeps fun entry member => each entry (List.mem_append_left _ member)).step followed second own last.1 last.2 stepped
  obtain ⟨w, t, log, followed, keeps⟩ := keeps
  exact ⟨w, t, log, followed, keeps fun entry member => ⟨going entry member, discreet entry member⟩⟩

/-- The other execution has come to its end, too, if the course does not take another step. -/
theorem Abreast.ended (second : Completes code config' journal' (history ++ history') y failure?' output')
    (run : Run code config' journal' history x) (sim : Sim w t x) (steady : Steady log t)
    (last : t.finished = true ∨ ∀ p t', Course.step (w.capacity + 1) t ≠ .ok p t') : history' = [] ∧ y = x := by
  cases history' with
  | nil =>
    rw [List.append_nil] at second
    exact ⟨rfl, second.run.unique run⟩
  | cons entry after =>
    obtain ⟨run₀, own, y', ok, _⟩ := second.run.before
    obtain rfl := run.unique run₀
    rcases last with isOver | fails
    · have going := second.going entry (List.mem_append_right _ List.mem_cons_self)
      rw [sim.finished, isOver] at going
      cases going
    · obtain ⟨_, _, _, _, stepped⟩ := sim.stepped steady own ok
      exact absurd stepped.run (fails _ _)

/-- Executions of one course end in the same way. -/
theorem Execution.Ends.same (ends : x.Ends failure? output) (ends' : y.Ends failure?' output') (sim : Sim w t x) (sim' : Sim u t y)
    (steady : Steady log t) (own : x.SelectsOwn) (own' : y.SelectsOwn) (known : t.engine.output.isSome)
    (lasted : ∀ size, failure? ≠ some (.error (.heap (.outOfMemory size))))
    (lasted' : ∀ size, failure?' ≠ some (.error (.heap (.outOfMemory size)))) : output = output' ∧ SameEnd failure? failure?' := by
  obtain ⟨text, printed⟩ := Option.isSome_iff_exists.mp known
  have shown := sim.machine.output text printed
  have shown' := sim'.machine.output text printed
  have step := sim.step_eq sim' steady
  have over_iff : x.finished = y.finished := by rw [sim.finished, sim'.finished]
  have neither {z z' : Execution} {e : MachineFailure} (isOver : z.finished = true) (fails : Execution.step z = .error e z') : False := by
    rw [Execution.step_finished isOver] at fails
    cases fails
  cases ends with
  | finished isOver =>
    cases ends' with
    | finished => exact ⟨shown.trans shown'.symm, .finished⟩
    | failed fails => exact (neither (over_iff ▸ isOver) fails).elim
    | broken breaks => exact (neither (over_iff ▸ isOver) breaks).elim
  | failed fails =>
    obtain ⟨_, same, size, rfl⟩ | ⟨k, t', same, run, shown⟩ | ⟨_, _, no, _⟩ := sim.failed steady own fails
    · cases same
      exact absurd rfl (lasted size)
    · cases same
      cases ends' with
      | finished isOver => exact (neither (over_iff ▸ isOver) fails).elim
      | failed fails' =>
        obtain ⟨_, same, size, rfl⟩ | ⟨k', t'', same, run', shown'⟩ | ⟨_, _, no, _⟩ := sim'.failed steady own' fails'
        · cases same
          exact absurd rfl (lasted' size)
        · cases same
          injection (step.symm.trans run').symm.trans run with causes courses
          subst courses
          have text' := (Course.output_of_error run (by simp)).trans printed
          exact ⟨(shown text text').trans (shown' text text').symm, .error (Lapse.error.inj causes).symm⟩
        · cases no
      | broken breaks =>
        obtain ⟨_, no, _⟩ | ⟨_, _, no, _⟩ | ⟨_, _, _, run'⟩ := sim'.failed steady own' breaks
        · cases no
        · cases no
        · cases (step.symm.trans run').symm.trans run
    · cases no
  | broken breaks =>
    obtain ⟨_, no, _⟩ | ⟨_, _, no, _⟩ | ⟨f, t', same, run⟩ := sim.failed steady own breaks
    · cases no
    · cases no
    · cases ends' with
      | finished isOver => exact (neither (over_iff ▸ isOver) breaks).elim
      | failed fails' =>
        obtain ⟨_, same, size, rfl⟩ | ⟨_, _, _, run', _⟩ | ⟨_, _, no, _⟩ := sim'.failed steady own' fails'
        · cases same
          exact absurd rfl (lasted' size)
        · cases (step.symm.trans run').symm.trans run
        · cases no
      | broken => exact ⟨shown.trans shown'.symm, .fault⟩

end

/-! ### A program that prints -/

namespace Execution

end Execution

end FiberMachine
