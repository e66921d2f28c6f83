import FiberMachine.Proofs.Ideal.Calling
import FiberMachine.Proofs.Deadlock

/-!
# Calls and returns

A context that calls a function finds its return stack and its environment as they were when it returns, and goes on behind the
call, whatever it has done in between. Until then what it had on its return stack stays there, below the return marker
of the call, and nothing but a return takes the marker away.
-/

namespace FiberMachine

open Ideal Heap

/-- The context calls a function with this step, from `p`. -/
structure Entry.Calls (entry : Entry) (c : Addr) (p : Nat) : Prop where
  executed : entry.outcome = .executed c p
  function : ∃ n rest callee arguments, entry.before.Faces c p (.call n) ∧ arguments.length = n ∧
    Context.operands c entry.before.machine.heap = .ok (rest ++ callee :: arguments) ∧
    tag callee entry.before.machine.heap = .ok .func

/-- A call that has begun: who is in it, what this context returned to before, the return marker and the environment of
the caller above that, and where the caller goes on. -/
structure Activation where
  context : Addr
  returns : List Addr
  marker : Addr
  environment : Addr
  back : Nat

/-- The call that begins when the context calls a function. -/
structure Entry.Begins (call : Entry) (c : Addr) (p : Nat) (k : Activation) : Prop where
  context : k.context = c
  back : k.back = p + 1
  returns : Context.returns c call.before.machine.heap = .ok k.returns
  environment : Context.environment c call.before.machine.heap = .ok k.environment

/-- The context is in the call. -/
structure Execution.InCall (x : Execution) (k : Activation) : Prop where
  returns : ∃ rest, Context.returns k.context x.machine.heap = .ok (k.returns ++ k.marker :: rest)
  marker : tag k.marker x.machine.heap = .ok .callRef
  /-- A scope that was entered before the call cannot be left. -/
  guarded : ∀ n, x.finished = false → x.executed < x.config.maxInstructions → x.Faces k.context n .exitScope →
    Context.returns k.context x.machine.heap = .ok (k.returns ++ [k.marker]) →
    ∃ x', Execution.step x = .error (.error (.heap (.unexpectedTag k.marker .environment .callRef))) x'

/-- The context ends with this step. -/
def Entry.Ends (entry : Entry) (c : Addr) : Prop := ∃ n, entry.outcome = .executed c n ∧ entry.before.Faces c n .done

/-- The context returns from the call with this step: only environments are above the return marker. -/
def Entry.Returns (entry : Entry) (k : Activation) : Prop :=
  ∃ n rest, entry.outcome = .executed k.context n ∧ entry.before.Faces k.context n .ret ∧
    Context.returns k.context entry.before.machine.heap = .ok (k.returns ++ k.marker :: rest) ∧
    ∀ e ∈ rest, tag e entry.before.machine.heap = .ok .environment

/-- The context is where it was before the call, and goes on behind it. -/
structure Execution.Resumes (x : Execution) (k : Activation) : Prop where
  returns : Context.returns k.context x.machine.heap = .ok k.returns
  environment : Context.environment k.context x.machine.heap = .ok k.environment
  pc : Context.pc k.context x.machine.heap = .ok k.back

/-- The context was in the call until it ended or returned, which it did in one of the steps that followed the call. -/
def Activation.Left (k : Activation) (code : Array Instruction) (config : Config) (journal : Journal) (before later : List Entry) : Prop :=
  ∃ during last after y, later = during ++ last :: after ∧ (∀ entry ∈ during ++ [last], entry.before.InCall k) ∧
    Run code config journal (before ++ (during ++ [last])) y ∧ (last.Ends k.context ∨ last.Returns k ∧ y.Resumes k)

variable {w w' : World} {s : Store} {h : Heap} {t t' : Course} {x x' : Execution} {c m E : Ref} {R : List Ref} {a b env n p : Nat}
  {f : Fiber} {as : List Nat} {log events : List Event} {outcome done : StepOutcome} {code : Array Instruction} {config : Config}
  {journal : Journal} {history earlier later : List Entry} {entry : Entry} {v : Word}

/-! ### Leaving a scope that is not there -/

/-- A return marker is popped where an environment should be. -/
theorem Rep.popReturn_marker (rep : Rep w s h) (ha : w.home c a) (hf : s.objects[c]? = some (.context f))
    (read : Context.returns a h = .ok (as ++ [b])) (marker : tag b h = .ok .callRef) (n : Nat) :
    ∃ h₁, Context.setPc a n h = .ok () h₁ ∧ ∀ journal, ∃ h₂,
      Context.popReturn a { h₁ with journal := journal } = .ok b h₂ ∧ tag b h₂ = .ok .callRef := by
  have has : w.HasFiber h c a f := rep.has ha hf
  obtain ⟨h₁, set, e₁, is, cells⟩ := rep.tidy.write (w := UInt64.ofNat n) has.is (π := [1, 2, 3, 5]) rfl
    (i := Context.pcField) (by decide) (fun no => absurd no (by decide))
  obtain ⟨d, xs, stack, _⟩ := has.returns
  have answer : Context.returns a h = .ok xs := by
    simp only [Context.returns, HeapReader.run_bind, rep.returnStack has, stack.items_eq rep.tidy]
  rw [read] at answer
  cases answer
  -- the context, its stack, the items of the stack and the marker are different blocks
  have here := stack.item_allocated rep.tidy (List.mem_append_right as (List.mem_singleton_self b))
  have tagged : h.tagAt b = .callRef := by
    rw [Heap.tag_eq (rep.tidy.sound.lt_capacity here)] at marker
    exact Except.ok.inj marker
  have apart {x y : Nat} (differ : h.tagAt x ≠ h.tagAt y) : x ≠ y := fun e => differ (e ▸ rfl)
  have items : h.tagAt d = .array := by
    obtain ⟨k, _, seq⟩ := stack.items
    exact seq.is.tag
  have keep {x : Nat} (hx : h.Allocated x) (ne : x ≠ a) := e₁.kept x hx ne
  have stack₁ := stack.kept (keep stack.is.allocated (apart (by rw [stack.is.tag, has.is.tag]; decide)))
    (keep stack.allocated (apart (by rw [items, has.is.tag]; decide)))
  have kept₁ := keep here (apart (by rw [tagged, has.is.tag]; decide))
  refine ⟨h₁, set, fun journal => ?_⟩
  -- the journal is not part of the arena
  have same : h₁.SameArena { h₁ with journal := journal } := ⟨rfl, rfl, rfl⟩
  have tidy := e₁.tidy.sameArena same fun r hr => e₁.tidy.root hr
  obtain ⟨h₂, pop, e₂, _⟩ := (stack₁.sameArena same).pop tidy
  have kept₂ := e₂.kept b (same.allocated.mpr kept₁.allocated) fun own => own.elim
    (apart (by rw [tagged, stack.is.tag]; decide)) (apart (by rw [tagged, items]; decide))
  have field : Context.returnStack a { h₁ with journal := journal } = .ok (h.ref a Context.returnsField) := by
    refine (tidy.sound.readNat_eq (same.is.mpr is) (by decide)).trans (congrArg _ ?_)
    rw [same.ref, Heap.ref, cells, if_neg (by decide), Heap.ref]
  refine ⟨h₂, ?_, ?_⟩
  · simp only [Context.popReturn, HeapM.run_bind, HeapM.run_lift, field, pop]
  · rw [Heap.tag_eq (e₂.tidy.sound.lt_capacity kept₂.allocated), kept₂.tagAt, (same.kept kept₁.allocated).tagAt, kept₁.tagAt, tagged]

/-- Leaving a scope when there is a return marker at the top of the return stack. -/
theorem Machine.execExitScope_marker {m : Machine} {h₂ : Heap} (pop : Context.popReturn a m.heap = .ok b h₂)
    (found : tag b h₂ = .ok .callRef) :
    execExitScope a m = .error (.error (.heap (.unexpectedTag b .environment .callRef))) { m with heap := h₂ } := by
  have failed : Heap.expect b .environment h₂ = .error (.error (.unexpectedTag b .environment .callRef)) := by
    simp only [Heap.expect, HeapReader.run_bind, found, HeapReader.run_ite, HeapReader.run_reject]
    rfl
  simp only [execExitScope, run_bind, run_heap, pop, run_reader, failed]
  rfl

namespace Execution

variable {h₁ : Heap}

theorem countInstruction_ok (room : x.executed < x.config.maxInstructions) :
    countInstruction x = .ok () { x with executed := x.executed + 1 } := by
  simp only [countInstruction, run_bind, run_modify, run_get, run_ite, run_pure]
  rw [if_neg (Nat.not_lt.mpr room)]

/-- Fetching the instruction moves the program counter on. -/
theorem fetch_ok (pc : Context.pc a x.machine.heap = .ok n) (instruction : x.code[n]? = some i)
    (set : Context.setPc a (n + 1) x.machine.heap = .ok () h₁) : ∃ journal,
    fetch a x = .ok (n, i) { x with machine := { x.machine with heap := { h₁ with journal := journal } } } := by
  have moved : (liftM (Context.setPc a (n + 1)) : ExecutionM Unit) x = .ok () { x with machine := { x.machine with heap := h₁ } } := by
    change onMachine (Machine.onHeap (Context.setPc a (n + 1))) x = _
    simp only [onMachine, Machine.onHeap, set]
  simp only [fetch, run_bind, run_look pc rfl, run_get, instruction, moved]
  exact ⟨_, rfl⟩

/-- A step that leaves a scope where there is none: at the top of the return stack is a return marker. -/
theorem step_exitScope (going : x.finished = false) (room : x.executed < x.config.maxInstructions)
    (faces : x.Faces a n .exitScope) (set : Context.setPc a (n + 1) x.machine.heap = .ok () h₁)
    (pop : ∀ journal, ∃ h₂, Context.popReturn a { h₁ with journal := journal } = .ok b h₂ ∧ tag b h₂ = .ok .callRef) :
    ∃ x', step x = .error (.error (.heap (.unexpectedTag b .environment .callRef))) x' := by
  let y : Execution := { x with
    machine := { x.machine with dirty := [], scheduler := x.machine.scheduler.dispatch }
    executed := x.executed + 1 }
  obtain ⟨journal, fetched⟩ : ∃ journal, fetch a y = _ := fetch_ok faces.pc faces.instruction set
  obtain ⟨h₂, popped, found⟩ := pop journal
  have failed : ∃ y', advance { x with machine := { x.machine with dirty := [] } } =
      .error (.error (.heap (.unexpectedTag b .environment .callRef))) y' := by
    simp only [advance, schedule, run_bind, run_modify, run_get, faces.turn]
    rw [countInstruction_ok (by exact room)]
    dsimp only
    rw [fetched]
    simp only [run_machine, Machine.execute, Machine.dispatch, Machine.proceeding, run_bind,
      Machine.execExitScope_marker (m := { y.machine with heap := { h₁ with journal := journal } }) popped found]
    exact ⟨_, rfl⟩
  obtain ⟨y', failed⟩ := failed
  simp only [step, going, Bool.false_eq_true, if_false]
  rw [← going, failed]
  exact ⟨_, rfl⟩

end Execution

/-! ### Following a call -/

namespace Activation

/-- The course is in the call. -/
def Known (k : Activation) (w : World) (t : Course) : Prop :=
  ∃ c R m E, t.Calling c R m E k.back ∧ w.marks c k.context ∧ List.Forall₂ w.marks R k.returns ∧ w.marks m k.marker ∧
    w.marks E k.environment

variable {k : Activation}

/-- What is on the return stack of a context that has `R` and a marker there. -/
theorem read_returns (sim : Sim w t x) (ha : w.home c a) (hf : t.engine.store.objects[c]? = some (.context f))
    (marks : List.Forall₂ w.marks R as) (mark : w.marks m b) (returns : f.returns = R ++ m :: rs) :
    ∃ es, Context.returns a x.machine.heap = .ok (as ++ b :: es) ∧ w.home m b ∧ List.Forall₂ w.home rs es := by
  have rep := sim.machine.rep
  obtain ⟨all, read, homes⟩ := rep.returns_eq ha hf
  rw [returns] at homes
  obtain ⟨low, high, rfl, below, above⟩ := related_append homes
  cases above with
  | cons home above =>
    cases World.marks_same marks rep below
    cases mark.same rep home
    exact ⟨_, read, home, above⟩

theorem Known.inCall (known : k.Known w t) (sim : Sim w t x) : x.InCall k := by
  obtain ⟨c, R, m, E, ⟨registered, ⟨f, hf, rest, returns, _⟩, marker⟩, hc, hR, hm, _⟩ := known
  have ha := sim.home_of_marks registered hc
  obtain ⟨es, read, home, _⟩ := read_returns sim ha hf hR hm returns
  have tagged := sim.machine.rep.tag_eq home marker
  refine ⟨⟨es, read⟩, tagged, fun n going room faces top => ?_⟩
  obtain ⟨h₁, set, pop⟩ := sim.machine.rep.popReturn_marker ha hf top tagged (n + 1)
  exact Execution.step_exitScope going room faces set pop

/-- A call goes on over a step, or its context ends or returns. -/
theorem Known.step (known : k.Known w t) (sim : Sim w t x) (steady : Steady log t) (own : x.SelectsOwn) (fits : t.code.size < hostLimit)
    (small : k.back < hostLimit) (stepped : Stepped w t x log outcome w' t' x' done events) :
    k.Known w' t' ∨ Entry.Ends ⟨x, outcome⟩ k.context ∨ Entry.Returns ⟨x, outcome⟩ k ∧ x'.Resumes k := by
  obtain ⟨c, R, m, E, calling, hc, hR, hm, hE⟩ := known
  have keep {r : Ref} {a : Nat} (mark : w.marks r a) : w'.marks r a :=
    mark.keep sim.machine.rep stepped.sim.machine.rep stepped.abides
  have goes (calling : t'.Calling c R m E k.back) : k.Known w' t' :=
    ⟨c, R, m, E, calling, keep hc, hR.imp fun _ _ => keep, keep hm, keep hE⟩
  have same := stepped.same
  rcases Course.step_executed steady (own.sane sim (w.capacity + 1)) stepped.run with ⟨rfl, _, rests⟩ | ⟨d, f, i, o, e, rfl, executed⟩
  · refine .inl (goes ?_)
    obtain ⟨registered, within, marker⟩ := calling
    rw [← rests.store] at registered within marker
    exact ⟨registered, within, marker⟩
  by_cases here : c = d
  · subst here
    obtain ⟨a, ha, faces⟩ := sim.faces executed.turn ⟨f, executed.fiber, rfl⟩ executed.instruction
    cases hc.same sim.machine.rep ha
    cases same with
    | executed home' =>
      cases sim.machine.rep.single _ _ _ home' ha
      rcases executed.calling_own steady.linked.typed fits small calling with calling | rfl | ⟨rfl, topmost, back⟩
      · exact .inl (goes calling)
      · exact .inr (.inl ⟨_, rfl, faces⟩)
      · obtain ⟨g, rest, hg, returns, scopes⟩ := topmost
        obtain ⟨es, read, _, above⟩ := read_returns sim ha hg hR hm returns
        obtain ⟨⟨g', hg', returns', environment', pc'⟩, registered⟩ := back
        have rep' := stepped.sim.machine.rep
        have ha' := stepped.sim.home_of_marks registered (keep hc)
        refine .inr (.inr ⟨⟨_, es, rfl, faces, read, fun e he => ?_⟩, ?_, ?_, pc' ▸ rep'.pc_eq ha' hg'⟩)
        · obtain ⟨r, hr, home⟩ := related_left above he
          obtain ⟨o, ho, tagged⟩ := scopes r hr
          exact tagged ▸ sim.machine.rep.tag_eq home ho
        · obtain ⟨all, read, homes⟩ := rep'.returns_eq ha' hg'
          rw [returns'] at homes
          rw [read, World.marks_same (hR.imp fun _ _ => keep) rep' homes]
        · obtain ⟨b, read, home⟩ := rep'.environment_eq ha' hg'
          rw [environment'] at home
          rw [read, (keep hE).same rep' home]
  · exact .inl (goes (executed.calling_other steady.linked.typed here calling))

end Activation

/-- A step that calls a function begins the call. -/
theorem Entry.Calls.known (calls : Entry.Calls ⟨x, outcome⟩ a p) (sim : Sim w t x) (steady : Steady log t) (own : x.SelectsOwn)
    (fits : t.code.size < hostLimit) (stepped : Stepped w t x log outcome w' t' x' done events) :
    ∃ k : Activation, Entry.Begins ⟨x, outcome⟩ a p k ∧ k.back < hostLimit ∧ k.Known w' t' := by
  obtain ⟨rfl, n, rest, callee, arguments, faces, length, operands, func⟩ := calls
  have same := stepped.same
  have rep := sim.machine.rep
  rcases Course.step_executed steady (own.sane sim (w.capacity + 1)) stepped.run with ⟨rfl, _, rests⟩ | ⟨c, f, i, o, e, rfl, executed⟩
  · cases same
  · cases same with
    | executed ha =>
      obtain ⟨a, ha', faces'⟩ := sim.faces executed.turn ⟨f, executed.fiber, rfl⟩ executed.instruction
      cases rep.single _ _ _ ha ha'
      obtain ⟨_, rfl⟩ := faces.unique faces'
      obtain ⟨low, r, high, same, _, home, above⟩ := rep.operands_split ha executed.fiber operands
      obtain ⟨m, calling, g, hg, returns⟩ := executed.calls steady.linked.typed ⟨f, executed.fiber, same⟩
        (above.length_eq.trans length) (rep.isTag_of_tag home func)
      have rep' := stepped.sim.machine.rep
      obtain ⟨bs, below, homes⟩ := rep.returns_eq ha executed.fiber
      obtain ⟨b, env, scope⟩ := rep.environment_eq ha executed.fiber
      have keep {r : Ref} {a : Nat} (home : w.home r a) : w'.marks r a := (rep.marks home).keep rep rep' stepped.abides
      have ha' := stepped.sim.home_of_marks calling.registered (keep ha)
      obtain ⟨all, _, homes'⟩ := rep'.returns_eq ha' hg
      rw [returns] at homes'
      obtain ⟨_, _, _, _, above'⟩ := related_append homes'
      cases above' with
      | @cons _ m' _ _ marker _ =>
        have inside := (Array.getElem?_eq_some_iff.mp executed.instruction).1
        exact ⟨⟨a, bs, m', b, f.pc + 1⟩, ⟨rfl, rfl, below, env⟩, Nat.lt_of_le_of_lt inside fits, c, f.returns, m, f.environment,
          calling, keep ha, homes.imp fun _ _ => keep, rep'.marks marker, keep scope⟩

theorem Stepped.same_code (stepped : Stepped w t x log outcome w' t' x' done events) (sim : Sim w t x) (steady : Steady log t)
    (own : x.SelectsOwn) : t'.code = t.code := by
  rcases Course.step_executed steady (own.sane sim (w.capacity + 1)) stepped.run with ⟨_, _, rests⟩ | ⟨c, f, i, o, e, _, executed⟩
  · cases rests <;> rfl
  · exact executed.code

theorem Activation.Left.extend {k : Activation} {before more : List Entry} (left : k.Left code config journal before later) :
    k.Left code config journal before (later ++ more) := by
  obtain ⟨during, last, after, y, rfl, rest⟩ := left
  exact ⟨during, last, after ++ more, y, by simp, rest⟩

/-- What has become of the call after the steps that followed it. -/
theorem Run.call_followed {call : Entry} (run : Run code config journal history x) (fits : code.size < hostLimit) (calls : call.Calls a p) :
    ∃ w t log, Followed w t x log history ∧ Run code config journal history x ∧ t.code = code ∧
      ∀ later, history = earlier ++ call :: later → ∃ k : Activation, call.Begins a p k ∧ k.back < hostLimit ∧
        (k.Known w t ∧ (∀ entry ∈ later, entry.before.InCall k) ∨ k.Left code config journal (earlier ++ [call]) later) := by
  refine run.traced (P := fun w t _ history x => Run code config journal history x ∧ t.code = code ∧
    ∀ later, history = earlier ++ call :: later → ∃ k : Activation, call.Begins a p k ∧ k.back < hostLimit ∧
      (k.Known w t ∧ (∀ entry ∈ later, entry.before.InCall k) ∨ k.Left code config journal (earlier ++ [call]) later))
    (fun w x run sim => ⟨.start run, rfl, fun later eq => by simp at eq⟩) ?_
  rintro w t log history x w' t' done events x' outcome followed ⟨run, same, found⟩ own stepped
  have next := run.step own stepped.ran
  refine ⟨next, (stepped.same_code followed.sim followed.steady own).trans same, fun later eq => ?_⟩
  rcases List.eq_nil_or_concat' later with rfl | ⟨later, entry, rfl⟩
  · obtain ⟨rfl, same'⟩ := List.append_inj' eq rfl
    cases same'
    obtain ⟨k, begins, small, known⟩ := calls.known followed.sim followed.steady own (same ▸ fits) stepped
    exact ⟨k, begins, small, .inl ⟨known, by simp⟩⟩
  · rw [← List.cons_append, ← List.append_assoc] at eq
    obtain ⟨rfl, same'⟩ := List.append_inj' eq rfl
    cases same'
    obtain ⟨k, begins, small, ⟨known, throughout⟩ | left⟩ := found later rfl
    · refine ⟨k, begins, small, ?_⟩
      have now := known.inCall followed.sim
      have throughout' : ∀ entry ∈ later ++ [⟨x, outcome⟩], entry.before.InCall k := by
        simp only [List.mem_append, List.mem_singleton]
        rintro entry (old | rfl)
        · exact throughout entry old
        · exact now
      rcases known.step followed.sim followed.steady own (same ▸ fits) small stepped with known | leaves
      · exact .inl ⟨known, throughout'⟩
      · exact .inr ⟨later, _, [], x', rfl, throughout', by simpa using next, leaves⟩
    · exact ⟨k, begins, small, .inr left.extend⟩

/-- A call goes on until its context ends or returns, and a context that returns is where it was before the call and goes on behind
it: its return stack and its environment are the same. While the call goes on, what the context returned to before
stays below the return marker of the call; a step that would leave a scope there fails, and only a return takes the marker away. -/
theorem Run.call_returns {call : Entry} (run : Run code config journal (earlier ++ call :: later) x) (fits : code.size < hostLimit)
    (calls : call.Calls a p) : ∃ k : Activation, call.Begins a p k ∧
      (x.InCall k ∧ (∀ entry ∈ later, entry.before.InCall k) ∨ k.Left code config journal (earlier ++ [call]) later) := by
  obtain ⟨w, t, log, followed, _, _, found⟩ := run.call_followed fits calls
  obtain ⟨k, begins, _, known⟩ := found later rfl
  exact ⟨k, begins, known.imp_left (.imp_left fun known => known.inCall followed.sim)⟩

/-- Whether the context calls a function of no arguments with this step. -/
def Entry.callsPlain (entry : Entry) (c : Addr) (p : Nat) : Bool :=
  let x := entry.before
  entry.outcome == .executed c p && x.machine.scheduler.dispatch.current == some c && (Context.pc c x.machine.heap).toOption == some p &&
    (match x.code[p]? with
    | some (.call 0) => true
    | _ => false) &&
    match Context.operands c x.machine.heap with
    | .ok [callee] => (tag callee x.machine.heap).toOption == some .func
    | _ => false

/-- Whether the context calls a function of no arguments in the second of three steps, and has nothing to return to after the third. -/
def Execution.calledSecond (x : Execution) (c : Addr) (p : Nat) : List Entry → Bool
  | [_, call, _] => call.callsPlain c p && (Context.returns c x.machine.heap).toOption == some []
  | _ => false

theorem Entry.callsPlain_sound {c : Addr} (found : entry.callsPlain c p = true) : entry.Calls c p := by
  simp only [callsPlain, Bool.and_eq_true, beq_iff_eq] at found
  obtain ⟨⟨⟨⟨executed, turn⟩, pc⟩, instruction⟩, operands⟩ := found
  split at instruction
  next plain =>
    split at operands
    next callee read =>
      rw [beq_iff_eq] at operands
      exact ⟨executed, 0, [], callee, [], ⟨turn, toOption_eq pc, plain⟩, rfl, read, toOption_eq operands⟩
    next => cases operands
  next => cases instruction

/-- A program that calls a function, which returns at once. -/
theorem Run.call_returns_once : ∃ earlier call later x a k,
    Run #[.loadFunc 3 [], .call 0, .done, .ret] { heapWords := 128 } (.start none) (earlier ++ call :: later) x ∧
      call.Calls a 1 ∧ call.Begins a 1 k ∧
      k.Left #[.loadFunc 3 [], .call 0, .done, .ret] { heapWords := 128 } (.start none) (earlier ++ [call]) later := by
  obtain ⟨history, x, run, found⟩ := Run.of_follow (P := fun history x => x.calledSecond x.main 1 history) #[.loadFunc 3 [], .call 0, .done, .ret] { heapWords := 128 } (.start none) 3 (by decide +kernel)
  unfold Execution.calledSecond at found
  split at found
  next earlier call later =>
    rw [Bool.and_eq_true, beq_iff_eq] at found
    have calls := Entry.callsPlain_sound found.1
    have parted : Run _ _ _ ([earlier] ++ call :: [later]) x := run
    obtain ⟨k, begins, ⟨⟨⟨rest, read⟩, _, _⟩, _⟩ | left⟩ := parted.call_returns (by decide) calls
    · rw [begins.context, toOption_eq found.2] at read
      simp at read
    · exact ⟨[earlier], call, [later], x, _, k, run, calls, begins, left⟩
  next => cases found

end FiberMachine
