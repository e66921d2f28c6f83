import FiberMachine.Proofs.Calls
import FiberMachine.Proofs.Ideal.Framing
import FiberMachine.Proofs.RoundRobin
import FiberMachine.Proofs.Runnable

/-!
# Programs with one context

Contexts are started by one instruction only. As long as a program does not execute it, the main context is the only one: every request is
a request of the main context, so a select finds only requests of its own, and the scheduler has at most that context to run.
-/

namespace FiberMachine

namespace Ideal

/-- All kinds but contexts. -/
abbrev contextless (t : Tag) : Prop := t ≠ .context

variable {P : Ref → Prop} {s s' : Store} {r c : Ref} {i : Instruction} {log events : List Event} {o : Outcome}

/-- There is a context of that name. -/
def Store.IsContext (s : Store) (r : Ref) : Prop := ∃ f, s.objects[r]? = some (.context f)

theorem Store.IsContext.lt (is : s.IsContext r) : r < s.objects.length := by
  obtain ⟨f, hf⟩ := is
  exact (List.getElem?_eq_some_iff.mp hf).1

/-- A context is old when none are made. -/
theorem Store.Edits.isContext (a : s.Edits contextless P s') (is : s'.IsContext r) : s.IsContext r := by
  obtain ⟨f, hf⟩ := is
  obtain ⟨o, ho, tagged, watched⟩ := (a.watched_origin hf rfl).resolve_right fun new => new.2 rfl
  cases o with
  | context g => exact ⟨g, ho⟩
  | _ => cases tagged <;> cases watched

namespace Engine

variable {e : Engine} {depth pc argc returnPc : Nat}

/-- A call makes no context. -/
theorem execCall_contexts (turn : Turn e c) :
    Safe Any (execCall c returnPc argc) e fun _ e' => ∀ r, e'.store.IsContext r → r < e.store.objects.length := by
  refine takeCall turn fun m xs rest e₁ _ others _ _ _ ⟨f, hf, _⟩ => ?_
  have fewer := others.length_le turn.active.isContext.known
  refine store_bind (tag_seen.relax fun _ _ => trivial) ?_
  rintro t _ ⟨rfl, _⟩
  split
  · refine store_bind look_seen ?_
    rintro _ _ ⟨rfl, _⟩
    refine store_bind look_seen ?_
    rintro _ _ ⟨rfl, _⟩
    refine store_bind look_seen ?_
    rintro _ _ ⟨rfl, _⟩
    exact callMethod_invoked.weaken fun o e' invoked r is => Nat.lt_of_lt_of_le is.lt (invoked.length ▸ fewer)
  · exact (Editing.enter (K := contextless) (P := fun _ => True) trivial nofun e₁).weaken fun _ _ edits r is =>
      Nat.lt_of_lt_of_le (edits.isContext is).lt fewer

/-- No other instruction makes a context. -/
theorem dispatch_contexts (turn : Turn e c) (alone : ∀ argc, i ≠ .go argc) :
    Safe Any (dispatch depth c pc i) e fun _ e' => ∀ r, e'.store.IsContext r → r < e.store.objects.length := by
  have edits {m : EngineM (Outcome × List Event)} (editing : Editing contextless (fun _ => True) Engine.store m) :
      Safe Any m e fun _ e' => ∀ r, e'.store.IsContext r → r < e.store.objects.length :=
    (editing e).weaken fun _ _ edits _ is => (edits.isContext is).lt
  cases i with
  | go argc => exact absurd rfl (alone argc)
  | call argc => exact Safe.bind (execCall_contexts turn) fun _ _ old => .pure old
  | callMethod method n =>
    refine Safe.bind (execCallMethod_called turn) ?_
    rintro o e' ⟨g, xs, _, _, others, _, _, invoked⟩
    refine .pure fun r is => Nat.lt_of_lt_of_le is.lt ?_
    exact invoked.length ▸ others.length_le turn.active.isContext.known
  | _ => exact edits (by unfold dispatch; grind)

end Engine

namespace Course

variable {t t' : Course} {f : Fiber} {e : Engine} {depth : Nat}

/-- A context after an instruction that starts none was there before. -/
theorem Executed.old_context (executed : Executed depth t c f i o events e t') (alone : ∀ argc, i ≠ .go argc)
    (is : t'.engine.store.IsContext r) : t.engine.store.IsContext r := by
  have old := (Engine.execute_safe (Q := fun _ e' => ∀ r, e'.store.IsContext r → r < (t.fetchedStore c f).objects.length)
    ((Engine.dispatch_contexts executed.turning alone).weaken fun _ _ old => old)).ok executed.run
  obtain ⟨g, hg⟩ := is
  have lt : r < t.engine.store.objects.length := Nat.lt_of_lt_of_eq (old r ⟨g, (executed.object r).symm.trans hg⟩) List.length_set
  obtain ⟨o, ho⟩ : ∃ o, t.engine.store.objects[r]? = some o := ⟨_, List.getElem?_eq_getElem lt⟩
  obtain ⟨o', ho', same⟩ := executed.grows r o ho
  cases ho'.symm.trans hg
  cases o with
  | context f => exact ⟨f, ho⟩
  | _ => cases same

/-- There is no context but the main one. -/
def Lone (t : Course) : Prop := ∀ r, t.engine.store.IsContext r → r = t.main

theorem Lone.executed (lone : t.Lone) (executed : Executed depth t c f i o events e t') (alone : ∀ argc, i ≠ .go argc) : t'.Lone :=
  fun r is => (lone r (executed.old_context alone is)).trans executed.main.symm

theorem Lone.rests (lone : t.Lone) (rests : t.Rests t') : t'.Lone := by
  cases rests <;> exact lone

/-- There is at most one context to run. -/
theorem Lone.queue (lone : t.Lone) (steady : Steady log t) : (t.engine.scheduler.current.toList ++ t.engine.scheduler.ready).length ≤ 1 := by
  have few : t.engine.store.contexts.length ≤ 1 := by
    have within : t.engine.store.contexts ⊆ [t.main] := fun c hc =>
      List.mem_singleton.mpr (lone c (steady.linked.typed.canonical (steady.linked.typed.contexts c hc)))
    exact (List.subperm_of_subset steady.balanced.nodup within).length_le
  rw [steady.balanced.split.length_eq, List.length_append] at few
  omega

end Course

end Ideal

open Ideal Heap

namespace Execution

/-- Nothing that is executed starts a context. -/
def Alone (code : Array Instruction) (outcomes : List StepOutcome) : Prop :=
  ∀ c pc argc, .executed c pc ∈ outcomes → code[pc]? ≠ some (.go argc)

variable {w : World} {t : Course} {x x' : Execution} {log : List Event} {history : List Entry} {code : Array Instruction} {config : Config}
  {journal : Journal} {o : StepOutcome} {os : List StepOutcome}

/-- An execution whose course has one context. -/
def Lone (x : Execution) : Prop := ∃ w t log, Sim w t x ∧ Steady log t ∧ t.Lone

/-- A request is one of the main context. -/
theorem Lone.selectsOwn (lone : x.Lone) : x.SelectsOwn := by
  obtain ⟨w, t, log, sim, steady, lone⟩ := lone
  rintro a n k default? ⟨turn, pc, instruction⟩ rest qs length operands q hq tagged
  obtain ⟨c, turn, home⟩ := sim.turn turn
  have balanced : Balanced t.engine.store t.engine.scheduler.dispatch.current.toList t.engine.scheduler.dispatch.ready :=
    steady.balanced.requeue (.of_eq t.engine.scheduler.dispatch_queue)
  rw [turn] at balanced
  have isContext := steady.linked.typed.contexts c balanced.running.registered
  obtain ⟨f, hf⟩ := steady.linked.typed.canonical isContext
  have rep := sim.machine.rep
  obtain ⟨as, read, homes⟩ := rep.operands_eq home hf
  cases read.symm.trans operands
  obtain ⟨r, hr, at_⟩ := related_left homes (List.mem_append_right _ hq)
  obtain ⟨o, ho⟩ := (steady.linked.typed.good c _ hf).2.1 r hr
  have isRequest : t.engine.store.IsTag r .channelRequest := ⟨o, ho, Except.ok.inj ((rep.tag_eq at_ ho).symm.trans tagged)⟩
  obtain ⟨p, hp⟩ := steady.linked.typed.canonical isRequest
  have owned := steady.linked.typed.canonical (steady.linked.typed.good r _ hp).1
  obtain ⟨b, answer, owner⟩ := rep.contextOf_eq at_ hp
  rw [lone _ owned, ← lone c ⟨f, hf⟩] at owner
  rw [answer, rep.single c _ _ owner home]

/-- A step that starts no context. -/
theorem Lone.step (lone : x.Lone) (makes : step x = .ok o x') (alone : Alone x.code [o]) : x'.Lone ∧ x'.code = x.code := by
  have own := lone.selectsOwn
  obtain ⟨w, t, log, sim, steady, lone⟩ := lone
  obtain ⟨w', t', done, events, stepped⟩ := sim.stepped steady own makes
  have same : x'.code = x.code := by rw [stepped.sim.code, sim.code, stepped.same_code sim steady own]
  refine ⟨⟨w', t', _, stepped.sim, stepped.steady, ?_⟩, same⟩
  rcases Course.step_executed steady (own.sane sim (w.capacity + 1)) stepped.run with ⟨_, _, rests⟩ | ⟨c, f, i, o', e, rfl, executed⟩
  · exact lone.rests rests
  · refine lone.executed executed fun argc is => ?_
    cases stepped.same with
    | executed home => exact alone _ f.pc argc (List.mem_singleton_self _) (sim.code ▸ is ▸ executed.instruction)

/-- There is at most one context to run. -/
theorem Lone.queue (lone : x.Lone) : (x.machine.scheduler.current.toList ++ x.machine.scheduler.ready).length ≤ 1 := by
  obtain ⟨w, t, log, sim, steady, lone⟩ := lone
  have few := lone.queue steady
  have ready := sim.machine.ready.length_eq
  have current := sim.machine.current
  rw [List.length_append] at few ⊢
  generalize t.engine.scheduler.current = y, x.machine.scheduler.current = z at current few ⊢
  cases current <;> simp only [Option.toList_some, Option.toList_none, List.length_cons, List.length_nil] at few ⊢ <;> omega

end Execution

end FiberMachine
