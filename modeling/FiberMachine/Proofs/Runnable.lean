import FiberMachine.Proofs.Ideal.Ending
import FiberMachine.Proofs.Runs

/-!
# Who can run

Every registered context has the turn, or is in the ready queue, or is blocked, and never two of these at once. Only a
registered context that is not blocked ever executes an instruction.
-/

namespace FiberMachine

open Ideal Heap

variable {w : World} {s : Store} {h : Heap} {t : Course} {x : Execution} {c : Ref} {a : Nat} {l : List Ref}
  {log : List Event} {code : Array Instruction} {config : Config} {journal : Journal} {history : List Entry}

namespace Rep

/-- Objects and their addresses determine each other. -/
theorem biUnique (rep : Rep w s h) : Relator.BiUnique w.home :=
  ⟨fun _ _ _ ha hb => rep.unique ha hb, fun _ _ _ ha hb => rep.single _ _ _ ha hb⟩

theorem perm_iff (rep : Rep w s h) {xs ys : List Ref} {as bs : List Nat} (hx : List.Forall₂ w.home xs as)
    (hy : List.Forall₂ w.home ys bs) : xs.Perm ys ↔ as.Perm bs :=
  List.rel_perm rep.biUnique hx hy

theorem nodup_iff (rep : Rep w s h) {xs : List Ref} {as : List Nat} (hx : List.Forall₂ w.home xs as) : xs.Nodup ↔ as.Nodup :=
  List.rel_nodup rep.biUnique hx

theorem mem_iff (rep : Rep w s h) {xs : List Ref} {as : List Nat} (hx : List.Forall₂ w.home xs as) (ha : w.home c a) :
    c ∈ xs ↔ a ∈ as :=
  List.rel_mem rep.biUnique ha hx

end Rep

/-- The blocked contexts in the order of their creation. -/
theorem Sim.blocked (sim : Sim w t x) (steady : Steady log t) : ∃ blocked, Execution.blockedContexts x.machine.heap = .ok blocked ∧
    List.Forall₂ w.home t.engine.store.blockedContexts blocked :=
  Reads.answer (Reads.blockedAmong sim.machine.rep sim.machine.rep.contexts)
    (Course.blockedAmong_eq steady.linked.typed.contexts steady.linked.typed)

/-- Whether a context is blocked. -/
theorem Sim.isBlocked (sim : Sim w t x) (steady : Steady log t) (hc : c ∈ t.engine.store.contexts) (ha : w.home c a) :
    Context.isBlocked a x.machine.heap = .ok (t.engine.store.blockedAt c).isSome := by
  obtain ⟨f, hf⟩ := steady.linked.typed.canonical (steady.linked.typed.contexts c hc)
  rw [sim.machine.rep.isBlocked_eq ha hf, Store.blockedAt_of hf]
  cases f.blocked <;> rfl

/-- The context that is about to run is registered and not blocked. -/
theorem Sim.running (sim : Sim w t x) (steady : Steady log t) (turn : t.engine.scheduler.dispatch.current = some c) (ha : w.home c a) :
    a ∈ x.machine.heap.contexts ∧ Context.isBlocked a x.machine.heap = .ok false := by
  have dispatched : Balanced t.engine.store t.engine.scheduler.dispatch.current.toList t.engine.scheduler.dispatch.ready :=
    steady.balanced.requeue (.of_eq t.engine.scheduler.dispatch_queue)
  rw [turn] at dispatched
  have running := dispatched.running
  refine ⟨(sim.machine.rep.mem_iff sim.machine.rep.contexts ha).mp running.registered, ?_⟩
  rw [sim.isBlocked steady running.registered ha, Store.blockedAt, running.idle]
  rfl

/-- What a step of a run executes, it executes in a registered context that is not blocked. -/
theorem Stepped.running {w' : World} {t' : Course} {x' : Execution} {done outcome : StepOutcome} {events : List Event} {pc : Nat}
    (stepped : Stepped w t x log outcome w' t' x' done events) (sim : Sim w t x) (steady : Steady log t)
    (executed : outcome = .executed a pc) : a ∈ x.machine.heap.contexts ∧ Context.isBlocked a x.machine.heap = .ok false := by
  subst executed
  rcases Course.step_stages stepped.run with ⟨rfl, _⟩ | ⟨c, f, i, o, e, rfl, acted⟩
  · cases stepped.same
  · cases stepped.same with
    | executed home => exact sim.running steady acted.turn home

/-- Scheduler and heap agree on who can run. The registered contexts are the one that has the turn, those in the ready queue
and those that are blocked, each of them once, and nothing was ever executed by a context that was not registered or was
blocked. -/
theorem Run.contexts_split (run : Run code config journal history x) :
    ∃ blocked, Execution.blockedContexts x.machine.heap = .ok blocked ∧
      (∀ c ∈ x.machine.heap.contexts, Context.isBlocked c x.machine.heap = .ok (decide (c ∈ blocked))) ∧
      x.machine.heap.contexts.Perm (x.machine.scheduler.current.toList ++ x.machine.scheduler.ready ++ blocked) ∧
      x.machine.heap.contexts.Nodup ∧
      ∀ entry ∈ history, ∀ c pc, entry.outcome = .executed c pc →
        c ∈ entry.before.machine.heap.contexts ∧ Context.isBlocked c entry.before.machine.heap = .ok false := by
  obtain ⟨w, t, log, followed⟩ := run.followed
  have rep := followed.sim.machine.rep
  have current : List.Forall₂ w.home t.engine.scheduler.current.toList x.machine.scheduler.current.toList := by
    have related := followed.sim.machine.current
    generalize t.engine.scheduler.current = y, x.machine.scheduler.current = z at related ⊢
    cases related with
    | some home => exact .cons home .nil
    | none => exact .nil
  obtain ⟨blocked, read, homes⟩ := followed.sim.blocked followed.steady
  refine ⟨blocked, read, fun b hb => ?_, ?_, ?_, ?_⟩
  · obtain ⟨c, hc, home⟩ := related_left rep.contexts hb
    rw [followed.sim.isBlocked followed.steady hc home]
    congr 1
    rw [Bool.eq_iff_iff, decide_eq_true_eq, ← rep.mem_iff homes home]
    exact ⟨fun some => List.mem_filter.mpr ⟨hc, some⟩, fun found => (List.mem_filter.mp found).2⟩
  · exact (rep.perm_iff rep.contexts (List.rel_append (List.rel_append current followed.sim.machine.ready) homes)).mp
      followed.steady.balanced.split
  · exact (rep.nodup_iff rep.contexts).mp followed.steady.balanced.nodup
  · clear followed rep current homes read
    induction run with
    | start => exact fun _ none => absurd none List.not_mem_nil
    | step before own step ih =>
      intro entry member c pc executed
      rcases List.mem_append.mp member with old | last
      · exact ih entry old c pc executed
      · cases List.mem_singleton.mp last
        obtain ⟨_, _, _, followed⟩ := before.followed
        obtain ⟨_, _, _, _, stepped⟩ := followed.sim.stepped followed.steady own step
        exact stepped.running followed.sim followed.steady executed

/-- A program whose only context blocks. -/
theorem Run.contexts_split_recv : ∃ history x blocked, Run #[.makeChan false, .recv] { heapWords := 128 } (.start none) history x ∧
    Execution.blockedContexts x.machine.heap = .ok blocked ∧ x.machine.heap.contexts.Perm blocked := by
  obtain ⟨history, x, run, found⟩ := Run.of_follow
    (P := fun _ x => (x.machine.scheduler.current.toList ++ x.machine.scheduler.ready).isEmpty)
    #[.makeChan false, .recv] { heapWords := 128 } (.start none) 2 (by decide +kernel)
  obtain ⟨blocked, read, _, split, _⟩ := run.contexts_split
  rw [List.isEmpty_iff.mp found] at split
  exact ⟨history, x, blocked, run, read, split⟩

end FiberMachine
