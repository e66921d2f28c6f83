import FiberMachine.Proofs.Ideal.Ending
import FiberMachine.Proofs.Ideal.Fetching
import FiberMachine.Proofs.Labels
import FiberMachine.Proofs.Runs

/-!
# Positions in a finished program

A finished program names only positions in it. So whatever it does, no object holds a position beyond its end, and the execution
fails for a position outside the program only if a context goes on behind the last instruction.
-/

namespace FiberMachine

open Ideal Heap

/-- No live object holds a position after `n`: not where a context goes on, where a request lets it go on, where a function begins, and
where a return marker leads. -/
structure Heap.Within (h : Heap) (n : Nat) : Prop where
  contexts : ∀ c, h.Holds c .context → ∃ p, Context.pc c h = .ok p ∧ p ≤ n
  requests : ∀ q, h.Holds q .channelRequest → ∃ p, Request.resumeOf q h = .ok p ∧ p ≤ n
  functions : ∀ f, h.Holds f .func → ∃ p, Closure.entry f h = .ok p ∧ p ≤ n
  markers : ∀ m, h.Holds m .callRef → ∃ p?, ReturnMarker.target m h = .ok p? ∧ ∀ p, p? = some p → p ≤ n

/-- The context has executed the last instruction of the program in one of the given steps. -/
def Execution.HasPassed (x : Execution) (history : List Entry) (c : Addr) : Prop :=
  ∃ entry ∈ history, ∃ n id, entry.outcome = .executed c n ∧ n + 1 = x.code.size ∧
    Context.id c entry.before.machine.heap = .ok id ∧ Context.id c x.machine.heap = .ok id

variable {w w' : World} {s : Store} {h : Heap} {t t' : Course} {x x' : Execution} {a p : Nat} {c r : Ref} {log events : List Event}
  {outcome done : StepOutcome} {code : Array Instruction} {config : Config} {journal : Journal} {history : List Entry} {past : List Ref}

/-! ### Finished programs -/

namespace Assembler

theorem targets_of_build {b : Assembler} (built : b.build = .ok code) : ∀ i ∈ code, ∀ n ∈ i.targets, n < code.size := by
  unfold build at built
  cases resolved : resolve b.labels b.uses.toList b.code with
  | error e =>
    rw [resolved] at built
    cases built
  | ok found =>
    rw [resolved] at built
    change (checkTargets found.size 0 found.toList >>= fun _ => pure found) = _ at built
    cases checked : checkTargets found.size 0 found.toList with
    | error e =>
      rw [checked] at built
      cases built
    | ok =>
      rw [checked] at built
      cases built
      exact fun i hi => checkTargets_ok.mp checked i hi.val

end Assembler

/-! ### Positions in the heap -/

namespace Rep

theorem entry_eq {k : Code} (rep : Rep w s h) (ha : w.home r a) (hk : s.objects[r]? = some (.func k)) : Closure.entry a h = .ok k.entry := by
  have has : w.HasCode h a k := rep.has ha hk
  exact (rep.tidy.sound.readNat_eq has.is (by decide)).trans (congrArg _ has.entry)

theorem target_eq {v : Word} (rep : Rep w s h) (ha : w.home r a) (hv : s.objects[r]? = some (.number .callRef v)) :
    ReturnMarker.target a h = .ok (if v = ReturnMarker.ending then none else some v.toNat) := by
  obtain ⟨_, is, cell⟩ : w.Has h r a (.number .callRef v) := rep.has ha hv
  have read := rep.tidy.sound.read_eq is (i := 0) (by decide)
  simp only [ReturnMarker.target, HeapReader.run_bind, read, HeapReader.run_pure, cell]

/-- What the live objects hold is what the objects of the store hold. -/
theorem within {β : Bounds} (rep : Rep w s h) (typed : s.Typed) (bounded : s.Bounded β) : h.Within β.high where
  contexts c holds := by
    obtain ⟨r, f, home, hf⟩ := rep.context_at holds
    exact ⟨_, rep.pc_eq home hf, Nat.le_trans (bounded _ _ hf).1 (β.limit_le r)⟩
  requests q holds := by
    obtain ⟨r, p, home, hp⟩ := rep.request_at holds
    exact ⟨_, rep.resumeOf_eq home hp, Nat.le_trans (bounded _ _ hp).1 (β.limit_le _)⟩
  functions f holds := by
    obtain ⟨r, o, home, ho, tag, _⟩ := rep.object_at holds (by decide)
    obtain ⟨k, hk⟩ := typed.canonical ⟨o, ho, tag⟩
    exact ⟨_, rep.entry_eq home hk, Nat.le_trans (bounded _ _ hk) (Nat.le_trans (β.low_le r) (β.limit_le r))⟩
  markers m holds := by
    obtain ⟨r, o, home, ho, tag, _⟩ := rep.object_at holds (by decide)
    obtain ⟨v, hv⟩ := typed.canonical ⟨o, ho, tag⟩
    refine ⟨_, rep.target_eq home hv, fun p same => ?_⟩
    split at same
    · cases same
    next lasts =>
      cases same
      exact bounded _ _ hv rfl lasts

end Rep

/-! ### Runs -/

/-- The context `c` of the course has executed the last instruction. -/
def RanPast (w : World) (t : Course) (history : List Entry) (c : Ref) : Prop :=
  ∃ a n id, w.marks c a ∧ t.engine.store.HasId c id ∧ n + 1 = t.code.size ∧
    ∃ entry ∈ history, entry.outcome = .executed a n ∧ Context.id a entry.before.machine.heap = .ok id

/-- A step keeps what is known of who has executed the last instruction. -/
theorem RanPast.step (passed : RanPast w t history c) (sim : Sim w t x) (stepped : Stepped w t x log outcome w' t' x' done events)
    (grows : t.engine.store.Grows t'.engine.store) (code : t'.code = t.code) (entry : Entry) : RanPast w' t' (history ++ [entry]) c := by
  obtain ⟨a, n, id, mark, known, last, old, ho, rest⟩ := passed
  exact ⟨a, n, id, mark.keep sim.machine.rep stepped.sim.machine.rep stepped.abides, known.grow grows, code ▸ last, old,
    List.mem_append_left _ ho, rest⟩

/-- In the course of a finished program all positions are in it, but for the one behind the last instruction. -/
theorem Run.placed (run : Run code config journal history x) (targets : ∀ i ∈ code, ∀ n ∈ i.targets, n < code.size) :
    ∃ w t log, Followed w t x log history ∧ t.code = code ∧ ∃ past, t.Placed past ∧ ∀ c ∈ past, RanPast w t history c := by
  refine run.traced (P := fun w t _ history _ => t.code = code ∧ ∃ past, t.Placed past ∧ ∀ c ∈ past, RanPast w t history c)
    (fun w _ _ _ => ⟨rfl, [], Course.start_placed code config, nofun⟩) ?_
  rintro w t log history x w' t' done events x' outcome followed ⟨same, past, placed, passed⟩ own stepped
  have steady := followed.steady
  rcases Course.step_executed steady (own.sane followed.sim (w.capacity + 1)) stepped.run with ⟨_, _, rests⟩ | ⟨c, f, i, o, e, rfl, executed⟩
  · have code' : t'.code = t.code := by cases rests <;> rfl
    have grows : t.engine.store.Grows t'.engine.store := rests.store ▸ .refl
    refine ⟨code'.trans same, past, ?_, fun c hc => (passed c hc).step followed.sim stepped grows code' _⟩
    unfold Course.Placed at placed ⊢
    rwa [rests.store, code']
  · have targeted : t.Targeted := by
      unfold Course.Targeted
      rwa [same]
    refine ⟨executed.code.trans same, _, executed.placed targeted placed, fun d hd => ?_⟩
    have old (before : d ∈ past) := (passed d before).step followed.sim stepped executed.grows executed.code ⟨x, outcome⟩
    unfold Course.passing at hd
    split at hd
    next last =>
      rcases List.mem_cons.mp hd with rfl | before
      · have rep := followed.sim.machine.rep
        generalize eq : StepOutcome.executed d f.pc = done at stepped
        obtain ⟨a, home, rfl⟩ : ∃ a, w.home d a ∧ outcome = .executed a f.pc := by
          have turn := stepped.same
          subst eq
          cases turn with
          | executed home => exact ⟨_, home, rfl⟩
        exact ⟨a, f.pc, f.id, (rep.marks home).keep rep stepped.sim.machine.rep stepped.abides, Store.HasId.grow ⟨f, executed.fiber, rfl⟩
          executed.grows, executed.code ▸ last, _, List.mem_append_right _ List.mem_cons_self, rfl, rep.id_eq home executed.fiber⟩
      · exact old before
    next => exact old hd

/-- Every state of a run of a finished program holds only positions up to its end. A step fails because of a position outside the
program only at its end, in a context that has executed the last instruction. -/
theorem Run.positions_inside {b : Assembler} (built : b.build = .ok code) (run : Run code config journal history x) :
    x.machine.heap.Within code.size ∧ ∀ p x', x.SelectsOwn → Execution.step x = .error (.error (.pcOutOfRange p)) x' →
      p = code.size ∧ ∃ c, x.machine.scheduler.dispatch.current = some c ∧ Context.pc c x.machine.heap = .ok p ∧
        (code = #[] ∨ x.HasPassed history c) := by
  have targets := Assembler.targets_of_build built
  obtain ⟨w, t, log, followed, same, past, placed, passed⟩ := run.placed targets
  have rep := followed.sim.machine.rep
  refine ⟨same ▸ rep.within followed.steady.linked.typed placed, fun p x' own step => ?_⟩
  have targeted : t.Targeted := by
    unfold Course.Targeted
    rwa [same]
  rcases followed.sim.failed followed.steady own step with ⟨k, eq, size, full⟩ | ⟨k, t', eq, failed, _⟩ | ⟨f, t', eq, _⟩
  · cases eq
    cases full
  · cases eq
    obtain ⟨c, turn, pc, outside⟩ := Course.step_misses targeted placed failed p rfl
    obtain ⟨atEnd, passes⟩ := placed.outside pc outside
    rw [same] at atEnd passes
    obtain ⟨f, hf, rfl⟩ := pc
    have current := followed.sim.machine.dispatch.current
    rw [turn] at current
    generalize eq : x.machine.scheduler.dispatch.current = y at current
    cases current with
    | some home =>
      refine ⟨atEnd, _, rfl, rep.pc_eq home hf, ?_⟩
      rcases Nat.eq_zero_or_pos code.size with empty | some
      · exact .inl (Array.eq_empty_of_size_eq_zero empty)
      · obtain ⟨a, n, id, mark, ⟨g, hg, rfl⟩, last, entry, he, outcome, read⟩ := passed c (passes some)
        cases mark.same rep home
        cases Option.some.inj (hg.symm.trans hf)
        refine .inr ⟨entry, he, n, _, outcome, ?_, read, rep.id_eq home hf⟩
        exact last.trans (congrArg _ followed.sim.code.symm)
  · cases eq

/-- Whether the next step reports the position `p`, outside the program. -/
def Execution.missesAt (x : Execution) (p : Nat) : Bool :=
  match Execution.step x with
  | .error (.error (.pcOutOfRange q)) _ => x.selectsOwn && q == p
  | _ => false

/-- A program whose last instruction calls a function, which returns. -/
theorem Run.positions_inside_call : ∃ history x x' c,
    ((((Assembler.empty.emit (.jump 2)).emit .ret).emit (.loadFunc 1 [])).emit (.call 0)).build = .ok #[.jump 2, .ret, .loadFunc 1 [], .call 0] ∧
    Run #[.jump 2, .ret, .loadFunc 1 [], .call 0] { heapWords := 128 } (.start none) history x ∧ x.machine.heap.Within 4 ∧
      Execution.step x = .error (.error (.pcOutOfRange 4)) x' ∧ x.HasPassed history c := by
  obtain ⟨history, x, run, found⟩ := Run.of_follow (P := fun _ x => x.missesAt 4) #[.jump 2, .ret, .loadFunc 1 [], .call 0] { heapWords := 128 }
    (.start none) 4 (by decide +kernel)
  have built : ((((Assembler.empty.emit (.jump 2)).emit .ret).emit (.loadFunc 1 [])).emit (.call 0)).build =
      .ok #[.jump 2, .ret, .loadFunc 1 [], .call 0] := rfl
  unfold Execution.missesAt at found
  split at found
  next q x' step =>
    obtain ⟨own, same⟩ := Bool.and_eq_true_iff.mp found
    cases eq_of_beq same
    obtain ⟨within, fails⟩ := run.positions_inside built
    obtain ⟨-, c, -, -, none | passed⟩ := fails 4 x' (Execution.selectsOwn_sound own) step
    · cases none
    · exact ⟨history, x, x', c, built, run, within, step, passed⟩
  next => cases found

end FiberMachine
