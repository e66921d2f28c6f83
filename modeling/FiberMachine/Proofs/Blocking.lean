import FiberMachine.Proofs.Ideal.Acting
import FiberMachine.Proofs.Channels

/-!
# Where contexts have blocked

A blocked context stands behind the instruction that it executed last, and that instruction is why it is blocked.
-/

namespace FiberMachine

open Ideal Heap

/-- The instruction blocks the context, and no channel is involved: it sends to or receives from a channel that is not there,
or selects among such channels only. -/
def Heap.Strands (h : Heap) (c : Addr) : Instruction → Prop
  | .send => ∃ rest v, Context.operands c h = .ok (rest ++ [unassigned, v])
  | .recv => ∃ rest, Context.operands c h = .ok (rest ++ [unassigned])
  | .select n none => ∃ rest qs, qs.length = n ∧ Context.operands c h = .ok (rest ++ qs) ∧
      ∀ q ∈ qs, Request.channelOf q h = .ok unassigned
  | _ => False

/-- This is the last step of the history in which the context `c` executed something: the instruction `i` at `n`. -/
def Entry.LastOf (entry : Entry) (history : List Entry) (c : Addr) (n : Nat) (i : Instruction) : Prop :=
  ∃ earlier later, history = earlier ++ entry :: later ∧ entry.outcome = .executed c n ∧ entry.before.Faces c n i ∧
    ∀ other ∈ later, ∀ k, other.outcome ≠ .executed c k

variable {w w' : World} {s : Store} {h : Heap} {t t' : Course} {x x' : Execution} {c d q : Ref} {a n : Nat} {i : Instruction}
  {l : List Ref} {log events : List Event} {outcome done : StepOutcome} {code : Array Instruction} {config : Config} {journal : Journal}
  {history : List Entry} {entry : Entry}

theorem Entry.LastOf.extend (last : entry.LastOf history a n i) {new : Entry} (other : ∀ k, new.outcome ≠ .executed a k) :
    entry.LastOf (history ++ [new]) a n i := by
  obtain ⟨earlier, later, rfl, executed, faces, none⟩ := last
  refine ⟨earlier, later ++ [new], by simp, executed, faces, fun e he => ?_⟩
  rcases List.mem_append.mp he with old | last
  · exact none e old
  · exact List.mem_singleton.mp last ▸ other

/-- What the store says about the context is true in the heap. -/
theorem Rep.strands (rep : Rep w s h) (ha : w.home c a) (strands : s.Strands c i) : h.Strands a i := by
  have operands {xs : List Ref} (k : s.Operands c xs) : ∃ as, Context.operands a h = .ok as ∧ List.Forall₂ w.home xs as := by
    obtain ⟨f, hf, rfl⟩ := k
    exact rep.operands_eq ha hf
  have nil {b : Addr} (hb : w.home unassigned b) : b = unassigned := rep.single _ _ _ hb rep.nil
  cases i with
  | send =>
    obtain ⟨rest, v, k⟩ := strands
    obtain ⟨as, read, homes⟩ := operands k
    obtain ⟨low, _, rfl, _, _ | ⟨hd, _ | ⟨_, _ | _⟩⟩⟩ := related_append homes
    cases nil hd
    exact ⟨_, _, read⟩
  | recv =>
    obtain ⟨rest, k⟩ := strands
    obtain ⟨as, read, homes⟩ := operands k
    obtain ⟨low, _, rfl, _, _ | ⟨hd, _ | _⟩⟩ := related_append homes
    cases nil hd
    exact ⟨_, read⟩
  | select n default? =>
    cases default? with
    | some target => exact strands
    | none =>
      obtain ⟨rest, qs, length, k, requests⟩ := strands
      obtain ⟨as, read, homes⟩ := operands k
      obtain ⟨low, high, rfl, _, taken⟩ := related_append homes
      refine ⟨low, high, taken.length_eq.symm.trans length, read, fun b hb => ?_⟩
      obtain ⟨q, hq, hb⟩ := related_left taken hb
      obtain ⟨r, hr, nowhere⟩ := requests q hq
      obtain ⟨d, answer, hd⟩ := rep.channelOf_eq hb hr
      rw [nowhere] at hd
      rw [answer, nil hd]
  | _ => exact strands

/-- The context is blocked as far as the heap goes. -/
theorem Sim.blocked_iff (sim : Sim w t x) (steady : Steady log t) (registered : c ∈ t.engine.store.contexts) (ha : w.home c a) :
    Context.isBlocked a x.machine.heap = .ok true ↔ (t.engine.store.blockedAt c).isSome := by
  rw [sim.isBlocked steady registered ha]
  exact ⟨fun e => Except.ok.inj e, fun some => congrArg _ some⟩

/-- The program counter of a blocked context. -/
theorem Rep.pc_of_blockedAt (rep : Rep w s h) (typed : s.Typed) (isContext : s.IsTag c .context) (ha : w.home c a)
    (at_ : s.blockedAt c = some n) : Context.pc a h = .ok n := by
  obtain ⟨f, hf⟩ := typed.canonical isContext
  rw [rep.pc_eq ha hf, (Store.blocked_of hf at_).2]

theorem Rep.waits_nil (rep : Rep w s h) (typed : s.Typed) (isContext : s.IsTag c .context) (ha : w.home c a) :
    Context.waits a h = .ok [] ↔ s.waits c = [] := by
  obtain ⟨f, hf⟩ := typed.canonical isContext
  obtain ⟨as, read, homes⟩ := rep.waits_eq ha hf
  rw [read, Store.waits_of hf]
  have lengths := homes.length_eq
  exact ⟨fun e => List.length_eq_zero_iff.mp (lengths.trans (congrArg List.length (Except.ok.inj e))),
    fun e => congrArg _ (List.length_eq_zero_iff.mp (lengths.symm.trans (congrArg List.length e)))⟩

/-- Nothing has changed for a context that has been blocked all along. -/
structure Rested (c : Ref) (t t' : Course) : Prop where
  blockedAt : t'.engine.store.blockedAt c = t.engine.store.blockedAt c
  waits : t'.engine.store.waits c = t.engine.store.waits c

/-- A context that is blocked after a step has blocked in this step, or has rested. -/
theorem Stepped.blocked (stepped : Stepped w t x log outcome w' t' x' done events) (sim : Sim w t x) (steady : Steady log t)
    (own : x.SelectsOwn) (ha : w'.home c a) (blocked : (t'.engine.store.blockedAt c).isSome) :
    w.home c a ∧ ((Rested c t t' ∧ ∀ k, outcome ≠ .executed a k) ∨
      ∃ n i, outcome = .executed a n ∧ x.Faces a n i ∧ t'.engine.store.blockedAt c = some (wrap (n + 1)) ∧
        (t'.engine.store.waits c = [] → t.engine.store.Strands c i)) := by
  -- a context that was blocked before was there before
  have home (old : c ∈ t.engine.store.contexts) : w.home c a :=
    stepped.abides.old c a ha (Store.known_iff.mp (steady.linked.typed.contexts c old).known)
  have rep := sim.machine.rep
  rcases Course.step_executed steady (own.sane sim (w.capacity + 1)) stepped.run with ⟨rfl, _, rests⟩ | ⟨d, f, i, o, e, rfl, executed⟩
  · rw [rests.store] at blocked
    refine ⟨home (steady.linked.wired.registered c blocked), .inl ⟨⟨by rw [rests.store], by rw [rests.store]⟩, fun k no => ?_⟩⟩
    cases stepped.same
    cases no
  · obtain ⟨b, hb, faces⟩ := sim.faces executed.turn ⟨f, executed.fiber, rfl⟩ executed.instruction
    have same := stepped.same
    cases same with
    | executed home' =>
      cases rep.single _ _ _ home' hb
      by_cases own : c = d
      · subst own
        have here := home executed.running.registered
        cases rep.single _ _ _ here hb
        obtain ⟨rfl, at_⟩ := executed.blocks blocked
        refine ⟨here, .inr ⟨f.pc, i, rfl, faces, at_, fun none => ?_⟩⟩
        rw [executed.waits] at none
        exact (executed.reasoned c (executed.turned.stranded rfl none)).2
      · obtain ⟨blockedAt, waits⟩ := executed.stays_blocked own blocked
        have here := home (steady.linked.wired.registered c (blockedAt ▸ blocked))
        refine ⟨here, .inl ⟨⟨blockedAt, waits⟩, fun k no => own ?_⟩⟩
        cases no
        exact rep.unique here hb

/-- Where a blocked context stands, and why it is blocked if it waits for nothing. -/
theorem Run.blocked_last (run : Run code config journal history x) (registered : a ∈ x.machine.heap.contexts)
    (blocked : Context.isBlocked a x.machine.heap = .ok true) : ∃ entry n i, Entry.LastOf entry history a n i ∧
      Context.pc a x.machine.heap = .ok (wrap (n + 1)) ∧
      (Context.waits a x.machine.heap = .ok [] → entry.before.machine.heap.Strands a i) := by
  induction run with
  | @start x run =>
    obtain ⟨w, sim⟩ := Sim.start run
    obtain ⟨c, hc, ha⟩ := related_left sim.machine.rep.contexts registered
    have some := (sim.blocked_iff (Course.start_steady code config) hc ha).mp blocked
    rw [Store.blockedAt, show (Course.start code config).engine.store = Course.initial from rfl, Course.initial_wiring] at some
    cases some
  | @step history x x' outcome before own run ih =>
    obtain ⟨w, t, log, followed⟩ := before.followed
    obtain ⟨w', t', done, events, stepped⟩ := followed.sim.stepped followed.steady own run
    obtain ⟨c, hc, ha⟩ := related_left stepped.sim.machine.rep.contexts registered
    have some := (stepped.sim.blocked_iff stepped.steady hc ha).mp blocked
    have typed' := stepped.steady.linked.typed
    have typed := followed.steady.linked.typed
    have isContext := typed'.contexts c hc
    obtain ⟨p, at_⟩ := Option.isSome_iff_exists.mp some
    have rep' := stepped.sim.machine.rep
    have rep := followed.sim.machine.rep
    obtain ⟨here, ⟨rested, other⟩ | ⟨n, i, rfl, faces, stands, strands⟩⟩ := stepped.blocked followed.sim followed.steady own ha some
    · have hc₀ := followed.steady.linked.wired.registered c (rested.blockedAt ▸ some)
      have isContext₀ := typed.contexts c hc₀
      obtain ⟨entry, n, i, last, pc, strands⟩ := ih ((rep.mem_iff rep.contexts here).mp hc₀)
        ((followed.sim.blocked_iff followed.steady hc₀ here).mpr (rested.blockedAt ▸ some))
      refine ⟨entry, n, i, last.extend other, ?_, fun none => strands ?_⟩
      · rw [rep'.pc_of_blockedAt typed' isContext ha at_, ← rep.pc_of_blockedAt typed isContext₀ here (rested.blockedAt ▸ at_), pc]
      · rw [rep.waits_nil typed isContext₀ here, ← rested.waits, ← rep'.waits_nil typed' isContext ha, none]
    · refine ⟨⟨x, .executed a n⟩, n, i, ⟨history, [], rfl, rfl, faces, fun _ no => absurd no List.not_mem_nil⟩, ?_,
        fun none => rep.strands here (strands ?_)⟩
      · exact rep'.pc_of_blockedAt typed' isContext ha stands
      · rw [← rep'.waits_nil typed' isContext ha, none]

end FiberMachine
