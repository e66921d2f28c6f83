import FiberMachine.Proofs.Runnable

/-!
# The state of a channel

A request waits on a channel only as long as the channel cannot serve it: senders wait while the buffer is full,
receivers while it is empty. Both wait on one channel only if a single context does, in a select, and then the channel
has no buffer.
-/

namespace FiberMachine

open Ideal Heap

variable {w : World} {s : Store} {h : Heap} {t : Course} {x : Execution} {c d q : Ref} {a : Nat} {l : List Ref}
  {log : List Event} {code : Array Instruction} {config : Config} {journal : Journal} {history : List Entry}

/-- The context is blocked in a select. Its program counter, which is stored in a word, points past the instruction at which
it has blocked. -/
def Heap.BlockedInSelect (h : Heap) (code : Array Instruction) (c : Addr) : Prop :=
  Context.isBlocked c h = .ok true ∧
    ∃ k n default?, code[k]? = some (.select n default?) ∧ Context.pc c h = .ok (wrap (k + 1))

/-- A channel with these buffered values and waiting requests keeps nobody waiting without a reason. -/
structure Heap.Sensible (h : Heap) (code : Array Instruction) (capacity : Nat) (buffered waiting : List Addr) : Prop where
  room : buffered.length ≤ capacity
  directed : ∀ q ∈ waiting, ∃ direction, Request.directionOf q h = .ok direction
  full : ∀ q ∈ waiting, Request.directionOf q h = .ok .send → buffered.length = capacity
  empty : ∀ q ∈ waiting, Request.directionOf q h = .ok .recv → buffered = []
  /-- Requests of both directions wait for one context. -/
  mixed : (∃ q ∈ waiting, Request.directionOf q h = .ok .send) → (∃ q ∈ waiting, Request.directionOf q h = .ok .recv) →
    capacity = 0 ∧ ∃ c, h.BlockedInSelect code c ∧ ∀ q ∈ waiting, Request.contextOf q h = .ok c

namespace Ideal

/-- Two requests of one context that wait on a channel are both entered with the context. -/
theorem Wired.two_waits {q' : Ref} {r r' : Request} (wired : Wired s none) (hq : q ∈ s.waiters d) (hq' : q' ∈ s.waiters d)
    (hr : s.IsRequest q r) (hr' : s.IsRequest q' r') (ne : q ≠ q') (same : r.context = r'.context) :
    2 ≤ (s.waits r.context).length := by
  have entered {p : Ref} {u : Request} (hp : p ∈ s.waiters d) (hu : s.IsRequest p u) : p ∈ s.waits u.context := by
    obtain ⟨v, hv, _, _, _, count⟩ := wired.waiter d p hp
    cases hu.unique hv
    exact List.count_pos_iff.mp (count ▸ List.count_pos_iff.mpr hp)
  have both : [q, q'].Subperm (s.waits r.context) := by
    refine (List.subperm_of_subset (by simp [ne]) ?_)
    intro p hp
    rcases List.mem_pair.mp hp with rfl | rfl
    · exact entered hq hr
    · exact same ▸ entered hq' hr'
  exact both.length_le

end Ideal

/-- The requests that wait on a channel, as the store and as the heap describe them. -/
theorem Sim.waiter (sim : Sim w t x) (steady : Steady log t) (hq : q ∈ t.engine.store.waiters d) (ha : w.home q a) :
    ∃ r, t.engine.store.IsRequest q r ∧ Request.directionOf a x.machine.heap = .ok r.direction := by
  obtain ⟨r, hr, _⟩ := steady.linked.wired.waiter d q hq
  exact ⟨r, hr, sim.machine.rep.directionOf_eq ha hr⟩

/-- The context of a request is blocked in a select. -/
theorem Sim.blockedInSelect (sim : Sim w t x) (steady : Steady log t) (many : 2 ≤ (t.engine.store.waits c).length)
    (ha : w.home c a) : x.machine.heap.BlockedInSelect x.code a := by
  obtain ⟨k, n, default?, instruction, at_⟩ := steady.choosing c many
  have registered := steady.linked.wired.registered c (at_ ▸ rfl)
  obtain ⟨f, hf⟩ := steady.linked.typed.canonical (steady.linked.typed.contexts c registered)
  obtain ⟨blocked, pc⟩ := Store.blocked_of hf at_
  refine ⟨?_, k, n, default?, sim.code ▸ instruction, ?_⟩
  · rw [sim.machine.rep.isBlocked_eq ha hf, blocked]
  · rw [sim.machine.rep.pc_eq ha hf, pc]

theorem Sim.sensible (sim : Sim w t x) (steady : Steady log t) (holds : x.machine.heap.Holds a .channel) :
    ∃ capacity buffered waiting, Channel.capacity a x.machine.heap = .ok capacity ∧
      Channel.buffered a x.machine.heap = .ok buffered ∧ Channel.waiting a x.machine.heap = .ok waiting ∧
      x.machine.heap.Sensible x.code capacity buffered waiting := by
  have rep := sim.machine.rep
  have ducts := steady.linked.ducts
  obtain ⟨d, k, home, hk⟩ := rep.channel_at holds
  obtain ⟨buffered, readBuffer, bufferHomes⟩ := rep.buffered_eq home hk
  obtain ⟨waiting, readWaiting, waiterHomes⟩ := rep.waiting_eq home hk
  have capacity : t.engine.store.Capacity d k.capacity := ⟨k, hk, rfl⟩
  rw [← Store.buffer_of hk] at bufferHomes
  rw [← Store.waiters_of hk] at waiterHomes
  -- a waiting request of a direction, as the store has it
  have waiter {b : Addr} {u : Direction} (hb : b ∈ waiting) (read : Request.directionOf b x.machine.heap = .ok u) :
      ∃ q ∈ t.engine.store.waiters d, ∃ r, t.engine.store.IsRequest q r ∧ r.direction = u := by
    obtain ⟨q, hq, hb⟩ := related_left waiterHomes hb
    obtain ⟨r, hr, answer⟩ := sim.waiter steady hq hb
    rw [answer] at read
    cases read
    exact ⟨q, hq, r, hr, rfl⟩
  have full {b : Addr} (hb : b ∈ waiting) (read : Request.directionOf b x.machine.heap = .ok .send) :
      buffered.length = k.capacity := by
    obtain ⟨q, hq, r, hr, send⟩ := waiter hb read
    rw [← bufferHomes.length_eq]
    exact ducts.full d _ capacity q hq r hr send
  have empty {b : Addr} (hb : b ∈ waiting) (read : Request.directionOf b x.machine.heap = .ok .recv) : buffered = [] := by
    obtain ⟨q, hq, r, hr, recv⟩ := waiter hb read
    rw [ducts.empty d q hq r hr recv] at bufferHomes
    cases bufferHomes
    rfl
  refine ⟨k.capacity, buffered, waiting, rep.capacity_eq home hk, readBuffer, readWaiting, ?_, ?_, fun _ => full, fun _ => empty, ?_⟩
  · rw [← bufferHomes.length_eq]
    exact ducts.room d _ capacity
  · intro b hb
    obtain ⟨q, hq, hb⟩ := related_left waiterHomes hb
    obtain ⟨r, _, read⟩ := sim.waiter steady hq hb
    exact ⟨_, read⟩
  · rintro ⟨b, hb, send⟩ ⟨b', hb', recv⟩
    refine ⟨by rw [← full hb send, empty hb' recv]; rfl, ?_⟩
    obtain ⟨q, hq, r, hr, send⟩ := waiter hb send
    obtain ⟨q', hq', r', hr', recv⟩ := waiter hb' recv
    have differ : r.direction ≠ r'.direction := by rw [send, recv]; decide
    have apart : q ≠ q' := by
      rintro rfl
      exact differ (by rw [hr.unique hr'])
    have same := ducts.single d q hq q' hq' r r' hr hr' differ
    -- every waiting request has the direction of one of the two, and so the context of the other
    have all : ∀ p ∈ t.engine.store.waiters d, ∀ u, t.engine.store.IsRequest p u → u.context = r.context := by
      intro p hp u hu
      by_cases way : u.direction = r.direction
      · exact (ducts.single d p hp q' hq' u r' hu hr' (way ▸ differ)).trans same.symm
      · exact ducts.single d p hp q hq u r hu hr way
    obtain ⟨p, hp⟩ := related_right waiterHomes hq
    obtain ⟨c, read, home⟩ := rep.contextOf_eq hp.2 hr
    refine ⟨c, sim.blockedInSelect steady (steady.linked.wired.two_waits hq hq' hr hr' apart same) home, fun b hb => ?_⟩
    obtain ⟨p, hp, hb⟩ := related_left waiterHomes hb
    obtain ⟨u, hu, _⟩ := steady.linked.wired.waiter d p hp
    obtain ⟨c', read', home'⟩ := rep.contextOf_eq hb hu
    rw [read', rep.single _ _ _ home' (all p hp u hu ▸ home)]

/-- Every live channel keeps nobody waiting without a reason, and no step fails because requests of different contexts would
wait in opposite directions. -/
theorem Run.channels_sensible (run : Run code config journal history x) :
    (∀ d, x.machine.heap.Holds d .channel → ∃ capacity buffered waiting, Channel.capacity d x.machine.heap = .ok capacity ∧
      Channel.buffered d x.machine.heap = .ok buffered ∧ Channel.waiting d x.machine.heap = .ok waiting ∧
      x.machine.heap.Sensible x.code capacity buffered waiting) ∧
    (x.SelectsOwn → ∀ d x', Execution.step x ≠ .error (.error (.heap (.mixedWaiters d))) x') := by
  obtain ⟨w, t, log, followed⟩ := run.followed
  refine ⟨fun d => followed.sim.sensible followed.steady, fun own d x' run => ?_⟩
  have safe := Course.step_safe followed.steady (own.sane followed.sim (w.capacity + 1))
  rcases followed.sim.failed followed.steady own run with ⟨k, same, size, full⟩ | ⟨k, t', same, failed, _⟩ | ⟨f, t', same, _⟩
  · cases same
    cases full
  · cases same
    exact safe.error failed rfl
  · cases same

/-- A program that receives on a channel to which nobody sends. -/
theorem Run.channels_sensible_recv : ∃ history x d capacity buffered waiting,
    Run #[.makeChan false, .recv] { heapWords := 128 } (.start none) history x ∧ x.machine.heap.Holds d .channel ∧
      Channel.waiting d x.machine.heap = .ok waiting ∧ x.machine.heap.Sensible x.code capacity buffered waiting := by
  obtain ⟨history, x, run, found⟩ := Run.of_follow (P := fun _ x => x.machine.heap.finds x.main [3, 0, 0, 1] .channel)
    #[.makeChan false, .recv] { heapWords := 128 } (.start none) 2 (by decide +kernel)
  obtain ⟨d, _, holds⟩ := finds_holds found
  obtain ⟨capacity, buffered, waiting, _, _, read, sensible⟩ := run.channels_sensible.1 d holds
  exact ⟨history, x, d, capacity, buffered, waiting, run, holds, read, sensible⟩

end FiberMachine
