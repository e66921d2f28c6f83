import Mathlib.Data.List.Perm.Basic
import FiberMachine.Proofs.Ideal.Parking
import FiberMachine.Proofs.Ideal.Groups

/-!
# Who can run

Every registered context has the turn, or is ready, or is blocked, and never two of these at once.
-/

namespace FiberMachine

/-- A context that gives up its turn is ready. -/
theorem Scheduler.yieldCurrent_perm (s : Scheduler) :
    (s.yieldCurrent.current.toList ++ s.yieldCurrent.ready).Perm (s.current.toList ++ s.ready) := by
  unfold yieldCurrent
  cases turn : s.current with
  | none => simp [turn]
  | some c => exact @List.perm_append_comm _ s.ready [c]

/-- No context can run. -/
theorem Scheduler.dispatch_none {s : Scheduler} : s.dispatch.current = none ↔ s.current = none ∧ s.ready = [] := by
  unfold Scheduler.dispatch
  cases current : s.current with
  | some c => simp [current]
  | none => simp

namespace Ideal

variable {s s' : Store} {c : Ref} {l turn ready : List Ref} {xs : List Event}

/-- The contexts that are blocked. -/
def Store.blockedContexts (s : Store) : List Ref := s.contexts.filter fun c => (s.blockedAt c).isSome

/-- The registered contexts are those that have the turn, those that are ready, and those that are blocked. -/
structure Balanced (s : Store) (turn ready : List Ref) : Prop where
  nodup : s.contexts.Nodup
  split : s.contexts.Perm (turn ++ ready ++ s.blockedContexts)

namespace Balanced

theorem mem (balanced : Balanced s turn ready) {x : Ref} :
    x ∈ s.contexts ↔ (x ∈ turn ∨ x ∈ ready) ∨ x ∈ s.contexts ∧ (s.blockedAt x).isSome := by
  have mem := balanced.split.mem_iff (a := x)
  rw [List.mem_append, List.mem_append, Store.blockedContexts, List.mem_filter] at mem
  exact mem

theorem disjoint (balanced : Balanced s turn ready) {x : Ref} (hx : x ∈ turn ++ ready) : s.blockedAt x = none := by
  have nodup := balanced.split.nodup_iff.mp balanced.nodup
  by_contra blocked
  have registered : x ∈ s.contexts := balanced.split.mem_iff.mpr (List.mem_append_left _ hx)
  exact (List.nodup_append.mp nodup).2.2 x hx x (List.mem_filter.mpr ⟨registered, Option.isSome_iff_ne_none.mpr blocked⟩) rfl

/-- The context that has the turn. -/
theorem running (balanced : Balanced s [c] ready) : s.Running c :=
  ⟨balanced.split.mem_iff.mpr (by simp), balanced.disjoint (by simp)⟩

/-- To be balanced, it is enough that the right contexts are there, each once. -/
theorem of_mem (nodup : s.contexts.Nodup) (once : (turn ++ ready).Nodup)
    (mem : ∀ x, x ∈ s.contexts ↔ x ∈ turn ++ ready ∨ x ∈ s.blockedContexts) (idle : ∀ x ∈ turn ++ ready, s.blockedAt x = none) :
    Balanced s turn ready := by
  refine ⟨nodup, (List.perm_ext_iff_of_nodup nodup ?_).mpr fun x => (mem x).trans List.mem_append.symm⟩
  refine List.nodup_append.mpr ⟨once, nodup.filter _, ?_⟩
  rintro x hx _ hy rfl
  have blocked := (List.mem_filter.mp hy).2
  rw [idle x hx] at blocked
  cases blocked

theorem once (balanced : Balanced s turn ready) : (turn ++ ready).Nodup :=
  (List.nodup_append.mp (balanced.split.nodup_iff.mp balanced.nodup)).1

/-- Contexts that go on are ready. -/
theorem exchanged (balanced : Balanced s turn ready) (linked : Linked s) (exchanged : Exchanged s l xs s') :
    Balanced s' turn (ready ++ l) := by
  have blocked (x : Ref) (hx : x ∈ l) : x ∈ s.contexts ∧ (s.blockedAt x).isSome :=
    ⟨linked.wired.registered x (exchanged.wakes.blocked x hx), exchanged.wakes.blocked x hx⟩
  have contexts := exchanged.proceeds.contexts
  refine of_mem (contexts ▸ balanced.nodup) ?_ (fun x => ?_) fun x hx => ?_
  · rw [← List.append_assoc]
    refine List.nodup_append.mpr ⟨balanced.once, exchanged.wakes.nodup, ?_⟩
    rintro x hx _ hy rfl
    have := (blocked x hy).2
    rw [balanced.disjoint hx] at this
    cases this
  · rw [Store.blockedContexts, List.mem_filter, exchanged.wakes.blockedAt, contexts, ← List.append_assoc, List.mem_append]
    have mem := balanced.mem (x := x)
    rw [← List.mem_append] at mem
    by_cases hx : x ∈ l
    · simp [hx, (blocked x hx).1]
    · simpa [hx] using mem
  · rw [exchanged.wakes.blockedAt]
    split
    · rfl
    next not =>
      rw [← List.append_assoc] at hx
      exact balanced.disjoint ((List.mem_append.mp hx).resolve_right not)

/-- A context that blocks gives up the turn. -/
theorem halted (balanced : Balanced s [c] ready) (halted : Halted s c xs s') : Balanced s' [] ready := by
  have contexts := halted.proceeds.contexts
  obtain ⟨out, once⟩ : c ∉ ready ∧ ready.Nodup := List.nodup_cons.mp balanced.once
  refine of_mem (contexts ▸ balanced.nodup) once (fun x => ?_) fun x hx => ?_
  · rw [Store.blockedContexts, List.mem_filter, contexts, List.nil_append]
    by_cases e : x = c
    · subst e
      simp [halted.blocked, balanced.running.registered]
    · have mem := balanced.mem (x := x)
      rw [halted.blockedAt x e]
      simpa [e] using mem
  · have ne : x ≠ c := fun e => out (e ▸ hx)
    rw [halted.blockedAt x ne]
    exact balanced.disjoint (List.mem_append_right _ hx)

theorem congr (balanced : Balanced s turn ready) (contexts : s'.contexts = s.contexts)
    (blockedAt : ∀ x, s'.blockedAt x = s.blockedAt x) : Balanced s' turn ready := by
  have same : s'.blockedContexts = s.blockedContexts := by
    simp only [Store.blockedContexts, contexts, blockedAt]
  exact ⟨contexts ▸ balanced.nodup, by rw [contexts, same]; exact balanced.split⟩

/-- A new context is ready. -/
theorem spawn (balanced : Balanced s turn ready) (new : c ∉ s.contexts) (idle : s.blockedAt c = none) :
    Balanced { s with contexts := s.contexts ++ [c] } turn (ready ++ [c]) := by
  have old {x : Ref} (hx : x ∈ turn ++ ready) : x ∈ s.contexts := balanced.split.mem_iff.mpr (List.mem_append_left _ hx)
  refine of_mem ?_ ?_ (fun x => ?_) fun x hx => ?_
  · exact List.nodup_append.mpr ⟨balanced.nodup, List.nodup_singleton c, fun x hx y hy e => new (by simp_all)⟩
  · rw [← List.append_assoc]
    exact List.nodup_append.mpr ⟨balanced.once, List.nodup_singleton c, fun x hx y hy e => new (by simp_all)⟩
  · change x ∈ s.contexts ++ [c] ↔ _ ∨ x ∈ (s.contexts ++ [c]).filter fun c => (s.blockedAt c).isSome
    rw [List.filter_append, ← List.append_assoc, List.mem_append, List.mem_append, List.mem_append, balanced.split.mem_iff,
      List.mem_append]
    simp [idle, Store.blockedContexts, or_assoc, or_comm]
  · rw [← List.append_assoc] at hx
    rcases List.mem_append.mp hx with hx | hx
    · exact balanced.disjoint hx
    · exact List.mem_singleton.mp hx ▸ idle

/-- The context that has the turn ends. -/
theorem retire (balanced : Balanced s [c] ready) : Balanced { s with contexts := s.contexts.erase c } [] ready := by
  obtain ⟨out, once⟩ : c ∉ ready ∧ ready.Nodup := List.nodup_cons.mp balanced.once
  refine of_mem (balanced.nodup.erase c) once (fun x => ?_) fun x hx => balanced.disjoint (List.mem_cons_of_mem _ hx)
  change x ∈ s.contexts.erase c ↔ _ ∨ x ∈ (s.contexts.erase c).filter fun c => (s.blockedAt c).isSome
  rw [balanced.nodup.mem_erase_iff, List.mem_filter, balanced.nodup.mem_erase_iff, List.nil_append]
  by_cases e : x = c
  · subst e
    simp [out]
  · have mem := balanced.mem (x := x)
    simpa [e] using mem

end Balanced

/-! ### Registration -/

/-- A new context is registered. -/
theorem Linked.register (linked : Linked s) (isContext : s.IsTag c .context) : Linked { s with contexts := s.contexts ++ [c] } where
  typed := linked.typed.reroot rfl fun x hx => (List.mem_append.mp hx).elim (linked.typed.contexts x) fun new =>
    List.mem_singleton.mp new ▸ isContext
  wired := {
    idle := linked.wired.idle
    waiter := fun d q hq => by
      obtain ⟨r, k, channel, registered, rest⟩ := linked.wired.waiter d q hq
      exact ⟨r, k, channel, List.mem_append_left _ registered, rest⟩
    member := linked.wired.member
    waits := linked.wired.waits
    registered := fun x blocked => List.mem_append_left _ (linked.wired.registered x blocked) }
  ducts := ⟨linked.ducts.room, linked.ducts.full, linked.ducts.empty, linked.ducts.single⟩

/-- A context that is not blocked is no longer registered. -/
theorem Linked.retire (linked : Linked s) (idle : s.blockedAt c = none) : Linked { s with contexts := s.contexts.erase c } where
  typed := linked.typed.reroot rfl fun x hx => linked.typed.contexts x (List.mem_of_mem_erase hx)
  wired := {
    idle := linked.wired.idle
    waiter := fun d q hq => by
      obtain ⟨r, k, channel, registered, waiting, rest⟩ := linked.wired.waiter d q hq
      refine ⟨r, k, channel, (List.mem_erase_of_ne ?_).mpr registered, waiting, rest⟩
      rintro rfl
      have blocked := waiting.blocked
      rw [idle] at blocked
      cases blocked
    member := linked.wired.member
    waits := linked.wired.waits
    registered := fun x blocked => by
      refine (List.mem_erase_of_ne ?_).mpr (linked.wired.registered x blocked)
      rintro rfl
      have blocked : (s.blockedAt x).isSome := blocked
      rw [idle] at blocked
      cases blocked }
  ducts := ⟨linked.ducts.room, linked.ducts.full, linked.ducts.empty, linked.ducts.single⟩

end Ideal

end FiberMachine
