import Mathlib.Data.List.Nodup
import FiberMachine.Proofs.Ideal.Links

/-!
# The flow through channels

What goes into a buffer comes out of it in the same order, and the requests of one direction are completed in the
order in which they began to wait, except those that are withdrawn. Both are laws about the notes of an action and
the states before and after it, and both hold of a sequence of actions if they hold of each.
-/

namespace FiberMachine

namespace Event

variable (d : Addr) (t : Direction) (xs ys : List Event)

@[simp] theorem sends_nil : sends d [] = [] := rfl

@[simp] theorem receives_nil : receives d [] = [] := rfl

@[simp] theorem parks_nil : parks d t [] = [] := rfl

@[simp] theorem completions_nil : completions d t [] = [] := rfl

@[simp] theorem sends_append : sends d (xs ++ ys) = sends d xs ++ sends d ys := List.filterMap_append

@[simp] theorem receives_append : receives d (xs ++ ys) = receives d xs ++ receives d ys := List.filterMap_append

@[simp] theorem parks_append : parks d t (xs ++ ys) = parks d t xs ++ parks d t ys := List.filterMap_append

@[simp] theorem completions_append : completions d t (xs ++ ys) = completions d t xs ++ completions d t ys :=
  List.filterMap_append

end Event

namespace Ideal

variable {s s' s'' : Store} {c d q : Ref} {l l' : List Ref} {b : Ref → List Ref} {t : Direction} {xs ys : List Event}

/-- The requests of a direction that wait on a channel, the oldest first. -/
def Store.waiting (s : Store) (d : Ref) (t : Direction) : List Ref := (s.waiters d).filter fun q => s.direction? q == some t

theorem Store.IsRequest.direction? {r : Request} (k : s.IsRequest q r) : s.direction? q = some r.direction := by
  rw [Store.direction?, k]
  rfl

theorem Store.Typed.direction?_grow (typed : s.Typed) (grows : s.Grows s') (hq : q ∈ s.waiters d) :
    s'.direction? q = s.direction? q := by
  obtain ⟨r, k⟩ := Store.waiter_isRequest typed hq
  rw [k.direction?, (k.grow grows).direction?]

/-- Requests keep their direction. -/
theorem Store.waiting_of_subset (typed : s.Typed) (grows : s.Grows s') (sub : ∀ q ∈ s'.waiters d, q ∈ s.waiters d) :
    s'.waiting d t = (s'.waiters d).filter fun q => s.direction? q == some t :=
  List.filter_congr fun _ hq => by rw [typed.direction?_grow grows (sub _ hq)]

/-- What has gone through the channels between two states, as noted. -/
structure Flow (s s' : Store) (events : List Event) : Prop where
  buffer : ∀ d, s.buffer d ++ Event.sends d events = Event.receives d events ++ s'.buffer d
  line : ∀ d t, (Event.completions d t events ++ s'.waiting d t).Sublist (s.waiting d t ++ Event.parks d t events)

namespace Flow

theorem trans (a : Flow s s' xs) (b : Flow s' s'' ys) : Flow s s'' (xs ++ ys) where
  buffer d := by
    rw [Event.sends_append, Event.receives_append, ← List.append_assoc, a.buffer, List.append_assoc, b.buffer,
      List.append_assoc]
  line d t := by
    rw [Event.completions_append, Event.parks_append, List.append_assoc, ← List.append_assoc (s.waiting d t)]
    refine ((List.Sublist.refl _).append (b.line d t)).trans ?_
    rw [← List.append_assoc]
    exact (a.line d t).append (.refl _)

/-- Nothing goes through a channel when requests are only withdrawn. -/
theorem quiet (typed : s.Typed) (grows : s.Grows s') (buffer : ∀ d, s'.buffer d = s.buffer d)
    (waiters : ∀ d, (s'.waiters d).Sublist (s.waiters d)) : Flow s s' [] where
  buffer d := by simpa using (buffer d).symm
  line d t := by
    rw [Store.waiting_of_subset typed grows fun q hq => (waiters d).subset hq, Event.parks_nil, List.append_nil]
    exact (waiters d).filter _

theorem calm (typed : s.Typed) (calm : Calm s s') : Flow s s' [] :=
  quiet typed calm.grows calm.buffer fun d => calm.waiters d ▸ List.Sublist.refl _

/-- Values go into a buffer or come out of it. -/
theorem moved {values : List Ref} (typed : s.Typed) (moved : Moved s d values s')
    (buffer : ∀ x, s.buffer x ++ Event.sends x xs = Event.receives x xs ++ if x = d then values else s.buffer x)
    (parks : ∀ x u, Event.parks x u xs = []) (completions : ∀ x u, Event.completions x u xs = []) : Flow s s' xs where
  buffer x := by rw [buffer, moved.buffer]
  line x u := by
    rw [parks, completions, Store.waiting_of_subset typed moved.proceeds.grows fun q hq => moved.waiters x ▸ hq, moved.waiters,
      List.append_nil]
    exact .refl _

/-- The oldest request of a direction is completed, and those of its context are withdrawn. -/
theorem served {r : Request} {rest : List Ref} (typed : s.Typed) (resumed : Resumed s r.context b s') (head : s.waiting d t = q :: rest)
    (k : s.IsRequest q r) (buffer : ∀ x, s.buffer x ++ Event.sends x xs = Event.receives x xs ++ b x)
    (parks : ∀ x u, Event.parks x u xs = []) (completions : ∀ x u, Event.completions x u xs = if d = x ∧ t = u then [q] else []) :
    Flow s s' xs where
  buffer x := by rw [buffer, resumed.buffer]
  line x u := by
    have still : s'.waiting x u = (s.waiting x u).filter fun q => !s.ownedBy r.context q := by
      have sub : ∀ q ∈ s'.waiters x, q ∈ s.waiters x := fun q hq => by
        rw [resumed.waiters] at hq
        exact List.mem_of_mem_filter hq
      rw [Store.waiting_of_subset typed resumed.proceeds.grows sub, resumed.waiters, List.filter_comm]
      rfl
    rw [parks, List.append_nil, completions, still]
    split
    next here =>
      obtain ⟨rfl, rfl⟩ := here
      have owned : (!s.ownedBy r.context q) = false := by simp [k.ownedBy]
      rw [head, List.filter_cons, owned]
      exact List.filter_sublist.cons_cons q
    next => exact List.filter_sublist

end Flow

/-! ### Exchanges -/

/-- The invariants between instructions. -/
structure Linked (s : Store) : Prop where
  typed : s.Typed
  wired : Wired s none
  ducts : Ducts s

theorem Ducts.calm (ducts : Ducts s) (typed : s.Typed) (calm : Calm s s') : Ducts s' :=
  ducts.keep typed calm.proceeds (fun x _ hq => calm.waiters x ▸ hq) fun x => by rw [calm.buffer]

theorem Linked.calm (linked : Linked s) (calm : Calm s s') : Linked s' :=
  ⟨calm.typed, linked.wired.calm calm, linked.ducts.calm linked.typed calm⟩

theorem Linked.resumed (linked : Linked s) (resumed : Resumed s c b s') (lengths : ∀ x, (b x).length = (s.buffer x).length) :
    Linked s' := by
  refine ⟨resumed.proceeds.typed, linked.wired.resumed resumed, linked.ducts.keep linked.typed resumed.proceeds ?_ fun x => ?_⟩
  · intro x q hq
    rw [resumed.waiters] at hq
    exact List.mem_of_mem_filter hq
  · rw [resumed.buffer, lengths]

/-- The contexts that go on were blocked, and nothing has changed for the others. -/
structure Wakes (s : Store) (l : List Ref) (s' : Store) : Prop where
  nodup : l.Nodup
  blocked : ∀ c ∈ l, (s.blockedAt c).isSome
  blockedAt : ∀ x, s'.blockedAt x = if x ∈ l then none else s.blockedAt x
  waits : ∀ x, s'.waits x = if x ∈ l then [] else s.waits x

theorem Wakes.none (blockedAt : ∀ x, s'.blockedAt x = s.blockedAt x) (waits : ∀ x, s'.waits x = s.waits x) : Wakes s [] s' :=
  ⟨List.nodup_nil, fun _ no => absurd no List.not_mem_nil, blockedAt, waits⟩

theorem Wakes.resumed (resumed : Resumed s c b s') (blocked : (s.blockedAt c).isSome) : Wakes s [c] s' where
  nodup := List.nodup_singleton c
  blocked := fun x hx => List.mem_singleton.mp hx ▸ blocked
  blockedAt := fun x => by simpa using resumed.blockedAt x
  waits := fun x => by simpa using resumed.waits x

theorem Wakes.trans (a : Wakes s l s') (b : Wakes s' l' s'') : Wakes s (l ++ l') s'' := by
  have later {x : Ref} (hx : x ∈ l') : x ∉ l ∧ (s.blockedAt x).isSome := by
    have blocked := b.blocked x hx
    rw [a.blockedAt] at blocked
    split at blocked
    · cases blocked
    next not => exact ⟨not, blocked⟩
  refine ⟨a.nodup.append b.nodup fun x hx hx' => (later hx').1 hx, fun x hx => ?_, fun x => ?_, fun x => ?_⟩
  · exact (List.mem_append.mp hx).elim (a.blocked x) fun hx => (later hx).2
  · simp only [b.blockedAt, a.blockedAt, List.mem_append]
    by_cases h : x ∈ l' <;> by_cases h' : x ∈ l <;> simp [h, h']
  · simp only [b.waits, a.waits, List.mem_append]
    by_cases h : x ∈ l' <;> by_cases h' : x ∈ l <;> simp [h, h']

/-- What an action on channels and wait groups brings about: the contexts `l` go on. -/
structure Exchanged (s : Store) (l : List Ref) (events : List Event) (s' : Store) : Prop where
  proceeds : Proceeds s s'
  linked : Linked s'
  wakes : Wakes s l s'
  flow : Flow s s' events

namespace Exchanged

theorem calm (linked : Linked s) (calm : Calm s s') : Exchanged s [] [] s' :=
  ⟨calm.proceeds, linked.calm calm, .none calm.blockedAt calm.waits, .calm linked.typed calm⟩

theorem refl (linked : Linked s) : Exchanged s [] [] s := calm linked (.refl linked.typed)

theorem trans (a : Exchanged s l xs s') (b : Exchanged s' l' ys s'') : Exchanged s (l ++ l') (xs ++ ys) s'' :=
  ⟨a.proceeds.trans b.proceeds, b.linked, a.wakes.trans b.wakes, a.flow.trans b.flow⟩

/-- What is calm may follow. -/
theorem calmly (a : Exchanged s l xs s') (calm : Calm s' s'') : Exchanged s l xs s'' := by
  have b := a.trans (.calm a.linked calm)
  rwa [List.append_nil, List.append_nil] at b

/-- What is calm may go before. -/
theorem after (b : Exchanged s' l xs s'') (linked : Linked s) (calm : Calm s s') : Exchanged s l xs s'' :=
  (Exchanged.calm linked calm).trans b

/-- A blocked context goes on. The notes say what has gone through the buffers meanwhile. -/
theorem resumed (linked : Linked s) (resumed : Resumed s c b s') (blocked : (s.blockedAt c).isSome)
    (lengths : ∀ x, (b x).length = (s.buffer x).length) (flow : Flow s s' xs) : Exchanged s [c] xs s' :=
  ⟨resumed.proceeds, linked.resumed resumed lengths, .resumed resumed blocked, flow⟩

/-- Values are put into a buffer or taken from it while nothing waits there. -/
theorem moved {values : List Ref} (linked : Linked s) (moved : Moved s d values s') (clear : s.waiters d = []) (known : s.Known d)
    (fits : ∀ n, s.Capacity d n → values.length ≤ n) (flow : Flow s s' xs) : Exchanged s [] xs s' :=
  ⟨moved.proceeds, ⟨moved.proceeds.typed, linked.wired.moved moved, linked.ducts.moved linked.typed moved clear known fits⟩,
    .none moved.blockedAt moved.waits, flow⟩

end Exchanged

end Ideal

end FiberMachine
