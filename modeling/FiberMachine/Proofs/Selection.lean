import FiberMachine.Proofs.Renaming

/-!
# Selects

A select takes its cases off the operand stack and tries them in a drawn order. Whatever the order is, it serves the first case
that can be served and no other; if there is none it takes the default, and touches nothing; if there is no default
either, its context waits with every case that has a channel.
-/

namespace FiberMachine

open Ideal Heap

/-- The request has been served, and nothing else has happened. -/
structure Heap.Communicates (h : Heap) (r : Request) (e : Exchange) (h' : Heap) : Prop where
  becomes : h.Becomes (e.fiber r) (e.duct r h.ownedBy) (e.fills r) h'
  /-- The other context is another one. -/
  apart : ∀ p v, e.partner = some (p, v) → p.context ≠ r.context
  received : ∀ v, e.value = some v → r.frame ≠ unassigned → Sequence.get r.frame 0 h' = .ok v
  delivered : ∀ p v, e.partner = some (p, some v) → p.frame ≠ unassigned → Sequence.get p.frame 0 h' = .ok v

namespace Machine

/-- The context `c` has taken its case `q`. -/
structure Takes (m : Machine) (c q : Addr) (r : Request) (e : Exchange) (m' : Machine) : Prop where
  load : Request.load q m.heap = .ok r
  own : r.context = c
  channelled : r.channel ≠ unassigned
  serves : m.heap.Serves r e
  communicates : m.heap.Communicates r e m'.heap
  ready : m'.scheduler.ready = m.scheduler.ready ++ (e.partner.map (·.1.context)).toList

/-- What a select of the context `c` has done that tries the cases in the given order. -/
inductive Selects (m : Machine) (c : Addr) (qs : List Addr) : Option Nat → Outcome → Machine → Prop
  | serves {before after : List Addr} {q : Addr} {r : Request} {e : Exchange} {default? : Option Nat} {m' : Machine}
      (split : qs = before ++ q :: after) (idle : ∀ p ∈ before, ¬m.heap.Ready p) (takes : m.Takes c q r e m') :
      Selects m c qs default? .proceed m'
  | defaults {target : Nat} {m' : Machine} (idle : ∀ q ∈ qs, ¬m.heap.Ready q)
      (becomes : m.heap.Becomes (fun a f => if a = c then { f with pc := wrap target } else f) (fun _ k => k) (fun _ => False) m'.heap)
      (ready : m'.scheduler.ready = m.scheduler.ready) : Selects m c qs (some target) .proceed m'
  | waits {m' : Machine} (idle : ∀ q ∈ qs, ¬m.heap.Ready q)
      (becomes : m.heap.Becomes
        (fun a f => if a = c then { f with blocked := true, waits := qs.filter fun q => m.heap.channelOf q ≠ unassigned } else f)
        (joined m.heap.channelOf qs) (fun _ => False) m'.heap)
      (ready : m'.scheduler.ready = m.scheduler.ready) : Selects m c qs none .block m'

/-- What a select of the context `c` does with its cases, whatever order is drawn. -/
structure Decides (m : Machine) (c : Addr) (qs : List Addr) (default? : Option Nat) : Prop where
  selects : ∀ ps, ps.Perm qs → (∃ k m', selectAmong c ps default? m = .error (.error k) m' ∧ Exhausted k) ∨
    ∃ o m', selectAmong c ps default? m = .ok o m' ∧ m.Selects c ps default? o m'
  /-- The default can be taken however little memory there is. -/
  defaults : ∀ ps, ps.Perm qs → (∀ q ∈ qs, ¬m.heap.Ready q) → default?.isSome → ∃ m', selectAmong c ps default? m = .ok .proceed m'
  /-- Every case that can be served is taken in some order. -/
  each : ∀ q ∈ qs, m.heap.Ready q → ∃ ps, ps.Perm qs ∧ ∀ o m', selectAmong c ps default? m = .ok o m' → ∃ r e, m.Takes c q r e m'

end Machine

variable {g : Nat → Nat} {w w' : World} {s s' : Store} {h h' : Heap} {c q : Ref} {a : Addr} {r : Request} {e : Exchange}
  {qs : List Ref} {as : List Addr} {t : Engine} {m : Machine} {default? : Option Nat}

namespace Rep

/-! ### What a case has done -/

/-- What serving a request does to the store it does to the heap. -/
theorem communicates (rep : Rep w s h) (names : w.Names g) (linked : Ideal.Linked s) (held : Held w s q a) (hr : s.IsRequest q r)
    (serves : s.Serves r e) (rep' : Rep w' s' h') (keeps : Keeps w s w' s') (done : s.Communicates r e s') : h.Communicates (r.map g) (e.map g) h' := by
  have typed := linked.typed
  have ha := held.home
  have names' := names.abide rep' keeps.abides done.becomes.length
  have fills {x : Ref} {b : Addr} (hx : w.home x b) (filled : e.fills r x) : (e.map g).fills (r.map g) (g x) := by
    have nil {q : Ref} {a : Addr} {r : Request} (ha : w.home q a) (hr : s.IsRequest q r) : g r.frame = unassigned ↔ r.frame = unassigned := by
      obtain ⟨_, _, home⟩ := rep.frameOf_eq ha hr
      exact rep.name_nil names home
    rcases filled with ⟨value, some, rfl⟩ | ⟨p, v, partner, some, rfl⟩
    · exact .inl ⟨by simpa [Exchange.map] using value, mt (nil ha hr).mp some, rfl⟩
    · obtain ⟨q', b', hb, hp⟩ := rep.partner_home ha hr serves partner
      exact .inr ⟨p.map g, g v, by simp [Exchange.map, partner], mt (nil hb hp).mp some, rfl⟩
  refine ⟨rep.becomes names typed rep' keeps.abides done.becomes (fun x b f hx _ => rep.fiber_map names ha hr serves hx)
    (fun d b k hd hk => rep.duct_map names ha hr serves typed hd hk) fun x b hx => fills hx, ?_, ?_, ?_⟩
  · intro p v partner
    obtain ⟨⟨p, v⟩, found, same⟩ := Option.map_eq_some_iff.mp partner
    cases same
    obtain ⟨q', b', hb, hp⟩ := rep.partner_home ha hr serves found
    obtain ⟨_, _, home⟩ := rep.contextOf_eq hb hp
    obtain ⟨_, _, home'⟩ := rep.contextOf_eq ha hr
    exact fun same => done.apart p v found ((rep.name_eq_iff names home home').mp same)
  · intro v value some
    obtain ⟨v, found, rfl⟩ := Option.map_eq_some_iff.mp value
    have nil : r.frame ≠ unassigned := by
      obtain ⟨_, _, home⟩ := rep.frameOf_eq ha hr
      exact mt (rep.name_nil names home).mpr some
    obtain ⟨ts, xs, ho⟩ := done.received v found nil
    obtain ⟨b, _, home⟩ := rep'.frameOf_eq (held.keep keeps).home (hr.grow done.becomes.grows)
    obtain ⟨b', home', read⟩ := rep'.first_eq home ho
    rwa [← names' _ _ home, ← names' _ _ home'] at read
  · intro p v partner some
    obtain ⟨⟨p, v'⟩, found, same⟩ := Option.map_eq_some_iff.mp partner
    cases v' with
    | none => cases same
    | some v =>
      cases same
      obtain ⟨q', b', hb, hp⟩ := rep.partner_home ha hr serves found
      have nil : p.frame ≠ unassigned := by
        obtain ⟨_, _, home⟩ := rep.frameOf_eq hb hp
        exact mt (rep.name_nil names home).mpr some
      obtain ⟨ts, xs, ho⟩ := done.delivered p v found nil
      -- the frame is in the environment that the other context has entered
      obtain ⟨f, hf⟩ := typed.canonical (typed.isContext hp)
      have registered : p.context ∈ s.contexts := by
        obtain ⟨k, ps, hk, requests, serve⟩ := serves
        obtain ⟨q, waiter, hq⟩ := related_left requests (Duct.serve_partner serve found)
        obtain ⟨r', hr', _, registered, _⟩ := linked.wired.waiter _ q (Store.waiters_of hk ▸ waiter)
        exact hq.unique hr' ▸ registered
      obtain ⟨n, _, hn⟩ := related_right rep'.contexts (keeps.contexts.subset registered)
      obtain ⟨_, _, inside⟩ := rep'.environment_eq hn (done.becomes.contexts _ f hf)
      rw [Exchange.fiber, if_neg (done.apart p _ found), found] at inside
      dsimp only at inside
      rw [if_pos rfl, Fiber.served, if_neg nil] at inside
      obtain ⟨_, _, _, framing⟩ := typed.good q' _ hp
      obtain ⟨b, b', hb, hv, read⟩ := rep'.first_item inside ((framing.resolve_left nil).2.grow done.becomes.grows) ho
      rwa [← names' _ _ hb, ← names' _ _ hv] at read

/-! ### Waiting for all cases -/

theorem channel_name (rep : Rep w s h) (names : w.Names g) (ha : w.home q a) (hr : s.IsRequest q r) :
    h.channelOf (g q) = g (s.channelOf q) := by
  obtain ⟨d, channel, home⟩ := rep.channelOf_eq ha hr
  rw [hr.channelOf, Heap.channelOf, names _ _ ha, channel, names _ _ home]
  rfl

/-- The requests with a channel of a kind. -/
theorem filter_channel (rep : Rep w s h) (names : w.Names g) (P P' : Nat → Bool) (homes : List.Forall₂ w.home qs as)
    (requests : ∀ q ∈ qs, ∃ r, s.IsRequest q r) (same : ∀ (d : Ref) (a : Addr), w.home d a → P' (g d) = P d) :
    ((qs.map g).filter fun q => P' (h.channelOf q)) = (qs.filter fun q => P (s.channelOf q)).map g := by
  rw [List.filter_map]
  congr 1
  refine List.filter_congr fun q hq => ?_
  obtain ⟨r, hr⟩ := requests q hq
  obtain ⟨a, _, ha⟩ := related_right homes hq
  obtain ⟨d, _, home⟩ := rep.channelOf_eq ha hr
  rw [Function.comp_apply, rep.channel_name names ha hr, hr.channelOf]
  exact same _ _ home

end Rep

/-! ### Selects -/

section

variable {t' : Engine} {m' : Machine} {o : Outcome}
  (d : Describes w t m) (turn : t.Turn c) (hc : Held w t.store c a) (held : List.Forall₂ (Held w t.store) qs as)
  (requests : ∀ q ∈ qs, ∃ r, t.store.IsRequest q r ∧ r.context = c)
include d turn hc held requests

/-- What a select of the engine has done, one of the machine has done that it describes. -/
theorem Describes.selected (d' : Describes w' t' m') (keeps : Keeps w t.store w' t'.store) (selected : Selected t c qs default? o t') :
    m.Selects a as default? o m' := by
  have rep := d.rep
  have rep' := d'.rep
  obtain ⟨g, names⟩ : ∃ g, w.Names g := ⟨_, rep.names⟩
  have typed := turn.linked.typed
  have homes : List.Forall₂ w.home qs as := held.imp fun _ _ held => held.home
  have known (q : Ref) (hq : q ∈ qs) : ∃ r, t.store.IsRequest q r := (requests q hq).imp fun _ => And.left
  have idle {ps : List Ref} (sub : ∀ p ∈ ps, p ∈ qs) (idle : t.store.Idles ps) : ∀ p ∈ ps.map g, ¬m.heap.Ready p := by
    intro p hp
    obtain ⟨q, hq, rfl⟩ := List.mem_map.mp hp
    obtain ⟨r, hr⟩ := known q (sub q hq)
    obtain ⟨b, _, hb⟩ := related_right homes (sub q hq)
    rw [names _ _ hb, rep.ready_iff names typed hb hr]
    exact idle q hq r hr
  have ready (length : t'.store.objects.length = t.store.objects.length) : m'.scheduler.ready = t'.scheduler.ready.map g :=
    (names.abide rep' keeps.abides length).list d'.ready
  obtain rfl := names _ _ hc.home
  obtain rfl := names.list homes
  cases selected with
  | @serves before after q r e _ _ split idle' hr serves communicates queued =>
    have member : q ∈ qs := split ▸ List.mem_append_right _ List.mem_cons_self
    obtain ⟨b, _, heldq⟩ := related_right held member
    obtain ⟨r', hr', own⟩ := requests q member
    cases hr.unique hr'
    have served := rep.communicates names turn.linked heldq hr serves rep' keeps communicates
    obtain ⟨_, _, home⟩ := rep.channelOf_eq heldq.home hr
    have channelled := mt (rep.name_nil names home).mp (serves.channelled typed)
    have split' : qs.map g = before.map g ++ b :: after.map g := by rw [split, List.map_append, List.map_cons, names _ _ heldq.home]
    refine .serves split' (idle (fun p hp => split ▸ List.mem_append_left _ hp) idle')
      ⟨rep.load_eq names heldq.home hr, congrArg g own, channelled, rep.serves names heldq.home hr serves, served, ?_⟩
    rw [ready communicates.becomes.length, queued, List.map_append, ← names.list d.ready]
    congr 1
    cases hp : e.partner with
    | none => simp [Exchange.map, hp]
    | some p => simp [Exchange.map, hp, Request.map]
  | @defaults target f _ idle' hf same scheduler =>
    have becomes : t.store.Becomes (fun x f => if x = c then { f with pc := wrap target } else f) (fun _ k => k) (fun _ => False) t'.store := by
      rw [same]
      refine (Store.Becomes.setContext (g := { f with pc := wrap target }) hf rfl).congr (fun x f' hf' => ?_) fun _ _ _ => rfl
      split
      next same =>
        subst same
        cases hf.symm.trans hf'
        rfl
      next => rfl
    refine .defaults (idle (fun _ hp => hp) idle') ?_ ?_
    · refine rep.becomes names typed rep' keeps.abides becomes (fun x b f hx _ => ?_) (fun _ _ _ _ _ => rfl) fun _ _ _ => False.elim
      simp only [rep.name_eq_iff names hx hc.home]
      split <;> rfl
    · rw [ready becomes.length, scheduler, ← names.list d.ready]
  | @waits _ idle' becomes scheduler =>
    refine .waits (idle (fun _ hp => hp) idle') ?_ ?_
    · refine rep.becomes names typed rep' keeps.abides becomes (fun x b f hx _ => ?_) (fun d b k hd _ => ?_) fun _ _ _ => False.elim
      · have nil (d : Ref) (b : Addr) (hd : w.home d b) : decide (g d ≠ unassigned) = decide (d ≠ unassigned) := by
          rw [decide_eq_decide, ne_eq, rep.name_nil names hd]
        simp only [rep.name_eq_iff names hx hc.home]
        rw [rep.filter_channel names (· ≠ unassigned) (· ≠ unassigned) homes known nil]
        split <;> rfl
      · have same (d' : Ref) (b' : Addr) (hd' : w.home d' b') : decide (g d' = g d) = decide (d' = d) := by
          rw [decide_eq_decide, rep.name_eq_iff names hd' hd]
        unfold joined
        rw [rep.filter_channel names (· = d) (· = g d) homes known same]
        simp [Duct.map]
    · rw [ready becomes.length, scheduler, ← names.list d.ready]

/-- A select does what it says, unless the memory is used up. -/
theorem Describes.selects (default? : Option Nat) :
    (∃ k m', Machine.selectAmong a as default? m = .error (.error k) m' ∧ Exhausted k) ∨
      ∃ o m', Machine.selectAmong a as default? m = .ok o m' ∧ m.Selects a as default? o m' := by
  have follows := Drives.selectAmong d hc held default?
  have selects : Safe Ideal.Never (Engine.selectAmong c qs default?) t _ := selectAmong_selects turn requests
  rw [← Machine.silently_selectAmong, silently_run]
  unfold Drives Follows at follows
  unfold Safe at selects
  generalize Machine.selectAmongNoting a as default? m = x, Engine.selectAmong c qs default? t = y at follows selects
  cases follows with
  | full full => exact .inl ⟨_, _, rfl, full⟩
  | ok w' d' keeps same => exact .inr ⟨_, _, rfl, d.selected turn hc held requests d' keeps (same.1 ▸ selects)⟩
  | error => exact selects.elim
  | fault => exact selects.elim
  | wild => exact selects.elim

end

/-! ### No case can be served -/

section

variable {d : Ref} {b : Addr} {k : Duct} {ps : List Request} {u : Direction}

theorem Ideal.Duct.unserved_send (send : r.direction = .send) (stuck : k.serve ps r = none) :
    ps.find? (·.direction == .recv) = none ∧ k.capacity ≤ k.buffer.length := by
  rw [Duct.serve, send] at stuck
  dsimp only at stuck
  split at stuck
  · cases stuck
  next clear =>
    split at stuck
    · cases stuck
    next full => exact ⟨clear, Nat.le_of_not_lt full⟩

theorem Ideal.Duct.unserved_recv (recv : r.direction = .recv) (stuck : k.serve ps r = none) :
    k.buffer = [] ∧ ps.find? (·.direction == .send) = none := by
  rw [Duct.serve, recv] at stuck
  dsimp only at stuck
  split at stuck
  · cases stuck
  · cases stuck
  next empty clear => exact ⟨empty, clear⟩

namespace Rep

/-- No request of the direction waits, so none is taken. -/
theorem takeWaiter_none (rep : Rep w s h) (hd : w.home d b) (hk : s.objects[d]? = some (.channel k))
    (requests : List.Forall₂ s.IsRequest k.waiters ps) (clear : ps.find? (·.direction == u) = none) : Channel.takeWaiter b u h = .ok none h := by
  have has : w.HasDuct h d b k := rep.has hd hk
  obtain ⟨ns, as, is, _, _, homes, start⟩ := has.waiters
  rw [start] at is
  have test : ∀ x ∈ as, (do return (← Request.directionOf x) == u : HeapReader Bool) h = .ok false := by
    intro x hx
    obtain ⟨q, hq, home⟩ := related_left homes hx
    obtain ⟨p, hp, hqp⟩ := related_right requests hq
    have other : (p.direction == u) = false := by simpa using List.find?_eq_none.mp clear p hp
    rw [HeapReader.run_bind, rep.directionOf_eq home hqp]
    exact congrArg Except.ok other
  simp only [Channel.takeWaiter, HeapM.run_bind, HeapM.run_lift, rep.waitersAt has]
  exact is.takeFirst_none rep.tidy test

/-- A case that cannot be served is left alone. -/
theorem tryCase_idle (rep : Rep w s h) (typed : s.Typed) (ha : w.home q a) (hr : s.IsRequest q r) (idle : ¬s.Ready r) :
    Machine.tryCase a h = .ok none h := by
  obtain ⟨b, channel, hd⟩ := rep.channelOf_eq ha hr
  obtain ⟨v, value, _⟩ := rep.valueOf_eq ha hr
  simp only [Machine.tryCase, HeapM.run_bind, HeapM.run_lift, channel]
  by_cases nil : b = unassigned
  · rw [if_pos nil]
    rfl
  rw [if_neg nil]
  have isChannel := (typed.good q _ hr).2.1.resolve_left fun none => nil ((rep.eq_unassigned hd).mpr none)
  obtain ⟨k, hk⟩ := typed.canonical isChannel
  obtain ⟨ps, requests⟩ := typed.requests hk
  have stuck : k.serve ps r = none := by
    by_contra some
    obtain ⟨e, serves⟩ := Option.ne_none_iff_exists'.mp some
    exact idle ⟨e, k, ps, hk, requests, serves⟩
  have has : w.HasDuct h r.channel b k := rep.has hd hk
  obtain ⟨_, xs, is, _, _, homes, start⟩ := has.buffer
  rw [start] at is
  simp only [HeapM.run_bind, HeapM.run_lift, rep.directionOf_eq ha hr]
  cases direction : r.direction with
  | send =>
    obtain ⟨clear, full⟩ := Duct.unserved_send direction stuck
    have full : xs.length = k.capacity := Nat.le_antisymm is.length_le (homes.length_eq ▸ full)
    simp only [HeapM.run_bind, HeapM.run_lift, value, Channel.trySend, rep.takeWaiter_none hd hk requests clear, rep.bufferAt has,
      is.tryPush_full rep.tidy full]
    rfl
  | recv =>
    obtain ⟨empty, clear⟩ := Duct.unserved_recv direction stuck
    rw [empty] at homes
    cases homes
    simp only [HeapM.run_bind, HeapM.run_lift, Channel.tryRecv, rep.bufferAt has, is.pop_nil rep.tidy, rep.takeWaiter_none hd hk requests clear]
    rfl

theorem takeReady_idle (rep : Rep w s h) (typed : s.Typed) (homes : List.Forall₂ w.home qs as) (requests : ∀ q ∈ qs, ∃ r, s.IsRequest q r)
    (idle : s.Idles qs) : Machine.takeReady as h = .ok none h := by
  induction homes with
  | nil => rfl
  | @cons q a _ _ ha _ ih =>
    obtain ⟨r, hr⟩ := requests q List.mem_cons_self
    simp only [Machine.takeReady, HeapM.run_bind, rep.tryCase_idle typed ha hr (idle q List.mem_cons_self r hr)]
    exact ih (fun p hp => requests p (List.mem_cons_of_mem _ hp)) fun p hp => idle p (List.mem_cons_of_mem _ hp)

end Rep

end

/-- The default can be taken however little memory there is. -/
theorem Describes.takes_default {target : Nat} (d : Describes w t m) (turn : t.Turn c) (hc : w.home c a) (homes : List.Forall₂ w.home qs as)
    (requests : ∀ q ∈ qs, ∃ r, t.store.IsRequest q r) (idle : ∀ q ∈ as, ¬m.heap.Ready q) :
    ∃ m', Machine.selectAmong a as (some target) m = .ok .proceed m' := by
  have typed := turn.linked.typed
  obtain ⟨f, hf⟩ := typed.canonical (typed.contexts c turn.running.registered)
  have idles : t.store.Idles qs := fun q hq r hr ready => by
    obtain ⟨b, hb, home⟩ := related_right homes hq
    exact idle b hb ((d.rep.ready_iff d.rep.names typed home hr).mpr ready)
  obtain ⟨h', moved, _⟩ := d.rep.sets hc hf target
  refine ⟨{ m with heap := h' }, ?_⟩
  simp only [Machine.selectAmong, run_bind, Machine.run_heap, d.rep.takeReady_idle typed homes requests idles, moved]
  rfl

/-! ### Taking the cases off the stack -/

/-- What becomes of the registers of a context that goes on to the next instruction and takes its arguments. -/
theorem Ideal.Store.Becomes.takes {f : Fiber} {pc : Nat} {rest above : List Ref} (hf : s.objects[c]? = some (.context f)) :
    s.Becomes (fun x f => if x = c then { f with pc := pc, operands := rest } else f) (fun _ k => k) (fun _ => False)
      ((s.set c (.context { f with pc := pc })).taken c { f with pc := pc } rest above) := by
  have twice : (s.set c (.context { f with pc := pc })).set c (.context { f with pc := pc, operands := rest }) =
      s.set c (.context { f with pc := pc, operands := rest }) := by
    simp [Store.set]
  have becomes : s.Becomes (fun x f => if x = c then { f with pc := pc, operands := rest } else f) (fun _ k => k) (fun _ => False)
      (s.set c (.context { f with pc := pc, operands := rest })) := by
    refine (setContext (g := { f with pc := pc, operands := rest }) hf rfl).congr (fun x f' hf' => ?_) fun _ _ _ => rfl
    split
    next same =>
      subst same
      cases hf.symm.trans hf'
      rfl
    next => rfl
  rw [Store.taken, twice]
  exact ⟨becomes.length, becomes.grows, becomes.contexts, becomes.channels, becomes.frames, becomes.others⟩

/-- All of them are requests. -/
theorem Machine.expects_requests {qs : List Addr} (requests : ∀ q ∈ qs, tag q m.heap = .ok .channelRequest) :
    (qs.forM fun r => (Heap.expect r .channelRequest : MachineM Unit)) m = .ok () m := by
  induction qs with
  | nil => rfl
  | cons q rest ih =>
    have expected : (Heap.expect q .channelRequest : MachineM Unit) m = .ok () m := by
      rw [Machine.run_reader, Heap.expect, HeapReader.run_bind, requests q List.mem_cons_self]
      rfl
    rw [List.forM, run_bind, expected]
    exact ih fun p hp => requests p (List.mem_cons_of_mem _ hp)

/-! ### Runs -/

/-- The first case that can be served is the one that is taken. -/
theorem Machine.Selects.first {q : Addr} {rest : List Addr} {o : Outcome} {m' : Machine} (selects : m.Selects a (q :: rest) default? o m')
    (ready : m.heap.Ready q) : ∃ r e, m.Takes a q r e m' := by
  cases selects with
  | @serves before after p r e _ _ split idle takes =>
    cases before with
    | nil =>
      cases split
      exact ⟨r, e, takes⟩
    | cons b before =>
      cases split
      exact absurd ready (idle q List.mem_cons_self)
  | defaults idle => exact absurd ready (idle q List.mem_cons_self)
  | waits idle => exact absurd ready (idle q List.mem_cons_self)

/-- What is decided of the cases does not depend on their order. -/
theorem Describes.decides (d : Describes w t m) (turn : t.Turn c) (hc : Held w t.store c a) (held : List.Forall₂ (Held w t.store) qs as)
    (requests : ∀ q ∈ qs, ∃ r, t.store.IsRequest q r ∧ r.context = c) (default? : Option Nat) : m.Decides a as default? := by
  -- another order of the cases, and the requests that they are
  have reorder {bs : List Addr} (perm : bs.Perm as) : ∃ ps : List Ref, List.Forall₂ (Held w t.store) ps bs ∧
      ∀ q ∈ ps, ∃ r, t.store.IsRequest q r ∧ r.context = c := by
    obtain ⟨ps, held', permuted⟩ := List.perm_comp_forall₂ perm held.flip
    exact ⟨ps, held'.flip, fun q hq => requests q (permuted.subset hq)⟩
  have selects {bs : List Addr} (perm : bs.Perm as) : (∃ k m', Machine.selectAmong a bs default? m = .error (.error k) m' ∧ Exhausted k) ∨
      ∃ o m', Machine.selectAmong a bs default? m = .ok o m' ∧ m.Selects a bs default? o m' := by
    obtain ⟨ps, held, requests⟩ := reorder perm
    exact d.selects turn hc held requests default?
  refine ⟨fun bs perm => selects perm, fun bs perm idle given => ?_, fun q hq ready => ?_⟩
  · obtain ⟨target, rfl⟩ := Option.isSome_iff_exists.mp given
    obtain ⟨ps, held, requests⟩ := reorder perm
    exact d.takes_default turn hc.home (held.imp fun _ _ held => held.home) (fun q hq => (requests q hq).imp fun _ => And.left)
      fun q hq => idle q (perm.subset hq)
  · have perm : (q :: as.erase q).Perm as := (List.perm_cons_erase hq).symm
    refine ⟨_, perm, fun o m' ran => ?_⟩
    rcases selects perm with ⟨k, m'', failed, _⟩ | ⟨o', m'', ran', done⟩
    · cases ran.symm.trans failed
    · cases ran.symm.trans ran'
      exact done.first ready

variable {code : Array Instruction} {config : Config} {journal : Journal} {history : List Entry} {x : Execution} {p : Nat}

/-- A select over cases of the context whose turn it is. The cases are taken off the operand stack, which needs no memory and changes
nothing else but the program counter, and are tried in the order that is drawn. In any order the first case that can be served is served
and nothing else happens; if there is none, the default is taken, or the context waits with all cases that have a channel.
Only a lack of memory prevents this, and never the default. Every case that can be served comes first in some order. -/
theorem Run.select_decides {below qs : List Addr} (run : Run code config journal history x) (own : x.SelectsOwn)
    (faces : x.Faces a p (.select qs.length default?)) (operands : Context.operands a x.machine.heap = .ok (below ++ qs))
    (requests : ∀ q ∈ qs, tag q x.machine.heap = .ok .channelRequest) :
    ∃ m₁ m, Execution.fetch a x.counted = .ok (p, .select qs.length default?) { x.counted with machine := m₁ } ∧
      Machine.popMany a qs.length m₁ = .ok qs m ∧
      x.machine.heap.Becomes (fun b f => if b = a then { f with pc := wrap (p + 1), operands := below } else f) (fun _ k => k) (fun _ => False)
        m.heap ∧
      Machine.dispatch a p (.select qs.length default?) m₁ =
        Machine.selectAmong a (m.generator.shuffle qs).1 default? { m with generator := (m.generator.shuffle qs).2 } ∧
      ∀ generator, Machine.Decides { m with generator } a qs default? := by
  obtain ⟨w, t, log, followed⟩ := run.followed
  have sim := followed.sim
  have rep := sim.machine.rep
  have typed := followed.steady.linked.typed
  obtain ⟨c, turn, home⟩ := sim.turn faces.turn
  obtain ⟨f, hf⟩ := typed.canonical (typed.contexts c (sim.machine.dispatch.registered c (by simp [turn])))
  obtain ⟨balanced, calm, turn₁⟩ := Course.fetched_turn followed.steady turn hf
  obtain ⟨low, high, same, lower, upper⟩ := rep.operands_append home hf operands
  obtain ⟨m₁, fetched, described⟩ := sim.fetches home hf faces
  have hf₁ : (t.fetchedStore c f).objects[c]? = some (.context { f with pc := wrap (f.pc + 1) }) := Store.context_set hf _
  obtain ⟨bs, h₂, popped, homes, rep₂⟩ := described.rep.takesMany home hf₁ same
  obtain rfl := (rep.names.list homes).trans (rep.names.list upper).symm
  rw [upper.length_eq] at popped
  cases Except.ok.inj ((rep.pc_eq home hf).symm.trans faces.pc)
  have permits := own.sane sim (w.capacity + 1) c f.pc _ turn ⟨f, hf, rfl⟩ (sim.code ▸ faces.instruction)
  have owned := permits.owned _ _ rfl low high upper.length_eq ⟨f, hf, same⟩
  have calm₂ := calm.trans (.taken turn₁.linked.typed turn₁.running hf₁ same high.reverse)
  have cases {q : Ref} (hq : q ∈ high) : ∃ r, t.engine.store.IsRequest q r ∧ r.context = c := by
    obtain ⟨b, hb, at_⟩ := related_right upper hq
    obtain ⟨r, hr⟩ := typed.canonical (rep.isTag_of_tag at_ (requests b hb))
    exact ⟨r, hr, owned q hq r hr⟩
  have running := balanced.running.keep calm₂
  refine ⟨m₁, { m₁ with heap := h₂ }, fetched, popped, ?_, ?_, fun generator => ?_⟩
  · obtain ⟨g, names⟩ : ∃ g, w.Names g := ⟨_, rep.names⟩
    obtain rfl := names _ _ home
    obtain rfl := names.list lower
    have fetches : Keeps w t.engine.store w (t.fetchedStore c f) := .mutate rfl rfl List.length_set
    refine rep.becomes names typed rep₂ (fetches.trans Keeps.taken).abides (Store.Becomes.takes hf) (fun y b f' hy hf' => ?_) (fun _ _ _ _ _ => rfl)
      fun _ _ _ => False.elim
    simp only [rep.name_eq_iff names hy home]
    split <;> rfl
  · have tags : ∀ q ∈ bs, tag q h₂ = .ok .channelRequest := by
      intro q hq
      obtain ⟨y, hy, at_⟩ := related_left upper hq
      obtain ⟨r, hr, _⟩ := cases hy
      exact rep₂.tag_eq at_ (hr.grow calm₂.grows)
    have expected := Machine.expects_requests (m := { m₁ with heap := h₂ }) tags
    simp only [Machine.dispatch, Machine.execSelect, run_bind, popped, expected]
    rfl
  · let e : Engine :=
      { t.fetchedEngine c f with
        store := (t.fetchedStore c f).taken c { f with pc := wrap (f.pc + 1) } low high.reverse
        generator := generator }
    have d : Describes w e { m₁ with heap := h₂, generator := generator } := { described.evolve rep₂ Keeps.taken with generator := rfl }
    have held : List.Forall₂ (Held w e.store) high bs := by
      refine List.Forall₂.imp ?_ (List.forall₂_and_left _ _ |>.mpr ⟨fun _ hq => hq, upper⟩)
      exact fun q b both => .temporaries both.2 (List.mem_append_right _ (List.mem_reverse.mpr both.1))
    refine d.decides ⟨followed.steady.linked.calm calm₂, running⟩ (.contexts home running.registered) held (fun q hq => ?_) default?
    obtain ⟨r, hr, own⟩ := cases hq
    exact ⟨r, hr.grow calm₂.grows, own⟩

/-- The next step is a select without a default over all operands, which are requests of its context. -/
def Execution.offers (x : Execution) (a : Addr) (n p : Nat) : Bool :=
  x.selectsOwn && x.machine.scheduler.dispatch.current == some a && (Context.pc a x.machine.heap).toOption == some p &&
    x.code[p]? == some (.select n none) && (Context.operands a x.machine.heap).toOption.any fun qs =>
      qs.length == n && qs.all fun q => (tag q x.machine.heap).toOption == some .channelRequest

/-- A select over a receive that nobody serves and a send into a buffer. -/
theorem Run.select_decides_buffered : ∃ history x qs m₁ m, Run #[.makeChan false, .selectRecv 7 "v", .loadInt 1, .makeChan true, .loadInt 7,
      .selectSend 7, .select 2 none, .done] { heapWords := 256 } (.start none) history x ∧
      qs.length = 2 ∧ x.Faces x.main 6 (.select qs.length none) ∧
      Machine.popMany x.main qs.length m₁ = .ok qs m ∧ ∀ generator, Machine.Decides { m with generator } x.main qs none := by
  obtain ⟨history, x, run, found⟩ := Run.of_follow (P := fun _ x => x.offers x.main 2 6) #[.makeChan false, .selectRecv 7 "v", .loadInt 1,
    .makeChan true, .loadInt 7, .selectSend 7, .select 2 none, .done] { heapWords := 256 } (.start none) 6 (by decide +kernel)
  simp only [Execution.offers, Bool.and_eq_true, beq_iff_eq] at found
  obtain ⟨⟨⟨⟨own, turn⟩, pc⟩, instruction⟩, operands⟩ := found
  obtain ⟨qs, read, cases⟩ := (Option.any_eq_true ..).mp operands
  simp only [Bool.and_eq_true, beq_iff_eq, List.all_eq_true] at cases
  obtain ⟨length, tags⟩ := cases
  have faces : x.Faces x.main 6 (.select qs.length none) := ⟨turn, toOption_eq pc, length ▸ instruction⟩
  have operands : Context.operands x.main x.machine.heap = .ok ([] ++ qs) := toOption_eq read
  obtain ⟨m₁, m, _, popped, _, _, decides⟩ := run.select_decides (Execution.selectsOwn_sound own) faces operands fun q hq => toOption_eq (tags q hq)
  exact ⟨history, x, qs, m₁, m, run, length, faces, popped, decides⟩

end FiberMachine
