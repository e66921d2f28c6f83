import FiberMachine.Proofs.Compounds
import FiberMachine.Proofs.Ideal.Selecting
import FiberMachine.Proofs.Isolation
import FiberMachine.Proofs.Takings

/-!
# Objects under their addresses

A context, a channel or a request of the heap is that of the store, with addresses for names. What serving a request comes to does
not depend on the names, as long as different live objects have different ones.
-/

namespace FiberMachine

open Ideal Heap

/-! ### What is observed -/

/-- The registers of a context. -/
def Context.fiber (addr : Addr) : HeapReader Fiber := do
  return {
    pc := ← Context.pc addr
    operands := ← Context.operands addr
    returns := ← Context.returns addr
    environment := ← Context.environment addr
    blocked := ← Context.isBlocked addr
    waits := ← Context.waits addr
    id := ← Context.id addr }

/-- The state of a channel. -/
def Channel.duct (addr : Addr) : HeapReader Duct := do
  return {
    capacity := ← Channel.capacity addr
    buffer := ← Channel.buffered addr
    waiters := ← Channel.waiting addr }

/-- The channel can serve the request, and this is what it comes to. -/
def Heap.Serves (h : Heap) (r : Request) (e : Exchange) : Prop :=
  ∃ k waiting, Channel.duct r.channel h = .ok k ∧ List.Forall₂ (fun q p => Request.load q h = .ok p) k.waiters waiting ∧
    k.serve waiting r = some e

/-- The case has a channel, which can serve it. -/
def Heap.Ready (h : Heap) (q : Addr) : Prop := ∃ r e, Request.load q h = .ok r ∧ r.channel ≠ unassigned ∧ h.Serves r e

/-- Whether the request belongs to the context. -/
def Heap.ownedBy (h : Heap) (c q : Addr) : Bool := (Request.contextOf q h).toOption == some c

/-- The channel of a request. -/
def Heap.channelOf (h : Heap) (q : Addr) : Addr := (Request.channelOf q h).toOption.getD unassigned

/-- What becomes of live contexts and channels; wait groups, and frames that are not in `filled`, stay as they are. -/
structure Heap.Becomes (h : Heap) (fiber : Addr → Fiber → Fiber) (duct : Addr → Duct → Duct) (filled : Addr → Prop) (h' : Heap) : Prop where
  contexts : ∀ a, h'.Holds a .context → ∃ f, Context.fiber a h = .ok f ∧ Context.fiber a h' = .ok (fiber a f)
  channels : ∀ d, h'.Holds d .channel → ∃ k, Channel.duct d h = .ok k ∧ Channel.duct d h' = .ok (duct d k)
  groups : ∀ g, h'.Holds g .waitGroup → ∃ n queue, (WaitGroup.counter g h = .ok n ∧ WaitGroup.waiting g h = .ok queue) ∧
    WaitGroup.counter g h' = .ok n ∧ WaitGroup.waiting g h' = .ok queue
  frames : ∀ a, h'.Holds a .frame → ¬filled a → ∃ xs, Sequence.toList a h = .ok xs ∧ Sequence.toList a h' = .ok xs

/-! ### Other names -/

section

variable (g : Nat → Nat)

def Ideal.Fiber.map (f : Fiber) : Fiber :=
  { f with
    operands := f.operands.map g
    returns := f.returns.map g
    environment := g f.environment
    waits := f.waits.map g }

def Ideal.Duct.map (k : Duct) : Duct := { k with buffer := k.buffer.map g, waiters := k.waiters.map g }

def Ideal.Exchange.map (e : Exchange) : Exchange where
  value := e.value.map g
  buffer := e.buffer.map g
  partner := e.partner.map fun p => (p.1.map g, p.2.map g)

end

variable {g : Nat → Nat} {w w' : World} {s s' : Store} {h h' : Heap} {c d q x : Ref} {a b : Addr} {f : Fiber} {k : Duct} {r p : Request}
  {e : Exchange} {ps : List Request} {rs : List Ref} {as : List Addr} {v : Option Ref}

/-- What serving comes to does not depend on the names. -/
theorem Ideal.Duct.serve_map : (k.map g).serve (ps.map (Request.map g)) (r.map g) = (k.serve ps r).map (Exchange.map g) := by
  have found (u : Direction) : (ps.map (Request.map g)).find? (·.direction == u) = (ps.find? (·.direction == u)).map (Request.map g) := by
    rw [List.find?_map]
    rfl
  have direction : (r.map g).direction = r.direction := rfl
  unfold Duct.serve
  rw [direction, found, found]
  cases r.direction with
  | send =>
    cases ps.find? (·.direction == .recv) with
    | some p => rfl
    | none =>
      simp only [Option.map_none, Duct.map, List.length_map]
      split
      · simp [Exchange.map, Request.map]
      · rfl
  | recv =>
    cases hb : k.buffer with
    | nil =>
      cases ps.find? (·.direction == .send) with
      | none => simp [Duct.map, hb]
      | some p => simp [Duct.map, hb, Exchange.map, Request.map]
    | cons v rest =>
      cases ps.find? (·.direction == .send) with
      | none => simp [Duct.map, hb, Exchange.map]
      | some p => simp [Duct.map, hb, Exchange.map, Request.map]

theorem Ideal.Fiber.served_map (nil : g r.frame = unassigned ↔ r.frame = unassigned) :
    (f.served r v).map g = (f.map g).served (r.map g) (v.map g) := by
  cases v with
  | none => rfl
  | some v =>
    unfold Fiber.served
    simp only [Option.map_some, Request.map, nil]
    split
    · simp [Fiber.map, Fiber.released]
    · simp [Fiber.map, Fiber.released]

/-! ### Addresses -/

/-- Every live object is at the address that is its other name. -/
def World.Names (w : World) (g : Nat → Nat) : Prop := ∀ r a, w.home r a → g r = a

theorem Rep.names (rep : Rep w s h) : w.Names fun r => w.part r 0 := rep.start

/-- The names stay as long as nothing is made. -/
theorem World.Names.abide (names : w.Names g) (rep' : Rep w' s' h') (abides : Abides w s w' s')
    (length : s'.objects.length = s.objects.length) : w'.Names g :=
  fun r a home => names r a (abides.old r a home (length ▸ rep'.lt_length home))

theorem World.Names.list (names : w.Names g) (homes : List.Forall₂ w.home rs as) : as = rs.map g := by
  induction homes with
  | nil => rfl
  | cons home _ ih => rw [List.map_cons, names _ _ home, ih]

section

variable (rep : Rep w s h) (names : w.Names g)
include rep names

theorem Rep.fiber_eq (ha : w.home c a) (hf : s.objects[c]? = some (.context f)) : Context.fiber a h = .ok (f.map g) := by
  obtain ⟨operands, hoperands, operandsHome⟩ := rep.operands_eq ha hf
  obtain ⟨returns, hreturns, returnsHome⟩ := rep.returns_eq ha hf
  obtain ⟨env, henv, envHome⟩ := rep.environment_eq ha hf
  obtain ⟨waits, hwaits, waitsHome⟩ := rep.waits_eq ha hf
  simp only [Context.fiber, HeapReader.run_bind, rep.pc_eq ha hf, hoperands, hreturns, henv, rep.isBlocked_eq ha hf, hwaits, rep.id_eq ha hf,
    HeapReader.run_pure, names.list operandsHome, names.list returnsHome, names.list waitsHome, ← names _ _ envHome]
  rfl

theorem Rep.duct_eq (ha : w.home d a) (hk : s.objects[d]? = some (.channel k)) : Channel.duct a h = .ok (k.map g) := by
  obtain ⟨buffer, hbuffer, bufferHome⟩ := rep.buffered_eq ha hk
  obtain ⟨waiters, hwaiters, waitersHome⟩ := rep.waiting_eq ha hk
  simp only [Channel.duct, HeapReader.run_bind, rep.capacity_eq ha hk, hbuffer, hwaiters, HeapReader.run_pure, names.list bufferHome,
    names.list waitersHome]
  rfl

theorem Rep.load_eq (ha : w.home q a) (hr : s.IsRequest q r) : Request.load a h = .ok (r.map g) := by
  obtain ⟨context, hcontext, contextHome⟩ := rep.contextOf_eq ha hr
  obtain ⟨channel, hchannel, channelHome⟩ := rep.channelOf_eq ha hr
  obtain ⟨value, hvalue, valueHome⟩ := rep.valueOf_eq ha hr
  obtain ⟨frame, hframe, frameHome⟩ := rep.frameOf_eq ha hr
  obtain ⟨env, henv, envHome⟩ := rep.environmentOf_eq ha hr
  simp only [Request.load, HeapReader.run_bind, hcontext, hchannel, rep.resumeOf_eq ha hr, rep.directionOf_eq ha hr, hvalue, hframe, henv,
    HeapReader.run_pure, ← names _ _ contextHome, ← names _ _ channelHome, ← names _ _ valueHome, ← names _ _ frameHome, ← names _ _ envHome]
  rfl

/-- Different live objects have different names. -/
theorem Rep.name_eq_iff {y : Ref} (hx : w.home x a) (hy : w.home y b) : g x = g y ↔ x = y := by
  rw [names _ _ hx, names _ _ hy]
  exact rep.eq_iff hx hy

theorem Rep.name_nil (hx : w.home x a) : g x = unassigned ↔ x = unassigned := by
  rw [names _ _ hx]
  exact rep.eq_unassigned hx

/-! ### Serving -/

theorem Rep.loads (homes : List.Forall₂ w.home rs as) (requests : List.Forall₂ s.IsRequest rs ps) :
    List.Forall₂ (fun q p => Request.load q h = .ok p) (rs.map g) (ps.map (Request.map g)) := by
  induction requests generalizing as with
  | nil => exact .nil
  | cons hp _ ih =>
    cases homes with
    | cons home rest => exact .cons (names _ _ home ▸ rep.load_eq names home hp) (ih rest)

/-- What the store tells about serving a live request the heap tells, too. -/
theorem Rep.serves (ha : w.home q a) (hr : s.IsRequest q r) (serves : s.Serves r e) : h.Serves (r.map g) (e.map g) := by
  obtain ⟨k, ps, hk, requests, serves⟩ := serves
  obtain ⟨_, _, home⟩ := rep.channelOf_eq ha hr
  obtain ⟨_, _, waiters⟩ := rep.waiting_eq home hk
  have duct : Channel.duct (g r.channel) h = .ok (k.map g) := names _ _ home ▸ rep.duct_eq names home hk
  refine ⟨k.map g, ps.map (Request.map g), duct, rep.loads names waiters requests, ?_⟩
  rw [Duct.serve_map, serves]
  rfl

theorem Rep.ready_iff (typed : s.Typed) (ha : w.home q a) (hr : s.IsRequest q r) : h.Ready a ↔ s.Ready r := by
  obtain ⟨_, _, home⟩ := rep.channelOf_eq ha hr
  refine ⟨?_, ?_⟩
  · rintro ⟨r', e, load, some, k', ps', duct, loads, serves⟩
    cases (rep.load_eq names ha hr).symm.trans load
    have isChannel := (typed.good q _ hr).2.1.resolve_left fun nil => some ((rep.name_nil names home).mpr nil)
    obtain ⟨k, hk⟩ := typed.canonical isChannel
    obtain ⟨ps, requests⟩ := typed.requests hk
    obtain ⟨_, _, waiters⟩ := rep.waiting_eq home hk
    have same : Channel.duct (g r.channel) h = .ok (k.map g) := names _ _ home ▸ rep.duct_eq names home hk
    cases same.symm.trans duct
    have unique : Relator.RightUnique fun q p => Request.load q h = .ok p := fun _ _ _ left right => Except.ok.inj (left.symm.trans right)
    cases List.right_unique_forall₂' unique (rep.loads names waiters requests) loads
    rw [Duct.serve_map] at serves
    obtain ⟨e', serves, _⟩ := Option.map_eq_some_iff.mp serves
    exact ⟨e', k, ps, hk, requests, serves⟩
  · rintro ⟨e, serves⟩
    exact ⟨_, _, rep.load_eq names ha hr, mt (rep.name_nil names home).mp (serves.channelled typed), rep.serves names ha hr serves⟩

end

/-- The partner is one of the waiting requests. -/
theorem Ideal.Duct.serve_partner (serves : k.serve ps r = some e) (partner : e.partner = some (p, v)) : p ∈ ps := by
  unfold Duct.serve at serves
  split at serves
  · split at serves
    next found =>
      cases serves
      cases partner
      exact List.mem_of_find?_eq_some found
    · split at serves <;> cases serves
      cases partner
  · split at serves
    · cases serves
      obtain ⟨_, found, same⟩ := Option.map_eq_some_iff.mp partner
      cases same
      exact List.mem_of_find?_eq_some found
    next found =>
      cases serves
      cases partner
      exact List.mem_of_find?_eq_some found
    · cases serves

/-- The partner is live. -/
theorem Rep.partner_home (rep : Rep w s h) (ha : w.home q a) (hr : s.IsRequest q r) (serves : s.Serves r e) (partner : e.partner = some (p, v)) :
    ∃ q b, w.home q b ∧ s.IsRequest q p := by
  obtain ⟨k, ps, hk, requests, serves⟩ := serves
  obtain ⟨_, _, home⟩ := rep.channelOf_eq ha hr
  obtain ⟨_, _, waiters⟩ := rep.waiting_eq home hk
  obtain ⟨q', member, hp⟩ := related_left requests (Duct.serve_partner serves partner)
  obtain ⟨b, _, hb⟩ := related_right waiters member
  exact ⟨q', b, hb, hp⟩

section

variable (rep : Rep w s h) (names : w.Names g) (ha : w.home q a) (hr : s.IsRequest q r) (serves : s.Serves r e)
include rep names ha hr serves

/-- What becomes of registers, under other names. -/
theorem Rep.fiber_map (hx : w.home x b) : (e.map g).fiber (r.map g) (g x) (f.map g) = (e.fiber r x f).map g := by
  have nil {q : Ref} {a : Addr} {r : Request} (ha : w.home q a) (hr : s.IsRequest q r) : g r.frame = unassigned ↔ r.frame = unassigned := by
    obtain ⟨_, _, home⟩ := rep.frameOf_eq ha hr
    exact rep.name_nil names home
  have same {q : Ref} {a : Addr} {r : Request} (ha : w.home q a) (hr : s.IsRequest q r) : g x = g r.context ↔ x = r.context := by
    obtain ⟨_, _, home⟩ := rep.contextOf_eq ha hr
    exact rep.name_eq_iff names hx home
  have own : g x = (r.map g).context ↔ x = r.context := same ha hr
  unfold Exchange.fiber
  simp only [own]
  split
  · exact (Fiber.served_map (nil ha hr)).symm
  · cases partner : e.partner with
    | none => simp [Exchange.map, partner]
    | some both =>
      obtain ⟨p, v⟩ := both
      obtain ⟨q', b', hb, hp⟩ := rep.partner_home ha hr serves partner
      have his : g x = (p.map g).context ↔ x = p.context := same hb hp
      simp only [Exchange.map, partner, Option.map_some, his]
      split
      · exact (Fiber.served_map (nil hb hp)).symm
      · rfl

/-- What becomes of a channel, under other names. -/
theorem Rep.duct_map (typed : s.Typed) (hx : w.home d b) (hk : s.objects[d]? = some (.channel k)) :
    (e.map g).duct (r.map g) h.ownedBy (g d) (k.map g) = (e.duct r s.ownedBy d k).map g := by
  obtain ⟨_, _, home⟩ := rep.channelOf_eq ha hr
  obtain ⟨_, _, waiters⟩ := rep.waiting_eq hx hk
  have here : g d = (r.map g).channel ↔ d = r.channel := rep.name_eq_iff names hx home
  have owned (q' : Ref) (hq : q' ∈ k.waiters) (p : Request) (v : Option Ref) (partner : e.partner = some (p, v)) :
      h.ownedBy (g p.context) (g q') = s.ownedBy p.context q' := by
    obtain ⟨r', hr'⟩ := Store.waiter_isRequest typed (Store.waiters_of hk ▸ hq)
    obtain ⟨b', _, hb⟩ := related_right waiters hq
    obtain ⟨owner, answer, ho⟩ := rep.contextOf_eq hb hr'
    obtain ⟨_, _, hp, hpr⟩ := rep.partner_home ha hr serves partner
    obtain ⟨_, _, hpc⟩ := rep.contextOf_eq hp hpr
    have same := rep.name_eq_iff names ho hpc
    rw [hr'.ownedBy, Heap.ownedBy, names _ _ hb, answer, ← names _ _ ho]
    simpa [Except.toOption] using same
  have kept : (k.waiters.map g).filter (fun q => (e.map g).partner.all fun p => !h.ownedBy p.1.context q) =
      (k.waiters.filter fun q => e.partner.all fun p => !s.ownedBy p.1.context q).map g := by
    rw [List.filter_map]
    congr 1
    refine List.filter_congr fun q' hq => ?_
    cases partner : e.partner with
    | none => simp [Exchange.map, partner]
    | some both =>
      obtain ⟨p, v⟩ := both
      simpa [Exchange.map, partner, Request.map] using owned q' hq p v partner
  have buffer : (if g d = (r.map g).channel then (e.map g).buffer else (k.map g).buffer) =
      (if d = r.channel then e.buffer else k.buffer).map g := by
    simp only [here]
    split <;> rfl
  unfold Exchange.duct
  rw [buffer]
  exact congrArg (Duct.mk k.capacity _) kept

end

/-! ### What becomes of objects -/

section

variable {F F' : Nat → Fiber → Fiber} {D D' : Nat → Duct → Duct} {P P' : Nat → Prop}
  (rep : Rep w s h) (names : w.Names g) (typed : s.Typed) (rep' : Rep w' s' h') (abides : Abides w s w' s')
include rep names typed rep' abides

/-- What becomes of the objects of the store becomes of live objects. -/
theorem Rep.becomes (b : s.Becomes F D P s')
    (fibers : ∀ (x : Ref) (a : Addr) (f : Fiber), w.home x a → s.objects[x]? = some (.context f) → F' (g x) (f.map g) = (F x f).map g)
    (ducts : ∀ (d : Ref) (a : Addr) (k : Duct), w.home d a → s.objects[d]? = some (.channel k) → D' (g d) (k.map g) = (D d k).map g)
    (filled : ∀ (x : Ref) (a : Addr), w.home x a → P x → P' (g x)) : h.Becomes F' D' P' h' := by
  have names' := names.abide rep' abides b.length
  have old {x : Ref} {a : Addr} (home : w'.home x a) : w.home x a := abides.old x a home (b.length ▸ rep'.lt_length home)
  -- the kind of an object that was there before
  have kind {x : Ref} {a : Addr} {o : Obj} (home : w'.home x a) (ho : s'.objects[x]? = some o) : s.IsTag x o.tag := by
    obtain ⟨o', ho', _⟩ := rep.object x a (old home)
    obtain ⟨_, here, same⟩ := b.grows x o' ho'
    cases ho.symm.trans here
    exact ⟨o', ho', by rw [← o.frozen_tag, same, o'.frozen_tag]⟩
  refine ⟨fun a holds => ?_, fun d holds => ?_, fun q holds => ?_, fun a holds unfilled => ?_⟩
  · obtain ⟨x, f', home, hf'⟩ := rep'.context_at holds
    obtain ⟨f, hf⟩ := typed.canonical (kind home hf')
    have same := b.contexts x f hf
    have at_ := names _ _ (old home)
    refine ⟨f.map g, rep.fiber_eq names (old home) hf, ?_⟩
    rw [rep'.fiber_eq names' home same, ← fibers x a f (old home) hf, at_]
  · obtain ⟨x, k', home, hk'⟩ := rep'.channel_at holds
    obtain ⟨k, hk⟩ := typed.canonical (kind home hk')
    have same := b.channels x k hk
    have at_ := names _ _ (old home)
    refine ⟨k.map g, rep.duct_eq names (old home) hk, ?_⟩
    rw [rep'.duct_eq names' home same, ← ducts x d k (old home) hk, at_]
  · obtain ⟨x, n', l', home, hg'⟩ := rep'.group_at holds
    obtain ⟨n, l, hg⟩ := typed.canonical (kind home hg')
    have stays := b.others x _ (by simp) (by simp) (fun filled => by
      obtain ⟨t, xs, ho⟩ := b.frames x filled
      cases hg.symm.trans ho) hg
    obtain ⟨queue, waiting, homes⟩ := rep.members_eq (old home) hg
    obtain ⟨queue', waiting', homes'⟩ := rep'.members_eq home stays
    obtain ⟨_, counter, rfl⟩ := (Reads.counter rep (old home)).answer (b := (n, l)) (by simp only [Ideal.group, look, hg]; rfl)
    obtain ⟨_, counter', rfl⟩ := (Reads.counter rep' home).answer (b := (n, l)) (by simp only [Ideal.group, look, stays]; rfl)
    rw [names'.list homes'] at waiting'
    rw [names.list homes] at waiting
    exact ⟨_, _, ⟨counter, waiting⟩, counter', waiting'⟩
  · obtain ⟨x, o', home, ho', frame, _⟩ := rep'.object_at holds (by decide)
    obtain ⟨xs, ho⟩ := typed.canonical (frame ▸ kind home ho')
    have at_ := names _ _ (old home)
    have stays := b.others x _ (by simp) (by simp) (fun fills => unfilled (at_ ▸ filled x a (old home) fills)) ho
    obtain ⟨as, read, homes⟩ := (Reads.items rep (old home)).answer (b := xs) (by simp only [Ideal.items, run_bind, look, ho]; rfl)
    obtain ⟨as', read', homes'⟩ := (Reads.items rep' home).answer (b := xs) (by simp only [Ideal.items, run_bind, look, stays]; rfl)
    rw [names'.list homes'] at read'
    rw [names.list homes] at read
    exact ⟨_, read, read'⟩

end

end FiberMachine
