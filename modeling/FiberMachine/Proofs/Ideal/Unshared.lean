import FiberMachine.Proofs.Ideal.Passing
import FiberMachine.Proofs.Ideal.Reaching
import FiberMachine.Proofs.Ideal.Selecting
import FiberMachine.Proofs.Ideal.Storing

/-!
# Arrays that are not shared

What one instruction does to the places where arrays are stored. No array gets a second place, unless a slice grows that has arrays among
its elements, or a select is given a request whose value is stored already.
-/

namespace FiberMachine.Ideal

set_option synthInstance.maxSize 1000

variable {G : Ref → Prop} {s s' : Store} {c d q v x : Ref} {r p : Request} {k : Duct} {ps : List Request} {qs : List Ref} {H : List Use}
  {fiber : Ref → Fiber → Fiber} {duct : Ref → Duct → Duct}

/-! ### Values that are passed on

A channel passes a value on without copying it. What a sender offers is stored when it is delivered or buffered, and whoever receives a
value may store it.
-/

namespace Spending

theorem deliver : Spending G id (deliver q c v) [.storing v] fun _ => [] := by
  refine .bind .spare fun r => ?_
  split
  · exact Spending.last .spare (.refl _)
  · exact .bind setItem fun _ => .spare

theorem complete : Spending G id (complete q (some v)) [.storing v] fun _ => [] :=
  .withRoots (.bind .spare fun _ => .bind .spare fun _ => .bind deliver fun _ => .spare)

theorem tryPush : Spending G id (tryPush d v) [.storing v] fun _ => [] := by
  refine fun s => Safe.look_bind (fun k seen => ?_) fun _ => trivial
  split
  · exact .pure (.weaken .refl List.nil_subperm)
  · refine Safe.bind (Safe.replace (R := fun _ s' => s.Spends G [.storing v] s' []) (.set (object_of_duct seen) rfl ?_ fun _ hq => hq))
      fun _ _ spends => .pure spends
    simp only [Obj.uses, Obj.stored, Obj.offered, List.map_nil, List.append_nil, List.nil_append, List.map_append]
    split
    · exact List.nil_subperm
    · exact List.perm_append_comm.subperm

/-- What is taken out of a buffer may be stored. -/
theorem popBuffer (live : ¬G d) : Spending G id (popBuffer d) [] fun popped => popped.toList.map .storing := by
  refine fun s => Safe.look_bind (fun k seen => ?_) fun _ => trivial
  split
  next => exact .pure .refl
  next v rest buffered =>
    refine Safe.bind (Safe.replace (R := fun _ s' => s.Spends G [] s' [.storing v]) (.set (object_of_duct seen) rfl ?_ fun _ hq => hq))
      fun _ _ spends => .pure spends
    simp only [Obj.uses, Obj.stored, Obj.offered, if_neg live, buffered, List.map_nil, List.append_nil, List.nil_append, List.map_cons,
      List.singleton_append]
    exact .refl _

theorem trySend : Spending G id (trySend d v) [.storing v] fun _ => [] := by
  refine .bind .spare fun found => ?_
  cases found with
  | some q => exact .bind complete fun _ => pure (D := fun _ => [])
  | none =>
    refine .bind tryPush fun added => ?_
    cases added <;> exact pure (D := fun _ => [])

end Spending

instance : Sparing G id (complete q none) := ⟨.withRoots (.bind .spare fun _ => .bind .spare fun _ => .spare)⟩

/-- What the first sender offers that waits on a channel. -/
def Store.offer (s : Store) (d : Ref) : List Ref := ((s.waiting d .send).head?.bind fun q => s.objects[q]?.bind Obj.request?).toList.map Request.value

theorem Store.offer_first {rest : List Ref} (head : s.waiting d .send = q :: rest) (hp : s.IsRequest q p) : s.offer d = [p.value] := by
  rw [offer, head, List.head?_cons, Option.bind_some, show s.objects[q]? = _ from hp]
  rfl

theorem tryRecv_spends (linked : Linked s) (hk : s.objects[d]? = some (.channel k)) (live : ¬G d) : Safe Any (tryRecv d) s fun p s' =>
    match p.1 with
    | .received v _ => s.Spends G ((s.offer d).map .storing) s' [.storing v]
    | .wouldBlock => True := by
  have taking {s₁ : Store} (A : List Use) : Safe Any (takeWaiter d .send) s₁ fun _ s' => s₁.Spends G A s' A := Spending.spared
  refine (((popBuffer_pops linked.typed hk).relax fun _ _ => trivial).both (Spending.popBuffer live s)).bind ?_
  rintro popped s₁ ⟨⟨-, ⟨rfl, rfl, -⟩ | ⟨v, values, rfl, -, -, moved⟩⟩, before⟩
  · refine (((takeWaiter_takes linked.typed hk .send).relax fun _ _ => trivial).both (taking ((s₁.offer d).map .storing))).bind ?_
    rintro found s₂ ⟨⟨kept, ⟨rfl, rfl, clear⟩ | ⟨q, p, rest, rfl, head, hp, _, taken⟩⟩, after⟩
    · trivial
    · refine Safe.skip (a := p) (request_run (hp.grow taken.proceeds.grows)) ?_
      rw [Store.offer_first head hp] at after ⊢
      exact Spending.spared.bind fun _ s' last => .pure (after.trans last)
  · have same : s₁.waiting d .send = s.waiting d .send := by
      rw [Store.waiting_of_subset linked.typed moved.proceeds.grows fun q hq => moved.waiters d ▸ hq, moved.waiters]
      rfl
    have isChannel : s.IsTag d .channel := ⟨_, hk, rfl⟩
    obtain ⟨k₁, hk₁⟩ := moved.proceeds.typed.canonical (isChannel.grow moved.proceeds.grows)
    refine (((takeWaiter_takes moved.proceeds.typed hk₁ .send).relax fun _ _ => trivial).both
      (taking ([.storing v] ++ (s.offer d).map .storing))).bind ?_
    rintro found s₂ ⟨⟨kept, ⟨rfl, rfl, clear⟩ | ⟨q, p, rest, rfl, head, hp₁, _, taken⟩⟩, after⟩
    · exact .pure (((before.frame ((s.offer d).map .storing)).trans after).weaken (List.sublist_append_left _ _).subperm)
    · have hp := hp₁.shrink_waiter linked.typed (Store.waiter_of_waiting (same ▸ head)) moved.proceeds.grows
      refine Safe.skip (a := p) (request_run (hp₁.grow taken.proceeds.grows)) ?_
      rw [Store.offer_first (same ▸ head) hp] at after ⊢
      have both : s.Spends G [.storing p.value] s₂ ([.storing p.value] ++ [.storing v]) :=
        ((before.frame [.storing p.value]).trans after).weaken List.perm_append_comm.subperm
      refine ((Spending.tryPush (G := G)).frame [.storing v] s₂).bind fun _ s₃ pushed => ?_
      exact Spending.spared.bind fun _ s' last => .pure (both.trans (pushed.trans last))

/-- What is stored when a request is served, although it is not new. -/
def Store.price (s : Store) (r : Request) : List Ref :=
  match r.direction with
  | .send => [r.value]
  | .recv => s.offer r.channel

theorem tryCase_spends (linked : Linked s) (hr : s.IsRequest q r) (live : ¬G r.channel) :
    Safe Any (Engine.tryCase q) s fun p s' => p.1.isSome → s.Spends G ((s.price r).map .storing) s' [] := by
  refine Safe.skip (a := r) (request_run hr) ?_
  by_cases nil : r.channel = unassigned
  · rw [if_pos nil]
    exact .pure nofun
  rw [if_neg nil]
  obtain ⟨k, hk⟩ := linked.typed.canonical ((linked.typed.good q _ hr).2.1.resolve_left nil)
  refine Safe.skip (a := r) (request_run hr) ?_
  cases direction : r.direction with
  | send =>
    have price : s.price r = [r.value] := by rw [Store.price, direction]
    refine Safe.skip (a := r) (request_run hr) ?_
    refine (Spending.trySend (G := G) s).bind ?_
    rintro ⟨outcome, events⟩ s₁ sent
    have rest (woken : Option Ref) (o : Option (Option Ref)) : Safe Any (do
        Engine.expectWoken woken
        let _ ← complete q none
        return (o, events)) s₁ fun p s' => p.1.isSome → s.Spends G ((s.price r).map .storing) s' [] :=
      Spending.spared.bind fun _ _ first => Spending.spared.bind fun _ _ next => .pure fun _ => price ▸ sent.trans (first.trans next)
    cases outcome with
    | delivered woken => exact rest (some woken) _
    | buffered => exact rest none _
    | wouldBlock => exact .pure nofun
  | recv =>
    have price : s.price r = s.offer r.channel := by rw [Store.price, direction]
    refine (tryRecv_spends linked hk live).bind ?_
    rintro ⟨outcome, events⟩ s₁ received
    cases outcome with
    | received v woken =>
      refine (Spending.spared (G := G) (A := [.storing v])).bind fun _ s₂ first => ?_
      refine (Spending.complete (G := G) s₂).bind fun _ s₃ next => .pure fun _ => ?_
      exact price ▸ received.trans (first.trans next)
    | wouldBlock => exact .pure nofun

/-- Serving the first case that can be served. -/
theorem takeReady_spends {qs : List Ref} (linked : Linked s) (running : s.Running c)
    (requests : ∀ q ∈ qs, ∃ r, s.IsRequest q r ∧ r.context = c) (live : ∀ q ∈ qs, ∀ r, s.IsRequest q r → ¬G r.channel) :
    Safe Any (Engine.takeReady qs) s fun p s' => match p.1 with
      | some _ => ∃ q ∈ qs, ∃ r e, s.IsRequest q r ∧ s.Serves r e ∧ s.Communicates r e s' ∧ s.Spends G ((s.price r).map .storing) s' []
      | none => s' = s := by
  induction qs with
  | nil => exact rfl
  | cons q rest ih =>
    obtain ⟨r, hr, rfl⟩ := requests q List.mem_cons_self
    refine (((tryCase_settles linked hr running).relax fun _ _ => trivial).both (tryCase_spends linked hr (live q List.mem_cons_self r hr))).bind ?_
    rintro ⟨outcome, events⟩ s₁ ⟨settles, spends⟩
    cases outcome with
    | some woken =>
      obtain ⟨e, serves, -, communicates⟩ := settles
      exact .pure ⟨q, List.mem_cons_self, r, e, hr, serves, communicates, spends rfl⟩
    | none =>
      obtain ⟨rfl, -⟩ := settles
      refine (ih (fun p hp => requests p (List.mem_cons_of_mem _ hp)) fun p hp => live p (List.mem_cons_of_mem _ hp)).weaken ?_
      rintro ⟨outcome, events⟩ s' found
      cases outcome with
      | some woken =>
        obtain ⟨p, hp, found⟩ := found
        exact ⟨p, List.mem_cons_of_mem _ hp, found⟩
      | none => exact found

/-! ### What is stored, and what may be -/

namespace Store

/-- If the request sends, then its value may still be stored. -/
def Deliverable (G : Ref → Prop) (s : Store) (q : Ref) : Prop := ∃ p, s.IsRequest q p ∧ (p.direction = .send → s.Sole G [.storing p.value])

/-- Every array is stored in one place at most, and the values of the senders that wait may still be stored. -/
structure Unshared (G : Ref → Prop) (s : Store) : Prop where
  sole : s.Sole G []
  waiting : ∀ d, ∀ q ∈ s.waiters d, s.Deliverable G q

theorem Deliverable.keep (deliverable : s.Deliverable G q) (grows : s.Grows s') (sole : ∀ H, s.Sole G H → s'.Sole G H) : s'.Deliverable G q := by
  obtain ⟨p, hp, send⟩ := deliverable
  exact ⟨p, hp.grow grows, fun sends => sole _ (send sends)⟩

namespace Unshared

/-- More requests may wait. -/
theorem wait (unshared : s.Unshared G) (grows : s.Grows s') (sole : ∀ H, s.Sole G H → s'.Sole G H)
    (waiting : ∀ d, ∀ q ∈ s'.waiters d, s.Deliverable G q) : s'.Unshared G :=
  ⟨sole _ unshared.sole, fun d q hq => (waiting d q hq).keep grows sole⟩

/-- Nothing is stored that is not new. -/
theorem spend (unshared : s.Unshared G) (grows : s.Grows s') (spends : s.Spends G [] s' []) : s'.Unshared G :=
  unshared.wait grows spends.sole fun d q hq => unshared.waiting d q (spends.waiters d q hq)

/-- More objects may be gone. -/
theorem forget {G' : Ref → Prop} (unshared : s.Unshared G) (more : ∀ r, G r → G' r) : s.Unshared G' := by
  refine ⟨unshared.sole.forget more, fun d q hq => ?_⟩
  obtain ⟨p, hp, send⟩ := unshared.waiting d q hq
  exact ⟨p, hp, fun sends => (send sends).forget more⟩

end Unshared

/-! ### What becomes of the objects -/

/-- Where values are stored does not change if no buffer and no frame does. -/
theorem Becomes.sole (becomes : s.Becomes fiber duct (fun _ => False) s')
    (buffers : ∀ d k, s.objects[d]? = some (.channel k) → (duct d k).buffer = k.buffer) (sole : s.Sole G H) : s'.Sole G H := by
  have object (x : Ref) (o : Obj) (ho : s.objects[x]? = some o) :
      ∃ o', s'.objects[x]? = some o' ∧ o'.tag = o.tag ∧ o'.uses (G x) = o.uses (G x) := by
    cases o with
    | context f => exact ⟨_, becomes.contexts x f ho, rfl, rfl⟩
    | channel k =>
      refine ⟨_, becomes.channels x k ho, rfl, ?_⟩
      simp only [Obj.uses, Obj.stored, Obj.offered, buffers x k ho]
    | _ => exact ⟨_, becomes.others x _ (by simp) (by simp) id ho, rfl, rfl⟩
  have none (x : Ref) (ho : s.objects[x]? = none) : s'.objects[x]? = none := by
    rw [List.getElem?_eq_none_iff] at ho ⊢
    exact becomes.length ▸ ho
  refine sole.congr (fun x => ?_) fun x => ?_ <;> cases ho : s.objects[x]? with
    | none => rw [none x ho]
    | some o =>
      obtain ⟨o', ho', tag, uses⟩ := object x o ho
      simp only [ho', Option.map_some, tag, uses]

/-- Registers store nothing. -/
theorem OnlyAt.sole (others : s.OnlyAt c s') (typed : s.Typed) (typed' : s'.Typed) (grows : s.Grows s') (isContext : s.IsTag c .context)
    (sole : s.Sole G H) : s'.Sole G H := by
  have both (x : Ref) : s'.objects[x]? = s.objects[x]? ∨ ∃ f g, s.objects[x]? = some (.context f) ∧ s'.objects[x]? = some (.context g) := by
    by_cases own : x = c
    · obtain ⟨f, hf⟩ := typed.canonical isContext
      obtain ⟨g, hg⟩ := typed'.canonical (isContext.grow grows)
      exact .inr ⟨f, g, own ▸ hf, own ▸ hg⟩
    · exact .inl (others x own)
  refine sole.congr (fun x => ?_) fun x => ?_ <;> rcases both x with same | ⟨f, g, hf, hg⟩
  · rw [same]
  · rw [hf, hg]; rfl
  · rw [same]
  · rw [hf, hg]; rfl

/-! ### Serving -/

theorem direction_of_waiting {u : Direction} {rest : List Ref} (head : s.waiting d u = q :: rest) (hp : s.IsRequest q p) : p.direction = u := by
  have wanted := (List.mem_filter.mp (head ▸ List.mem_cons_self : q ∈ s.waiting d u)).2
  rw [hp.direction?] at wanted
  exact Option.some.inj (eq_of_beq wanted)

/-- The sender that is served has offered what no other sender does that waits. -/
theorem offer_apart {e : Exchange} (typed : s.Typed) (hk : s.objects[r.channel]? = some (.channel k)) (requests : List.Forall₂ s.IsRequest k.waiters ps)
    (recv : r.direction = .recv) (serves : k.serve ps r = some e) (sole : s.Sole G H)
    (left : e.partner.all fun p => !s.ownedBy p.1.context q) (hp : s.IsRequest q p) (send : p.direction = .send) (array : s.IsTag p.value .array) :
    p.value ∉ s.offer r.channel := by
  intro offered
  cases head : s.waiting r.channel .send with
  | nil => simp [offer, head] at offered
  | cons q₁ rest =>
    have waits := waiter_of_waiting head
    obtain ⟨p₁, hp₁⟩ := waiter_isRequest typed waits
    have sends := direction_of_waiting head hp₁
    rw [offer_first head hp₁, List.mem_singleton] at offered
    cases sole.offered_once hp hp₁ send sends offered array
    have partner : e.partner = some (p₁, none) := by
      simp only [Duct.serve, recv, first_waiting hk requests head hp₁] at serves
      split at serves
      next => cases serves; rfl
      next same => cases serves; exact Option.some.inj same ▸ rfl
      next => cases serves
    rw [partner, Option.all_some, hp₁.ownedBy, beq_self_eq_true] at left
    cases left

namespace Unshared

/-- Values are stored that are not new. No sender that still waits offers one of them. -/
theorem serve {l : List Ref} (unshared : s.Unshared G) (grows : s.Grows s') (fresh : s.Sole G (l.map .storing))
    (spends : s.Spends G (l.map .storing) s' [])
    (apart : ∀ d, ∀ q ∈ s'.waiters d, ∀ p, s.IsRequest q p → p.direction = .send → s.IsTag p.value .array → p.value ∉ l) : s'.Unshared G := by
  rw [← List.append_nil (l.map _)] at fresh
  refine ⟨spends.sole [] fresh, fun d q hq => ?_⟩
  obtain ⟨p, hp, send⟩ := unshared.waiting d q (spends.waiters d q hq)
  refine ⟨p, hp.grow grows, fun sends => spends.sole _ ((send sends).append fresh ?_)⟩
  rintro _ hy array offers
  obtain ⟨v, hv, rfl⟩ := List.mem_map.mp hy
  cases List.mem_singleton.mp offers
  exact apart d q hq p hp sends array hv

/-- What the first sender offers that waits on a channel may be stored. -/
theorem offer (unshared : s.Unshared G) : s.Sole G ((s.offer d).map .storing) := by
  cases head : s.waiting d .send with
  | nil => simpa [Store.offer, head] using unshared.sole
  | cons q rest =>
    obtain ⟨p, hp, send⟩ := unshared.waiting d q (waiter_of_waiting head)
    rw [offer_first head hp]
    exact send (direction_of_waiting head hp)

/-- The request of the context whose turn it is has been served. -/
theorem served {e : Exchange} (unshared : s.Unshared G) (linked : Linked s) (running : s.Running r.context) (hr : s.IsRequest q r)
    (serves : s.Serves r e) (communicates : s.Communicates r e s') (spends : s.Spends G ((s.price r).map .storing) s' [])
    (fresh : r.direction = .send → s.Sole G [.storing r.value]) : s'.Unshared G := by
  obtain ⟨k, ps, hk, requests, serves⟩ := serves
  cases direction : r.direction with
  | send =>
    have price : s.price r = [r.value] := by rw [price, direction]
    rw [price] at spends
    refine unshared.serve (l := [r.value]) communicates.becomes.grows (fresh direction) spends fun d q' hq' p hp send array same => ?_
    -- a sender that waits is blocked
    have waits := spends.waiters d q' hq'
    cases unshared.sole.offered_once hp hr send direction (List.mem_singleton.mp same) array
    obtain ⟨r', hr', _, _, waiting, _⟩ := linked.wired.waiter d q waits
    cases hr.unique hr'
    have blocked := waiting.blocked
    rw [show s.blockedAt r.context = none from running.idle] at blocked
    cases blocked
  | recv =>
    have price : s.price r = s.offer r.channel := by rw [price, direction]
    rw [price] at spends
    refine unshared.serve communicates.becomes.grows unshared.offer spends fun d q' hq' p hp send array => ?_
    refine offer_apart linked.typed hk requests direction serves unshared.sole ?_ hp send array
    obtain ⟨k', hk'⟩ := channel_of_waiter (spends.waiters d q' hq')
    rw [waiters_of (communicates.becomes.channels d k' hk')] at hq'
    exact (List.mem_filter.mp hq').2

end Unshared

end Store

/-! ### Instructions -/

namespace Engine

variable {e e₀ e₁ : Engine} {n : Nat}

/-- A request is made of what is new, and parked. -/
theorem parkRequest_unshared (turn : Turn e r.context) (unshared : e₀.store.Unshared G) (grows : e₀.store.Grows e.store)
    (spends : e₀.store.Spends G [] e.store ((Obj.request r).offered.map .storing ++ (Obj.request r).offered.map .offering))
    (good : (Obj.request r).Good e.store) (isChannel : e.store.IsTag r.channel .channel) (blockable : Blockable e.store r.context r) :
    Safe Any (parkRequest r) e fun _ e' => e'.store.Unshared G := by
  refine store_bind (((Quiet.newRequest (F := True) turn.linked.typed good).relax fun _ _ => trivial).both (Spending.newRequest (G := G) e.store)) ?_
  rintro q s₁ ⟨⟨calm, made⟩, spent⟩
  have later : Turn { e with store := s₁ } r.context := turn.keep calm
  have still : Blockable s₁ r.context { r with resume := wrap r.resume } := by
    refine ⟨fun send n capacity => ?_, fun recv => ?_, fun p hp r' hr' => ?_⟩
    · rw [calm.buffer]
      exact blockable.send send n (capacity.shrink isChannel.known calm.grows)
    · rw [calm.buffer]
      exact blockable.recv recv
    · rw [calm.waiters] at hp
      exact blockable.opposite p hp r' (hr'.shrink_waiter turn.linked.typed hp calm.grows)
  -- what the request offers may be stored
  have all : e₀.store.Spends G [] s₁ ((Obj.request r).offered.map .storing) :=
    spends.trans ((spent.frame _).strengthen List.perm_append_comm.subperm)
  have unshared₁ : s₁.Unshared G := unshared.spend (grows.trans calm.grows) (all.weaken List.nil_subperm)
  have deliverable : s₁.Deliverable G q := by
    have sole := all.sole [] unshared.sole
    exact ⟨_, made, fun send => by rwa [Obj.offered, if_pos send] at sole⟩
  obtain ⟨f, hf⟩ := later.linked.typed.canonical (later.linked.typed.isContext made)
  refine store_bind (((park_enters (F := True) (later.linked.entering later.running) made rfl (isChannel.grow calm.grows) still).relax
    fun _ _ => trivial).both (park_fares made hf)) ?_
  rintro ⟨_, _⟩ s₂ ⟨⟨rfl, parked, enters⟩, fares⟩
  have becomes := parked.becomes fares hf made fun nil =>
    Tag.noConfusion ((nil ▸ isChannel).unique turn.linked.typed.nil)
  refine store_bind ((Safe.relax (enters.halt (F := True)) fun _ _ => trivial).both (Spending.spared (G := G) (A := []))) ?_
  rintro _ s' ⟨⟨halted, _⟩, last⟩
  refine .pure (unshared₁.wait halted.proceeds.grows (fun H sole => last.sole H (becomes.sole (fun _ _ _ => rfl) sole)) fun d p hp => ?_)
  rcases parked.mem_waiters (last.waiters d p hp) with old | ⟨-, rfl⟩
  · exact unshared₁.waiting d p old
  · exact deliverable

theorem execSend_unshared (turn : Turn e c) (unshared : e.store.Unshared G) : Safe Any (execSend c n) e fun _ e' =>
    e.store.Grows e'.store → e'.store.Unshared G := by
  refine ((Quiet.pop turn.active).spares G).bind ?_
  rintro v e₁ ⟨⟨calm₁, -, hv, -⟩, first⟩
  refine ((Quiet.pop (turn.keep calm₁).active).spares G).bind ?_
  rintro d e₂ ⟨⟨calm₂, -, hd, -⟩, second⟩
  have now := turn.keep (calm₁.trans calm₂)
  refine store_bind (Safe.relax (Quiet.expectChannel (F := True) hd) fun _ _ => trivial) ?_
  rintro given _ ⟨rfl, which⟩
  cases given with
  | false =>
    exact (Sparing.spending (G := G) (m := blockForever c) e₂).weaken fun _ _ last grows => unshared.spend grows ((first.trans second).trans last)
  | true =>
    have isChannel : e₂.store.IsTag d .channel := which.elim (fun no => nomatch no.1) (·.2)
    have copied : Quiet True (protecting (copy v)) e₂ fun x s' => s'.Known x :=
      Quiet.protecting ((Ideal.Quiet.copy now.linked.typed (hv.grow calm₂.grows)).weaken fun _ _ _ copied => copied.known)
        fun _ _ _ same ⟨o, ho⟩ => ⟨o, same ▸ ho⟩
    refine (copied.any.both (Spending.protecting (Spending.copy (G := G)) e₂)).bind ?_
    rintro x e₃ ⟨⟨calm₃, -, known⟩, third⟩
    have calm := (calm₁.trans calm₂).trans calm₃
    have now := turn.keep calm
    have spent := first.trans (second.trans third)
    refine store_bind ((Safe.relax (trySend_safe (F := True) now.linked (isChannel.grow calm₃.grows) known) fun _ _ => trivial).both
      (Spending.trySend (G := G) e₃.store)) ?_
    rintro ⟨outcome, events⟩ s' ⟨sent, spends⟩
    have stored : e.store.Spends G [] s' [] := (spent.trans (spends.frame [.offering x])).weaken List.nil_subperm
    cases outcome with
    | delivered woken =>
      exact wakeOption_same.bind fun _ _ same => .pure fun grows => unshared.spend grows (stored.reroot (congrArg Store.objects same))
    | buffered => exact .pure fun grows => unshared.spend grows stored
    | wouldBlock =>
      obtain ⟨rfl, clear, full⟩ := sent
      have isChannel := isChannel.grow calm₃.grows
      refine Safe.weaken (parkRequest_unshared now unshared calm.grows spent ?_ isChannel (.sending rfl clear full)) fun _ _ parked _ => parked
      exact Quiet.sendRequest_good now.active.isContext (.inr isChannel) known

theorem execRecv_unshared (turn : Turn e c) (unshared : e.store.Unshared G) (live : ∀ d, e.store.Mentions c d → ¬G d) :
    Safe Any (execRecv c n) e fun _ e' => e.store.Grows e'.store → e'.store.Unshared G := by
  refine ((Quiet.pop turn.active).spares G).bind ?_
  rintro d e₁ ⟨⟨calm, -, hd, ⟨rest, before, -⟩, -⟩, first⟩
  have now := turn.keep calm
  have unshared₁ := unshared.spend calm.grows first
  have alive : ¬G d := live d (mentions_of_operands before (List.mem_append_right _ (List.mem_singleton_self d)))
  refine store_bind (Safe.relax (Quiet.expectChannel (F := True) hd) fun _ _ => trivial) ?_
  rintro given _ ⟨rfl, which⟩
  cases given with
  | false => exact (Sparing.spending (G := G) (m := blockForever c) e₁).weaken fun _ _ last grows => unshared.spend grows (first.trans last)
  | true =>
    have isChannel : e₁.store.IsTag d .channel := which.elim (fun no => nomatch no.1) (·.2)
    obtain ⟨k, hk⟩ := now.linked.typed.canonical isChannel
    obtain ⟨ps, requests⟩ := now.linked.typed.requests hk
    let r := Machine.recvRequest c d n unassigned unassigned
    refine store_bind (((Safe.relax (tryRecv_safe (F := True) now.linked isChannel) fun _ _ => trivial).both
      (Safe.relax (tryRecv_deals (r := r) now.linked hk requests rfl) fun _ _ => trivial)).both (tryRecv_spends (G := G) now.linked hk alive)) ?_
    rintro ⟨outcome, events⟩ s₂ ⟨⟨received, deals⟩, spends⟩
    cases outcome with
    | received v woken =>
      obtain ⟨known, exchanged, -⟩ := received
      obtain ⟨x, serves, -, -, dealt⟩ := deals
      refine store_bind (Safe.relax (expectWoken_safe (F := True) (exchanged.registered now.linked)) fun _ _ => trivial) ?_
      rintro _ _ rfl
      refine store_bind ((Safe.relax (Quiet.pushOperand (F := True) exchanged.linked.typed (exchanged.running now.running).registered known)
        fun _ _ => trivial).both (Spending.spared (G := G) (A := []))) ?_
      rintro _ s₃ ⟨⟨calm₃, _⟩, last⟩
      refine wakeOption_same.bind fun _ _ same => .pure fun _ => same ▸ ?_
      refine unshared₁.serve (exchanged.proceeds.grows.trans calm₃.grows) unshared₁.offer ((spends.weaken List.nil_subperm).trans last)
        fun d' q hq p hp send array => ?_
      rw [calm₃.waiters, dealt.waiters] at hq
      exact Store.offer_apart (r := r) now.linked.typed hk requests rfl serves unshared₁.sole (List.mem_filter.mp hq).2 hp send array
    | wouldBlock =>
      obtain ⟨rfl, clear, empty⟩ := received
      refine Safe.weaken (parkRequest_unshared (r := r) now unshared calm.grows first ?_ isChannel (.receiving rfl clear empty)) fun _ _ parked _ => parked
      exact ⟨now.active.isContext, .inr isChannel, now.linked.typed.nil.known, .inl rfl⟩

theorem selectAmong_unshared {default? : Option Nat} (turn : Turn e c) (unshared : e.store.Unshared G)
    (requests : ∀ q ∈ qs, ∃ r, e.store.IsRequest q r ∧ r.context = c) (live : ∀ q ∈ qs, ∀ r, e.store.IsRequest q r → ¬G r.channel)
    (deliverable : ∀ q ∈ qs, e.store.Deliverable G q) : Safe Any (selectAmong c qs default?) e fun _ e' => e'.store.Unshared G := by
  obtain ⟨linked, running⟩ := turn
  refine store_bind ((takeReady_spends linked running requests live).both
    (Safe.relax (takeReady_safe (F := True) linked running requests) fun _ _ => trivial)) ?_
  rintro ⟨outcome, events⟩ s₁ ⟨found, safe⟩
  cases outcome with
  | some woken =>
    obtain ⟨q, hq, r, x, hr, serves, communicates, spends⟩ := found
    obtain ⟨p, hp, own⟩ := requests q hq
    cases hr.unique hp
    subst own
    obtain ⟨p, hp, send⟩ := deliverable q hq
    cases hr.unique hp
    exact wakeOption_same.bind fun _ _ same => .pure (same ▸ unshared.served linked running hr serves communicates spends send)
  | none =>
    obtain rfl := found
    obtain ⟨f, hf⟩ := linked.typed.canonical (linked.typed.contexts c running.registered)
    cases default? with
    | some target =>
      have becomes := Store.Becomes.setContext (g := { f with pc := wrap target }) hf rfl
      refine store_bind ((Safe.of_ok (Q := fun _ s' => s' = e.store.set c (.context { f with pc := wrap target })) (update_run hf) rfl).both
        (Spending.spared (G := G) (A := []))) ?_
      rintro _ _ ⟨rfl, spends⟩
      exact .pure (unshared.spend becomes.grows spends)
    | none =>
      refine store_bind (Safe.relax (parkAll_parks (linked.entering running) fun q hq => ?_) fun _ _ => trivial) ?_
      · obtain ⟨r, hr, own⟩ := requests q hq
        obtain ⟨_, channelled, _⟩ := linked.typed.good q _ hr
        exact ⟨r, hr, own, fun some => ⟨channelled.resolve_left some, safe.2 q hq r hr some⟩⟩
      intro _ s₂ parks
      have hg := parks.contexts c f hf
      let g := { entered e.store.channelOf c qs c f with blocked := true }
      have becomes := Store.Becomes.setContext (g := g) hg rfl
      refine store_bind ((Safe.of_ok (Q := fun _ s' => s' = s₂.set c (.context g)) (update_run hg) rfl).both (Spending.spared (G := G) (A := []))) ?_
      rintro _ _ ⟨rfl, last⟩
      refine .pure (unshared.wait (parks.grows.trans becomes.grows) (fun H sole => last.sole H (parks.sole (fun _ _ _ => rfl) sole)) fun d q hq => ?_)
      have waits := last.waiters d q hq
      obtain ⟨k', hk'⟩ := Store.channel_of_waiter waits
      have known : e.store.Known d := Store.known_iff.mpr (parks.length ▸ (List.getElem?_eq_some_iff.mp hk').1)
      obtain ⟨k, hk⟩ := parks.grows.channel_before known hk'
      rw [Store.waiters_of (parks.channels d k hk)] at waits
      rcases List.mem_append.mp waits with old | new
      · exact unshared.waiting d q (Store.waiters_of hk ▸ old)
      · exact deliverable q (List.mem_of_mem_filter new)

/-- The value of a sender among the cases is stored already. -/
def Resends (G : Ref → Prop) (s : Store) (q : Ref) : Prop :=
  ∃ p, s.IsRequest q p ∧ p.direction = .send ∧ s.IsTag p.value .array ∧ .storing p.value ∈ s.uses G

theorem execSelect_unshared {default? : Option Nat} (turn : Turn e c) (unshared : e.store.Unshared G) (live : ∀ d, e.store.Mentions c d → ¬G d)
    (owned : Owned e.store c (.select n default?))
    (fresh : ∀ rest qs, qs.length = n → e.store.Operands c (rest ++ qs) → ∀ q ∈ qs, ¬Resends G e.store q) :
    Safe Any (execSelect c n default?) e fun _ e' => e'.store.Unshared G := by
  refine execSelect_bind (F := True) (fun _ _ => trivial) turn (.inl trivial) owned fun xs ys e₁ offers => ?_
  have now := turn.since offers.since
  have calm := offers.since.calm
  obtain ⟨rest, before, after⟩ := offers.operands
  have known := before.known turn.linked.typed
  have sole (H : List Use) : e.store.Sole G H → e₁.store.Sole G H :=
    offers.others.sole turn.linked.typed now.linked.typed calm.grows turn.active.isContext
  have unshared₁ := unshared.wait calm.grows sole fun d q hq => unshared.waiting d q (calm.waiters d ▸ hq)
  refine selectAmong_unshared now unshared₁ (fun q hq => ?_) (fun q hq r hr => ?_) fun q hq => ?_ <;>
    obtain ⟨p, hp, own, mentions⟩ := offers.requests q hq
  · exact ⟨p, hp, own⟩
  · exact hp.unique hr ▸ live _ mentions
  · have operand := List.mem_append_right rest (offers.perm.mem_iff.mp hq)
    have hp₀ := hp.shrink (known q operand) calm.grows
    refine Store.Deliverable.keep ⟨p, hp₀, fun send => unshared.sole.fresh (turn.linked.typed.good q _ hp₀).2.2.1 fun array stored => ?_⟩ calm.grows sole
    exact fresh rest xs offers.length before q (offers.perm.mem_iff.mp hq) ⟨p, hp₀, send, array, stored⟩

/-- The instruction gives an array a second place: it moves arrays to a larger array, or sends a value again that is stored already. -/
def Shares (G : Ref → Prop) (s : Store) (c : Ref) : Instruction → Prop
  | .append n => ∃ rest target values, values.length = n ∧ s.Operands c (rest ++ target :: values) ∧ s.Moves target n
  | .select n _ => ∃ rest qs, qs.length = n ∧ s.Operands c (rest ++ qs) ∧ ∃ q ∈ qs, Resends G s q
  | _ => False

theorem dispatch_unshared {depth pc : Nat} {i : Instruction} (turn : Turn e c) (unshared : e.store.Unshared G)
    (live : ∀ d, e.store.Mentions c d → ¬G d) (owned : Owned e.store c i) (apart : ¬Shares G e.store c i) :
    Safe Any (dispatch depth c pc i) e fun _ e' => e.store.Grows e'.store → e'.store.Unshared G := by
  have spared {m : EngineM (Outcome × List Event)} (spending : Spending G store m [] fun _ => []) :
      Safe Any m e fun _ e' => e.store.Grows e'.store → e'.store.Unshared G :=
    (spending e).weaken fun _ _ spends grows => unshared.spend grows spends
  cases i with
  | append n =>
    have appended := execAppend_spends (G := G) turn.active fun rest target values length operands moves =>
      apart ⟨rest, target, values, length, operands, moves⟩
    exact Safe.bind (Safe.bind appended fun _ _ spends => .pure spends) fun _ _ spends => .pure fun grows => unshared.spend grows spends
  | send => exact execSend_unshared turn unshared
  | recv => exact execRecv_unshared turn unshared live
  | select n default? =>
    exact (execSelect_unshared turn unshared live owned fun rest qs length operands q hq resends =>
      apart ⟨rest, qs, length, operands, q, hq, resends⟩).weaken fun _ _ unshared _ => unshared
  | _ => exact spared (dispatch_sparing rfl).spending

theorem execute_unshared {depth pc : Nat} {i : Instruction} (turn : Turn e c) (unshared : e.store.Unshared G)
    (live : ∀ d, e.store.Mentions c d → ¬G d) (owned : Owned e.store c i) (apart : ¬Shares G e.store c i) :
    Safe Any (execute depth c pc i) e fun _ e' => e.store.Grows e'.store → e'.store.Unshared G :=
  execute_safe ((dispatch_unshared turn unshared live owned apart).weaken fun _ _ done grows =>
    (done grows).spend .refl (.of_objects rfl))

end Engine

/-! ### Steps -/

variable {f : Fiber} {n : Nat} {xs : List Ref}

theorem Store.Operands.of_fetched (ho : s.objects[c]? = some (.context f)) (operands : (s.set c (.context { f with pc := n })).Operands c xs) :
    s.Operands c xs := by
  obtain ⟨g, hg, rfl⟩ := operands
  cases Option.some.inj (hg.symm.trans (Store.context_set ho _))
  exact ⟨f, ho, rfl⟩

/-- Whether an instruction gives an array a second place does not depend on the program counter. -/
theorem Engine.Shares.of_fetched {i : Instruction} (ho : s.objects[c]? = some (.context f))
    (shares : Shares G (s.set c (.context { f with pc := n })) c i) : Shares G s c i := by
  have tags {v : Ref} {t : Tag} (other : t ≠ .context) (is : (s.set c (.context { f with pc := n })).IsTag v t) : s.IsTag v t := by
    obtain ⟨o, hv, rfl⟩ := is
    exact ⟨o, Store.unset hv fun _ same => other (same ▸ rfl), rfl⟩
  cases i with
  | append m =>
    obtain ⟨rest, target, values, length, operands, array, first, stop, ys, window, full, v, hv, isArray⟩ := shares
    refine ⟨rest, target, values, length, operands.of_fetched ho, array, first, stop, ys, ⟨?_, window.le, window.within, ?_⟩, full, v, hv,
      tags nofun isArray⟩
    · exact Store.unset window.slice nofun
    · exact window.behind.imp_right fun ⟨ne, hys⟩ => ⟨ne, Store.unset hys nofun⟩
  | select m default? =>
    obtain ⟨rest, qs, length, operands, q, hq, p, hp, send, isArray, stored⟩ := shares
    refine ⟨rest, qs, length, operands.of_fetched ho, q, hq, p, Store.unset hp nofun, send, tags nofun isArray, ?_⟩
    have same := Store.count_uses_set (G := G) (o := .context { f with pc := n }) ho (.storing p.value)
    rw [Obj.uses_eq_nil rfl rfl, Obj.uses_eq_nil rfl rfl] at same
    exact List.count_pos_iff.mp (Nat.add_right_cancel same ▸ List.count_pos_iff.mpr stored)
  | _ => exact shares

namespace Course

variable {t t' : Course} {log events : List Event} {depth : Nat} {done : StepOutcome}

/-- At first nothing is stored, and nobody waits. -/
theorem initial_unshared : initial.Unshared G := by
  have none : initial.uses G = [] := by
    simp only [Store.uses, initial, List.mapIdx_cons, List.mapIdx_nil]
    rw [Obj.uses_eq_nil rfl rfl, Obj.uses_eq_nil rfl rfl, Obj.uses_eq_nil rfl rfl]
    rfl
  refine ⟨⟨⟨_, rfl, rfl⟩, fun y hy => ?_, fun y _ => ?_⟩, fun d q hq => ?_⟩
  · rw [none] at hy
    cases hy
  · rw [none]
    exact Nat.zero_le _
  · rw [Store.waiters, initial_wiring] at hq
    cases hq

/-- A step shares no array unless its instruction does. Channels that the running context mentions are not gone. -/
theorem step_unshared (steady : Steady log t) (sane : Sane True depth t) (run : step depth t = .ok (done, events) t')
    (unshared : t.engine.store.Unshared G)
    (live : ∀ c, t.engine.scheduler.dispatch.current = some c → ∀ d, t.engine.store.Mentions c d → ¬G d)
    (apart : ∀ c n i, t.engine.scheduler.dispatch.current = some c → t.engine.store.PcAt c n → t.code[n]? = some i →
      ¬Engine.Shares G t.engine.store c i) : t'.engine.store.Unshared G := by
  rcases step_executed steady sane run with ⟨-, -, rests⟩ | ⟨c, f, i, o, e, -, executed⟩
  · exact rests.store ▸ unshared
  · have here := executed.fiber
    have fetched : (t.fetchedStore c f).Unshared G :=
      unshared.spend executed.calm.grows (.set_plain here rfl rfl rfl fun _ no => absurd no List.not_mem_nil)
    have after := (Engine.execute_unshared executed.turning fetched (fun d mentions => live c executed.turn d (mentions.of_fetched here))
      executed.permits.owned fun shares => apart c f.pc i executed.turn ⟨f, here, rfl⟩ executed.instruction (shares.of_fetched here)).ok
        executed.run executed.turned.grows
    exact after.spend (fun r o ho => ⟨o, executed.object r ▸ ho, rfl⟩) (.of_objects executed.objects)

end Course

end FiberMachine.Ideal
