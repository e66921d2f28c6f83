import FiberMachine.Proofs.Ideal.Engine
import FiberMachine.Proofs.Ideal.Serving

/-!
# Blocking

A context that cannot be served enters its requests and blocks. All its entries are made at once, while the
channels stay as they were when they could not serve it, so waiting requests of other contexts never stand against
each other.
-/

namespace FiberMachine.Ideal

variable {F : Prop} {s s' s₁ : Store} {v c d g q x : Ref} {n : Nat} {t : Direction} {k : Duct} {f : Fiber} {r : Request} {xs ys : List Event}

/-! ### Entering requests -/

/-- The channel cannot serve the request, and no request of a context other than `c` waits in the other direction. -/
structure Blockable (s : Store) (c : Ref) (r : Request) : Prop where
  send : r.direction = .send → ∀ n, s.Capacity r.channel n → (s.buffer r.channel).length = n
  recv : r.direction = .recv → s.buffer r.channel = []
  opposite : ∀ q ∈ s.waiters r.channel, ∀ r', s.IsRequest q r' → r'.direction ≠ r.direction → r'.context = c

/-- A send cannot be served while the buffer is full and no receiver waits. -/
theorem Blockable.sending (direction : r.direction = .send) (clear : s.waiting r.channel .recv = [])
    (full : ∀ n, s.Capacity r.channel n → (s.buffer r.channel).length = n) : Blockable s c r where
  send _ := full
  recv recv := nomatch direction.symm.trans recv
  opposite := by
    intro p hp r' hr' other
    cases direction' : r'.direction with
    | send => exact absurd (direction'.trans direction.symm) other
    | recv => exact absurd (clear ▸ direction' ▸ Store.mem_waiting hp hr') List.not_mem_nil

/-- A receive cannot be served while the buffer is empty and no sender waits. -/
theorem Blockable.receiving (direction : r.direction = .recv) (clear : s.waiting r.channel .send = [])
    (empty : s.buffer r.channel = []) : Blockable s c r where
  send send := nomatch direction.symm.trans send
  recv _ := empty
  opposite := by
    intro p hp r' hr' other
    cases direction' : r'.direction with
    | send => exact absurd (clear ▸ direction' ▸ Store.mem_waiting hp hr') List.not_mem_nil
    | recv => exact absurd (direction'.trans direction.symm) other

/-- The context `c` enters its requests: it is about to block. -/
structure Entering (s : Store) (c : Ref) : Prop where
  typed : s.Typed
  wired : Wired s (some c)
  ducts : Ducts s
  running : s.Running c

theorem Linked.entering (linked : Linked s) (running : s.Running c) : Entering s c :=
  ⟨linked.typed, linked.wired.entering c, linked.ducts, running⟩

/-- The request `q` of `c` waits on the channel `d`. -/
structure Parked (s : Store) (c d q : Ref) (s' : Store) : Prop where
  proceeds : Proceeds s s'
  waits : ∀ x, s'.waits x = if x = c then s.waits x ++ [q] else s.waits x
  blockedAt : ∀ x, s'.blockedAt x = s.blockedAt x
  waiters : ∀ x, s'.waiters x = if x = d then s.waiters x ++ [q] else s.waiters x
  buffer : ∀ x, s'.buffer x = s.buffer x
  queue : ∀ x, s'.queue x = s.queue x

namespace Parked

theorem mem_waiters (parked : Parked s c d q s') {p : Ref} (hp : p ∈ s'.waiters x) : p ∈ s.waiters x ∨ x = d ∧ p = q := by
  rw [parked.waiters] at hp
  split at hp
  next e => exact (List.mem_append.mp hp).imp id fun new => ⟨e, List.mem_singleton.mp new⟩
  next => exact .inl hp

theorem wired (parked : Parked s c r.channel q s') (wired : Wired s (some c)) (running : s.Running c) (hr : s.IsRequest q r)
    (own : r.context = c) : Wired s' (some c) where
  idle := by
    intro y blockedAt other
    rw [parked.blockedAt] at blockedAt
    rw [parked.waits, if_neg fun e => other (congrArg some e.symm)]
    exact wired.idle y blockedAt other
  waiter := by
    intro e p hp
    have g := parked.proceeds.grows
    have counts {r' : Request} (hr' : s.IsRequest p r') (channel : r'.channel = e)
        (count : (s.waiters e).count p = (s.waits r'.context).count p) :
        (s'.waiters e).count p = (s'.waits r'.context).count p := by
      rw [parked.waiters, parked.waits]
      by_cases same : p = q
      · subst same
        cases hr.unique hr'
        rw [if_pos channel.symm, if_pos own, List.count_append, List.count_append, count]
      · have absent : [q].count p = 0 := List.count_eq_zero.mpr fun hp => same (List.mem_singleton.mp hp)
        split <;> split <;> simp only [List.count_append, absent, count, Nat.add_zero]
    have waiting {y : Ref} (h : s.Waiting (some c) y) : s'.Waiting (some c) y := by
      rw [Store.Waiting, parked.blockedAt]
      exact h
    rcases parked.mem_waiters hp with old | ⟨rfl, rfl⟩
    · obtain ⟨r', hr', channel, registered, wait, count⟩ := wired.waiter e p old
      exact ⟨r', hr'.grow g, channel, parked.proceeds.contexts ▸ registered, waiting wait, counts hr' channel count⟩
    · refine ⟨r, hr.grow g, rfl, own ▸ parked.proceeds.contexts ▸ running.registered, waiting (.inr (congrArg some own.symm)),
        counts hr rfl ?_⟩
      by_cases old : p ∈ s.waiters r.channel
      · obtain ⟨r', hr', _, _, _, count⟩ := wired.waiter _ p old
        cases hr.unique hr'
        exact count
      · rw [List.count_eq_zero.mpr old, eq_comm, List.count_eq_zero]
        intro entered
        rcases wired.waits r.context with requests | ⟨g, same, member⟩
        · obtain ⟨r', hr', _, waits⟩ := requests p entered
          cases hr.unique hr'
          exact old waits
        · exact wired.alone_of_idle (own ▸ running.idle) g member
  member := by
    intro g y hy
    rw [parked.queue] at hy ⊢
    have ne : y ≠ c := fun e => wired.alone_of_idle running.idle g (e ▸ hy)
    rw [parked.blockedAt, parked.waits, if_neg ne]
    exact wired.member g y hy
  waits := by
    intro y
    have kept {p e : Ref} (hp : p ∈ s.waiters e) : p ∈ s'.waiters e := by
      rw [parked.waiters]
      split
      · exact List.mem_append_left _ hp
      · exact hp
    rcases wired.waits y with requests | ⟨g, same, member⟩
    · refine .inl fun p hp => ?_
      rw [parked.waits] at hp
      have old (hp : p ∈ s.waits y) : ∃ r, s'.IsRequest p r ∧ r.context = y ∧ p ∈ s'.waiters r.channel := by
        obtain ⟨r', hr', owner, waits⟩ := requests p hp
        exact ⟨r', hr'.grow parked.proceeds.grows, owner, kept waits⟩
      split at hp
      next e =>
        rcases List.mem_append.mp hp with hp | new
        · exact old hp
        · cases List.mem_singleton.mp new
          refine ⟨r, hr.grow parked.proceeds.grows, own.trans e.symm, ?_⟩
          rw [parked.waiters, if_pos rfl]
          exact List.mem_append_right _ (List.mem_singleton_self q)
      next => exact old hp
    · have ne : y ≠ c := fun e => wired.alone_of_idle running.idle g (e ▸ member)
      refine .inr ⟨g, ?_, parked.queue g ▸ member⟩
      rw [parked.waits, if_neg ne, same]
  registered := fun y blocked => parked.proceeds.contexts ▸ wired.registered y (parked.blockedAt y ▸ blocked)

theorem ducts (parked : Parked s c r.channel q s') (ducts : Ducts s) (typed : s.Typed) (hr : s.IsRequest q r) (own : r.context = c)
    (known : s.Known r.channel) (blockable : Blockable s c r) : Ducts s' := by
  have g := parked.proceeds.grows
  have before {p e : Ref} {r' : Request} (hp : p ∈ s'.waiters e) (hr' : s'.IsRequest p r') :
      p ∈ s.waiters e ∧ s.IsRequest p r' ∨ e = r.channel ∧ r' = r := by
    rcases parked.mem_waiters hp with old | ⟨rfl, rfl⟩
    · exact .inl ⟨old, hr'.shrink_waiter typed old g⟩
    · exact .inr ⟨rfl, hr'.unique (hr.grow g)⟩
  have room {e : Ref} {n : Nat} (capacity : s'.Capacity e n) (known : s.Known e) : s.Capacity e n := capacity.shrink known g
  refine ⟨fun e n capacity => ?_, fun e n capacity p hp r' hr' send => ?_, fun e p hp r' hr' recv => ?_,
    fun e p hp p' hp' r₁ r₂ h₁ h₂ ne => ?_⟩
  · rw [parked.buffer]
    by_cases known : s.Known e
    · exact ducts.room e n (room capacity known)
    · rw [Store.buffer_of_unknown known]
      exact Nat.zero_le n
  · rw [parked.buffer]
    rcases before hp hr' with ⟨old, hr'⟩ | ⟨rfl, rfl⟩
    · obtain ⟨l, ho⟩ := Store.channel_of_waiter old
      exact ducts.full e n (room capacity ⟨_, ho⟩) p old r' hr' send
    · exact blockable.send send n (room capacity known)
  · rw [parked.buffer]
    rcases before hp hr' with ⟨old, hr'⟩ | ⟨rfl, rfl⟩
    · exact ducts.empty e p old r' hr' recv
    · exact blockable.recv recv
  · rcases before hp h₁ with ⟨old, h₁⟩ | ⟨rfl, rfl⟩
    · rcases before hp' h₂ with ⟨old', h₂⟩ | ⟨rfl, rfl⟩
      · exact ducts.single e p old p' old' r₁ r₂ h₁ h₂ ne
      · exact (blockable.opposite p old r₁ h₁ ne).trans own.symm
    · rcases before hp' h₂ with ⟨old', h₂⟩ | ⟨_, rfl⟩
      · exact own.trans (blockable.opposite p' old' r₂ h₂ ne.symm).symm
      · exact absurd rfl ne

/-- The request has begun to wait. -/
theorem flow (parked : Parked s c r.channel q s') (typed : s.Typed) (hr : s.IsRequest q r) :
    Flow s s' [.parked r.channel r.direction q] where
  buffer x := by simp [Event.sends, Event.receives, parked.buffer]
  line x u := by
    have sub : (s'.waiting x u).Sublist (s.waiting x u ++ if r.channel = x ∧ r.direction = u then [q] else []) := by
      have same (l : List Ref) (known : ∀ p ∈ l, ∃ r, s.IsRequest p r) :
          (l.filter fun p => s'.direction? p == some u) = l.filter fun p => s.direction? p == some u :=
        List.filter_congr fun p hp => by
          obtain ⟨r', hr'⟩ := known p hp
          rw [hr'.direction?, (hr'.grow parked.proceeds.grows).direction?]
      rw [Store.waiting, same _ fun p hp => (parked.mem_waiters hp).elim (Store.waiter_isRequest typed) fun new => ⟨r, new.2 ▸ hr⟩,
        parked.waiters]
      by_cases e : x = r.channel
      · subst e
        rw [if_pos rfl, List.filter_append, List.filter_singleton, hr.direction?]
        by_cases e : r.direction = u <;> simp [e, Store.waiting, cond_eq_ite]
      · rw [if_neg e, if_neg fun same => e same.1.symm, List.append_nil]
        exact .refl _
    have parks : Event.parks x u [.parked r.channel r.direction q] = if r.channel = x ∧ r.direction = u then [q] else [] := by
      by_cases e : r.channel = x ∧ r.direction = u <;> simp [Event.parks, e]
    rw [parks]
    exact sub

theorem entering (parked : Parked s c r.channel q s') (entering : Entering s c) (hr : s.IsRequest q r) (own : r.context = c)
    (known : s.Known r.channel) (blockable : Blockable s c r) : Entering s' c where
  typed := parked.proceeds.typed
  wired := parked.wired entering.wired entering.running hr own
  ducts := parked.ducts entering.ducts entering.typed hr own known blockable
  running := ⟨parked.proceeds.contexts ▸ entering.running.registered, (parked.blockedAt c).trans entering.running.idle⟩

/-- What could not be served still cannot. -/
theorem blockable {r' : Request} (parked : Parked s c d q s') (blockable : Blockable s c r') (typed : s.Typed)
    (hr : s.IsRequest q r) (own : r.context = c) (known : s.Known r'.channel) : Blockable s' c r' where
  send := fun send n capacity => by
    rw [parked.buffer]
    exact blockable.send send n (capacity.shrink known parked.proceeds.grows)
  recv := fun recv => by
    rw [parked.buffer]
    exact blockable.recv recv
  opposite := by
    intro p hp r'' hr'' ne
    rcases parked.mem_waiters hp with old | ⟨_, rfl⟩
    · exact blockable.opposite p old r'' (hr''.shrink_waiter typed old parked.proceeds.grows) ne
    · exact hr''.unique (hr.grow parked.proceeds.grows) ▸ own

end Parked

/-- The program counter of a context. -/
def Store.PcAt (s : Store) (c : Ref) (n : Nat) : Prop := ∃ f, s.objects[c]? = some (.context f) ∧ f.pc = n

theorem Store.waits_of (ho : s.objects[c]? = some (.context f)) : s.waits c = f.waits := congrArg Wiring.waits (Store.wiring_of ho)

theorem Store.blockedAt_of (ho : s.objects[c]? = some (.context f)) :
    s.blockedAt c = if f.blocked then some f.pc else none := by
  rw [Store.blockedAt, Store.wiring_of ho]
  rfl

/-- Where a blocked context has blocked. -/
theorem Store.blocked_of (ho : s.objects[c]? = some (.context f)) (at_ : s.blockedAt c = some n) :
    f.blocked = true ∧ f.pc = n := by
  rw [Store.blockedAt_of ho] at at_
  split at at_
  next blocked => exact ⟨blocked, Option.some.inj at_⟩
  next => cases at_

/-- Protection does not matter for what the objects are. -/
theorem Safe.rooted {α : Type} {A : Lapse → Prop} {m : StoreM α} {ρ : List Ref} {P : α → Store → Prop}
    (inner : Safe A m { s with temporaries := s.temporaries ++ ρ } P) (more : ∀ a s' ts, P a s' → P a { s' with temporaries := ts }) :
    Safe A (Ideal.withRoots ρ m) s P :=
  Safe.withRoots (inner.weaken fun a s' => more a s' _)

/-- Something more to wait for. -/
theorem update_waits (typed : s.Typed) (isContext : s.IsTag c .context) (q : Ref) :
    Safe (Admits F) (update c fun f => { f with waits := f.waits ++ [q] }) s fun _ s' =>
      Proceeds s s' ∧ ∀ x, s'.wiring x = { s.wiring x with waits := if x = c then s.waits x ++ [q] else s.waits x } := by
  obtain ⟨f, ho, good⟩ := typed.fiber isContext
  refine (update_proceeds (g := fun f => { f with waits := f.waits ++ [q] }) typed ho rfl good).weaken ?_
  rintro _ s' ⟨proceeds, wiring⟩
  refine ⟨proceeds, fun x => ?_⟩
  rw [wiring]
  split
  next e =>
    subst e
    rw [Store.waits, Store.wiring_of ho]
    rfl
  next => rfl

/-- No request stands against those of its context. -/
theorem opposes_safe {l : List Ref} (requests : ∀ q ∈ l, ∃ r, s.IsRequest q r ∧ (r.direction ≠ t → r.context = c)) :
    Observes F (opposes c t l) s fun opposed => opposed = false := by
  induction l with
  | nil => exact .pure rfl
  | cons q rest ih =>
    obtain ⟨r, hr, same⟩ := requests q List.mem_cons_self
    refine (Observes.request hr).bind ?_
    rintro r rfl
    rw [if_neg fun opposed => opposed.2 (same opposed.1)]
    exact ih fun q hq => requests q (List.mem_cons_of_mem _ hq)

theorem park_safe (entering : Entering s c) (hr : s.IsRequest q r) (own : r.context = c) (isChannel : s.IsTag r.channel .channel)
    (blockable : Blockable s c r) : Safe (Admits F) (park q) s fun p s' => p.2 = [.parked r.channel r.direction q] ∧
      Parked s c r.channel q s' := by
  subst own
  refine (Observes.request hr).bind ?_
  rintro r rfl
  obtain ⟨k, ho⟩ := entering.typed.canonical isChannel
  refine (Observes.duct ho).bind ?_
  rintro k rfl
  obtain ⟨buffer, waiters⟩ := entering.typed.good _ _ ho
  refine (opposes_safe fun p hp => ?_).bind ?_
  · rw [← Store.waiters_of ho] at hp
    obtain ⟨r', hr'⟩ := Store.waiter_isRequest entering.typed hp
    exact ⟨r', hr', blockable.opposite p hp r' hr'⟩
  rintro _ rfl
  simp only [Bool.false_eq_true, if_false]
  refine Safe.bind (Q := fun _ s' => s' = s) (Quiet.expectRegistered entering.running.registered rfl) ?_
  rintro _ s rfl
  refine (replace_proceeds (o := .channel { k with waiters := k.waiters ++ [q] }) entering.typed ho rfl ⟨buffer, ?_⟩ Tag.noConfusion).bind
    fun _ s₁ ⟨proceeds, wiring⟩ => ?_
  · intro p hp
    rcases List.mem_append.mp hp with old | new
    · exact waiters p old
    · exact List.mem_singleton.mp new ▸ hr.isTag
  have isContext := (entering.typed.contexts _ entering.running.registered).grow proceeds.grows
  have lists (x : Ref) : s₁.wiring x = { s.wiring x with waiters := if x = r.channel then s.waiters x ++ [q] else s.waiters x } := by
    rw [wiring]
    split
    next e =>
      subst e
      rw [Store.waiters_of ho, Store.wiring_of ho]
      rfl
    next => rfl
  refine Safe.bind (Safe.rooted (P := fun _ s' => Proceeds s₁ s' ∧ ∀ x, s'.wiring x =
    { s₁.wiring x with waits := if x = r.context then s₁.waits x ++ [q] else s₁.waits x }) ?_ ?_) ?_
  · refine (update_waits (s := { s₁ with temporaries := s₁.temporaries ++ [q] }) (proceeds.typed.reroot rfl proceeds.typed.contexts) isContext q).weaken ?_
    exact fun _ s' ⟨proceeds', wiring'⟩ => ⟨⟨proceeds'.typed, proceeds'.grows, proceeds'.contexts⟩, wiring'⟩
  · exact fun _ s' ts ⟨proceeds', wiring'⟩ =>
      ⟨⟨proceeds'.typed.reroot rfl proceeds'.typed.contexts, proceeds'.grows, proceeds'.contexts⟩, wiring'⟩
  rintro _ s' ⟨proceeds', wiring'⟩
  have only (x : Ref) : s'.wiring x = { s.wiring x with
      waits := if x = r.context then s.waits x ++ [q] else s.waits x
      waiters := if x = r.channel then s.waiters x ++ [q] else s.waiters x } := by
    rw [wiring', Store.waits, lists]
    rfl
  refine ⟨rfl, proceeds.trans proceeds', fun x => ?_, fun x => ?_, fun x => ?_, fun x => ?_, fun x => ?_⟩
  · rw [Store.waits, only]
  · rw [Store.blockedAt, only]; rfl
  · rw [Store.waiters, only]
  · rw [Store.buffer, only]; rfl
  · rw [Store.queue, only]; rfl

/-! ### Blocking -/

/-- The context `c` has entered requests, as noted. -/
structure Enters (s : Store) (c : Ref) (events : List Event) (s' : Store) : Prop where
  proceeds : Proceeds s s'
  entering : Entering s' c
  blockedAt : ∀ x, s'.blockedAt x = s.blockedAt x
  others : ∀ x, x ≠ c → s'.waits x = s.waits x
  entries : (s'.waits c).length = (s.waits c).length + events.length
  flow : Flow s s' events

/-- The context `c` has blocked, and nothing has changed for the others. -/
structure Halted (s : Store) (c : Ref) (events : List Event) (s' : Store) : Prop where
  proceeds : Proceeds s s'
  linked : Linked s'
  blocked : (s'.blockedAt c).isSome
  blockedAt : ∀ x, x ≠ c → s'.blockedAt x = s.blockedAt x
  waits : ∀ x, x ≠ c → s'.waits x = s.waits x
  flow : Flow s s' events

/-- What is calm may go before. -/
theorem Halted.after (halted : Halted s₁ c xs s') (linked : Linked s) (calm : Calm s s₁) : Halted s c xs s' where
  proceeds := calm.proceeds.trans halted.proceeds
  linked := halted.linked
  blocked := halted.blocked
  blockedAt x ne := (halted.blockedAt x ne).trans (calm.blockedAt x)
  waits x ne := (halted.waits x ne).trans (calm.waits x)
  flow := (Flow.calm linked.typed calm).trans halted.flow

theorem Enters.refl (entering : Entering s c) : Enters s c [] s where
  proceeds := ⟨entering.typed, .refl, rfl⟩
  entering := entering
  blockedAt _ := rfl
  others _ _ := rfl
  entries := rfl
  flow := .quiet entering.typed .refl (fun _ => rfl) fun _ => .refl _

theorem Enters.trans (a : Enters s c xs s₁) (b : Enters s₁ c ys s') : Enters s c (xs ++ ys) s' where
  proceeds := a.proceeds.trans b.proceeds
  entering := b.entering
  blockedAt x := (b.blockedAt x).trans (a.blockedAt x)
  others x ne := (b.others x ne).trans (a.others x ne)
  entries := by rw [b.entries, a.entries, List.length_append, Nat.add_assoc]
  flow := a.flow.trans b.flow

/-- A request that cannot be served is parked. -/
theorem park_enters (entering : Entering s c) (hr : s.IsRequest q r) (own : r.context = c) (isChannel : s.IsTag r.channel .channel)
    (blockable : Blockable s c r) : Safe (Admits F) (park q) s fun p s' => p.2 = [.parked r.channel r.direction q] ∧
      Parked s c r.channel q s' ∧ Enters s c p.2 s' := by
  refine (park_safe entering hr own isChannel blockable).weaken ?_
  rintro ⟨_, _⟩ s' ⟨rfl, parked⟩
  refine ⟨rfl, parked, parked.proceeds, parked.entering entering hr own isChannel.known blockable, parked.blockedAt, fun x ne => ?_, ?_,
    parked.flow entering.typed hr⟩
  · rw [parked.waits, if_neg ne]
  · rw [parked.waits, if_pos rfl, List.length_append]
    rfl

/-- The context that has entered its requests blocks. -/
theorem Enters.halt (enters : Enters s c xs s₁) : Safe (Admits F) (setBlocked c true) s₁ fun _ s' =>
    Halted s c xs s' ∧ s'.waits c = s₁.waits c ∧ ∀ n, s₁.PcAt c n → s'.blockedAt c = some n := by
  obtain ⟨typed, wired, ducts, running⟩ := enters.entering
  obtain ⟨f, ho⟩ := typed.canonical (typed.contexts c running.registered)
  refine (setBlocked_reblocked typed ho true).weaken ?_
  rintro _ s' changed
  have blocked : s'.blockedAt c = some f.pc := by rw [changed.blockedAt, if_pos rfl]; rfl
  have flow : Flow s₁ s' [] := .quiet typed changed.proceeds.grows changed.buffer fun d => changed.waiters d ▸ List.Sublist.refl _
  refine ⟨⟨enters.proceeds.trans changed.proceeds, ⟨changed.proceeds.typed, wired.blocks running.registered changed, ?_⟩, ?_,
    fun x ne => ?_, fun x ne => ?_, List.append_nil xs ▸ enters.flow.trans flow⟩, changed.waits c, ?_⟩
  · exact ducts.keep typed changed.proceeds (fun x _ hq => changed.waiters x ▸ hq) fun x => by rw [changed.buffer]
  · rw [blocked]; rfl
  · rw [changed.blockedAt, if_neg ne, enters.blockedAt]
  · rw [changed.waits, enters.others x ne]
  · rintro n ⟨g, hg, rfl⟩
    rw [ho] at hg
    cases hg
    exact blocked

/-- All cases of a select are parked, except those without a channel. -/
theorem parkAll_safe {qs : List Ref} (entering : Entering s c) (requests : ∀ q ∈ qs, ∃ r, s.IsRequest q r ∧ r.context = c ∧
    (r.channel ≠ unassigned → s.IsTag r.channel .channel ∧ Blockable s c r)) :
    Safe (Admits F) (Engine.parkAll qs) s fun p s' => Enters s c p.2 s' ∧
      ∀ e ∈ p.2, ∃ q ∈ qs, ∃ r, s.IsRequest q r ∧ e.channel? = some r.channel := by
  induction qs generalizing s with
  | nil => exact ⟨.refl entering, fun _ no => absurd no List.not_mem_nil⟩
  | cons q rest ih =>
    obtain ⟨r, hr, own, given⟩ := requests q List.mem_cons_self
    refine (Observes.request hr).bind ?_
    rintro r rfl
    split
    next some =>
      obtain ⟨isChannel, blockable⟩ := given some
      refine (park_enters entering hr own isChannel blockable).bind ?_
      rintro ⟨_, _⟩ s₁ ⟨rfl, parked, enters⟩
      refine (ih enters.entering fun p hp => ?_).bind ?_
      · obtain ⟨r', hr', own', given'⟩ := requests p (List.mem_cons_of_mem _ hp)
        refine ⟨r', hr'.grow enters.proceeds.grows, own', fun some => ?_⟩
        obtain ⟨isChannel', blockable'⟩ := given' some
        exact ⟨isChannel'.grow enters.proceeds.grows, parked.blockable blockable' entering.typed hr own isChannel'.known⟩
      · rintro ⟨_, others⟩ s' ⟨enters', about⟩
        refine ⟨enters.trans enters', fun e he => ?_⟩
        rcases List.mem_append.mp he with first | later
        · exact ⟨q, List.mem_cons_self, r, hr, List.mem_singleton.mp first ▸ rfl⟩
        · obtain ⟨p, hp, r', hr', channel⟩ := about e later
          obtain ⟨r'', hr'', _⟩ := requests p (List.mem_cons_of_mem _ hp)
          cases (hr''.grow enters.proceeds.grows).unique hr'
          exact ⟨p, List.mem_cons_of_mem _ hp, r', hr'', channel⟩
    next =>
      refine (ih entering fun p hp => requests p (List.mem_cons_of_mem _ hp)).bind ?_
      rintro ⟨_, others⟩ s' ⟨enters, about⟩
      refine ⟨enters, fun e he => ?_⟩
      obtain ⟨p, hp, rest⟩ := about e he
      exact ⟨p, List.mem_cons_of_mem _ hp, rest⟩

/-! ### Choosing a case

A select tries its cases one after another. The case that can be served is, and the context goes on as if its
request had been completed. The cases tried before it have changed nothing; if none can be served, all of them
may be waited for.
-/

variable {l : List Ref}

theorem Store.wiring_ext {x : Ref} (waits : s'.waits x = s.waits x) (blockedAt : s'.blockedAt x = s.blockedAt x)
    (waiters : s'.waiters x = s.waiters x) (buffer : s'.buffer x = s.buffer x) (queue : s'.queue x = s.queue x) :
    s'.wiring x = s.wiring x := by
  change Wiring.mk (s'.waits x) (s'.blockedAt x) (s'.waiters x) (s'.buffer x) (s'.queue x) =
    Wiring.mk (s.waits x) (s.blockedAt x) (s.waiters x) (s.buffer x) (s.queue x)
  rw [waits, blockedAt, waiters, buffer, queue]

/-- Nothing changes when a context goes on that has not blocked. -/
theorem Resumed.calm (resumed : Resumed s c s.buffer s') (wired : Wired s none) (running : s.Running c) : Calm s s' := by
  have idle : s.blockedAt c = none := running.idle
  have nothing : s.waits c = [] := wired.nothing idle
  refine ⟨resumed.proceeds.typed, resumed.proceeds.grows, fun x => ?_, resumed.proceeds.contexts⟩
  refine Store.wiring_ext ?_ ?_ ?_ (resumed.buffer x) ?_
  · rw [resumed.waits]
    split
    next e => rw [e, nothing]
    next => rfl
  · rw [resumed.blockedAt]
    split
    next e => rw [e, idle]
    next => rfl
  · rw [resumed.waiters, List.filter_eq_self]
    intro q hq
    obtain ⟨r, hr, _, _, waiting, _⟩ := wired.waiter x q hq
    rw [Wired.ownedBy_ne hr]
    rintro rfl
    have blocked := waiting.blocked
    rw [idle] at blocked
    cases blocked
  · rw [resumed.queue, List.filter_eq_self]
    exact fun y hy => decide_eq_true fun e => wired.alone_of_idle idle x (e ▸ hy)

/-- The running context is served like the context of a waiting request. -/
theorem complete_own {value : Option Ref} (linked : Linked s) (running : s.Running c) (hr : s.IsRequest q r) (own : r.context = c)
    (known : ∀ v, value = some v → s.Known v) : Safe (Admits F) (complete q value) s fun _ s' => Calm s s' := by
  subst own
  refine (complete_safe linked.typed hr running.registered (linked.wired.covered _) (linked.wired.alone_of_idle running.idle) known).weaken ?_
  exact fun _ s' ⟨_, resumed⟩ => resumed.calm linked.wired running

/-- The contexts that go on are registered, and the running one is none of them. -/
theorem Exchanged.running (exchanged : Exchanged s l xs s') (running : s.Running c) : s'.Running c := by
  refine ⟨exchanged.proceeds.contexts ▸ running.registered, ?_⟩
  have idle : s.blockedAt c = none := running.idle
  change s'.blockedAt c = none
  rw [exchanged.wakes.blockedAt]
  split
  · rfl
  · exact idle

theorem Exchanged.registered (exchanged : Exchanged s l xs s') (linked : Linked s) : ∀ x ∈ l, x ∈ s'.contexts :=
  fun x hx => exchanged.proceeds.contexts ▸ linked.wired.registered x (exchanged.wakes.blocked x hx)

theorem expectWoken_safe {o : Option Ref} (registered : ∀ x ∈ o.toList, x ∈ s.contexts) :
    Safe (Admits F) (Engine.expectWoken o) s fun _ s' => s' = s := by
  cases o with
  | none => exact .pure rfl
  | some x => exact Quiet.expectRegistered (registered x (List.mem_singleton_self x)) rfl

/-- A case has been chosen, or it may be waited for. -/
def Tried (s : Store) (c : Ref) (r : Request) (s' : Store) : Option (Option Ref) × List Event → Prop
  | (some woken, events) => Exchanged s woken.toList events s' ∧ On r.channel events
  | (none, _) => s' = s ∧ (r.channel ≠ unassigned → Blockable s c r)

theorem tryCase_safe (linked : Linked s) (running : s.Running c) (hr : s.IsRequest q r) (own : r.context = c) :
    Safe (Admits F) (Engine.tryCase q) s fun p s' => Tried s c r s' p := by
  obtain ⟨_, channelled, value, _⟩ := linked.typed.good q _ hr
  refine (Observes.request hr).bind ?_
  rintro r rfl
  by_cases nil : r.channel = unassigned
  · rw [if_pos nil]
    exact ⟨rfl, fun some => absurd nil some⟩
  rw [if_neg nil]
  have isChannel := channelled.resolve_left nil
  have served {l : List Ref} {events : List Event} {s₁ : Store} {value o : Option Ref} (same : l = o.toList)
      (exchanged : Exchanged s l events s₁) (about : On r.channel events) (known : ∀ v, value = some v → s₁.Known v) :
      Safe (Admits F) (do
        let _ ← complete q value
        return (some o, events)) s₁ fun p s' => Tried s c r s' p := by
    refine (complete_own exchanged.linked (exchanged.running running) (hr.grow exchanged.proceeds.grows) own known).bind ?_
    exact fun _ s' calm => ⟨same ▸ exchanged.calmly calm, about⟩
  refine (Observes.request hr).bind ?_
  rintro r rfl
  cases direction : r.direction with
  | send =>
    refine (Observes.request hr).bind ?_
    rintro r rfl
    refine (trySend_safe linked isChannel value).bind ?_
    rintro ⟨outcome, events⟩ s₁ sent
    cases outcome with
    | delivered woken =>
      refine (expectWoken_safe (o := some woken) (sent.1.registered linked)).bind ?_
      rintro _ _ rfl
      exact served (o := some woken) rfl sent.1 sent.2 fun _ no => by cases no
    | buffered => exact served (o := none) rfl sent.1 sent.2 fun _ no => by cases no
    | wouldBlock =>
      obtain ⟨rfl, clear, full⟩ := sent
      exact ⟨rfl, fun _ => .sending direction clear full⟩
  | recv =>
    refine (tryRecv_safe linked isChannel).bind ?_
    rintro ⟨outcome, events⟩ s₁ received
    cases outcome with
    | received v woken =>
      obtain ⟨known, exchanged, about⟩ := received
      refine (expectWoken_safe (exchanged.registered linked)).bind ?_
      rintro _ _ rfl
      exact served rfl exchanged about fun _ e => Option.some.inj e ▸ known
    | wouldBlock =>
      obtain ⟨rfl, clear, empty⟩ := received
      exact ⟨rfl, fun _ => .receiving direction clear empty⟩

/-- The cases are tried until one can be served. -/
theorem takeReady_safe {qs : List Ref} (linked : Linked s) (running : s.Running c)
    (requests : ∀ q ∈ qs, ∃ r, s.IsRequest q r ∧ r.context = c) : Safe (Admits F) (Engine.takeReady qs) s fun p s' => match p with
      | (some woken, events) => Exchanged s woken.toList events s' ∧ ∃ q ∈ qs, ∃ r, s.IsRequest q r ∧ On r.channel events
      | (none, _) => s' = s ∧ ∀ q ∈ qs, ∀ r, s.IsRequest q r → r.channel ≠ unassigned → Blockable s c r := by
  induction qs with
  | nil => exact ⟨rfl, fun _ no => absurd no List.not_mem_nil⟩
  | cons q rest ih =>
    obtain ⟨r, hr, own⟩ := requests q List.mem_cons_self
    refine (tryCase_safe linked running hr own).bind ?_
    rintro ⟨outcome, events⟩ s₁ tried
    cases outcome with
    | some woken => exact ⟨tried.1, q, List.mem_cons_self, r, hr, tried.2⟩
    | none =>
      obtain ⟨rfl, blockable⟩ := tried
      refine (ih fun p hp => requests p (List.mem_cons_of_mem _ hp)).weaken ?_
      rintro ⟨outcome, events⟩ s' found
      cases outcome with
      | some woken =>
        obtain ⟨exchanged, p, hp, found⟩ := found
        exact ⟨exchanged, p, List.mem_cons_of_mem _ hp, found⟩
      | none =>
        refine ⟨found.1, fun p hp r' hr' => ?_⟩
        rcases List.mem_cons.mp hp with rfl | hp
        · exact hr.unique hr' ▸ blockable
        · exact found.2 p hp r' hr'

end FiberMachine.Ideal
