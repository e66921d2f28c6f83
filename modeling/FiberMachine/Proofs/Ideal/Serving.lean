import FiberMachine.Proofs.Ideal.Flow

/-!
# Sending and receiving

A value that is sent goes to the oldest waiting receiver, or into the buffer if there is room. A value that is
received is the oldest one in the buffer, whose place the oldest waiting sender takes, or that of the oldest
waiting sender. If neither is possible nothing happens, and the channel may be waited for.
-/

namespace FiberMachine.Ideal

variable {F : Prop} {s s' s₁ : Store} {v c d q : Ref} {t : Direction} {k : Duct} {r : Request} {b : Ref → List Ref}

theorem Store.buffer_of (ho : s.objects[d]? = some (.channel k)) : s.buffer d = k.buffer :=
  congrArg Wiring.buffer (Store.wiring_of ho)

theorem Store.waiters_of (ho : s.objects[d]? = some (.channel k)) : s.waiters d = k.waiters :=
  congrArg Wiring.waiters (Store.wiring_of ho)

theorem Store.capacity_of (ho : s.objects[d]? = some (.channel k)) : s.Capacity d k.capacity := ⟨k, ho, rfl⟩

/-! ### Buffers -/

theorem replaceBuffer_moved {values : List Ref} (typed : s.Typed) (ho : s.objects[d]? = some (.channel k))
    (known : ∀ x ∈ values, s.Known x) :
    Safe (Admits F) (replace d (.channel { k with buffer := values })) s fun _ s' => Moved s d values s' := by
  obtain ⟨_, waiters⟩ := typed.good d _ ho
  refine (replace_proceeds (o := .channel { k with buffer := values }) typed ho rfl ⟨known, waiters⟩ Tag.noConfusion).weaken ?_
  rintro _ s' ⟨proceeds, wiring⟩
  refine ⟨proceeds, fun x => ?_⟩
  rw [wiring]
  split
  next e =>
    subst e
    rw [Store.wiring_of ho]
    rfl
  next => rfl

/-- A value is put into the buffer unless it is full. -/
theorem tryPush_safe (typed : s.Typed) (ho : s.objects[d]? = some (.channel k)) (known : s.Known v) :
    Safe (Admits F) (tryPush d v) s fun added s' =>
      added = false ∧ s' = s ∧ k.buffer.length = k.capacity ∨
      added = true ∧ k.buffer.length ≠ k.capacity ∧ Moved s d (k.buffer ++ [v]) s' := by
  refine (Observes.duct ho).bind ?_
  rintro k rfl
  by_cases full : k.buffer.length = k.capacity
  · simp only [if_pos full]
    exact .inl ⟨rfl, rfl, full⟩
  · simp only [if_neg full]
    refine (replaceBuffer_moved typed ho fun x hx => ?_).bind fun _ s' moved => .inr ⟨rfl, full, moved⟩
    rcases List.mem_append.mp hx with old | new
    · exact (typed.good d _ ho).1 x old
    · exact List.mem_singleton.mp new ▸ known

/-- The oldest value is taken from the buffer. -/
theorem popBuffer_safe (typed : s.Typed) (ho : s.objects[d]? = some (.channel k)) :
    Safe (Admits F) (popBuffer d) s fun popped s' =>
      popped = none ∧ s' = s ∧ k.buffer = [] ∨
      ∃ v rest, popped = some v ∧ k.buffer = v :: rest ∧ s.Known v ∧ Moved s d rest s' := by
  refine (Observes.duct ho).bind ?_
  rintro k rfl
  have buffered := (typed.good d _ ho).1
  split
  next empty => exact .inl ⟨rfl, rfl, empty⟩
  next v rest eq =>
    rw [eq] at buffered
    refine (replaceBuffer_moved typed ho fun x hx => buffered x (List.mem_cons_of_mem _ hx)).bind fun _ s' moved => ?_
    exact .inr ⟨v, rest, rfl, eq, buffered v List.mem_cons_self, moved⟩

/-! ### Waiting requests -/

/-- A request of the context `c` may have been taken off a waiting list, and values put into buffers, which are `b` now. -/
structure Taken (s : Store) (c : Ref) (b : Ref → List Ref) (s' : Store) : Prop where
  proceeds : Proceeds s s'
  waits : ∀ x, s'.waits x = s.waits x
  blockedAt : ∀ x, s'.blockedAt x = s.blockedAt x
  sub : ∀ x, (s'.waiters x).Sublist (s.waiters x)
  waiters : ∀ x, ((s'.waiters x).filter fun q => !s.ownedBy c q) = (s.waiters x).filter fun q => !s.ownedBy c q
  buffer : ∀ x, s'.buffer x = b x
  queue : ∀ x, s'.queue x = s.queue x

theorem Taken.moved {values : List Ref} (taken : Taken s c b s₁) (moved : Moved s₁ d values s') :
    Taken s c (fun x => if x = d then values else b x) s' where
  proceeds := taken.proceeds.trans moved.proceeds
  waits := fun x => (moved.waits x).trans (taken.waits x)
  blockedAt := fun x => (moved.blockedAt x).trans (taken.blockedAt x)
  sub := fun x => moved.waiters x ▸ taken.sub x
  waiters := fun x => moved.waiters x ▸ taken.waiters x
  buffer := fun x => by rw [moved.buffer, taken.buffer]
  queue := fun x => (moved.queue x).trans (taken.queue x)

/-- What a buffer has given before does not matter. -/
theorem Taken.after {values : List Ref} (taken : Taken s₁ c b s') (typed : s.Typed) (moved : Moved s d values s₁) : Taken s c b s' where
  proceeds := moved.proceeds.trans taken.proceeds
  waits := fun x => (taken.waits x).trans (moved.waits x)
  blockedAt := fun x => (taken.blockedAt x).trans (moved.blockedAt x)
  sub := fun x => moved.waiters x ▸ taken.sub x
  waiters := by
    intro x
    have same (l : List Ref) (sub : l.Sublist (s.waiters x)) :
        (l.filter fun q => !s₁.ownedBy c q) = l.filter fun q => !s.ownedBy c q :=
      List.filter_congr fun q hq => by
        obtain ⟨r, k⟩ := Store.waiter_isRequest typed (sub.subset hq)
        rw [moved.proceeds.grows.ownedBy k]
    have h := taken.waiters x
    rwa [same _ (moved.waiters x ▸ taken.sub x), moved.waiters x, same _ (.refl _)] at h
  buffer := taken.buffer
  queue := fun x => (taken.queue x).trans (moved.queue x)

theorem Taken.reroot {ts : List Ref} (taken : Taken s c b s') : Taken s c b { s' with temporaries := ts } where
  proceeds := ⟨taken.proceeds.typed.reroot rfl taken.proceeds.typed.contexts, taken.proceeds.grows, taken.proceeds.contexts⟩
  waits := taken.waits
  blockedAt := taken.blockedAt
  sub := taken.sub
  waiters := taken.waiters
  buffer := taken.buffer
  queue := taken.queue

/-- The oldest request of a direction is taken off the waiting list, if there is one. -/
theorem takeWaiter_safe (typed : s.Typed) (ho : s.objects[d]? = some (.channel k)) (t : Direction) :
    Safe (Admits F) (takeWaiter d t) s fun found s' =>
      found = none ∧ s' = s ∧ s.waiting d t = [] ∨
      ∃ q r rest, found = some q ∧ s.waiting d t = q :: rest ∧ s.IsRequest q r ∧ r.direction = t ∧ Taken s r.context s.buffer s' := by
  refine (Observes.duct ho).bind ?_
  rintro k rfl
  have request (q : Ref) (hq : q ∈ k.waiters) : ∃ r, s.IsRequest q r := Store.waiter_isRequest typed (Store.waiters_of ho ▸ hq)
  have directed : ∀ q ∈ k.waiters, (s.direction? q).isSome := fun q hq => by
    obtain ⟨r, hr⟩ := request q hq
    rw [hr.direction?]
    rfl
  refine Safe.skip (a := s) rfl ?_
  rw [if_pos directed, Store.waiting, Store.waiters_of ho]
  dsimp only
  rw [← List.head?_filter]
  cases eq : k.waiters.filter fun q => s.direction? q == some t with
  | nil =>
    have none : ∀ q ∈ k.waiters, ¬(s.direction? q == some t) = true := List.filter_eq_nil_iff.mp eq
    have whole : k.waiters.eraseP (fun q => s.direction? q == some t) = k.waiters := List.eraseP_of_forall_not none
    rw [whole]
    exact .inl ⟨rfl, Store.set_same ho, rfl⟩
  | cons q rest =>
    have first : k.waiters.find? (fun q => s.direction? q == some t) = some q := by rw [← List.head?_filter, eq]; rfl
    obtain ⟨wanted, front, back, split, before⟩ := List.find?_eq_some_iff_append.mp first
    have erased : k.waiters.eraseP (fun q => s.direction? q == some t) = front ++ back := by
      rw [split, List.eraseP_append_right _ fun q hq => by simpa using before q hq, List.eraseP_cons, wanted, cond_true]
    have among : q ∈ k.waiters := by simp [split]
    obtain ⟨r, hr⟩ := request q among
    have direction : r.direction = t := by
      rw [hr.direction?] at wanted
      exact Option.some.inj (beq_iff_eq.mp wanted)
    have owned : s.ownedBy r.context q = true := by rw [hr.ownedBy]; exact beq_self_eq_true _
    obtain ⟨buffer, waiters⟩ := typed.good d _ ho
    have less : (front ++ back).Sublist k.waiters := erased ▸ List.eraseP_sublist
    rw [erased]
    refine (replace_proceeds (o := .channel { k with waiters := front ++ back }) typed ho rfl
      ⟨buffer, fun q hq => waiters q (less.subset hq)⟩ Tag.noConfusion).bind fun _ s' ⟨proceeds, wiring⟩ => ?_
    have only (x : Ref) : s'.wiring x = { s.wiring x with waiters := if x = d then front ++ back else s.waiters x } := by
      rw [wiring]
      split
      next e =>
        subst e
        rw [Store.wiring_of ho]
        rfl
      next => rfl
    have lists (x : Ref) : s'.waiters x = if x = d then front ++ back else s.waiters x := by rw [Store.waiters, only]
    refine .inr ⟨q, r, rest, rfl, rfl, hr, direction, proceeds, fun x => ?_, fun x => ?_, fun x => ?_, fun x => ?_, fun x => ?_, fun x => ?_⟩
    · rw [Store.waits, only]; rfl
    · rw [Store.blockedAt, only]; rfl
    · rw [lists]
      split
      next e => exact e ▸ Store.waiters_of ho ▸ less
      next => exact .refl _
    · rw [lists]
      split
      next e =>
        subst e
        simp [Store.waiters_of ho, split, owned]
      next => rfl
    · rw [Store.buffer, only]; rfl
    · rw [Store.queue, only]; rfl

/-- The context behind a request that has been taken off its waiting list goes on. -/
theorem complete_taken {value : Option Ref} (linked : Linked s) (hq : q ∈ s.waiters d) (hr : s.IsRequest q r)
    (taken : Taken s r.context b s₁) (known : ∀ v, value = some v → s₁.Known v) :
    Safe (Admits F) (complete q value) s₁ fun c s' => c = r.context ∧ (s.blockedAt c).isSome ∧ Resumed s c b s' := by
  obtain ⟨r', hr', _, registered, waiting, _⟩ := linked.wired.waiter d q hq
  cases hr.unique hr'
  have alone (g : Ref) : r.context ∉ s₁.queue g := taken.queue g ▸ linked.wired.alone hq hr g
  have covered := (linked.wired.covered r.context).transfer linked.typed taken.proceeds (taken.waits _) taken.sub
  refine (complete_safe taken.proceeds.typed (hr.grow taken.proceeds.grows) (taken.proceeds.contexts ▸ registered) covered alone
    known).weaken ?_
  rintro c s' ⟨rfl, resumed⟩
  refine ⟨rfl, waiting.blocked, ?_⟩
  have after := resumed.after linked.typed taken.proceeds (fun x _ => taken.waits x) (fun x _ => taken.blockedAt x) taken.sub
    taken.waiters fun x => by rw [taken.queue]
  exact { after with buffer := fun x => (after.buffer x).trans (taken.buffer x) }

/-! ### Sending and receiving -/

/-- A request that waits, and is directed so. -/
theorem Store.mem_waiting (hq : q ∈ s.waiters d) (hr : s.IsRequest q r) : q ∈ s.waiting d r.direction :=
  List.mem_filter.mpr ⟨hq, by rw [hr.direction?, beq_self_eq_true]⟩

theorem Store.waiter_of_waiting {rest : List Ref} (head : s.waiting d t = q :: rest) : q ∈ s.waiters d :=
  List.mem_of_mem_filter (p := fun q => s.direction? q == some t) (by rw [← Store.waiting, head]; exact List.mem_cons_self)

/-- Nothing waits on a channel that could serve it. -/
theorem Linked.clear (linked : Linked s) (send : s.waiting d .send ≠ [] → False)
    (recv : s.waiting d .recv ≠ [] → False) : s.waiters d = [] := by
  refine List.eq_nil_iff_forall_not_mem.mpr fun q hq => ?_
  obtain ⟨r, hr⟩ := Store.waiter_isRequest linked.typed hq
  have waits := Store.mem_waiting hq hr
  cases direction : r.direction with
  | send => exact send (direction ▸ List.ne_nil_of_mem waits)
  | recv => exact recv (direction ▸ List.ne_nil_of_mem waits)

/-- Receivers wait on an empty buffer. -/
theorem Linked.empty (linked : Linked s) (ho : s.objects[d]? = some (.channel k)) (some : s.waiting d .recv ≠ []) : k.buffer = [] := by
  obtain ⟨q, hq⟩ := List.exists_mem_of_ne_nil _ some
  obtain ⟨waits, direction⟩ := List.mem_filter.mp hq
  obtain ⟨r, hr⟩ := Store.waiter_isRequest linked.typed waits
  rw [hr.direction?, beq_iff_eq, Option.some.injEq] at direction
  exact Store.buffer_of ho ▸ linked.ducts.empty d q waits r hr direction

/-- Senders wait on a full buffer. -/
theorem Linked.full (linked : Linked s) (ho : s.objects[d]? = some (.channel k)) (some : s.waiting d .send ≠ []) :
    k.buffer.length = k.capacity := by
  obtain ⟨q, hq⟩ := List.exists_mem_of_ne_nil _ some
  obtain ⟨waits, direction⟩ := List.mem_filter.mp hq
  obtain ⟨r, hr⟩ := Store.waiter_isRequest linked.typed waits
  rw [hr.direction?, beq_iff_eq, Option.some.injEq] at direction
  exact Store.buffer_of ho ▸ linked.ducts.full d _ (Store.capacity_of ho) q waits r hr direction

/-- All of the events are about the channel. -/
def On (d : Ref) (events : List Event) : Prop := ∀ x ∈ events, x.channel? = some d

/-- A value has been sent, or nothing has happened because the buffer is full and no receiver waits. -/
def Sent (s : Store) (d : Ref) (s' : Store) : SendOutcome × List Event → Prop
  | (.delivered c, events) => Exchanged s [c] events s' ∧ On d events
  | (.buffered, events) => Exchanged s [] events s' ∧ On d events
  | (.wouldBlock, _) => s' = s ∧ s.waiting d .recv = [] ∧ ∀ n, s.Capacity d n → (s.buffer d).length = n

/-- A value has been received, or nothing has happened because the buffer is empty and no sender waits. -/
def Received (s : Store) (d : Ref) (s' : Store) : RecvOutcome × List Event → Prop
  | (.received v woken, events) => s'.Known v ∧ Exchanged s woken.toList events s' ∧ On d events
  | (.wouldBlock, _) => s' = s ∧ s.waiting d .send = [] ∧ s.buffer d = []

theorem trySend_safe (linked : Linked s) (isChannel : s.IsTag d .channel) (known : s.Known v) :
    Safe (Admits F) (trySend d v) s fun p s' => Sent s d s' p := by
  obtain ⟨k, ho⟩ := linked.typed.canonical isChannel
  refine (takeWaiter_safe linked.typed ho .recv).bind ?_
  rintro found s₁ (⟨rfl, rfl, clear⟩ | ⟨q, r, rest, rfl, head, hr, direction, taken⟩)
  · refine (tryPush_safe linked.typed ho known).bind ?_
    rintro added s' (⟨rfl, rfl, full⟩ | ⟨rfl, free, moved⟩)
    · refine ⟨rfl, clear, fun n capacity => ?_⟩
      rw [Store.buffer_of ho, full]
      exact (Store.capacity_of ho).unique capacity
    · have room := linked.ducts.room d _ (Store.capacity_of ho)
      rw [Store.buffer_of ho] at room
      have none := linked.clear (fun some => free (linked.full ho some)) fun some => some clear
      refine ⟨.moved linked moved none isChannel.known (fun n capacity => ?_) (.moved linked.typed moved (fun x => ?_) ?_ ?_), ?_⟩
      · rw [← (Store.capacity_of ho).unique capacity, List.length_append, List.length_singleton]
        exact Nat.lt_of_le_of_ne room free
      · by_cases e : x = d
        · subst e
          simp [Event.sends, Event.receives, Store.buffer_of ho]
        · simp [Event.sends, Event.receives, e, Ne.symm e]
      · simp [Event.parks]
      · simp [Event.completions]
      · simp [On, Event.channel?]
  · have waits := Store.waiter_of_waiting head
    refine (complete_taken linked waits hr taken fun x e => Option.some.inj e ▸ known.grow taken.proceeds.grows).bind ?_
    rintro c s' ⟨rfl, blocked, resumed⟩
    have empty := linked.empty ho (head ▸ List.cons_ne_nil _ _)
    refine ⟨.resumed linked resumed blocked (fun _ => rfl) (.served linked.typed resumed head hr (fun x => ?_) ?_ ?_), ?_⟩
    · by_cases e : x = d
      · subst e
        simp [Event.sends, Event.receives, Store.buffer_of ho, empty]
      · simp [Event.sends, Event.receives, Ne.symm e]
    · simp [Event.parks]
    · intro x u
      by_cases e : d = x ∧ .recv = u <;> simp [Event.completions, e]
    · simp [On, Event.channel?]

/-- A waiting sender goes on; its value is `w`, and `v` is the value received. -/
theorem serveSender {rest : List Ref} {w : Ref} {events : List Event} (linked : Linked s) (head : s.waiting d .send = q :: rest)
    (hr : s.IsRequest q r) (taken : Taken s r.context b s₁) (lengths : ∀ x, (b x).length = (s.buffer x).length) (known : s.Known v)
    (noted : events = [.received d v, .completed d .send q, .sent d w] ∨ events = [.completed d .send q, .sent d w, .received d v])
    (here : s.buffer d ++ [w] = v :: b d) (others : ∀ x, x ≠ d → b x = s.buffer x) :
    Safe (Admits F) (do
      let woken ← withRoots [v] (complete q none)
      return (RecvOutcome.received v (some woken), events)) s₁ fun p s' => Received s d s' p := by
  have waits := Store.waiter_of_waiting head
  refine Safe.bind (Q := fun c s' => (s.blockedAt c).isSome ∧ c = r.context ∧ Resumed s c b s') (Safe.withRoots ?_) ?_
  · refine (complete_taken linked waits hr taken.reroot fun _ no => by cases no).weaken ?_
    exact fun c s' ⟨same, blocked, resumed⟩ => ⟨blocked, same, resumed.reroot⟩
  · rintro c s' ⟨blocked, rfl, resumed⟩
    refine ⟨known.grow resumed.proceeds.grows, .resumed linked resumed blocked lengths
      (.served linked.typed resumed head hr (fun x => ?_) ?_ ?_), ?_⟩
    · by_cases e : d = x
      · subst e
        rcases noted with rfl | rfl <;> simpa [Event.sends, Event.receives] using here
      · rcases noted with rfl | rfl <;> simp [Event.sends, Event.receives, e, others x (Ne.symm e)]
    · rcases noted with rfl | rfl <;> simp [Event.parks]
    · intro x u
      rcases noted with rfl | rfl <;> by_cases e : d = x ∧ .send = u <;> simp [Event.completions, e]
    · rcases noted with rfl | rfl <;> simp [On, Event.channel?]

theorem tryRecv_safe (linked : Linked s) (isChannel : s.IsTag d .channel) :
    Safe (Admits F) (tryRecv d) s fun p s' => Received s d s' p := by
  obtain ⟨k, ho⟩ := linked.typed.canonical isChannel
  refine (popBuffer_safe linked.typed ho).bind ?_
  rintro popped s₁ (⟨rfl, rfl, empty⟩ | ⟨v, values, rfl, buffered, known, moved⟩)
  · refine (takeWaiter_safe linked.typed ho .send).bind ?_
    rintro found s₂ (⟨rfl, rfl, clear⟩ | ⟨q, r, rest, rfl, head, hr, direction, taken⟩)
    · exact ⟨rfl, clear, Store.buffer_of ho ▸ empty⟩
    · refine (Observes.request (hr.grow taken.proceeds.grows)).bind ?_
      rintro r rfl
      obtain ⟨_, _, value, _⟩ := linked.typed.good q _ hr
      refine serveSender linked head hr taken (fun _ => rfl) value (.inr rfl) ?_ fun _ _ => rfl
      simp [Store.buffer_of ho, empty]
  · have typed₁ := moved.proceeds.typed
    obtain ⟨k₁, ho₁⟩ := typed₁.canonical (isChannel.grow moved.proceeds.grows)
    have same (t : Direction) : s₁.waiting d t = s.waiting d t := by
      rw [Store.waiting_of_subset linked.typed moved.proceeds.grows fun q hq => moved.waiters d ▸ hq, moved.waiters]
      rfl
    refine (takeWaiter_safe typed₁ ho₁ .send).bind ?_
    rintro found s₂ (⟨rfl, rfl, clear⟩ | ⟨q, r, rest, rfl, head, hr, direction, taken⟩)
    · have none := linked.clear (fun some => some (same .send ▸ clear)) fun some =>
        absurd (linked.empty ho some) (buffered ▸ List.cons_ne_nil _ _)
      have room := linked.ducts.room d _ (Store.capacity_of ho)
      rw [Store.buffer_of ho, buffered] at room
      refine ⟨known.grow moved.proceeds.grows, .moved linked moved none isChannel.known (fun n capacity => ?_)
        (.moved linked.typed moved (fun x => ?_) ?_ ?_), ?_⟩
      · rw [← (Store.capacity_of ho).unique capacity]
        exact Nat.le_of_succ_le room
      · by_cases e : x = d
        · subst e
          simp [Event.sends, Event.receives, Store.buffer_of ho, buffered]
        · simp [Event.sends, Event.receives, e, Ne.symm e]
      · simp [Event.parks]
      · simp [Event.completions]
      · simp [On, Event.channel?]
    · have waits : q ∈ s.waiters d := Store.waiter_of_waiting (same .send ▸ head)
      have full := linked.full ho (same .send ▸ head ▸ List.cons_ne_nil _ _)
      rw [buffered] at full
      refine (Observes.request (hr.grow taken.proceeds.grows)).bind ?_
      rintro r rfl
      obtain ⟨_, _, value, _⟩ := typed₁.good q _ hr
      have grows₂ := moved.proceeds.grows.trans taken.proceeds.grows
      obtain ⟨k₂, ho₂⟩ := taken.proceeds.typed.canonical (isChannel.grow grows₂)
      have kept : k₂.buffer = values := by rw [← Store.buffer_of ho₂, taken.buffer, moved.buffer, if_pos rfl]
      have capacity : k₂.capacity = k.capacity :=
        (Store.capacity_of ho₂).unique ((Store.capacity_of ho).grow grows₂)
      refine (tryPush_safe taken.proceeds.typed ho₂ (value.grow taken.proceeds.grows)).bind ?_
      rintro added s₃ (⟨_, _, again⟩ | ⟨rfl, _, pushed⟩)
      · -- the place of the value that was taken is free
        rw [kept, capacity, ← full] at again
        exact absurd again (Nat.ne_of_lt (Nat.lt_succ_self _))
      · rw [kept] at pushed
        have all := (taken.after linked.typed moved).moved pushed
        refine serveSender linked (same .send ▸ head) (hr.shrink_waiter linked.typed waits moved.proceeds.grows) all (fun x => ?_) known
          (.inl rfl) ?_ fun x ne => ?_
        · split
          next e =>
            subst e
            simp [Store.buffer_of ho, buffered]
          next ne => rw [moved.buffer, if_neg ne]
        · simp [Store.buffer_of ho, buffered]
        · rw [if_neg ne, moved.buffer, if_neg ne]

end FiberMachine.Ideal
