import FiberMachine.Proofs.Refinement.Channels

/-!
# Sending, receiving and waiting

Completing a request, sending, receiving, parking and the operations of wait groups follow the ideal
machine, and so do their notes. These are the operations that reach into contexts other than the running one.
-/

namespace FiberMachine

open Ideal

variable {w w' : World} {s : Store} {h h' : Heap} {r v c : Ref} {a b i n : Nat} {o : Obj} {d e : Duct} {q : Request}

theorem Held.contexts (ha : w.home c a) (known : c ∈ s.contexts) : Held w s c a := ⟨ha, List.mem_append_left _ known⟩

theorem Held.temporaries (ha : w.home c a) (known : c ∈ s.temporaries) : Held w s c a :=
  ⟨ha, List.mem_append_right _ known⟩

theorem Held.rooting {xs : List Ref} (held : Held w s c a) : Held w (s.rooting xs) c a := by
  refine ⟨held.home, ?_⟩
  rcases List.mem_append.mp held.root with hc | hc
  · exact List.mem_append_left _ hc
  · exact List.mem_append_right _ (List.mem_append_left _ hc)

theorem Held.rooted {xs : List Ref} (ha : w.home c a) (hc : c ∈ xs) : Held w (s.rooting xs) c a :=
  ⟨ha, List.mem_append_right _ (List.mem_append_right _ hc)⟩

/-! ### Notes -/

/-- The object is at `a`, or was when it was last there. -/
def World.marks (w : World) (r : Ref) (a : Nat) : Prop := r < w.size ∧ w.part r 0 = a

theorem Rep.marks (rep : Rep w s h) (ha : w.home r a) : w.marks r a :=
  ⟨Nat.lt_of_lt_of_eq (rep.lt_length ha) rep.size.symm, rep.start r a ha⟩

theorem World.marks.keep {s' : Store} (marks : w.marks r a) (rep : Rep w s h) (rep' : Rep w' s' h') (abides : Abides w s w' s') :
    w'.marks r a := by
  have known : r < s.objects.length := Nat.lt_of_lt_of_eq marks.1 rep.size
  exact ⟨Nat.lt_of_lt_of_eq (Nat.lt_of_lt_of_le known abides.length) rep'.size.symm, (abides.spot r known).trans marks.2⟩

/-- The same event with names and with addresses. -/
inductive Event.Same (R : Ref → Nat → Prop) : Event → Event → Prop where
  | made {c a : Nat} (channel : R c a) : Same R (.made c) (.made a)
  | sent {c a v b : Nat} (channel : R c a) (value : R v b) : Same R (.sent c v) (.sent a b)
  | received {c a v b : Nat} (channel : R c a) (value : R v b) : Same R (.received c v) (.received a b)
  | parked {c a r b : Nat} (channel : R c a) (d : Direction) (request : R r b) : Same R (.parked c d r) (.parked a d b)
  | completed {c a r b : Nat} (channel : R c a) (d : Direction) (request : R r b) : Same R (.completed c d r) (.completed a d b)
  | stranded {c a : Nat} (context : R c a) : Same R (.stranded c) (.stranded a)

theorem Event.Same.weaken {R S : Ref → Nat → Prop} {x y : Event} (same : Event.Same R x y) (more : ∀ r a, R r a → S r a) :
    Event.Same S x y := by
  cases same with
  | made channel => exact .made (more _ _ channel)
  | sent channel value => exact .sent (more _ _ channel) (more _ _ value)
  | received channel value => exact .received (more _ _ channel) (more _ _ value)
  | parked channel d request => exact .parked (more _ _ channel) d (more _ _ request)
  | completed channel d request => exact .completed (more _ _ channel) d (more _ _ request)
  | stranded context => exact .stranded (more _ _ context)

/-- The same notes with names and with addresses. -/
def World.notes (w : World) : List Event → List Event → Prop := List.Forall₂ (Event.Same w.marks)

theorem World.notes.keep {s' : Store} {xs ys : List Event} (notes : w.notes xs ys) (rep : Rep w s h) (rep' : Rep w' s' h')
    (abides : Abides w s w' s') : w'.notes xs ys :=
  List.Forall₂.imp (fun _ _ same => same.weaken fun _ _ marks => marks.keep rep rep' abides) notes

/-- The answers are related, and the notes are the same. -/
def Noted {α β : Type} (Q : World → β → α → Prop) (w : World) (x : β × List Event) (y : α × List Event) : Prop :=
  Q w x.1 y.1 ∧ w.notes x.2 y.2

/-! ### Completing a request -/

theorem Tracks.deliver (rep : Rep w s h) (hr : Held w s r a) (hc : Held w s c n) (hv : w.home v b) :
    Tracks w s h (Channel.deliver a n b) (Ideal.deliver r c v) fun _ _ _ => True := by
  refine .read_bind (.frameOf rep hr.home) fun q f hf => ?_
  by_cases stack : q.frame = unassigned
  · rw [if_pos stack, if_pos ((rep.eq_unassigned hf).mpr stack)]
    exact .pushOperand rep hc.home hv
  · rw [if_neg stack, if_neg fun e => stack ((rep.eq_unassigned hf).mp e)]
    refine (Tracks.setItem rep hf 0 hv).bind ?_
    rintro _ s' _ h' _ rep' keeps rfl
    exact .read_bind (.environmentOf rep' hr.home) fun q e he => .enterEnvironment rep' (hc.keep keeps) he

theorem Tracks.complete {value : Option Ref} {value' : Option Nat} (rep : Rep w s h) (hr : w.home r a)
    (hv : Option.Rel w.home value value') :
    Tracks w s h (Channel.complete a value') (Ideal.complete r value) fun w' x y => w'.home x y := by
  have given : w.home (value.getD unassigned) (value'.getD unassigned) := by
    cases hv with
    | none => exact rep.nil
    | some hv => exact hv
  refine (Tracks.withRoots rep (.cons hr (.cons given .nil)) fun rep => ?_).weaken fun _ _ _ q => q.1
  refine .read_bind (.contextOf rep hr) fun q m hc => .expectRegistered fun known => ?_
  have held : Held w (s.rooting [r, value.getD unassigned]) r a := .rooted hr (by simp)
  have context := Held.contexts hc known
  have rest (w' : World) (s' : Store) (h' : Heap) (rep' : Rep w' s' h') (hr : w'.home r a) (hc : w'.home q.context m) :
      Tracks w' s' h' (do
          Context.setPc m (← Request.resumeOf a)
          Channel.cancelWaits m
          Context.setBlocked m false
          return m : HeapM Nat) (do
          Ideal.setPc q.context (← Ideal.request r).resume
          Ideal.cancelWaits q.context
          Ideal.setBlocked q.context false
          return q.context) fun w' x y => w'.home x y := by
    refine .read_bind (.resumeOf rep' hr) ?_
    rintro p _ rfl
    refine (Tracks.setPc rep' hc p.resume).bind ?_
    rintro _ s₁ _ h₁ _ rep₁ _ rfl
    refine (Tracks.cancelWaits rep₁ hc).bind ?_
    rintro _ s₂ _ h₂ _ rep₂ _ rfl
    refine (Tracks.setBlocked rep₂ hc false).bind ?_
    rintro _ s₃ _ h₃ _ rep₃ _ rfl
    exact .pure rep₃ hc
  cases hv with
  | none => exact rest w _ _ rep hr hc
  | some hv =>
    refine (Tracks.deliver rep held context hv).bind ?_
    rintro _ s' _ h' w' rep' keeps _
    exact rest w' s' h' rep' (held.keep keeps).home (context.keep keeps).home

/-! ### Sending and receiving -/

/-- The same outcome with names and with addresses. -/
inductive Sent (w : World) : SendOutcome → SendOutcome → Prop where
  | delivered {x y} (home : w.home x y) : Sent w (.delivered x) (.delivered y)
  | buffered : Sent w .buffered .buffered
  | wouldBlock : Sent w .wouldBlock .wouldBlock

/-- The same outcome with names and with addresses. -/
inductive Received (w : World) : RecvOutcome → RecvOutcome → Prop where
  | received {v b x y} (value : w.home v b) (woken : Option.Rel w.home x y) : Received w (.received v x) (.received b y)
  | wouldBlock : Received w .wouldBlock .wouldBlock

theorem Rep.ductOrWild (rep : Rep w s h) (ha : w.home c a) :
    (∃ d, w.HasDuct h c a d) ∨ Ideal.duct c s = .error .wild s := by
  obtain ⟨o, ho, has⟩ := rep.object c a ha
  unfold Ideal.duct Ideal.look
  rw [ho]
  cases o with
  | channel d => exact .inl ⟨d, has⟩
  | _ => exact .inr rfl

theorem Tracks.trySend (rep : Rep w s h) (ha : w.home c a) (hv : w.home v b) :
    Tracks w s h (Channel.trySendNoting a b) (Ideal.trySend c v) (Noted Sent) := by
  refine (Tracks.takeWaiter rep ha .recv).bind ?_
  rintro x s₁ y h₁ _ rep₁ _ ⟨rfl, taken⟩
  cases taken with
  | some hr =>
    refine (Tracks.complete rep₁ hr (.some hv)).bind ?_
    rintro x s₂ y h₂ w' rep₂ keeps₂ woken
    have channel := (rep₁.marks ha).keep rep₁ rep₂ keeps₂.abides
    have value := (rep₁.marks hv).keep rep₁ rep₂ keeps₂.abides
    have request := (rep₁.marks hr).keep rep₁ rep₂ keeps₂.abides
    exact .pure rep₂ ⟨.delivered woken, .cons (.completed channel _ request) (.cons (.sent channel value)
      (.cons (.received channel value) .nil))⟩
  | none =>
    rcases rep₁.ductOrWild ha with ⟨d, has⟩ | wild
    · refine .reading (rep₁.bufferAt has) ((Tracks.tryPush rep₁ ha hv).bind ?_)
      rintro pushed s₂ _ h₂ _ rep₂ _ ⟨rfl, rfl⟩
      cases pushed with
      | true => exact .pure rep₂ ⟨.buffered, .cons (.sent (rep₂.marks ha) (rep₂.marks hv)) .nil⟩
      | false => exact .pure rep₂ ⟨.wouldBlock, .nil⟩
    · refine .wild (u := s₁) ?_
      simp only [Ideal.tryPush, run_bind, wild]

/-- A sender that waits goes on. -/
theorem Tracks.release {events events' : List Event} (rep : Rep w s h) (hr : w.home r a) (hv : w.home v b)
    (notes : w.notes events events') :
    Tracks w s h (do
        let woken ← Heap.withRoots [b] (Channel.complete a none)
        return (.received b (some woken), events') : HeapM (RecvOutcome × List Event)) (do
        let woken ← Ideal.withRoots [v] (Ideal.complete r none)
        return (.received v (some woken), events)) (Noted Received) := by
  refine (Tracks.withRoots rep (.cons hv .nil) fun rep => .complete rep hr .none).bind ?_
  rintro x s' y h' w' rep' keeps ⟨woken, stays⟩
  exact .pure rep' ⟨.received (stays v (by simp) b hv) (.some woken), notes.keep rep rep' keeps.abides⟩

theorem Tracks.tryRecv (rep : Rep w s h) (ha : w.home c a) :
    Tracks w s h (Channel.tryRecvNoting a) (Ideal.tryRecv c) (Noted Received) := by
  rcases rep.ductOrWild ha with ⟨d, has⟩ | wild
  swap
  · refine .wild (u := s) ?_
    simp only [Ideal.tryRecv, Ideal.popBuffer, run_bind, wild]
  refine .reading (rep.bufferAt has) ((Tracks.popBuffer rep ha).bind ?_)
  rintro _ s₁ _ h₁ _ rep₁ _ ⟨rfl, popped⟩
  cases popped with
  | some hv =>
    refine (Tracks.takeWaiter rep₁ ha .send).bind ?_
    rintro _ s₂ _ h₂ _ rep₂ _ ⟨rfl, taken⟩
    cases taken with
    | none => exact .pure rep₂ ⟨.received hv .none, .cons (.received (rep₂.marks ha) (rep₂.marks hv)) .nil⟩
    | some hr =>
      refine .read_bind (.valueOf rep₂ hr) fun q p hp => ?_
      refine (Tracks.tryPush rep₂ ha hp).bind ?_
      rintro _ s₃ _ h₃ _ rep₃ _ ⟨rfl, rfl⟩
      have channel := rep₃.marks ha
      exact .release rep₃ hr hv (.cons (.received channel (rep₃.marks hv)) (.cons (.completed channel _ (rep₃.marks hr))
        (.cons (.sent channel (rep₃.marks hp)) .nil)))
  | none =>
    refine (Tracks.takeWaiter rep₁ ha .send).bind ?_
    rintro _ s₂ _ h₂ _ rep₂ _ ⟨rfl, taken⟩
    cases taken with
    | none => exact .pure rep₂ ⟨.wouldBlock, .nil⟩
    | some hr =>
      refine .read_bind (.valueOf rep₂ hr) fun q p hp => ?_
      have channel := rep₂.marks ha
      exact .release rep₂ hr hp (.cons (.completed channel _ (rep₂.marks hr)) (.cons (.sent channel (rep₂.marks hp))
        (.cons (.received channel (rep₂.marks hp)) .nil)))

/-! ### Parking -/

theorem Reads.opposes {xs : List Ref} {as : List Nat} (rep : Rep w s h) (hc : w.home c n) (direction : Direction)
    (homes : List.Forall₂ w.home xs as) :
    Reads s h (Channel.opposes n direction as) (Ideal.opposes c direction xs) Eq := by
  induction homes with
  | nil => exact .pure rfl
  | @cons x a xs as hx rest ih =>
    refine .look rep hx fun o q _ hq has => ?_
    cases o with
    | request _ =>
      cases hq
      have read : Request.contextOf a h = .ok (h.ref a Request.contextField) := rep.tidy.sound.readNat_eq has.is (by decide)
      have same := rep.eq_iff has.context hc
      by_cases other : q.direction = direction
      · simp only [other, ne_eq, not_true_eq_false, false_and, if_false]
        refine ih.congr ?_ rfl
        simp only [Channel.opposes, HeapReader.run_bind, rep.directionOf has, other, ne_eq, not_true_eq_false, if_false]
      · by_cases own : q.context = c
        · simp only [own, ne_eq, not_true_eq_false, and_false, if_false]
          refine ih.congr ?_ rfl
          simp only [Channel.opposes, HeapReader.run_bind, rep.directionOf has, other, ne_eq, not_false_eq_true, if_true,
            read, same.mpr own, not_true_eq_false, if_false]
        · simp only [other, own, ne_eq, not_false_eq_true, and_self, if_true]
          have differ : ¬h.ref a Request.contextField = n := fun e => own (same.mp e)
          refine .found (a := true) ?_ rfl rfl
          simp only [Channel.opposes, HeapReader.run_bind, rep.directionOf has, other, ne_eq, not_false_eq_true, if_true,
            read, differ, HeapReader.run_pure]
    | _ => cases hq

/-- A value is added to a linked list that belongs to a live object. -/
theorem Tracks.pushList {l j : Nat} {xs : List Ref} {m : HeapM Unit} {n : StoreM Unit} (rep : Rep w s h) (ha : w.home c a)
    (list : w.HasList h c j l xs) (la : h.Live [l, b] a) (ne : j ≠ 0) (hv : w.home v b)
    (eq : m h = LinkedList.pushBack l b h) (eq' : n s = .ok () (s.set c o))
    (has : ∀ w' h', World.Carries w h (h.Live [l, b]) w' → w.KeptBeside h h' (h.Live [l, b]) c j →
      w'.HasList h' c j l (xs ++ [v]) → w'.Has h' c a o) : Tracks w s h m n fun w' _ _ => Stays w h [l, b] w' := by
  obtain ⟨ns, as, is, own, own', homes, start⟩ := list
  have good : ∀ x ∈ [l, b], h.Allocated x := by simp [rep.allocated _ _ _ own, rep.home_allocated hv]
  have sv : h.Survives (h.Live [l, b]) := .live rep.tidy good
  have ll : h.Live [l, b] l := .extra (by simp)
  have part : ∀ b, b = l ∨ b ∈ ns → w.owns c j b := by
    rintro b (rfl | hb)
    · exact own
    · exact own' b hb
  refine .change (ρ := [l, b]) (y := ()) (o := o) rep good ha la eq' part ne ?_
  rcases is.pushBack rep.tidy (rep.home_allocated hv) with ⟨k, h', run⟩ | ⟨h', m, run, e, is'⟩
  · exact .inl ⟨k, h', eq.trans run⟩
  · right
    refine ⟨(), h', [m], eq.trans run, e, ?_, fun _ stays => stays⟩
    have carries : World.Carries w h (h.Live [l, b]) (w.evolve (h.Live [l, b]) c ([m].map (Prod.mk j)) (w.part c)) :=
      .evolve rep.tidy sv fun _ _ => rfl
    refine has _ h' carries (rep.keptBeside e part) ⟨ns ++ [m], as ++ [b], is', ?_, fun n hn => ?_, ?_, ?_⟩
    · exact World.owns_evolve own ll ha la
    · rcases List.mem_append.mp hn with hn | hn
      · exact World.owns_evolve (own' n hn) (is.survives rep.tidy sv ll n hn) ha la
      · cases List.mem_singleton.mp hn
        exact World.owns_evolve_new (by simp)
    · refine List.rel_append (carries.homes homes fun x hx => is.item_survives rep.tidy sv ll hx) (.cons ?_ .nil)
      exact carries.home _ _ hv (.extra (by simp))
    · rw [World.part_evolve]
      exact start

theorem Rep.fiberOrWild (rep : Rep w s h) (ha : w.home c a) :
    (∃ f, w.HasFiber h c a f) ∨ s.objects[c]?.bind Obj.fiber? = none := by
  obtain ⟨o, ho, has⟩ := rep.object c a ha
  rw [ho]
  cases o with
  | context f => exact .inl ⟨f, has⟩
  | _ => exact .inr rfl

theorem Tracks.pushWait (rep : Rep w s h) (hc : Held w s c a) (hv : w.home v b) :
    Tracks w s h (LinkedList.pushBack (w.part c 3) b)
      (Ideal.update c fun f => { f with waits := f.waits ++ [v] }) fun _ _ _ => True := by
  refine .fiber rep hc.home fun f _ has => ?_
  have la {rs : List Nat} : h.Live rs a := .root (rep.root hc.home hc.root)
  obtain ⟨_, _, _, _, _, _, start⟩ := has.waits
  refine (Tracks.pushList (j := 3) (o := .context { f with waits := f.waits ++ [v] }) rep hc.home (start ▸ has.waits) la
    (by decide) hv rfl rfl fun _ _ carries kept list => ?_).weaken fun _ _ _ _ => trivial
  exact has.withWaits hc.home carries la kept (start ▸ list)

theorem Tracks.park (rep : Rep w s h) (hr : w.home r a) :
    Tracks w s h (Channel.parkNoting a) (Ideal.park r) (Noted fun _ _ _ => True) := by
  refine .look rep hr fun o q _ hq hasq => ?_
  cases o with
  | request _ =>
    cases hq
    have sound := rep.tidy.sound
    have context : Request.contextOf a h = .ok (h.ref a Request.contextField) := sound.readNat_eq hasq.is (by decide)
    have channel : Request.channelOf a h = .ok (h.ref a Request.channelField) := sound.readNat_eq hasq.is (by decide)
    refine .duct rep hasq.channel fun d _ has => ?_
    refine .reading channel (.reading context (.reading (rep.directionOf hasq) (.reading (rep.waitersAt has) ?_)))
    obtain ⟨ns, as, is, _, _, homes, start⟩ := has.waiters
    refine .reading (start ▸ is.values_eq rep.tidy) ?_
    refine .read_bind (.opposes rep hasq.context q.direction homes) ?_
    rintro opposed _ rfl
    cases opposed with
    | true => exact .rejects rfl
    | false =>
      simp only [Bool.false_eq_true, if_false]
      refine .expectRegistered fun known => ?_
      have la : h.Live [w.part q.channel 2, a] (h.ref a Request.channelField) :=
        .child (.extra (by simp)) (rep.tidy.child_field hasq.is (π := [0, 1, 4, 5, 6]) rfl (by decide))
      refine (Tracks.pushList (j := 2) (o := .channel { d with waiters := d.waiters ++ [r] }) (b := a) rep hasq.channel
        (start ▸ has.waiters) la (by decide) hr rfl rfl fun _ _ carries kept list =>
          has.withWaiters hasq.channel carries la kept (start ▸ list)).bind ?_
      rintro _ s₁ _ h₁ w₁ rep₁ keeps stays
      have hr₁ := stays _ _ hr (.extra (by simp))
      have context₁ := (Held.contexts hasq.context known).keep keeps
      rcases rep₁.fiberOrWild context₁.home with ⟨f, hasf⟩ | wild
      · refine .reading (rep₁.waitsAt hasf) ?_
        refine (Tracks.withRoots rep₁ (.cons hr₁ .nil) fun rep => .pushWait rep context₁.rooting hr₁).bind ?_
        intro _ s₂ _ h₂ w₂ rep₂ keeps₂ _
        have marks {x : Ref} {y : Nat} (home : w.home x y) := ((rep.marks home).keep rep rep₁ keeps.abides).keep rep₁ rep₂ keeps₂.abides
        exact .pure rep₂ ⟨trivial, .cons (.parked (marks hasq.channel) _ (marks hr)) .nil⟩
      · refine .wild (u := s₁.rooting [r]) ?_
        simp only [Ideal.withRoots, Ideal.update, Ideal.fiber, Ideal.look, run_bind, wild, Store.rooting]
  | _ => cases hq

/-! ### Wait groups -/

theorem Tracks.group {α β : Type} {m : HeapM α} {l : Word × List Ref → StoreM β} {Q : World → β → α → Prop}
    (rep : Rep w s h) (ha : w.home r a)
    (next : ∀ counter waiters, s.objects[r]? = some (.waitGroup counter waiters) →
      w.Has h r a (.waitGroup counter waiters) → Tracks w s h m (l (counter, waiters)) Q) :
    Tracks w s h m (Ideal.group r >>= l) Q := by
  refine .look rep ha fun o x ho hx has => ?_
  cases o with
  | waitGroup counter waiters =>
    cases hx
    exact next counter waiters ho has
  | _ => cases hx

theorem Rep.counterAt {counter : Word} {waiters : List Ref} (rep : Rep w s h)
    (has : w.Has h r a (.waitGroup counter waiters)) : WaitGroup.counter a h = .ok counter.toInt64 := by
  have read := rep.tidy.sound.read_eq has.1 (i := WaitGroup.counterField) (by decide)
  simp only [WaitGroup.counter, HeapReader.run_bind, read, has.2.1, HeapReader.run_pure]

theorem Rep.queueAt {counter : Word} {waiters : List Ref} (rep : Rep w s h)
    (has : w.Has h r a (.waitGroup counter waiters)) : WaitGroup.waiters a h = .ok (w.part r 1) := by
  obtain ⟨is, _, n, _, _, _, _, _, _, start⟩ := has
  rw [← start]
  exact rep.tidy.sound.readNat_eq is (by decide)

theorem Tracks.newGroup (rep : Rep w s h) : Tracks w s h WaitGroup.create Ideal.newGroup (Makes w h []) := by
  refine Tracks.make (ρ := []) (o := .waitGroup 0 []) rep (by simp) rfl ?_ fun w' a home stays => ⟨home, stays⟩
  rcases rep.tidy.createGroup with full | ⟨a, q, d, h', run, e, nodup, new⟩
  · exact .inl full
  right
  refine ⟨a, h', [(0, a), (1, q), (1, d)], fun k => if k = 0 then a else q, run, e, roles_of_nodup nodup, by simp, rfl, new.is, new.counter, 0,
    ?_⟩
  rw [new.waitersAt]
  refine ⟨d, [], new.waiters, World.owns_evolve_new (by simp), World.owns_evolve_new (by simp), .nil, ?_⟩
  rw [World.part_evolve]
  rfl

/-- The block of a wait group stays, and the queue behind it is another one. -/
theorem World.Has.withWaiters {counter : Word} {waiters xs : List Ref} {k : Nat}
    (has : w.Has h r a (.waitGroup counter waiters)) (main : Heap.Kept h h' a)
    (queue : w'.HasQueue h' r 1 (h.ref a WaitGroup.waitersField) k xs) : w'.Has h' r a (.waitGroup counter xs) := by
  obtain ⟨is, hc, _⟩ := has
  refine ⟨main.is is, (main.cell (Nat.lt_of_lt_of_le (by decide) is.room)).trans hc, k, ?_⟩
  rw [main.ref (Nat.lt_of_lt_of_le (by decide) is.room)]
  exact queue

theorem Tracks.releaseFrom (rep : Rep w s h) (ha : w.home r a) (n : Nat) :
    Tracks w s h (WaitGroup.releaseFrom (w.part r 1) n) (Ideal.releaseFrom r n) fun w' xs as =>
      w' = w ∧ List.Forall₂ w.home xs as := by
  induction n generalizing s h with
  | zero => exact .pure rep ⟨rfl, .nil⟩
  | succ n ih =>
    refine .group rep ha fun counter waiters _ has => ?_
    have main := has
    obtain ⟨is, hc, k, d, as, queue, own, own', homes, start⟩ := has
    have start' := start
    rw [start] at queue own
    cases waiters with
    | nil =>
      cases homes
      refine (Tracks.answer (a := []) (b := []) rep ⟨rfl, .nil⟩).congr ?_ rfl
      rw [WaitGroup.releaseFrom, run_bind, queue.pop_nil rep.tidy]
    | cons c rest =>
      cases homes with
      | cons hc homes =>
        obtain ⟨h', run, e, queue'⟩ := queue.pop rep.tidy
        have part : ∀ b, b = w.part r 1 ∨ b = d → w.owns r 1 b := by
          rintro b (rfl | rfl)
          · exact own
          · exact own'
        have popped : Tracks w s h (Queue.pop (w.part r 1)) (do
            replace r (.waitGroup counter rest)
            return some c) fun w' x y => w' = w ∧ Option.Rel w.home x y := by
          refine .mutate (o := .waitGroup counter rest) rep ha run rfl e part ?_ ⟨rfl, .some hc⟩
          refine main.withWaiters (k := k) (rep.keptBeside e part 0 a (by decide) ha (rep.home_allocated ha)) ?_
          rw [start']
          exact ⟨d, _, queue', own, own', homes, rfl⟩
        have later : Tracks w s h (WaitGroup.releaseFrom (w.part r 1) (n + 1)) (do
            let next ← (do
              replace r (.waitGroup counter rest)
              return some c : StoreM (Option Ref))
            next.elim (pure []) fun c => do
              Ideal.cancelWaits c
              Ideal.setBlocked c false
              return c :: (← Ideal.releaseFrom r n)) fun w' xs as => w' = w ∧ List.Forall₂ w.home xs as := by
          refine popped.bind ?_
          rintro x s₁ y h₁ _ rep₁ _ ⟨rfl, woken⟩
          cases woken with
          | none => exact .answer rep₁ ⟨rfl, .nil⟩
          | some hc =>
            refine (Tracks.cancelWaits rep₁ hc).bind ?_
            rintro _ s₂ _ h₂ _ rep₂ _ rfl
            refine (Tracks.setBlocked rep₂ hc false).bind ?_
            rintro _ s₃ _ h₃ _ rep₃ _ rfl
            refine (ih rep₃).bind ?_
            rintro xs s₄ as h₄ _ rep₄ _ ⟨rfl, homes⟩
            exact .answer rep₄ ⟨rfl, .cons hc homes⟩
        exact later.congr rfl rfl

theorem Tracks.addToGroup (rep : Rep w s h) (ha : w.home r a) (delta : Int64) :
    Tracks w s h (WaitGroup.add a delta) (Ideal.addToGroup r delta) fun w' xs as =>
      w' = w ∧ List.Forall₂ w.home xs as := by
  refine .group rep ha fun counter waiters _ has => .reading (rep.counterAt has) ?_
  by_cases negative : counter.toInt64.toInt + delta.toInt < 0
  · simp only [negative, if_true]
    exact .rejects rfl
  simp only [negative, if_false]
  by_cases large : Int64.maxValue.toInt < counter.toInt64.toInt + delta.toInt
  · simp only [large, if_true]
    exact Matches.fault
  simp only [large, if_false]
  generalize counter.toInt64.toInt + delta.toInt = next
  have counted : Tracks w s h (Heap.write a WaitGroup.counterField (UInt64.ofNat next.toNat))
      (replace r (.waitGroup (UInt64.ofNat next.toNat) waiters)) fun w' _ _ => w' = w := by
    obtain ⟨is, _, n, queue⟩ := has
    obtain ⟨h', run, e, is', cells⟩ := rep.tidy.write (w := UInt64.ofNat next.toNat) is (π := [1]) rfl
      (i := WaitGroup.counterField) (by decide) (fun no => absurd no (by decide))
    refine .mutate (k := 0) (o := .waitGroup (UInt64.ofNat next.toNat) waiters) (y := ()) rep ha run rfl e
      (fun b hb => hb ▸ ha) ⟨is', ?_, n, ?_⟩ rfl
    · rw [cells, if_pos rfl]
    · have same : h'.ref a WaitGroup.waitersField = h.ref a WaitGroup.waitersField := by
        rw [Heap.ref, cells, if_neg (by decide), Heap.ref]
      rw [same]
      refine (World.Carries.all rep.tidy).queue queue ha (rep.home_allocated ha) ?_ fun b own hb => ?_
      · exact (queue.elim fun _ q => q.elim fun _ q => rep.allocated _ _ _ q.2.1)
      · exact e.kept b hb fun eq => absurd (rep.owner r 1 r 0 b own (eq ▸ ha)).2 (by decide)
  refine counted.afterReplace fun _ h' rep' => ?_
  by_cases zero : next = 0
  · simp only [zero, if_true]
    subst zero
    have has' : w.Has h' r a (.waitGroup (UInt64.ofNat (0 : Int).toNat) waiters) :=
      rep'.has ha (List.getElem?_set_self (rep.lt_length ha))
    refine .reading (rep'.queueAt has') ?_
    obtain ⟨_, _, n, d, as, queue, own, own', homes, start⟩ := has'
    refine .reading (start ▸ queue.length_eq rep'.tidy) ?_
    have small : as.length * 8 < hostLimit := by
      have := queue.length_le
      have : n < 268435456 := queue.small rep'.tidy
      unfold hostLimit
      omega
    refine .reading (x := ()) ?_ ?_
    · simp only [Heap.expectListable, Heap.expectRoom, small, if_true]
      rfl
    · rw [← homes.length_eq]
      exact .releaseFrom rep' ha _
  · simp only [zero, if_false]
    exact .answer rep' ⟨rfl, .nil⟩

/-- A context is added to the queue of a protected wait group. -/
theorem Tracks.pushGroup {counter : Word} {waiters : List Ref} (rep : Rep w s h) (ha : Held w s r a) (hv : w.home v b)
    (has : w.Has h r a (.waitGroup counter waiters)) :
    Tracks w s h (Queue.push (w.part r 1) b) (replace r (.waitGroup counter (waiters ++ [v]))) fun _ _ _ => True := by
  have main := has
  obtain ⟨is, _, k, d, as, queue, own, own', homes, start⟩ := has
  have start' := start
  rw [start] at queue own
  have good : ∀ x ∈ [w.part r 1, b], h.Allocated x := by simp [queue.is.allocated, rep.home_allocated hv]
  have sv : h.Survives (h.Live [w.part r 1, b]) := .live rep.tidy good
  have la : h.Live [w.part r 1, b] a := .root (rep.root ha.home ha.root)
  have lq : h.Live [w.part r 1, b] (w.part r 1) := .extra (by simp)
  have ld := lq.child (queue.child rep.tidy)
  have part : ∀ b, b = w.part r 1 ∨ b = d → w.owns r 1 b := by
    rintro b (rfl | rfl)
    · exact own
    · exact own'
  refine .change (k := 1) (ρ := [w.part r 1, b]) (y := ()) (o := .waitGroup counter (waiters ++ [v])) rep good ha.home la rfl
    part (by decide) ?_
  rcases queue.push rep.tidy (rep.home_allocated hv) with full | ⟨h', d', n', N, run, e, queue', moved⟩
  · exact .inl full
  · right
    refine ⟨(), h', N, run, e, ?_, fun _ _ => trivial⟩
    have carries : World.Carries w h (h.Live [w.part r 1, b])
        (w.evolve (h.Live [w.part r 1, b]) r (N.map (Prod.mk 1)) (w.part r)) := .evolve rep.tidy sv fun _ _ => rfl
    refine main.withWaiters (k := n') (rep.keptBeside e part 0 a (by decide) ha.home la) ?_
    rw [start']
    refine ⟨d', as ++ [b], queue', World.owns_evolve own lq ha.home la, ?_, ?_, ?_⟩
    · rcases moved with ⟨rfl, rfl⟩ | rfl
      · exact World.owns_evolve own' ld ha.home la
      · exact World.owns_evolve_new (by simp)
    · refine List.rel_append (carries.homes homes fun x hx => ld.child (queue.item_child rep.tidy hx)) (.cons ?_ .nil)
      exact carries.home _ _ hv (.extra (by simp))
    · rw [World.part_evolve]

theorem Tracks.waitFor (rep : Rep w s h) (ha : w.home r a) (hc : w.home c n) :
    Tracks w s h (WaitGroup.wait a n) (Ideal.waitFor r c) fun _ x y => x = y := by
  refine .group rep ha fun counter waiters ho has => .reading (rep.counterAt has) ?_
  by_cases zero : counter.toInt64 = 0
  · simp only [zero, if_true]
    exact .answer rep rfl
  simp only [zero, if_false]
  refine .expectRegistered fun known => .reading (rep.queueAt has) ?_
  have homes : List.Forall₂ w.home [r, c] [a, n] := .cons ha (.cons hc .nil)
  have context := Held.contexts hc known
  refine (Tracks.withRoots (Q := fun _ _ _ => True) rep homes fun rep => ?_).bind ?_
  · have held : Held w (s.rooting [r, c]) r a := .rooted ha (by simp)
    have has' : w.Has (h.rooting [a, n]) r a (.waitGroup counter waiters) := rep.has ha ho
    refine (Tracks.pushGroup rep held hc has').bind ?_
    rintro _ s₁ _ h₁ w₁ rep₁ keeps _
    have context₁ := context.rooting.keep keeps
    rcases rep₁.fiberOrWild context₁.home with ⟨f, hasf⟩ | wild
    · exact .reading (rep₁.waitsAt hasf) (.pushWait rep₁ context₁ (held.keep keeps).home)
    · refine .wild (u := s₁) ?_
      simp only [Ideal.update, Ideal.fiber, Ideal.look, run_bind, wild]
  · rintro _ s₁ _ h₁ w₁ rep₁ keeps _
    refine (Tracks.setBlocked rep₁ (context.keep keeps).home true).bind ?_
    rintro _ s₂ _ h₂ _ rep₂ _ rfl
    exact .answer rep₂ rfl

end FiberMachine
