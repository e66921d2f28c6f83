import FiberMachine.Proofs.Refinement.Contexts

/-!
# Channels and requests

Taking and withdrawing requests, buffering values and completing requests follow the ideal machine. A list
of waiting requests and a ring of buffered values are parts of a channel, and the wait-list is a part of
its context.
-/

namespace FiberMachine

open Ideal

variable {w w' : World} {s : Store} {h h' : Heap} {r v c : Ref} {a b i n : Nat} {o : Obj} {d e : Duct} {q : Request}

/-! ### Requests -/

/-- The same request with names and with addresses. -/
structure Asks (w : World) (q p : Request) : Prop where
  context : w.home q.context p.context
  channel : w.home q.channel p.channel
  resume : q.resume = p.resume
  direction : q.direction = p.direction
  value : w.home q.value p.value
  frame : w.home q.frame p.frame
  environment : w.home q.environment p.environment

theorem Tracks.newRequest {p : Request} (rep : Rep w s h) (asks : Asks w q p) :
    Tracks w s h (Request.create p) (Ideal.newRequest q) fun w' r' a' => w'.home r' a' := by
  have hc := rep.home_allocated asks.context
  have hd := rep.home_allocated asks.channel
  have hv := rep.home_allocated asks.value
  have hf := rep.home_allocated asks.frame
  have he := rep.home_allocated asks.environment
  have small {x : Nat} (hx : h.Allocated x) := rep.tidy.sound.toNat_ofNat hx
  have good : ∀ x ∈ [p.context, p.channel, p.value, p.frame, p.environment], h.Allocated x := by
    simp [hc, hd, hv, hf, he]
  refine Tracks.weaken (.fields (ρ := [p.context, p.channel, p.value, p.frame, p.environment]) (t := .channelRequest)
    (n := 7) (π := [0, 1, 4, 5, 6])
    (ω := [(0, UInt64.ofNat p.context), (1, UInt64.ofNat p.channel), (2, UInt64.ofNat p.resume), (3, p.direction.word),
      (4, UInt64.ofNat p.value), (5, UInt64.ofNat p.frame), (6, UInt64.ofNat p.environment)]) rep rfl good
    (rep.tidy.allocateRooted good (Tag.fits_fields (π := [0, 1, 4, 5, 6]) rfl (by decide)))
    (by simp [small hc, small hd, small hv, small hf, small he]) ?_ fun w' x h' stays is cells => ?_) fun _ _ _ made => made.1
  · simp only [Request.create, Heap.writes, bind_assoc, pure_bind]
    rfl
  · have field (i : Nat) (hi : i < 7) {y : Nat} (word : Heap.overwrite (fun _ => 0)
        [(0, UInt64.ofNat p.context), (1, UInt64.ofNat p.channel), (2, UInt64.ofNat p.resume), (3, p.direction.word),
          (4, UInt64.ofNat p.value), (5, UInt64.ofNat p.frame), (6, UInt64.ofNat p.environment)] i = UInt64.ofNat y)
        (hy : h.Allocated y) : h'.ref x i = y := by
      rw [Heap.ref, cells i hi, word]
      exact small hy
    refine ⟨is, ?_, ?_, ?_, ?_, ?_, ?_, ?_⟩
    · rw [field Request.contextField (by decide) rfl hc]
      exact stays _ _ asks.context (.extra (by simp))
    · rw [field Request.channelField (by decide) rfl hd]
      exact stays _ _ asks.channel (.extra (by simp))
    · rw [Heap.ref, cells _ (by decide)]
      exact (toNat_wrap p.resume).trans (congrArg wrap asks.resume.symm)
    · rw [cells _ (by decide)]
      exact congrArg Direction.word asks.direction.symm
    · rw [field Request.valueField (by decide) rfl hv]
      exact stays _ _ asks.value (.extra (by simp))
    · rw [field Request.frameField (by decide) rfl hf]
      exact stays _ _ asks.frame (.extra (by simp))
    · rw [field Request.environmentField (by decide) rfl he]
      exact stays _ _ asks.environment (.extra (by simp))

section

variable {α : Type} {reader : HeapReader α}

theorem Reads.request {Q : Request → α → Prop} (rep : Rep w s h) (ha : w.home r a)
    (next : ∀ q, w.HasRequest h a q → ∃ y, reader h = .ok y ∧ Q q y) : Reads s h reader (Ideal.request r) Q := by
  refine .seen rep ha fun o x _ hx has => ?_
  cases o with
  | request _ =>
    cases hx
    exact next x has
  | _ => cases hx

theorem Reads.duct {Q : Duct → α → Prop} (rep : Rep w s h) (ha : w.home c a)
    (next : ∀ d, w.HasDuct h c a d → ∃ y, reader h = .ok y ∧ Q d y) : Reads s h reader (Ideal.duct c) Q := by
  refine .seen rep ha fun o x _ hx has => ?_
  cases o with
  | channel _ =>
    cases hx
    exact next x has
  | _ => cases hx

end

theorem Reads.contextOf (rep : Rep w s h) (ha : w.home r a) :
    Reads s h (Request.contextOf a) (Ideal.request r) fun q b => w.home q.context b :=
  .request rep ha fun _ has => ⟨_, rep.tidy.sound.readNat_eq has.is (by decide), has.context⟩

theorem Reads.channelOf (rep : Rep w s h) (ha : w.home r a) :
    Reads s h (Request.channelOf a) (Ideal.request r) fun q b => w.home q.channel b :=
  .request rep ha fun _ has => ⟨_, rep.tidy.sound.readNat_eq has.is (by decide), has.channel⟩

theorem Reads.resumeOf (rep : Rep w s h) (ha : w.home r a) :
    Reads s h (Request.resumeOf a) (Ideal.request r) fun q n => q.resume = n :=
  .request rep ha fun _ has => ⟨_, rep.tidy.sound.readNat_eq has.is (by decide), has.resume.symm⟩

theorem Reads.valueOf (rep : Rep w s h) (ha : w.home r a) :
    Reads s h (Request.valueOf a) (Ideal.request r) fun q b => w.home q.value b :=
  .request rep ha fun _ has => ⟨_, rep.tidy.sound.readNat_eq has.is (by decide), has.value⟩

theorem Reads.frameOf (rep : Rep w s h) (ha : w.home r a) :
    Reads s h (Request.frameOf a) (Ideal.request r) fun q b => w.home q.frame b :=
  .request rep ha fun _ has => ⟨_, rep.tidy.sound.readNat_eq has.is (by decide), has.frame⟩

theorem Reads.environmentOf (rep : Rep w s h) (ha : w.home r a) :
    Reads s h (Request.environmentOf a) (Ideal.request r) fun q b => w.home q.environment b :=
  .request rep ha fun _ has => ⟨_, rep.tidy.sound.readNat_eq has.is (by decide), has.environment⟩

theorem Rep.directionOf (rep : Rep w s h) (has : w.HasRequest h a q) : Request.directionOf a h = .ok q.direction := by
  have read := rep.tidy.sound.read_eq has.is (i := Request.directionField) (by decide)
  simp only [Request.directionOf, HeapReader.run_bind, read, has.direction, HeapReader.run_pure]
  cases q.direction <;> rfl

theorem Reads.directionOf (rep : Rep w s h) (ha : w.home r a) :
    Reads s h (Request.directionOf a) (Ideal.request r) fun q x => q.direction = x :=
  .request rep ha fun _ has => ⟨_, rep.directionOf has, rfl⟩

/-! ### Parts of a channel -/

namespace World

variable {L : Nat → Prop}

namespace HasDuct

theorem keep (has : w.HasDuct h r a d) (main : Heap.Kept h h' a) (capacity : e.capacity = d.capacity)
    (buffer : w'.HasQueue h' r 1 (h.ref a Channel.bufferField) e.capacity e.buffer)
    (waiters : w'.HasList h' r 2 (h.ref a Channel.waitersField) e.waiters) : w'.HasDuct h' r a e := by
  have same (i : Nat) (hi : i < 3) : h'.ref a i = h.ref a i := main.ref (Nat.lt_of_lt_of_le hi has.is.room)
  refine ⟨main.is has.is, ?_, ?_, ?_⟩
  · rw [same _ (by decide), capacity]
    exact has.capacity
  · rwa [same _ (by decide)]
  · rwa [same _ (by decide)]

theorem withBuffer (has : w.HasDuct h r a d) (hm : w.home r a) (carries : Carries w h L w') (la : L a)
    (kept : w.KeptBeside h h' L r 1) {xs : List Ref}
    (queue : w'.HasQueue h' r 1 (h.ref a Channel.bufferField) d.capacity xs) : w'.HasDuct h' r a { d with buffer := xs } := by
  obtain ⟨_, waiters⟩ := carries.ductParts has hm la kept
  exact has.keep (kept 0 a (by decide) hm la) rfl queue (waiters (by decide))

theorem withWaiters (has : w.HasDuct h r a d) (hm : w.home r a) (carries : Carries w h L w') (la : L a)
    (kept : w.KeptBeside h h' L r 2) {xs : List Ref} (list : w'.HasList h' r 2 (h.ref a Channel.waitersField) xs) :
    w'.HasDuct h' r a { d with waiters := xs } := by
  obtain ⟨buffer, _⟩ := carries.ductParts has hm la kept
  exact has.keep (kept 0 a (by decide) hm la) rfl (buffer (by decide)) list

end HasDuct

end World

theorem Tracks.duct {α β : Type} {m : HeapM α} {l : Duct → StoreM β} {Q : World → β → α → Prop} (rep : Rep w s h)
    (ha : w.home c a) (next : ∀ d, s.objects[c]? = some (.channel d) → w.HasDuct h c a d → Tracks w s h m (l d) Q) :
    Tracks w s h m (Ideal.duct c >>= l) Q := by
  refine .look rep ha fun o d ho hx has => ?_
  cases o with
  | channel _ =>
    cases hx
    exact next d ho has
  | _ => cases hx

theorem Rep.bufferAt (rep : Rep w s h) (has : w.HasDuct h c a d) : Channel.buffer a h = .ok (w.part c 1) := by
  obtain ⟨_, _, _, _, _, _, start⟩ := has.buffer
  rw [← start]
  exact rep.tidy.sound.readNat_eq has.is (by decide)

theorem Rep.waitersAt (rep : Rep w s h) (has : w.HasDuct h c a d) : Channel.waiters a h = .ok (w.part c 2) := by
  obtain ⟨_, _, _, _, _, _, start⟩ := has.waiters
  rw [← start]
  exact rep.tidy.sound.readNat_eq has.is (by decide)

theorem Tracks.newChannel (rep : Rep w s h) (n : Nat) :
    Tracks w s h (Channel.create n) (Ideal.newChannel n) (Makes w h []) := by
  refine Tracks.make (ρ := []) (o := .channel ⟨n, [], []⟩) rep (by simp) rfl ?_ fun w' a home stays => ⟨home, stays⟩
  rcases rep.tidy.createChannel n with full | ⟨a, q, d, l, h', run, e, nodup, new⟩
  · exact .inl full
  right
  refine ⟨a, h', [(0, a), (1, q), (1, d), (2, l)], fun k => if k = 0 then a else if k = 1 then q else l, run, e,
    roles_of_nodup nodup, by simp, rfl, ?_⟩
  generalize eq : World.evolve w _ _ _ _ = w'
  have owns (k b : Nat) (hb : (k, b) ∈ [(0, a), (1, q), (1, d), (2, l)]) : w'.owns s.objects.length k b := by
    rw [← eq]
    exact World.owns_evolve_new hb
  have part (k : Nat) : w'.part s.objects.length k = if k = 0 then a else if k = 1 then q else l := by
    rw [← eq, World.part_evolve]
  refine ⟨new.is, new.capacity, ?_, ?_⟩
  · rw [new.bufferAt]
    exact ⟨d, [], new.buffer, owns 1 q (by simp), owns 1 d (by simp), .nil, (part 1).symm⟩
  · rw [new.waitersAt]
    exact ⟨[], [], new.waiters, owns 2 l (by simp), fun n hn => absurd hn List.not_mem_nil, .nil, (part 2).symm⟩

/-! ### Lists in the heap -/

/-- Corresponding lists from which the first item that passes a test is taken. -/
theorem find_home {P : Ref → Nat → Prop} {xs : List Ref} {as : List Nat} {f : Ref → Bool} {g : Nat → Bool}
    (homes : List.Forall₂ P xs as) (agree : ∀ x a, x ∈ xs → P x a → f x = g a) :
    Option.Rel P (xs.find? f) (as.find? g) ∧ List.Forall₂ P (xs.eraseP f) (as.eraseP g) := by
  induction homes with
  | nil => exact ⟨.none, .nil⟩
  | @cons x a xs as hx rest ih =>
    obtain ⟨found, others⟩ := ih fun y b hy => agree y b (List.mem_cons_of_mem x hy)
    have same := agree x a List.mem_cons_self hx
    cases hf : f x with
    | true =>
      rw [List.find?_cons_of_pos hf, List.find?_cons_of_pos (same ▸ hf), List.eraseP_cons_of_pos hf,
        List.eraseP_cons_of_pos (same ▸ hf)]
      exact ⟨.some hx, rest⟩
    | false =>
      have ha : g a = false := same ▸ hf
      rw [List.find?_cons_of_neg (by simp [hf]), List.find?_cons_of_neg (by simp [ha]),
        List.eraseP_cons_of_neg (by simp [hf]), List.eraseP_cons_of_neg (by simp [ha])]
      exact ⟨found, .cons hx others⟩

theorem erase_home {xs : List Ref} {as : List Nat} (rep : Rep w s h) (homes : List.Forall₂ w.home xs as)
    (hr : w.home r a) : List.Forall₂ w.home (xs.erase r) (as.erase a) := by
  rw [List.erase_eq_eraseP, List.erase_eq_eraseP]
  refine (find_home homes fun x b _ hx => ?_).2
  rw [Bool.eq_iff_iff, beq_iff_eq, beq_iff_eq]
  exact (rep.eq_iff hr hx).symm

theorem Tracks.takeWaiter (rep : Rep w s h) (ha : w.home c a) (direction : Direction) :
    Tracks w s h (Channel.takeWaiter a direction) (Ideal.takeWaiter c direction) fun w' x y =>
      w' = w ∧ Option.Rel w.home x y := by
  refine .duct rep ha fun d ho has => .reading (rep.waitersAt has) ?_
  refine .ideal (d := s) rfl ?_
  by_cases all : ∀ q ∈ d.waiters, (s.direction? q).isSome
  swap
  · exact .wild (u := s) (by rw [if_neg all]; rfl)
  rw [if_pos all]
  obtain ⟨ns, as, is, own, own', homes, start⟩ := has.waiters
  have directed (x : Ref) (b : Nat) (hx : x ∈ d.waiters) (hb : w.home x b) :
      ∃ t, s.direction? x = some t ∧ Request.directionOf b h = .ok t := by
    obtain ⟨o, ho, hass⟩ := rep.object x b hb
    have some := all x hx
    unfold Store.direction? at some ⊢
    rw [ho] at some ⊢
    cases o with
    | request q => exact ⟨q.direction, rfl, rep.directionOf hass⟩
    | _ => cases some
  have test : ∀ b ∈ as, (do return (← Request.directionOf b) == direction : HeapReader Bool) h =
      .ok (match Request.directionOf b h with | .ok t => t == direction | .error _ => false) := by
    intro b hb
    obtain ⟨i, hi, rfl⟩ := List.mem_iff_getElem.mp hb
    have hi' : i < d.waiters.length := homes.length_eq ▸ hi
    obtain ⟨t, _, run⟩ := directed _ _ (List.getElem_mem hi') (List.forall₂_iff_get.mp homes |>.2 i hi' hi)
    have run : Request.directionOf as[i] h = .ok t := run
    rw [HeapReader.run_bind, run]
    rfl
  obtain ⟨found, others⟩ := find_home (f := fun q => s.direction? q == some direction)
    (g := fun b => match Request.directionOf b h with | .ok t => t == direction | .error _ => false) homes
    fun x b hx hb => by
      obtain ⟨t, eq, run⟩ := directed x b hx hb
      rw [eq, run]
      rfl
  obtain ⟨h', ns', run, e, is', sub⟩ := is.takeFirst rep.tidy test
  rw [start] at run is own
  have part : ∀ b, b = w.part c 2 ∨ b ∈ ns → w.owns c 2 b := by
    rintro b (rfl | hb)
    · exact own
    · exact own' b hb
  rw [start] at e is'
  refine Tracks.mutate (o := .channel { d with waiters := d.waiters.eraseP fun q => s.direction? q == some direction }) rep ha run rfl e
    part ?_ ⟨rfl, found⟩
  refine has.withWaiters ha (.all rep.tidy) (rep.home_allocated ha) (rep.keptBeside e part) ?_
  rw [start]
  exact ⟨ns', _, is', own, fun n hn => own' n (sub n hn), others, rfl⟩

/-! ### The buffer -/

theorem Tracks.tryPush (rep : Rep w s h) (ha : w.home c a) (hv : w.home v b) :
    Tracks w s h (Queue.tryPush (w.part c 1) b) (Ideal.tryPush c v) fun w' x y => w' = w ∧ x = y := by
  refine .duct rep ha fun d _ has => ?_
  obtain ⟨k, as, is, own, own', homes, start⟩ := has.buffer
  rw [start] at is own
  by_cases full : d.buffer.length = d.capacity
  · rw [if_pos full]
    unfold Tracks Follows
    rw [is.tryPush_full rep.tidy (homes.length_eq ▸ full)]
    exact .ok w rep .refl ⟨rfl, rfl⟩
  · rw [if_neg full]
    obtain ⟨h', run, e, is'⟩ := is.tryPush rep.tidy (rep.home_allocated hv) (homes.length_eq ▸ full)
    have part : ∀ b, b = w.part c 1 ∨ b = k → w.owns c 1 b := by
      rintro b (rfl | rfl)
      · exact own
      · exact own'
    refine .mutate (o := .channel { d with buffer := d.buffer ++ [v] }) rep ha run rfl e part ?_ ⟨rfl, rfl⟩
    refine has.withBuffer ha (.all rep.tidy) (rep.home_allocated ha) (rep.keptBeside e part) ?_
    rw [start]
    exact ⟨k, _, is', own, own', List.rel_append homes (.cons hv .nil), rfl⟩

theorem Tracks.popBuffer (rep : Rep w s h) (ha : w.home c a) :
    Tracks w s h (Queue.pop (w.part c 1)) (Ideal.popBuffer c) fun w' x y => w' = w ∧ Option.Rel w.home x y := by
  refine .duct rep ha fun d _ has => ?_
  obtain ⟨k, as, is, own, own', homes, start⟩ := has.buffer
  rw [start] at is own
  cases buffered : d.buffer with
  | nil =>
    rw [buffered] at homes
    cases homes
    unfold Tracks Follows
    rw [is.pop_nil rep.tidy]
    exact .ok w rep .refl ⟨rfl, .none⟩
  | cons v rest =>
    rw [buffered] at homes
    cases homes with
    | cons hv homes =>
      obtain ⟨h', run, e, is'⟩ := is.pop rep.tidy
      have part : ∀ b, b = w.part c 1 ∨ b = k → w.owns c 1 b := by
        rintro b (rfl | rfl)
        · exact own
        · exact own'
      refine .mutate (o := .channel { d with buffer := rest }) rep ha run rfl e part ?_ ⟨rfl, .some hv⟩
      refine has.withBuffer ha (.all rep.tidy) (rep.home_allocated ha) (rep.keptBeside e part) ?_
      rw [start]
      exact ⟨k, _, is', own, own', homes, rfl⟩

/-! ### Withdrawing requests -/

theorem Tracks.withdraw (rep : Rep w s h) (ha : w.home r a) :
    Tracks w s h (do
        if (← Heap.tag a) = .channelRequest then
          let waiters ← Channel.waiters (← Request.channelOf a)
          let _ ← LinkedList.remove waiters a : HeapM Unit) (Ideal.withdraw r) fun w' _ _ => w' = w := by
  refine .read_bind (.tag rep ha) ?_
  rintro t _ rfl
  by_cases request : t = .channelRequest
  swap
  · rw [if_neg request, if_neg request]
    exact .pure rep rfl
  rw [if_pos request, if_pos request]
  refine .read_bind (.channelOf rep ha) fun q b hb => ?_
  refine .duct rep hb fun d _ has => .reading (rep.waitersAt has) ?_
  obtain ⟨ns, as, is, own, own', homes, start⟩ := has.waiters
  rw [start] at is own
  obtain ⟨h', ns', run, e, is', sub⟩ := is.remove rep.tidy (x := a)
  have part : ∀ b, b = w.part q.channel 2 ∨ b ∈ ns → w.owns q.channel 2 b := by
    rintro b (rfl | hb)
    · exact own
    · exact own' b hb
  have run' : (LinkedList.remove (w.part q.channel 2) a >>= fun _ => pure ()) h = .ok () h' := by
    rw [run_bind, run]
    rfl
  refine .mutate (o := .channel { d with waiters := d.waiters.erase r }) (y := ()) rep hb run' rfl e part ?_ rfl
  refine has.withWaiters hb (.all rep.tidy) (rep.home_allocated hb) (rep.keptBeside e part) ?_
  rw [start]
  exact ⟨ns', _, is', own, fun n hn => own' n (sub n hn), erase_home rep homes ha, rfl⟩

/-- The same is done to corresponding objects, in place. -/
theorem Tracks.forM {f : Nat → HeapM Unit} {g : Ref → StoreM Unit} {xs : List Ref} {as : List Nat} (rep : Rep w s h)
    (homes : List.Forall₂ w.home xs as)
    (each : ∀ s h r a, Rep w s h → w.home r a → Tracks w s h (f a) (g r) fun w' _ _ => w' = w) :
    Tracks w s h (as.forM f) (xs.forM g) fun w' _ _ => w' = w := by
  induction homes generalizing s h with
  | nil => exact .pure rep rfl
  | @cons r a xs as hr _ ih =>
    change Tracks w s h (f a >>= fun _ => as.forM f) (g r >>= fun _ => xs.forM g) _
    refine (each s h r a rep hr).bind ?_
    rintro _ s' _ h' _ rep' _ rfl
    exact ih rep'

theorem Tracks.clearWaits (rep : Rep w s h) (ha : w.home c a) :
    Tracks w s h (LinkedList.clear (w.part c 3)) (Ideal.update c fun f => { f with waits := [] }) fun w' _ _ => w' = w := by
  refine .fiber rep ha fun f _ has => ?_
  obtain ⟨ns, as, is, own, own', homes, start⟩ := has.waits
  rw [start] at is own
  obtain ⟨h', run, e, is'⟩ := is.clear rep.tidy
  have part : ∀ b, b = w.part c 3 ∨ b ∈ ns → w.owns c 3 b := by
    rintro b (rfl | hb)
    · exact own
    · exact own' b hb
  refine .mutate (o := .context { f with waits := [] }) (y := ()) rep ha run rfl e part ?_ rfl
  refine has.withWaits ha (.all rep.tidy) (rep.home_allocated ha) (rep.keptBeside e part) ?_
  rw [start]
  exact ⟨[], [], is', own, fun n hn => absurd hn List.not_mem_nil, .nil, rfl⟩

theorem Rep.waitsAt {f : Fiber} (rep : Rep w s h) (has : w.HasFiber h c a f) : Context.waitList a h = .ok (w.part c 3) := by
  obtain ⟨_, _, _, _, _, _, start⟩ := has.waits
  rw [← start]
  exact rep.waitList has

theorem Tracks.cancelWaits (rep : Rep w s h) (ha : w.home c a) :
    Tracks w s h (Channel.cancelWaits a) (Ideal.cancelWaits c) fun w' _ _ => w' = w := by
  refine .fiber rep ha fun f _ has => .reading (rep.waitsAt has) ?_
  obtain ⟨ns, as, is, own, own', homes, start⟩ := has.waits
  refine .reading (start ▸ is.values_eq rep.tidy) ?_
  refine Tracks.bind (.forM rep homes fun s h r a rep ha => .withdraw rep ha) ?_
  rintro _ s' _ h' _ rep' _ rfl
  exact .clearWaits rep' ha

end FiberMachine
