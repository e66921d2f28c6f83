import FiberMachine.Proofs.Ideal.Passing
import FiberMachine.Proofs.Channels

/-!
# The order of values and waiting requests

What has been sent on a channel since it was made is what has been received from it, in the same order, followed by what is
in its buffer. Requests of one direction that are not withdrawn are completed in the order in which they began to wait.
-/

namespace FiberMachine

open Ideal Heap

/-- The requests of a direction that wait on a channel, the oldest first. -/
def Heap.Line (h : Heap) (d : Addr) (u : Direction) (line : List Addr) : Prop :=
  ∃ waiting, Channel.waiting d h = .ok waiting ∧ (∀ q ∈ waiting, ∃ v, Request.directionOf q h = .ok v) ∧
    line = waiting.filter fun q => (Request.directionOf q h).toOption == some u

/-- From these values in its buffer and these requests in its lines, the channel has come to its state by what has happened on it. -/
structure Heap.Passes (h : Heap) (d : Addr) (buffered : List Addr) (lines : Direction → List Addr) (events : List Event) : Prop where
  buffer : ∃ now, Channel.buffered d h = .ok now ∧ buffered ++ Event.sends d events = Event.receives d events ++ now
  line : ∀ u, ∃ now, h.Line d u now ∧ (Event.completions d u events ++ now).Sublist (lines u ++ Event.parks d u events)

variable {w w' : World} {s s' : Store} {h : Heap} {t t' : Course} {x x' : Execution} {c d q : Ref} {a n : Nat} {u : Direction} {k : Duct}
  {rs : List Ref} {as : List Nat} {log events notes : List Event} {outcome done : StepOutcome} {code : Array Instruction}
  {config : Config} {journal : Journal} {history earlier later : List Entry} {entry : Entry}

/-! ### The same events -/

/-- Objects and where they are, or were when they were last there. -/
theorem World.spots (marks : List.Forall₂ w.marks rs as) : as = rs.map fun r => w.part r 0 := by
  induction marks with
  | nil => rfl
  | cons mark _ ih => rw [List.map_cons, mark.2, ih]

/-- The same events, which have happened on one channel. -/
def World.SameOn (w : World) (d : Ref) (a : Nat) (x y : Event) : Prop :=
  Event.Same w.marks x y ∧ x.channel? = some d ∧ y.channel? = some a

theorem World.SameOn.all (same : w.notes (Event.on d log) (Event.on a notes)) :
    List.Forall₂ (w.SameOn d a) (Event.on d log) (Event.on a notes) := by
  have left := (List.forall₂_and_left _ _).mpr ⟨fun x hx => Event.channel?_of_mem_on hx, same⟩
  have both := (List.forall₂_and_left _ _).mpr ⟨fun y hy => Event.channel?_of_mem_on hy, left.flip⟩
  exact both.flip.imp fun x y ⟨hy, hx, same⟩ => ⟨same, hx, hy⟩

theorem Event.Same.channel {R : Ref → Nat → Prop} {y z : Event} (same : Event.Same R y z) : Option.Rel R y.channel? z.channel? := by
  cases same with
  | made | stranded => exact .none
  | sent channel | received channel | parked channel | completed channel => exact .some channel

namespace Event

variable (same : w.notes (on d log) (on a notes))
include same

theorem sends_same : List.Forall₂ w.marks (sends d log) (sends a notes) := by
  rw [← sends_on, ← sends_on a]
  refine List.rel_filterMap ?_ (World.SameOn.all same)
  rintro x y ⟨same, hx, hy⟩
  cases same <;> cases hx <;> cases hy <;> simp [*]

theorem receives_same : List.Forall₂ w.marks (receives d log) (receives a notes) := by
  rw [← receives_on, ← receives_on a]
  refine List.rel_filterMap ?_ (World.SameOn.all same)
  rintro x y ⟨same, hx, hy⟩
  cases same <;> cases hx <;> cases hy <;> simp [*]

theorem parks_same : List.Forall₂ w.marks (parks d u log) (parks a u notes) := by
  rw [← parks_on, ← parks_on a]
  refine List.rel_filterMap ?_ (World.SameOn.all same)
  rintro x y ⟨same, hx, hy⟩
  cases same with
  | parked channel v request => cases hx; cases hy; by_cases way : v = u <;> simp [way, request]
  | _ => cases hx <;> cases hy <;> exact .none

theorem completions_same : List.Forall₂ w.marks (completions d u log) (completions a u notes) := by
  rw [← completions_on, ← completions_on a]
  refine List.rel_filterMap ?_ (World.SameOn.all same)
  rintro x y ⟨same, hx, hy⟩
  cases same with
  | completed channel v request => cases hx; cases hy; by_cases way : v = u <;> simp [way, request]
  | _ => cases hx <;> cases hy <;> exact .none

end Event

/-! ### The state of a channel -/

/-- The line of a channel, as the store and as the heap describe it. -/
theorem Sim.line (sim : Sim w t x) (steady : Steady log t) (ha : w.home d a) (hk : t.engine.store.objects[d]? = some (.channel k))
    (u : Direction) : ∃ now, x.machine.heap.Line a u now ∧ List.Forall₂ w.home (t.engine.store.waiting d u) now := by
  have rep := sim.machine.rep
  obtain ⟨waiting, read, homes⟩ := rep.waiting_eq ha hk
  rw [← Store.waiters_of hk] at homes
  have directed {q : Ref} {b : Nat} (hq : q ∈ t.engine.store.waiters d) (hb : w.home q b) : ∃ v, t.engine.store.direction? q = some v ∧
      Request.directionOf b x.machine.heap = .ok v := by
    obtain ⟨r, hr, _⟩ := steady.linked.wired.waiter d q hq
    exact ⟨r.direction, hr.direction?, rep.directionOf_eq hb hr⟩
  refine ⟨_, ⟨waiting, read, fun b hb => ?_, rfl⟩, ?_⟩
  · obtain ⟨q, hq, home⟩ := related_left homes hb
    obtain ⟨v, _, read⟩ := directed hq home
    exact ⟨v, read⟩
  · refine (List.rel_filter (R := fun q b => q ∈ t.engine.store.waiters d ∧ w.home q b) ?_
      ((List.forall₂_and_left _ _).mpr ⟨fun q hq => hq, homes⟩)).imp fun _ _ both => both.2
    rintro q b ⟨hq, home⟩
    obtain ⟨v, way, read⟩ := directed hq home
    dsimp only
    rw [way, read]
    simp [Except.toOption]

/-- What has passed through the channel, as noted and as the heap tells. -/
theorem Sim.passes (sim : Sim w t x) (steady : Steady log t) (ha : w.home d a) (hk : t.engine.store.objects[d]? = some (.channel k))
    {flow : List Event} (flows : Flow s t.engine.store flow) (same : w.notes (Event.on d flow) (Event.on a notes))
    {lines : Direction → List Addr} (before : List.Forall₂ w.marks (s.buffer d) as)
    (waited : ∀ u, List.Forall₂ w.marks (s.waiting d u) (lines u)) : x.machine.heap.Passes a as lines notes := by
  have rep := sim.machine.rep
  have marks {q : Ref} {b : Nat} (home : w.home q b) : w.marks q b := rep.marks home
  constructor
  · obtain ⟨now, read, homes⟩ := rep.buffered_eq ha hk
    refine ⟨now, read, ?_⟩
    have law := congrArg (List.map fun r => w.part r 0) (flows.buffer d)
    rw [List.map_append, List.map_append, Store.buffer_of hk] at law
    rwa [World.spots before, World.spots (Event.sends_same same), World.spots (Event.receives_same same),
      World.spots (homes.imp fun _ _ => marks)]
  · intro u
    obtain ⟨now, line, homes⟩ := sim.line steady ha hk u
    refine ⟨now, line, ?_⟩
    have law := (flows.line d u).map fun r => w.part r 0
    rw [List.map_append, List.map_append] at law
    rwa [World.spots (waited u), World.spots (Event.parks_same same), World.spots (Event.completions_same same),
      World.spots (homes.imp fun _ _ => marks)]

/-! ### Since a channel was made -/

/-- What the course has noted on a channel is what has been noted on it since it was made. -/
structure Aligned (w : World) (t : Course) (log notes : List Event) : Prop where
  made : ∀ (d : Ref) (k : Duct), t.engine.store.objects[d]? = some (.channel k) → .made d ∈ log
  same : ∀ (d : Ref) (a : Nat) (k : Duct), w.home d a → t.engine.store.objects[d]? = some (.channel k) →
    .made a ∈ notes ∧ w.notes (Event.on d log) (Event.on a (Event.since a notes))

/-- What a registered context mentions is in the heap. -/
theorem Sim.mentioned (sim : Sim w t x) (registered : c ∈ t.engine.store.contexts) (mentions : t.engine.store.Mentions c d) :
    ∃ a, w.home d a := by
  have rep := sim.machine.rep
  obtain ⟨b, _, home⟩ := related_right rep.contexts registered
  obtain ⟨xs, ⟨f, hf, rfl⟩, mentioned⟩ := mentions
  obtain ⟨as, _, homes⟩ := rep.operands_eq home hf
  rcases mentioned with here | ⟨q, hq, r, hr, rfl⟩
  · obtain ⟨a, _, home⟩ := related_right homes here
    exact ⟨a, home⟩
  · obtain ⟨b, _, home⟩ := related_right homes hq
    obtain ⟨a, _, home⟩ := rep.channelOf_eq home hr
    exact ⟨a, home⟩

theorem World.notes.made (same : w.notes [.made d] notes) (rep : Rep w s h) (ha : w.home d a) : notes = [.made a] := by
  cases same with
  | cons same rest =>
    cases rest
    cases same with
    | made mark => rw [← (rep.start d a ha).symm.trans mark.2]

/-- What a step notes on a channel that was there before. -/
theorem Stepped.on_channel (stepped : Stepped w t x log outcome w' t' x' done events) (passing : t.Passing events t') (sim : Sim w t x)
    (known : t.engine.store.Known d) (ha : w'.home d a) :
    .made a ∉ x.notes ∧ w'.notes (Event.on d events) (Event.on a x.notes) := by
  have rep := sim.machine.rep
  have rep' := stepped.sim.machine.rep
  obtain ⟨o, ho⟩ := known
  have before := stepped.abides.old d a ha (List.getElem?_eq_some_iff.mp ho).1
  have notes := stepped.notes
  rcases passing.about with ⟨d', rfl, new, c, registered, mentions⟩ | about
  · -- another channel has been made, which is elsewhere
    obtain ⟨b, home⟩ := stepped.sim.mentioned registered mentions
    have apart : a ≠ b := by
      rintro rfl
      cases rep'.unique ha home
      exact new ⟨o, ho⟩
    rw [notes.made rep' home]
    exact ⟨by simpa using apart, .nil⟩
  · have both := (List.forall₂_and_left _ _).mpr ⟨fun y hy => about y hy, notes⟩
    refine ⟨fun made => ?_, (List.rel_filter ?_ both).imp fun _ _ both => both.2⟩
    · obtain ⟨y, _, about, same⟩ := related_left both made
      cases same
      rcases about with ⟨_, no⟩ | ⟨_, no, _⟩ <;> cases no
    · rintro y z ⟨about, same⟩
      have channels := same.channel
      rcases about with ⟨_, rfl⟩ | ⟨d', channel, c, registered, mentions⟩
      · cases same
        simp [Event.channel?]
      · obtain ⟨b, home⟩ := sim.mentioned registered mentions
        dsimp only
        rw [channel] at channels ⊢
        generalize z.channel? = v at channels
        cases channels with
        | some mark =>
          obtain rfl := ((rep.marks home).keep rep rep' stepped.abides).2.symm.trans mark.2
          simp only [beq_iff_eq, Option.some.injEq]
          exact (rep.eq_iff home before).symm

/-- A step that nothing else comes after. -/
theorem noted_singleton : noted [⟨x, outcome⟩] = x.notes := List.flatMap_singleton ..

theorem Aligned.step (aligned : Aligned w t log (noted history)) (followed : Followed w t x log history) (own : x.SelectsOwn)
    (stepped : Stepped w t x log outcome w' t' x' done events) : Aligned w' t' (log ++ events) (noted (history ++ [⟨x, outcome⟩])) := by
  have sim := followed.sim
  have rep := sim.machine.rep
  have rep' := stepped.sim.machine.rep
  have passing := Course.step_passing followed.steady (own.sane sim (w.capacity + 1)) stepped.run
  rw [noted_append, noted_singleton]
  refine ⟨fun d k hk => ?_, fun d a k ha hk => ?_⟩
  · by_cases known : t.engine.store.Known d
    · obtain ⟨k', hk'⟩ := passing.grows.channel_before known hk
      exact List.mem_append_left _ (aligned.made d k' hk')
    · rw [passing.made d k hk known]
      exact List.mem_append_right _ (List.mem_singleton_self _)
  · by_cases known : t.engine.store.Known d
    · obtain ⟨k', hk'⟩ := passing.grows.channel_before known hk
      have before := stepped.abides.old d a ha (List.getElem?_eq_some_iff.mp hk').1
      obtain ⟨made, same⟩ := aligned.same d a k' before hk'
      obtain ⟨none, more⟩ := stepped.on_channel passing sim known ha
      rw [Event.since_append none, Event.on_append, Event.on_append]
      exact ⟨List.mem_append_left _ made, List.rel_append (World.notes.keep same rep rep' stepped.abides) more⟩
    · -- the channel has just been made
      have made := passing.made d k hk known
      subst made
      have nothing : Event.on d (log ++ [.made d]) = [] := by
        refine Event.on_eq_nil fun y hy channel => ?_
        rcases List.mem_append.mp hy with old | new
        · exact known (followed.steady.known y old d (.inl channel))
        · rw [List.mem_singleton.mp new] at channel
          cases channel
      rw [stepped.notes.made rep' ha, Event.since_made, nothing]
      exact ⟨by simp, .nil⟩

/-- From one state of a run the other has been reached by what is noted in between. -/
structure Reaches (w₀ : World) (t₀ : Course) (w : World) (t : Course) (events notes : List Event) : Prop where
  abides : Abides w₀ t₀.engine.store w t.engine.store
  grows : t₀.engine.store.Grows t.engine.store
  flow : Flow t₀.engine.store t.engine.store events
  notes : w.notes events notes

/-- A state before a step of the history, and what has happened from then on. -/
def Passed (w : World) (t : Course) (log : List Event) (history : List Entry) : Prop :=
  ∀ earlier entry later, history = earlier ++ entry :: later → ∃ w₀ t₀ log₀ events, Followed w₀ t₀ entry.before log₀ earlier ∧
    Aligned w₀ t₀ log₀ (noted earlier) ∧ log = log₀ ++ events ∧ Reaches w₀ t₀ w t events (noted (entry :: later))

theorem Passed.step (passed : Passed w t log history) (aligned : Aligned w t log (noted history)) (followed : Followed w t x log history)
    (own : x.SelectsOwn) (stepped : Stepped w t x log outcome w' t' x' done events) :
    Passed w' t' (log ++ events) (history ++ [⟨x, outcome⟩]) := by
  have sim := followed.sim
  have passing := Course.step_passing followed.steady (own.sane sim (w.capacity + 1)) stepped.run
  intro earlier entry later eq
  rcases List.eq_nil_or_concat' later with rfl | ⟨later, last, rfl⟩
  · obtain ⟨rfl, same⟩ := List.append_inj' eq rfl
    cases same
    exact ⟨w, t, log, events, followed, aligned, rfl, stepped.abides, passing.grows, passing.flow, noted_singleton ▸ stepped.notes⟩
  · rw [← List.cons_append, ← List.append_assoc] at eq
    obtain ⟨rfl, same⟩ := List.append_inj' eq rfl
    cases same
    obtain ⟨w₀, t₀, log₀, before, followed₀, aligned₀, rfl, reaches⟩ := passed earlier entry later rfl
    refine ⟨w₀, t₀, log₀, before ++ events, followed₀, aligned₀, List.append_assoc .., reaches.abides.trans stepped.abides,
      reaches.grows.trans passing.grows, reaches.flow.trans passing.flow, ?_⟩
    rw [← List.cons_append, noted_append, noted_singleton]
    exact List.rel_append (reaches.notes.keep sim.machine.rep stepped.sim.machine.rep stepped.abides) stepped.notes

theorem initial_no_channel : Course.initial.objects[d]? ≠ some (.channel k) := by
  intro hk
  obtain ⟨_, no⟩ | ⟨_, no⟩ | ⟨_, no⟩ := Course.initial_cases hk <;> cases no

theorem Run.passed (run : Run code config journal history x) :
    ∃ w t log, Followed w t x log history ∧ Aligned w t log (noted history) ∧ Passed w t log history :=
  run.traced (P := fun w t log history _ => Aligned w t log (noted history) ∧ Passed w t log history)
    (fun w x _ sim => ⟨⟨fun d k hk => absurd hk initial_no_channel, fun d a k _ hk => absurd hk initial_no_channel⟩,
      fun _ _ _ eq => by simp at eq⟩)
    fun followed ⟨aligned, passed⟩ own stepped => ⟨aligned.step followed own stepped, passed.step aligned followed own stepped⟩

end FiberMachine
