import FiberMachine.Proofs.Runnable
import FiberMachine.Proofs.Takings

/-!
# Wait groups

The counter of a wait group is what has been added to it since it was made. Those who wait for it are blocked in its queue, in the
order in which they came, until it comes down to zero. Then all of them are ready in that order, and wait for nothing. Nobody passes
a wait group that is not at zero, and no step takes a counter below zero.
-/

namespace FiberMachine

open Ideal Heap

/-- What has been added to the wait group at `g` since a step made it, and who has come to wait for it since it was last at zero. -/
inductive Tally (g : Addr) : List Entry → Execution → List Int → List Addr → Prop
  | made {history : List Entry} {entry : Entry} {x : Execution} (makes : entry.Makes x g) : Tally g (history ++ [entry]) x [] []
  | rests {history : List Entry} {entry : Entry} {x : Execution} {ds : List Int} {qs : List Addr} (before : Tally g history entry.before ds qs)
      (old : ¬entry.Makes x g) (idle : ∀ c method xs, ¬entry.CallsMethod c g method xs) : Tally g (history ++ [entry]) x ds qs
  | adds {history : List Entry} {entry : Entry} {x : Execution} {ds : List Int} {qs : List Addr} {c : Addr} {method : String} {xs : List Addr}
      {delta : Int64} (before : Tally g history entry.before ds qs) (old : ¬entry.Makes x g) (calls : entry.CallsMethod c g method xs)
      (asks : entry.before.machine.heap.Asks method xs delta) :
      Tally g (history ++ [entry]) x (ds ++ [delta.toInt]) (if (ds ++ [delta.toInt]).sum = 0 then [] else qs)
  | waits {history : List Entry} {entry : Entry} {x : Execution} {ds : List Int} {qs : List Addr} {c : Addr} {xs : List Addr}
      (before : Tally g history entry.before ds qs) (old : ¬entry.Makes x g) (calls : entry.CallsMethod c g "Wait" xs) :
      Tally g (history ++ [entry]) x ds (if ds.sum = 0 then qs else qs ++ [c])

/-- There is a wait group at `g`, with the counter `n` and the queue `qs`. -/
structure Heap.Counted (h : Heap) (g : Addr) (n : Int64) (qs : List Addr) : Prop where
  isGroup : tag g h = .ok .waitGroup
  counter : WaitGroup.counter g h = .ok n
  waiting : WaitGroup.waiting g h = .ok qs

/-- With the step from `x` to `x'` the contexts `qs` have been released by the context `c`: they are ready, each once and in that
order, they wait for nothing, and they stand where they stood. -/
structure Releases (x x' : Execution) (c : Addr) (qs : List Addr) : Prop where
  ready : x'.machine.scheduler.ready ++ x'.machine.scheduler.current.toList = x.machine.scheduler.dispatch.ready ++ qs ++ [c]
  once : qs.Nodup
  awake : ∀ q ∈ qs, Context.isBlocked q x'.machine.heap = .ok false ∧ Context.waits q x'.machine.heap = .ok []
  pc : ∀ q ∈ qs, ∃ n, Context.pc q x.machine.heap = .ok n ∧ Context.pc q x'.machine.heap = .ok n

/-- With the step from `x` to `x'` the context `c` has begun to wait for the wait group at `g`, behind the contexts `qs`: it is
blocked, and has no turn any more. -/
structure Joins (x x' : Execution) (c g : Addr) (n : Int64) (qs : List Addr) : Prop where
  ready : x'.machine.scheduler.ready = x.machine.scheduler.dispatch.ready
  current : x'.machine.scheduler.current = none
  absent : c ∉ x'.machine.scheduler.ready
  blocked : Context.isBlocked c x'.machine.heap = .ok true
  waits : Context.waits c x'.machine.heap = .ok [g]
  counted : x'.machine.heap.Counted g n (qs ++ [c])

variable {w w' : World} {s : Store} {h : Heap} {t t' : Course} {x x' : Execution} {a : Addr} {n : Int64} {c g : Ref} {k : Word}
  {log events : List Event} {outcome done : StepOutcome} {code : Array Instruction} {config : Config} {journal : Journal}
  {history : List Entry} {entry : Entry} {xs l l' : List Ref} {qs : List Addr} {ds : List Int}

/-! ### Counters and queues -/

/-- A counter that is neither below zero nor too large for a word. -/
theorem toInt_counted {n : Int} (nonneg : 0 ≤ n) (fits : n ≤ Int64.maxValue.toInt) : (UInt64.ofNat n.toNat).toInt64.toInt = n := by
  have large : Int64.maxValue.toInt = 9223372036854775807 := by decide
  rw [large] at fits
  have small : n.toNat < 2 ^ 64 := by omega
  rw [Int64.toInt, UInt64.toBitVec_toInt64, BitVec.toInt_eq_toNat_of_lt]
  · rw [UInt64.toNat_toBitVec, UInt64.toNat_ofNat_of_lt' small, Int.toNat_of_nonneg nonneg]
  · rw [UInt64.toNat_toBitVec, UInt64.toNat_ofNat_of_lt' small]
    omega

theorem Rep.counted (rep : Rep w s h) (hg : w.home g a) (ho : s.objects[g]? = some (.waitGroup k l)) :
    ∃ qs, h.Counted a k.toInt64 qs ∧ List.Forall₂ w.home l qs := by
  obtain ⟨n, counter, rfl⟩ := (Reads.counter rep hg).answer (b := (k, l)) (by simp only [Ideal.group, Ideal.look, ho]; rfl)
  obtain ⟨qs, waiting, homes⟩ := rep.members_eq hg ho
  exact ⟨qs, ⟨rep.tag_eq hg ho, counter, waiting⟩, homes⟩

/-- A wait group in the heap is one of the store. -/
theorem Rep.counted_at (rep : Rep w s h) (typed : s.Typed) (hg : w.home g a) (counted : h.Counted a n qs) :
    ∃ k l, s.objects[g]? = some (.waitGroup k l) ∧ k.toInt64 = n ∧ List.Forall₂ w.home l qs := by
  obtain ⟨k, l, ho⟩ := typed.canonical (rep.isTag_of_tag hg counted.isGroup)
  obtain ⟨qs', counted', homes⟩ := rep.counted hg ho
  cases counted.counter.symm.trans counted'.counter
  cases counted.waiting.symm.trans counted'.waiting
  exact ⟨k, l, ho, rfl, homes⟩

/-! ### One step -/

section

variable {f : Fiber} {i : Instruction} {o : Outcome} {e : Engine} {depth : Nat}

/-- Objects that can still be found are where they were. -/
theorem Stepped.homes_same (stepped : Stepped w t x log outcome w' t' x' done events) (sim : Sim w t x) {bs : List Addr}
    (before : List.Forall₂ w.home l qs) (after : List.Forall₂ w'.home l bs) : bs = qs :=
  World.marks_same (before.imp fun _ _ home => (sim.machine.rep.marks home).keep sim.machine.rep stepped.sim.machine.rep stepped.abides)
    stepped.sim.machine.rep after

/-- What a step of the course executes, the step of the execution executes. -/
theorem Stepped.executes (stepped : Stepped w t x log outcome w' t' x' (.executed c f.pc) events) (sim : Sim w t x)
    (executed : Course.Executed depth t c f i o events e t') : ∃ b, w.home c b ∧ (⟨x, outcome⟩ : Entry).Executes b i := by
  have turn := stepped.same
  generalize eq : StepOutcome.executed c f.pc = done at turn
  cases turn with
  | executed home =>
    cases eq
    exact ⟨_, home, _, rfl, sim.code ▸ executed.instruction⟩
  | finished => cases eq

/-- A step that does not execute an instruction makes no wait group and calls no method. -/
theorem Stepped.executes_nothing (stepped : Stepped w t x log outcome w' t' x' .finished events) (b : Addr) (i : Instruction) :
    ¬(⟨x, outcome⟩ : Entry).Executes b i := by
  rintro ⟨n, same, _⟩
  cases stepped.same
  cases same

/-- The numbers `ds` have been added to the counter `k`, and `qs` are in the queue `l`. -/
structure Balances (w : World) (k : Word) (l : List Ref) (ds : List Int) (qs : List Addr) : Prop where
  queue : List.Forall₂ w.home l qs
  counter : k.toInt64.toInt = ds.sum
  nonneg : 0 ≤ ds.sum
  empty : ds.sum = 0 → l = []

/-- Of every wait group that can be found the tally is known. -/
def Tallied (w : World) (s : Store) (history : List Entry) (x : Execution) : Prop :=
  ∀ g a k l, w.home g a → s.objects[g]? = some (.waitGroup k l) → ∃ ds qs, Tally a history x ds qs ∧ Balances w k l ds qs

theorem Balances.zero (balances : Balances w k l ds qs) : k.toInt64 = 0 ↔ ds.sum = 0 := by
  rw [← balances.counter]
  exact ⟨fun zero => zero ▸ rfl, fun zero => Int64.toInt_inj.mp zero⟩

/-- A context that has executed an instruction stays where it is unless it has ended. -/
theorem Stepped.stays (stepped : Stepped w t x log outcome w' t' x' done events) (sim : Sim w t x)
    (executed : Course.Executed depth t c f i o events e t') (going : o ≠ .finish) (home : w.home c a) : w'.home c a :=
  stepped.sim.home_of_marks (executed.stays executed.running.registered fun _ => going)
    ((sim.machine.rep.marks home).keep sim.machine.rep stepped.sim.machine.rep stepped.abides)

/-- A step makes only wait groups that were not there before. -/
theorem Stepped.makes (stepped : Stepped w t x log outcome w' t' x' (.executed c f.pc) events) (sim : Sim w t x)
    (executed : Course.Executed depth t c f i o events e t') (typed : t'.engine.store.Typed) (ha : w'.home g a) :
    (⟨x, outcome⟩ : Entry).Makes x' a ↔ ∃ gs, t'.engine.store.Leaves c i gs ∧ g ∈ gs := by
  obtain ⟨b, home, executes⟩ := stepped.executes sim executed
  have rep' := stepped.sim.machine.rep
  have there (makes : i.makesGroups = true) : w'.home c b := by
    refine stepped.stays sim executed ?_ home
    rw [(executed.makes_groups makes).1]
    exact nofun
  constructor
  · rintro ⟨b', j, as, executes', leaves, member⟩
    obtain ⟨rfl, rfl⟩ := executes.unique executes'
    obtain ⟨gs, made⟩ := (executed.makes_groups leaves.makesGroups).2
    obtain ⟨as', leaves', homes⟩ := rep'.leaves typed (there leaves.makesGroups) made
    cases leaves.unique leaves'
    obtain ⟨g', hg', home'⟩ := related_left homes member
    cases rep'.unique ha home'
    exact ⟨gs, made, hg'⟩
  · rintro ⟨gs, made, hg⟩
    have makes : i.makesGroups = true := by cases made <;> rfl
    obtain ⟨as, leaves, homes⟩ := rep'.leaves typed (there makes) made
    obtain ⟨a', member, home'⟩ := related_right homes hg
    cases rep'.single _ _ _ ha home'
    exact ⟨b, i, as, executes, leaves, member⟩

/-- A wait group that was there before the step is counted on. -/
theorem Tallied.old (tallied : Tallied w t.engine.store history x) (followed : Followed w t x log history)
    (stepped : Stepped w t x log outcome w' t' x' (.executed c f.pc) events) (executed : Course.Executed depth t c f i o events e t')
    (ha : w'.home g a) (ho : t.engine.store.objects[g]? = some (.waitGroup k l)) {k' : Word}
    (ho' : t'.engine.store.objects[g]? = some (.waitGroup k' l')) :
    ∃ ds qs, Tally a (history ++ [⟨x, outcome⟩]) x' ds qs ∧ Balances w' k' l' ds qs := by
  have sim := followed.sim
  have rep := sim.machine.rep
  have typed := followed.steady.linked.typed
  have known : t.engine.store.Known g := ⟨_, ho⟩
  have ha₀ : w.home g a := stepped.abides.old g a ha (Store.known_iff.mp known)
  obtain ⟨ds, qs, tally, balances⟩ := tallied g a k l ha₀ ho
  obtain ⟨qs', counted, queue⟩ := stepped.sim.machine.rep.counted ha ho'
  obtain ⟨b, home, executes⟩ := stepped.executes sim executed
  have isContext : t.engine.store.IsTag c .context := ⟨_, executed.fiber, rfl⟩
  have old : ¬(⟨x, outcome⟩ : Entry).Makes x' a := by
    rw [stepped.makes sim executed stepped.steady.linked.typed ha]
    rintro ⟨gs, made, hg⟩
    exact executed.unknown_group made hg known
  have calls {method : String} {xs : List Ref} (invokes : t.engine.store.Invokes c i g method xs) :
      ∃ as, (⟨x, outcome⟩ : Entry).CallsMethod b a method as ∧ List.Forall₂ w.home xs as := by
    obtain ⟨a', as, invokes', home', homes⟩ := rep.invokes home invokes
    cases rep.single _ _ _ ha₀ home'
    exact ⟨as, ⟨i, executes, invokes'⟩, homes⟩
  obtain ⟨_, _, after, counts⟩ := executed.counts ho
  cases after.symm.trans ho'
  cases counts with
  | rests idle =>
    cases stepped.homes_same sim balances.queue queue
    have same : Balances w' k l ds qs := ⟨queue, balances.counter, balances.nonneg, balances.empty⟩
    by_cases called : ∃ method xs, t.engine.store.Invokes c i g method xs
    · obtain ⟨method, xs, invokes⟩ := called
      obtain ⟨rfl, zero⟩ := idle _ _ invokes
      obtain ⟨as, calls, _⟩ := calls invokes
      have waits := Tally.waits tally old calls
      rw [if_pos (balances.zero.mp zero)] at waits
      exact ⟨ds, qs, waits, same⟩
    · refine ⟨ds, qs, .rests tally old ?_, same⟩
      rintro b' method as ⟨j, executes', invokes⟩
      obtain ⟨rfl, rfl⟩ := executes.unique executes'
      obtain ⟨g', xs, invokes, home', _⟩ := rep.invoked typed home isContext invokes
      cases rep.unique ha₀ home'
      exact called ⟨method, xs, invokes⟩
  | @adds method xs delta invokes asks nonneg fits =>
    obtain ⟨as, calls, homes⟩ := calls invokes
    have sum : (ds ++ [delta.toInt]).sum = k.toInt64.toInt + delta.toInt := by
      rw [List.sum_append, List.sum_singleton, balances.counter]
    refine ⟨_, _, .adds tally old calls (rep.asks homes asks), ?_⟩
    refine ⟨?_, (toInt_counted nonneg fits).trans sum.symm, sum ▸ nonneg, fun zero => if_pos (sum ▸ zero)⟩
    rw [sum]
    by_cases zero : k.toInt64.toInt + delta.toInt = 0
    · rw [if_pos zero, if_pos zero]
      exact .nil
    · rw [if_neg zero] at queue ⊢
      rw [if_neg zero]
      cases stepped.homes_same sim balances.queue queue
      exact queue
  | waits invokes nonzero =>
    obtain ⟨as, calls, _⟩ := calls invokes
    have joined := Tally.waits tally old calls
    have running : ds.sum ≠ 0 := fun zero => nonzero (balances.zero.mpr zero)
    rw [if_neg running] at joined
    cases stepped.homes_same sim (List.rel_append balances.queue (.cons home .nil)) queue
    exact ⟨ds, _, joined, queue, balances.counter, balances.nonneg, fun zero => absurd zero running⟩

/-- A step counts on. -/
theorem Tallied.step (tallied : Tallied w t.engine.store history x) (followed : Followed w t x log history) (own : x.SelectsOwn)
    (stepped : Stepped w t x log outcome w' t' x' done events) : Tallied w' t'.engine.store (history ++ [⟨x, outcome⟩]) x' := by
  intro g a k' l' ha ho'
  have sim := followed.sim
  rcases Course.step_executed followed.steady (own.sane sim (w.capacity + 1)) stepped.run with ⟨rfl, _, rests⟩ | ⟨c, f, i, o, e, rfl, executed⟩
  · rw [rests.store] at ho'
    obtain ⟨ds, qs, tally, balances⟩ := tallied g a k' l' (stepped.abides.old g a ha (List.getElem?_eq_some_iff.mp ho').1) ho'
    obtain ⟨qs', _, queue⟩ := stepped.sim.machine.rep.counted ha (rests.store ▸ ho')
    cases stepped.homes_same sim balances.queue queue
    refine ⟨ds, qs, .rests tally ?_ ?_, queue, balances.counter, balances.nonneg, balances.empty⟩
    · rintro ⟨b, i, gs, executes, _⟩
      exact stepped.executes_nothing b i executes
    · rintro b method as ⟨i, executes, _⟩
      exact stepped.executes_nothing b i executes
  · by_cases known : t.engine.store.Known g
    · obtain ⟨o, ho⟩ := known
      have kind : o.tag = .waitGroup := (Store.IsTag.grow ⟨o, ho, rfl⟩ executed.grows).unique ⟨_, ho', rfl⟩
      obtain ⟨k, l, ho⟩ := followed.steady.linked.typed.canonical ⟨o, ho, kind⟩
      exact tallied.old followed stepped executed ha ho ho'
    · obtain ⟨gs, made, hg, rfl, rfl⟩ := executed.new_group known ho'
      have makes := (stepped.makes sim executed stepped.steady.linked.typed ha).mpr ⟨gs, made, hg⟩
      exact ⟨[], [], .made makes, .nil, rfl, le_rfl, fun _ => rfl⟩

/-- A call in a step is a call in the course. -/
theorem Stepped.calls {b : Addr} {method : String} {as : List Addr} (stepped : Stepped w t x log outcome w' t' x' done events)
    (followed : Followed w t x log history) (own : x.SelectsOwn) (calls : (⟨x, outcome⟩ : Entry).CallsMethod b a method as) :
    ∃ c f i o e g xs, Course.Executed (w.capacity + 1) t c f i o events e t' ∧ w.home c b ∧ w.home g a ∧
      t.engine.store.Invokes c i g method xs ∧ List.Forall₂ w.home xs as := by
  have sim := followed.sim
  have typed := followed.steady.linked.typed
  obtain ⟨j, executes, invokes⟩ := calls
  rcases Course.step_executed followed.steady (own.sane sim (w.capacity + 1)) stepped.run with ⟨rfl, _, _⟩ | ⟨c, f, i, o, e, rfl, executed⟩
  · exact absurd executes (stepped.executes_nothing b j)
  · obtain ⟨b', home, executes'⟩ := stepped.executes sim executed
    obtain ⟨rfl, rfl⟩ := executes.unique executes'
    obtain ⟨g, xs, invokes, hg, homes⟩ := sim.machine.rep.invoked typed home ⟨_, executed.fiber, rfl⟩ invokes
    exact ⟨c, f, j, o, e, g, xs, executed, home, hg, invokes, homes⟩

/-- When a wait group comes down to zero, those who wait for it are released. -/
theorem Stepped.releases {b : Addr} {method : String} {as : List Addr} {delta : Int64}
    (stepped : Stepped w t x log outcome w' t' x' done events) (followed : Followed w t x log history) (own : x.SelectsOwn)
    (calls : (⟨x, outcome⟩ : Entry).CallsMethod b a method as) (counted : x.machine.heap.Counted a n qs)
    (asks : x.machine.heap.Asks method as delta) (zero : n.toInt + delta.toInt = 0) : Releases x x' b qs := by
  have sim := followed.sim
  have rep := sim.machine.rep
  have rep' := stepped.sim.machine.rep
  have typed := followed.steady.linked.typed
  obtain ⟨c, f, i, o, e, g, xs, executed, home, hg, invokes, homes⟩ := stepped.calls followed own calls
  obtain ⟨k, l, ho, rfl, queue⟩ := rep.counted_at typed hg counted
  obtain ⟨delta', asked, _, effect⟩ := executed.adds followed.steady invokes (by cases asks <;> decide) ho
  cases asked.unique (rep.asked typed homes asks)
  obtain ⟨ready, released⟩ := effect zero
  have before : List.Forall₂ w.home (t.engine.scheduler.dispatch.ready ++ l ++ [c]) (x.machine.scheduler.dispatch.ready ++ qs ++ [b]) :=
    List.rel_append (List.rel_append sim.machine.dispatch.ready queue) (.cons home .nil)
  have after : List.Forall₂ w'.home (t.engine.scheduler.dispatch.ready ++ l ++ [c])
      (x'.machine.scheduler.ready ++ x'.machine.scheduler.current.toList) := by
    rw [← ready]
    refine List.rel_append stepped.sim.machine.ready ?_
    have current := stepped.sim.machine.current
    generalize t'.engine.scheduler.current = x, x'.machine.scheduler.current = y at current
    cases current with
    | none => exact .nil
    | some home => exact .cons home .nil
  have same := stepped.homes_same sim before after
  have kept : List.Forall₂ w'.home l qs := by
    rw [same] at after
    have left := List.forall₂_take (t.engine.scheduler.dispatch.ready ++ l).length after
    rw [List.take_left, (List.rel_append sim.machine.dispatch.ready queue).length_eq, List.take_left] at left
    have right := List.forall₂_drop t.engine.scheduler.dispatch.ready.length left
    rwa [List.drop_left, sim.machine.dispatch.ready.length_eq, List.drop_left] at right
  -- what is known of those who waited
  have each {q : Addr} (hq : q ∈ qs) : ∃ (r : Ref) (p : Fiber), w.home r q ∧ t.engine.store.objects[r]? = some (.context p) ∧
      w'.home r q ∧ t'.engine.store.objects[r]? = some (.context p.released) := by
    obtain ⟨r, hr, hrq⟩ := related_left kept hq
    obtain ⟨p, hp⟩ := typed.canonical (typed.good _ _ ho r hr)
    have hp' := released r p hr hp
    exact ⟨r, p, stepped.abides.old r q hrq (List.getElem?_eq_some_iff.mp hp).1, hp, hrq, hp'⟩
  refine ⟨same, ?_, fun q hq => ?_, fun q hq => ?_⟩
  · refine (rep.nodup_iff queue).mp (List.nodup_iff_count_le_one.mpr fun r => ?_)
    by_cases hr : r ∈ l
    · have member : r ∈ t.engine.store.queue g := Store.queue_of ho ▸ hr
      exact Nat.le_of_eq (Store.queue_of ho ▸ (followed.steady.linked.wired.member g r member).2.2)
    · rw [List.count_eq_zero_of_not_mem hr]
      exact Nat.zero_le 1
  · obtain ⟨r, p, _, _, hr, hp⟩ := each hq
    obtain ⟨as, waits, none⟩ := rep'.waits_eq hr hp
    cases none
    exact ⟨rep'.isBlocked_eq hr hp, waits⟩
  · obtain ⟨r, p, hr, hp, hr', hp'⟩ := each hq
    have after : Context.pc q x'.machine.heap = .ok p.released.pc := rep'.pc_eq hr' hp'
    exact ⟨p.pc, rep.pc_eq hr hp, after⟩

/-- Who waits for a wait group that is not at zero blocks. -/
theorem Stepped.joins {b : Addr} {as : List Addr}
    (stepped : Stepped w t x log outcome w' t' x' done events) (followed : Followed w t x log history) (own : x.SelectsOwn)
    (calls : (⟨x, outcome⟩ : Entry).CallsMethod b a "Wait" as) (counted : x.machine.heap.Counted a n qs) (nonzero : n ≠ 0) :
    Joins x x' b a n qs := by
  have sim := followed.sim
  have rep := sim.machine.rep
  have rep' := stepped.sim.machine.rep
  have typed := followed.steady.linked.typed
  have wired := stepped.steady.linked.wired
  obtain ⟨c, f, i, o, e, g, xs, executed, home, hg, invokes, homes⟩ := stepped.calls followed own calls
  obtain ⟨k, l, ho, rfl, queue⟩ := rep.counted_at typed hg counted
  obtain ⟨ready, current, joined, p, hp, blocked⟩ := executed.joins invokes ho nonzero
  have member : c ∈ t'.engine.store.queue g := Store.queue_of joined ▸ List.mem_append_right _ (List.mem_singleton_self c)
  obtain ⟨isBlocked, waits, _⟩ := wired.member g c member
  have home' : w'.home c b := stepped.sim.home_of_marks (wired.registered c isBlocked)
    ((rep.marks home).keep rep rep' stepped.abides)
  obtain ⟨as', readWaits, waiting⟩ := rep'.waits_eq home' hp
  rw [Store.waits_of hp] at waits
  rw [waits] at waiting
  obtain _ | ⟨hg', _ | _⟩ := waiting
  cases ((rep.marks hg).keep rep rep' stepped.abides).same rep' hg'
  obtain ⟨qs', counted', queue'⟩ := rep'.counted hg' joined
  cases stepped.homes_same sim (List.rel_append queue (.cons home .nil)) queue'
  have turns := stepped.sim.machine.current
  rw [current] at turns
  refine ⟨?_, ?_, fun again => ?_, blocked ▸ rep'.isBlocked_eq home' hp, readWaits, counted'⟩
  · exact stepped.homes_same sim sim.machine.dispatch.ready (ready ▸ stepped.sim.machine.ready)
  · generalize x'.machine.scheduler.current = y at turns
    cases turns
    rfl
  · obtain ⟨c', queued, home''⟩ := related_left stepped.sim.machine.ready again
    cases rep'.unique home' home''
    have idle := stepped.steady.balanced.disjoint (List.mem_append_right _ queued)
    rw [idle] at isBlocked
    cases isBlocked

end

/-! ### Runs -/

theorem Run.tallied (run : Run code config journal history x) :
    ∃ w t log, Followed w t x log history ∧ Tallied w t.engine.store history x := by
  refine run.traced (P := fun w t _ history x => Tallied w t.engine.store history x) (fun w x _ _ g a k l _ ho => ?_)
    fun followed tallied own stepped => tallied.step followed own stepped
  match g with
  | 0 | 1 | 2 => cases ho
  | g + 3 => cases ho

/-- A wait group whose counter would fall below zero stays as it is, and the step fails. -/
theorem Run.refuses {b g : Addr} {p : Nat} {i : Instruction} {method : String} {as : List Addr} {delta : Int64}
    (run : Run code config journal history x) (going : x.finished = false) (faces : x.Faces b p i)
    (invokes : x.machine.heap.Invokes b i g method as) (asks : x.machine.heap.Asks method as delta) (counted : x.machine.heap.Counted g n qs)
    (negative : n.toInt + delta.toInt < 0) : ∃ cause x', Execution.step x = .error (.error cause) x' ∧
      (cause = .heap .negativeCounter ∨ cause = .timeLimitExceeded x.config.maxInstructions) ∧ x'.machine.heap.Counted g n qs := by
  obtain ⟨w, t, log, followed⟩ := run.followed
  have sim := followed.sim
  have rep := sim.machine.rep
  have typed := followed.steady.linked.typed
  obtain ⟨c, turn, home⟩ := sim.turn faces.turn
  have isContext := typed.contexts c (sim.machine.dispatch.registered c (by simp [turn]))
  obtain ⟨f, hf⟩ := typed.canonical isContext
  obtain ⟨r, xs, invokes, hr, homes⟩ := rep.invoked typed home isContext invokes
  obtain ⟨k, l, ho, rfl, queue⟩ := rep.counted_at typed hr counted
  obtain ⟨cause, x', s', failed, reason, rep', ho'⟩ := sim.refuses home hf going faces invokes (rep.asked typed homes asks) ho negative
  obtain ⟨qs', counted', queue'⟩ := rep'.counted hr ho'
  cases World.marks_same (queue.imp fun _ _ home => rep.marks home) rep' queue'
  exact ⟨cause, x', failed, reason, counted'⟩

/-- Wait groups over a whole run. The counter of a live wait group is the sum of what has been added to it, and not below zero; if it
is zero nobody waits, and all who wait are blocked, in the order in which they came. A step that brings it to zero releases exactly
those who wait, and who waits for one that is not at zero is blocked by the step. If a counter would fall below zero, the step fails,
and counter and queue are as before. -/
theorem Run.wait_groups (run : Run code config journal history x) :
    (∀ g, x.machine.heap.Holds g .waitGroup → ∃ n qs ds, x.machine.heap.Counted g n qs ∧ Tally g history x ds qs ∧ n.toInt = ds.sum ∧
      0 ≤ n.toInt ∧ (n = 0 → qs = []) ∧ ∀ c ∈ qs, Context.isBlocked c x.machine.heap = .ok true) ∧
    (∀ outcome x', x.SelectsOwn → Execution.step x = .ok outcome x' → ∀ c g method as n qs, (⟨x, outcome⟩ : Entry).CallsMethod c g method as →
      x.machine.heap.Counted g n qs →
        (∀ delta, x.machine.heap.Asks method as delta → n.toInt + delta.toInt = 0 → Releases x x' c qs) ∧
        (method = "Wait" → n ≠ 0 → Joins x x' c g n qs)) ∧
    (x.finished = false → ∀ c p i g method as delta n qs, x.Faces c p i → x.machine.heap.Invokes c i g method as →
      x.machine.heap.Asks method as delta → x.machine.heap.Counted g n qs → n.toInt + delta.toInt < 0 →
        ∃ cause x', Execution.step x = .error (.error cause) x' ∧
          (cause = .heap .negativeCounter ∨ cause = .timeLimitExceeded x.config.maxInstructions) ∧ x'.machine.heap.Counted g n qs) := by
  refine ⟨fun g holds => ?_, fun outcome x' own step c g method as n qs calls counted => ?_, ?_⟩
  · obtain ⟨w, t, log, followed, tallied⟩ := run.tallied
    have rep := followed.sim.machine.rep
    obtain ⟨r, k, l, home, ho⟩ := rep.group_at holds
    obtain ⟨qs, counted, queue⟩ := rep.counted home ho
    obtain ⟨ds, qs', tally, balances⟩ := tallied r g k l home ho
    cases World.marks_same (queue.imp fun _ _ home => rep.marks home) rep balances.queue
    refine ⟨k.toInt64, qs, ds, counted, tally, balances.counter, balances.counter ▸ balances.nonneg, fun zero => ?_, fun c hc => ?_⟩
    · have none := balances.empty (balances.zero.mp zero)
      subst none
      cases queue
      rfl
    · obtain ⟨y, hy, home'⟩ := related_left queue hc
      obtain ⟨f, hf⟩ := followed.steady.linked.typed.canonical (followed.steady.linked.typed.good _ _ ho y hy)
      obtain ⟨isBlocked, _⟩ := followed.steady.linked.wired.member r y (Store.queue_of ho ▸ hy)
      rw [Store.blockedAt_of hf] at isBlocked
      rw [rep.isBlocked_eq home' hf]
      cases blocked : f.blocked with
      | true => rfl
      | false =>
        rw [blocked] at isBlocked
        cases isBlocked
  · obtain ⟨w, t, log, followed⟩ := run.followed
    obtain ⟨w', t', done, events, stepped⟩ := followed.sim.stepped followed.steady own step
    refine ⟨fun delta asks zero => stepped.releases followed own calls counted asks zero, ?_⟩
    rintro rfl nonzero
    exact stepped.joins followed own calls counted nonzero
  · intro going c p i g method as delta n qs faces invokes asks counted negative
    exact run.refuses going faces invokes asks counted negative

/-- A wait group to which 2 has been added. -/
theorem Run.wait_groups_added : ∃ history x g ds,
    Run #[.loadDefault .waitGroup, .dup, .loadInt 2, .callMethod "Add" 1, .done] { heapWords := 128 } (.start none) history x ∧
      x.machine.heap.Holds g .waitGroup ∧ x.machine.heap.Counted g 2 [] ∧ Tally g history x ds [] ∧ ds.sum = 2 := by
  obtain ⟨history, x, run, found⟩ := Run.of_follow (P := fun _ x => x.machine.heap.finds x.main [0, 0, 0] .waitGroup &&
      (x.machine.heap.along x.main [0, 0, 0]).any fun g =>
        (WaitGroup.counter g x.machine.heap).toOption == some 2 && (WaitGroup.waiting g x.machine.heap).toOption == some [])
    #[.loadDefault .waitGroup, .dup, .loadInt 2, .callMethod "Add" 1, .done] { heapWords := 128 } (.start none) 4 (by decide +kernel)
  rw [Bool.and_eq_true] at found
  obtain ⟨g, path, holds⟩ := Heap.finds_holds found.1
  rw [path, Option.any_some, Bool.and_eq_true, beq_iff_eq, beq_iff_eq] at found
  obtain ⟨n, qs, ds, counted, tally, sum, _⟩ := run.wait_groups.1 g holds
  obtain ⟨_, counter, waiting⟩ := found
  rw [counted.counter] at counter
  rw [counted.waiting] at waiting
  cases counter
  cases waiting
  exact ⟨history, x, g, ds, run, holds, counted, tally, sum.symm⟩

end FiberMachine
