import FiberMachine.Proofs.Refinement.Views

/-!
# Waiting in two places

What waits is entered twice: a request on its channel and on the wait-list of its context, a context in the queue of a wait group and
the wait group on the wait-list of the context. Either entry needs memory. If there is enough, both places have one entry more, at
the end. If the channel refuses the request, or there is no memory for the first entry, both are as they were. But the first entry is not
taken back when there is no memory for the second one.
-/

namespace FiberMachine

namespace Heap

variable {h h' k : Heap} {a b c d g l m n q u v x y : Nat} {t : Tag} {L P : Nat → Prop} {N ns ms xs ys waiting waits rs : List Nat}

/-! ### Adding to a list while addresses are protected -/

theorem live_protected (tidy : h.Tidy) (good : ∀ r ∈ rs, h.Allocated r) (ha : h.Live rs a) : (h.rooting rs).Live ns a :=
  ((live_rooting tidy good).mpr ha).mono fun _ hr => Live.root (by simpa using hr)

theorem IsList.pushBack_rooted (s : h.IsList a ns xs) (tidy : h.Tidy) (hx : h.Allocated x) (good : ∀ r ∈ rs, h.Allocated r) :
    Starved (withRoots rs (LinkedList.pushBack a x)) h rs ∨ ∃ h' m, withRoots rs (LinkedList.pushBack a x) h = .ok () h' ∧
      Evolves h (h.Live rs) h' (fun b => b = a ∨ b ∈ ns) [m] ∧ h'.IsList a (ns ++ [m]) (xs ++ [x]) := by
  have keep {b : Nat} (hb : h.Allocated b) : Kept h (h.rooting rs) b := sameArena_rooting.kept hb
  have s' : (h.rooting rs).IsList a ns xs := s.kept (keep s.is.allocated) fun n hn => keep (s.node n hn).2.allocated
  rcases s'.pushBack_spec (tidy.rooting good) (keep hx).allocated with ⟨n, h', run, e⟩ | ⟨h', m, run, e, list⟩
  · obtain ⟨h'', run', -, e'⟩ := withRoots_error run e
    exact .inl ⟨n, h'', run', e'.weaken (fun b hb => live_protected tidy good hb) (fun _ _ no => no) fun _ hb => hb⟩
  · obtain ⟨h'', run', same, -, e'⟩ := withRoots_ok run e
    refine .inr ⟨h'', m, run', e'.weaken (fun b hb => live_protected tidy good hb) (fun _ _ hb => hb) fun _ hb => hb, ?_⟩
    exact list.kept (same.kept list.is.allocated) fun n hn => same.kept (list.node n hn).2.allocated

/-- An object of another kind is no block of a list. -/
theorem IsList.apart (s : h.IsList a ns xs) (is : h.Is b t n) (list : t ≠ .list) (node : t ≠ .listNode) : ¬(b = a ∨ b ∈ ns) := by
  rintro (rfl | hb)
  · exact list (is.tag.symm.trans s.is.tag)
  · exact node (is.tag.symm.trans (s.node b hb).2.tag)

/-! ### Requests -/

/-- The request `q` of the context `c` for the channel `d`, on which `waiting` are entered, and what the context waits for. The two lists
have no block in common. -/
structure Parkable (h : Heap) (q c d : Nat) (waiting waits : List Nat) : Prop where
  tidy : h.Tidy
  request : h.Is q .channelRequest 7
  context : h.Is c .context 7
  channel : h.Is d .channel 3
  contextOf : h.ref q Request.contextField = c
  channelOf : h.ref q Request.channelField = d
  lists : ∃ ns ms, h.IsList (h.ref d Channel.waitersField) ns waiting ∧ h.IsList (h.ref c Context.waitsField) ms waits ∧
    (h.ref d Channel.waitersField :: ns).Disjoint (h.ref c Context.waitsField :: ms)
  requests : ∀ r ∈ waiting, h.Is r .channelRequest 7

theorem waiting_eq (tidy : h.Tidy) (is : h.Is d .channel 3) (list : h.IsList (h.ref d Channel.waitersField) ns xs) :
    Channel.waiting d h = .ok xs := by
  simp only [Channel.waiting, Channel.waiters, HeapReader.run_bind, tidy.sound.readNat_eq is (show Channel.waitersField < 3 by decide),
    list.values_eq tidy]

theorem waits_eq (tidy : h.Tidy) (is : h.Is c .context 7) (list : h.IsList (h.ref c Context.waitsField) ns xs) :
    Context.waits c h = .ok xs := by
  simp only [Context.waits, Context.waitList, HeapReader.run_bind, tidy.sound.readNat_eq is (show Context.waitsField < 7 by decide),
    list.values_eq tidy]

/-- Whether a request is opposed can always be told. -/
theorem opposes_eq (tidy : h.Tidy) (direction : Direction) (requests : ∀ r ∈ xs, h.Is r .channelRequest 7) :
    ∃ opposed, Channel.opposes c direction xs h = .ok opposed := by
  induction xs with
  | nil => exact ⟨false, rfl⟩
  | cons r xs ih =>
    obtain ⟨opposed, rest⟩ := ih fun r hr => requests r (List.mem_cons_of_mem _ hr)
    have is := requests r List.mem_cons_self
    obtain ⟨u, way⟩ : ∃ u, Request.directionOf r h = .ok u := by
      have word := tidy.sound.read_eq is (show Request.directionField < 7 by decide)
      simp only [Request.directionOf, HeapReader.run_bind, word]
      exact ⟨_, rfl⟩
    have owner : Request.contextOf r h = .ok (h.ref r Request.contextField) := tidy.sound.readNat_eq is (by decide)
    simp only [Channel.opposes, HeapReader.run_bind, HeapReader.run_ite, way, owner, HeapReader.run_pure, rest]
    by_cases other : u ≠ direction
    · by_cases foreign : h.ref r Request.contextField ≠ c
      · exact ⟨true, by simp only [if_pos other, if_pos foreign]⟩
      · exact ⟨opposed, by simp only [if_pos other, if_neg foreign]⟩
    · exact ⟨opposed, by simp only [if_neg other]⟩

/-- What waits on a channel, and what a context waits for. -/
def Entered (h : Heap) (d c : Nat) (waiting waits : List Nat) : Prop :=
  Channel.waiting d h = .ok waiting ∧ Context.waits c h = .ok waits

/-- How parking the request `q` of the context `c` on the channel `d` ends. -/
inductive ParkEnds (h : Heap) (q c d : Nat) (waiting waits : List Nat) : Prop
  /-- Either list has one entry more. -/
  | entered {h' : Heap} (run : Channel.park q h = .ok () h') (both : h'.Entered d c (waiting ++ [q]) (waits ++ [q]))
  /-- The channel refuses the request, and nothing has changed at all. -/
  | refused (run : Channel.park q h = .error (.error (.mixedWaiters d)) h)
  /-- There is no memory for the entry on the channel, and neither list has changed. -/
  | starved {n : Nat} {h' : Heap} (run : Channel.park q h = .error (.error (.outOfMemory n)) h')
      (first : NoMemory (LinkedList.pushBack (h.ref d Channel.waitersField) q) h) (neither : h'.Entered d c waiting waits)
  /-- There is memory for the entry on the channel, which is made, but not for the other one. -/
  | halfway {n : Nat} {h' h₁ : Heap} (run : Channel.park q h = .error (.error (.outOfMemory n)) h')
      (first : LinkedList.pushBack (h.ref d Channel.waitersField) q h = .ok () h₁) (one : h'.Entered d c (waiting ++ [q]) waits)

namespace Parkable

variable (p : h.Parkable q c d waiting waits)
include p

theorem entered : h.Entered d c waiting waits := by
  obtain ⟨ns, ms, first, second, -⟩ := p.lists
  exact ⟨waiting_eq p.tidy p.channel first, waits_eq p.tidy p.context second⟩

/-- Whatever keeps a request keeps its channel and its context. -/
theorem survives (sv : h.Survives L) (hq : L q) : L c ∧ L d := by
  constructor
  · have := p.tidy.child_field p.request (π := [0, 1, 4, 5, 6]) rfl (i := Request.contextField) (by decide)
    exact sv.child _ _ hq (p.contextOf ▸ this)
  · have := p.tidy.child_field p.request (π := [0, 1, 4, 5, 6]) rfl (i := Request.channelField) (by decide)
    exact sv.child _ _ hq (p.channelOf ▸ this)

/-- The request after the heap has evolved, when at most its two lists have changed. -/
theorem evolve (good : ∀ r ∈ rs, h.Allocated r) (hq : h.Live rs q) (e : Evolves h (h.Live rs) h' P N)
    (others : ∀ b t n, h.Is b t n → t ≠ .list → t ≠ .listNode → ¬P b) {waiting' waits' : List Nat}
    (lists : ∃ ns ms, h'.IsList (h.ref d Channel.waitersField) ns waiting' ∧ h'.IsList (h.ref c Context.waitsField) ms waits' ∧
      (h.ref d Channel.waitersField :: ns).Disjoint (h.ref c Context.waitsField :: ms))
    (part : ∀ r ∈ waiting', r ∈ waiting ∨ r = q) : h'.Parkable q c d waiting' waits' := by
  obtain ⟨ns, ms, first, second, -⟩ := p.lists
  have sv := Survives.live p.tidy good
  obtain ⟨hc, hd⟩ := p.survives sv hq
  have hl : h.Live rs (h.ref d Channel.waitersField) := hd.child (p.tidy.child_field p.channel (π := [1, 2]) rfl (by decide))
  have kept {b n : Nat} {t : Tag} (hb : h.Live rs b) (is : h.Is b t n) (list : t ≠ .list) (node : t ≠ .listNode) : Kept h h' b :=
    e.kept b hb (others b t n is list node)
  have request := kept hq p.request (by decide) (by decide)
  have context := kept hc p.context (by decide) (by decide)
  have channel := kept hd p.channel (by decide) (by decide)
  have ofRequest (i : Nat) (hi : i < 7) : h'.ref q i = h.ref q i := request.ref (Nat.lt_of_lt_of_le hi p.request.room)
  have ofContext : h'.ref c Context.waitsField = h.ref c Context.waitsField :=
    context.ref (Nat.lt_of_lt_of_le (by decide) p.context.room)
  have ofChannel : h'.ref d Channel.waitersField = h.ref d Channel.waitersField :=
    channel.ref (Nat.lt_of_lt_of_le (by decide) p.channel.room)
  refine ⟨e.tidy, request.is p.request, context.is p.context, channel.is p.channel, ?_, ?_, ?_, fun r hr => ?_⟩
  · exact (ofRequest _ (by decide)).trans p.contextOf
  · exact (ofRequest _ (by decide)).trans p.channelOf
  · rwa [ofContext, ofChannel]
  · rcases part r hr with hr | rfl
    · exact (kept (first.item_survives p.tidy sv hl hr) (p.requests r hr) (by decide) (by decide)).is (p.requests r hr)
    · exact request.is p.request

/-- The lists of a request that is kept are kept. -/
theorem lists_survive (sv : h.Survives L) (hq : L q) :
    L (h.ref d Channel.waitersField) ∧ L (h.ref c Context.waitsField) := by
  obtain ⟨hc, hd⟩ := p.survives sv hq
  constructor
  · exact sv.child _ _ hd (p.tidy.child_field p.channel (π := [1, 2]) rfl (by decide))
  · exact sv.child _ _ hc (p.tidy.child_field p.context (π := [1, 2, 3, 5]) rfl (by decide))

/-- When there is no memory for an entry, nothing has happened to a request that was protected. -/
theorem unchanged {α : Type} {m : HeapM α} (good : ∀ r ∈ rs, h.Allocated r) (hq : h.Live rs q) (full : Starved m h rs) :
    ∃ n h', m h = .error (.error (.outOfMemory n)) h' ∧ h'.Entered d c waiting waits := by
  obtain ⟨n, h', run, e⟩ := full
  obtain ⟨ns, ms, first, second, apart⟩ := p.lists
  have sv := Survives.live p.tidy good
  obtain ⟨ha, hb⟩ := p.lists_survive sv hq
  refine ⟨n, h', run, (p.evolve good hq e (fun _ _ _ _ _ _ => id) ⟨ns, ms, ?_, ?_, apart⟩ fun r hr => .inl hr).entered⟩
  · exact first.kept (e.kept _ ha id) fun n hn => e.kept n (first.survives p.tidy sv ha n hn) id
  · exact second.kept (e.kept _ hb id) fun n hn => e.kept n (second.survives p.tidy sv hb n hn) id

/-- The request is entered on its channel. -/
theorem enter_first : Starved (LinkedList.pushBack (h.ref d Channel.waitersField) q) h [h.ref d Channel.waitersField, q] ∨
    ∃ h', LinkedList.pushBack (h.ref d Channel.waitersField) q h = .ok () h' ∧ h'.Parkable q c d (waiting ++ [q]) waits := by
  obtain ⟨ns, ms, first, second, apart⟩ := p.lists
  have good : ∀ r ∈ [h.ref d Channel.waitersField, q], h.Allocated r := by simp [first.is.allocated, p.request.allocated]
  refine (first.pushBack_spec p.tidy p.request.allocated).imp_right ?_
  rintro ⟨h', m, run, e, first'⟩
  have hq : h.Live [h.ref d Channel.waitersField, q] q := .extra (by simp)
  have sv := Survives.live p.tidy good
  obtain ⟨-, hb⟩ := p.lists_survive sv hq
  have nodes := second.survives p.tidy sv hb
  have fresh := (e.new m List.mem_cons_self).2
  have others (b : Nat) (hb : b ∈ h.ref c Context.waitsField :: ms) : ¬(b = h.ref d Channel.waitersField ∨ b ∈ ns) := fun no =>
    apart (by simpa using no) hb
  refine ⟨h', run, p.evolve good hq e (fun b t n is list node => first.apart is list node) ⟨ns ++ [m], ms, first', ?_, ?_⟩ fun r hr => ?_⟩
  · exact second.kept (e.kept _ hb (others _ (by simp))) fun n hn => e.kept n (nodes n hn) (others n (by simp [hn]))
  · rw [← List.cons_append]
    intro b hb' hb''
    rcases List.mem_append.mp hb' with old | new
    · exact apart old hb''
    · cases List.mem_singleton.mp new
      rcases List.mem_cons.mp hb'' with rfl | hn
      · exact fresh hb
      · exact fresh (nodes _ hn)
  · simpa using hr

/-- The request is entered on the wait-list of its context. -/
theorem enter_second : Starved (withRoots [q] (LinkedList.pushBack (h.ref c Context.waitsField) q)) h [q] ∨
    ∃ h', withRoots [q] (LinkedList.pushBack (h.ref c Context.waitsField) q) h = .ok () h' ∧ h'.Entered d c waiting (waits ++ [q]) := by
  obtain ⟨ns, ms, first, second, apart⟩ := p.lists
  have good : ∀ r ∈ [q], h.Allocated r := by simp [p.request.allocated]
  refine (second.pushBack_rooted p.tidy p.request.allocated good).imp_right ?_
  rintro ⟨h', m, run, e, second'⟩
  have hq : h.Live [q] q := .extra (by simp)
  have sv := Survives.live p.tidy good
  obtain ⟨ha, -⟩ := p.lists_survive sv hq
  have nodes := first.survives p.tidy sv ha
  have fresh := (e.new m List.mem_cons_self).2
  have others (b : Nat) (hb : b ∈ h.ref d Channel.waitersField :: ns) : ¬(b = h.ref c Context.waitsField ∨ b ∈ ms) := fun no =>
    apart hb (by simpa using no)
  have disjoint : (h.ref d Channel.waitersField :: ns).Disjoint (h.ref c Context.waitsField :: (ms ++ [m])) := by
    rw [← List.cons_append]
    intro b hb' hb''
    rcases List.mem_append.mp hb'' with old | new
    · exact apart hb' old
    · cases List.mem_singleton.mp new
      rcases List.mem_cons.mp hb' with rfl | hn
      · exact fresh ha
      · exact fresh (nodes _ hn)
  refine ⟨h', run, (p.evolve good hq e (fun b t n is list node => second.apart is list node) ⟨ns, ms ++ [m], ?_, second', disjoint⟩
    fun r hr => .inl hr).entered⟩
  exact first.kept (e.kept _ ha (others _ (by simp))) fun n hn => e.kept n (nodes n hn) (others n (by simp [hn]))

/-- Parking enters the request in one list and then in the other, unless the channel refuses it. -/
theorem park_eq : Channel.park q h = .error (.error (.mixedWaiters d)) h ∨
    Channel.park q h = (do
      LinkedList.pushBack (h.ref d Channel.waitersField) q
      let waits ← Context.waitList c
      withRoots [q] (LinkedList.pushBack waits q) : HeapM Unit) h := by
  obtain ⟨ns, ms, first, second, apart⟩ := p.lists
  have channel : Request.channelOf q h = .ok d := p.channelOf ▸ p.tidy.sound.readNat_eq p.request (by decide)
  have context : Request.contextOf q h = .ok c := p.contextOf ▸ p.tidy.sound.readNat_eq p.request (by decide)
  obtain ⟨u, way⟩ : ∃ u, Request.directionOf q h = .ok u := by
    have word := p.tidy.sound.read_eq p.request (show Request.directionField < 7 by decide)
    simp only [Request.directionOf, HeapReader.run_bind, word]
    exact ⟨_, rfl⟩
  have waiters : Channel.waiters d h = .ok (h.ref d Channel.waitersField) := p.tidy.sound.readNat_eq p.channel (by decide)
  obtain ⟨opposed, test⟩ := opposes_eq (c := c) p.tidy u p.requests
  cases opposed with
  | true =>
    left
    simp only [Channel.park, HeapM.run_bind, HeapM.run_lift, channel, context, way, waiters, first.values_eq p.tidy, test, if_true]
    rfl
  | false =>
    right
    simp only [Channel.park, HeapM.run_bind, HeapM.run_lift, channel, context, way, waiters, first.values_eq p.tidy, test,
      Bool.false_eq_true, if_false]

/-- Parking ends in one of four ways. -/
theorem ends : h.ParkEnds q c d waiting waits := by
  rcases p.park_eq with refused | eq
  · exact .refused refused
  rcases p.enter_first with full | ⟨h₁, run, p₁⟩
  · have good : ∀ r ∈ [h.ref d Channel.waitersField, q], h.Allocated r := by
      obtain ⟨ns, ms, first, -⟩ := p.lists
      simp [first.is.allocated, p.request.allocated]
    obtain ⟨n, h', run, entered⟩ := p.unchanged good (.extra (by simp)) (full.bind _)
    exact .starved (eq.trans run) full.noMemory entered
  have waitList : Context.waitList c h₁ = .ok (h₁.ref c Context.waitsField) := p₁.tidy.sound.readNat_eq p₁.context (by decide)
  simp only [HeapM.run_bind, HeapM.run_lift, run, waitList] at eq
  rcases p₁.enter_second with full | ⟨h₂, run₂, entered⟩
  · obtain ⟨n, h', run', entered⟩ := p₁.unchanged (by simp [p₁.request.allocated]) (.extra (by simp)) full
    exact .halfway (eq.trans run') run entered
  · exact .entered (eq.trans run₂) entered

end Parkable

/-! ### Contexts that wait for a wait group -/

/-- The heap is tidy again, and its roots are the same. -/
def Settles (h h' : Heap) : Prop := Evolves h (fun _ => False) h' (fun _ => False) []

theorem Evolves.settles (e : Evolves h L h' P N) : h.Settles h' :=
  e.weaken (fun _ no => no.elim) (fun _ no _ => no) fun _ no => absurd no List.not_mem_nil

theorem Settles.trans (e : h.Settles h') (f : h'.Settles k) : h.Settles k :=
  (Evolves.trans e f (fun _ no => no) fun _ no => absurd no List.not_mem_nil).settles

/-- The context `c` and the wait group `g`, what waits for the wait group, what the context waits for, and whether it is blocked. -/
structure Joinable (h : Heap) (g c : Nat) (waiting waits : List Nat) (flag : Word) : Prop where
  tidy : h.Tidy
  group : h.Is g .waitGroup 2
  context : h.Is c .context 7
  queue : ∃ d n, h.IsQueue (h.ref g WaitGroup.waitersField) d n waiting
  list : ∃ ns, h.IsList (h.ref c Context.waitsField) ns waits
  flag : h.cell c Context.blockedField = flag

/-- What waits for a wait group, what a context waits for, and whether the context is blocked. -/
def Joined (h : Heap) (g c : Nat) (waiting waits : List Nat) (flag : Word) : Prop :=
  WaitGroup.waiting g h = .ok waiting ∧ Context.waits c h = .ok waits ∧ Context.isBlocked c h = .ok (flag != 0)

/-- How it ends when the context `c` is to wait for the wait group `g`. -/
inductive WaitEnds (h : Heap) (g c : Nat) (waiting waits : List Nat) (flag : Word) : Prop
  /-- The counter is zero, and nothing has changed at all. -/
  | idle (run : WaitGroup.wait g c h = .ok false h) (zero : WaitGroup.counter g h = .ok 0)
  /-- The queue and the wait-list have one entry more, and the context is blocked. -/
  | waits {h' : Heap} (run : WaitGroup.wait g c h = .ok true h') (both : h'.Joined g c (waiting ++ [c]) (waits ++ [g]) 1)
  /-- There is no memory for the entry in the queue, and nothing has changed. -/
  | starved {n : Nat} {h' : Heap} (run : WaitGroup.wait g c h = .error (.error (.outOfMemory n)) h')
      (first : NoMemory (withRoots [g, c] (Queue.push (h.ref g WaitGroup.waitersField) c)) h) (neither : h'.Joined g c waiting waits flag)
  /-- There is memory for the entry in the queue, which is made, but not for the other one; the context is not blocked. -/
  | halfway {n : Nat} {h' h₁ : Heap} (run : WaitGroup.wait g c h = .error (.error (.outOfMemory n)) h')
      (first : withRoots [g, c] (Queue.push (h.ref g WaitGroup.waitersField) c) h = .ok () h₁) (one : h'.Joined g c (waiting ++ [c]) waits flag)

namespace Joinable

variable {flag : Word} (p : h.Joinable g c waiting waits flag)
include p

theorem joined : h.Joined g c waiting waits flag := by
  obtain ⟨d, n, queue⟩ := p.queue
  obtain ⟨ns, list⟩ := p.list
  refine ⟨?_, waits_eq p.tidy p.context list, ?_⟩
  · simp only [WaitGroup.waiting, WaitGroup.waiters, HeapReader.run_bind,
      p.tidy.sound.readNat_eq p.group (show WaitGroup.waitersField < 2 by decide), queue.items_eq p.tidy]
  · simp only [Context.isBlocked, HeapReader.run_bind, p.tidy.sound.read_eq p.context (show Context.blockedField < 7 by decide), p.flag,
      HeapReader.run_pure]

/-- The queue and the list of a wait group and a context that are kept are kept. -/
theorem survives (sv : h.Survives L) (hg : L g) (hc : L c) : L (h.ref g WaitGroup.waitersField) ∧ L (h.ref c Context.waitsField) :=
  ⟨sv.child _ _ hg (p.tidy.child_field p.group (π := [1]) rfl (by decide)),
    sv.child _ _ hc (p.tidy.child_field p.context (π := [1, 2, 3, 5]) rfl (by decide))⟩

/-- The wait group and the context after the heap has evolved, when at most the queue and the list have changed. -/
theorem evolve (hg : L g) (hc : L c) (e : Evolves h L h' P N) (others : ∀ b t n, h.Is b t n → t = .waitGroup ∨ t = .context → ¬P b)
    {waiting' waits' : List Nat} (queue : ∃ d n, h'.IsQueue (h.ref g WaitGroup.waitersField) d n waiting')
    (list : ∃ ns, h'.IsList (h.ref c Context.waitsField) ns waits') : h'.Joinable g c waiting' waits' flag := by
  have group := e.kept g hg (others g _ _ p.group (.inl rfl))
  have context := e.kept c hc (others c _ _ p.context (.inr rfl))
  have ofGroup : h'.ref g WaitGroup.waitersField = h.ref g WaitGroup.waitersField := group.ref (Nat.lt_of_lt_of_le (by decide) p.group.room)
  have ofContext : h'.ref c Context.waitsField = h.ref c Context.waitsField := context.ref (Nat.lt_of_lt_of_le (by decide) p.context.room)
  refine ⟨e.tidy, group.is p.group, context.is p.context, ?_, ?_, ?_⟩
  · rwa [ofGroup]
  · rwa [ofContext]
  · exact (context.cell (Nat.lt_of_lt_of_le (by decide) p.context.room)).trans p.flag

/-- Nothing has happened to them when there is no memory. -/
theorem unchanged (sv : h.Survives L) (hg : L g) (hc : L c) (e : Evolves h L h' (fun _ => False) N) : h'.Joinable g c waiting waits flag := by
  obtain ⟨d, n, queue⟩ := p.queue
  obtain ⟨ns, list⟩ := p.list
  obtain ⟨hq, hl⟩ := p.survives sv hg hc
  refine p.evolve hg hc e (fun _ _ _ _ _ => id) ⟨d, n, queue.kept (e.kept _ hq id) (e.kept d ?_ id)⟩ ⟨ns, list.kept (e.kept _ hl id) fun n hn => ?_⟩
  · exact sv.child _ _ hq (queue.child p.tidy)
  · exact e.kept n (list.survives p.tidy sv hl n hn) id

/-- They are the same in the same arena. -/
theorem arena (same : h.SameArena k) (tidy : k.Tidy) : k.Joinable g c waiting waits flag := by
  obtain ⟨d, n, queue⟩ := p.queue
  obtain ⟨ns, list⟩ := p.list
  have kept {b : Nat} (hb : h.Allocated b) : Kept h k b := same.kept hb
  refine ⟨tidy, same.is.mpr p.group, same.is.mpr p.context, ?_, ?_, ?_⟩
  · rw [same.ref]
    exact ⟨d, n, queue.kept (kept queue.is.allocated) (kept queue.allocated)⟩
  · rw [same.ref]
    exact ⟨ns, list.kept (kept list.is.allocated) fun n hn => kept (list.node n hn).2.allocated⟩
  · rw [cell, same.wordAt]
    exact p.flag

/-- The context is entered in the queue of the wait group. -/
theorem enter_first (root : ∀ r ∈ [g, c], r ∈ h.roots) : ∃ h', h.Settles h' ∧
    ((∃ n, Queue.push (h.ref g WaitGroup.waitersField) c h = .error (.error (.outOfMemory n)) h' ∧ h'.Joinable g c waiting waits flag) ∨
      Queue.push (h.ref g WaitGroup.waitersField) c h = .ok () h' ∧ h'.Joinable g c (waiting ++ [c]) waits flag) := by
  obtain ⟨d, n, queue⟩ := p.queue
  obtain ⟨ns, list⟩ := p.list
  have good : ∀ r ∈ [h.ref g WaitGroup.waitersField, c], h.Allocated r := by simp [queue.is.allocated, p.context.allocated]
  have sv := Survives.live p.tidy good
  have hg : h.Live [h.ref g WaitGroup.waitersField, c] g := .root (root g (by simp))
  have hc : h.Live [h.ref g WaitGroup.waitersField, c] c := .root (root c (by simp))
  obtain ⟨hq, hl⟩ := p.survives sv hg hc
  rcases queue.push_spec p.tidy p.context.allocated with ⟨n, h', run, e⟩ | ⟨h', d', n', N, run, e, queue', -⟩
  · exact ⟨h', e.settles, .inl ⟨n, run, p.unchanged sv hg hc e⟩⟩
  have apart {b n : Nat} {t : Tag} (is : h.Is b t n) (ring : t ≠ .queue) (slots : t ≠ .array) :
      ¬(b = h.ref g WaitGroup.waitersField ∨ b = d) := by
    obtain ⟨_, _, -, -, items, -⟩ := queue.ring
    rintro (rfl | rfl)
    · exact ring (is.tag.symm.trans queue.is.tag)
    · exact slots (is.tag.symm.trans items.is.tag)
  refine ⟨h', e.settles, .inr ⟨run, p.evolve hg hc e ?_ ⟨d', n', queue'⟩ ⟨ns, list.kept ?_ fun n hn => ?_⟩⟩⟩
  · rintro b t n is (rfl | rfl) <;> exact apart is (by decide) (by decide)
  · exact e.kept _ hl (apart list.is (by decide) (by decide))
  · exact e.kept n (list.survives p.tidy sv hl n hn) (apart (list.node n hn).2 (by decide) (by decide))

/-- The wait group is entered on the wait-list of the context. -/
theorem enter_second (root : ∀ r ∈ [g, c], r ∈ h.roots) : ∃ h', h.Settles h' ∧
    ((∃ n, LinkedList.pushBack (h.ref c Context.waitsField) g h = .error (.error (.outOfMemory n)) h' ∧ h'.Joinable g c waiting waits flag) ∨
      LinkedList.pushBack (h.ref c Context.waitsField) g h = .ok () h' ∧ h'.Joinable g c waiting (waits ++ [g]) flag) := by
  obtain ⟨d, n, queue⟩ := p.queue
  obtain ⟨ns, list⟩ := p.list
  have good : ∀ r ∈ [h.ref c Context.waitsField, g], h.Allocated r := by simp [list.is.allocated, p.group.allocated]
  have sv := Survives.live p.tidy good
  have hg : h.Live [h.ref c Context.waitsField, g] g := .root (root g (by simp))
  have hc : h.Live [h.ref c Context.waitsField, g] c := .root (root c (by simp))
  obtain ⟨hq, hl⟩ := p.survives sv hg hc
  rcases list.pushBack_spec p.tidy p.group.allocated with ⟨n, h', run, e⟩ | ⟨h', m, run, e, list'⟩
  · exact ⟨h', e.settles, .inl ⟨n, run, p.unchanged sv hg hc e⟩⟩
  obtain ⟨_, _, -, -, items, -⟩ := queue.ring
  refine ⟨h', e.settles, .inr ⟨run, p.evolve hg hc e ?_ ⟨d, n, queue.kept ?_ ?_⟩ ⟨ns ++ [m], list'⟩⟩⟩
  · rintro b t n is (rfl | rfl) <;> exact list.apart is (by decide) (by decide)
  · exact e.kept _ hq (list.apart queue.is (by decide) (by decide))
  · exact e.kept d (sv.child _ _ hq (queue.child p.tidy)) (list.apart items.is (by decide) (by decide))

/-- The context blocks. -/
theorem block : ∃ h', Context.setBlocked c true h = .ok () h' ∧ h'.Joinable g c waiting waits 1 := by
  obtain ⟨d, n, queue⟩ := p.queue
  obtain ⟨ns, list⟩ := p.list
  obtain ⟨_, _, -, -, items, -⟩ := queue.ring
  obtain ⟨h', run, e, is, cells⟩ := p.tidy.write (w := (1 : Word)) p.context (π := [1, 2, 3, 5]) rfl (i := Context.blockedField) (by decide)
    (fun no => absurd no (by decide))
  have kept {b n : Nat} {t : Tag} (is : h.Is b t n) (other : t ≠ .context) : Kept h h' b :=
    e.kept b is.allocated (is.ne p.context other)
  have group := kept p.group (by decide)
  have ofGroup : h'.ref g WaitGroup.waitersField = h.ref g WaitGroup.waitersField := group.ref (Nat.lt_of_lt_of_le (by decide) p.group.room)
  have ofContext : h'.ref c Context.waitsField = h.ref c Context.waitsField := by
    rw [ref, cells, if_neg (by decide), ref]
  refine ⟨h', run, e.tidy, group.is p.group, is, ?_, ?_, (cells _).trans (if_pos rfl)⟩
  · rw [ofGroup]
    exact ⟨d, n, queue.kept (kept queue.is (by decide)) (kept items.is (by decide))⟩
  · rw [ofContext]
    exact ⟨ns, list.kept (kept list.is (by decide)) fun n hn => kept (list.node n hn).2 (by decide)⟩

/-- Unless the counter is zero, both entries are made while the wait group and the context are protected. -/
theorem wait_eq : (WaitGroup.counter g h = .ok 0 ∧ WaitGroup.wait g c h = .ok false h) ∨ WaitGroup.wait g c h = (do
      withRoots [g, c] do
        Queue.push (h.ref g WaitGroup.waitersField) c
        LinkedList.pushBack (← Context.waitList c) g
      Context.setBlocked c true
      return true : HeapM Bool) h := by
  have counter : WaitGroup.counter g h = .ok (h.cell g WaitGroup.counterField).toInt64 := by
    simp only [WaitGroup.counter, HeapReader.run_bind, p.tidy.sound.read_eq p.group (show WaitGroup.counterField < 2 by decide),
      HeapReader.run_pure]
  have waiters : WaitGroup.waiters g h = .ok (h.ref g WaitGroup.waitersField) := p.tidy.sound.readNat_eq p.group (by decide)
  by_cases zero : (h.cell g WaitGroup.counterField).toInt64 = 0
  · left
    rw [counter, zero]
    refine ⟨rfl, ?_⟩
    simp only [WaitGroup.wait, HeapM.run_bind, HeapM.run_lift, counter, zero, if_true, HeapM.run_pure]
  · right
    simp only [WaitGroup.wait, HeapM.run_bind, HeapM.run_lift, counter, zero, if_false, waiters]

/-- Waiting for a wait group ends in one of four ways. -/
theorem ends : h.WaitEnds g c waiting waits flag := by
  rcases p.wait_eq with ⟨zero, run⟩ | eq
  · exact .idle run zero
  have good : ∀ r ∈ [g, c], h.Allocated r := by simp [p.group.allocated, p.context.allocated]
  have root : ∀ r ∈ [g, c], r ∈ (h.rooting [g, c]).roots := fun r hr => roots_rooting ▸ List.mem_append_right _ hr
  obtain ⟨h₁, settled₁, first⟩ := (p.arena sameArena_rooting (p.tidy.rooting good)).enter_first root
  rw [show (h.rooting [g, c]).ref g WaitGroup.waitersField = h.ref g WaitGroup.waitersField from rfl] at first
  rcases first with ⟨n, run, p₁⟩ | ⟨run, p₁⟩
  · obtain ⟨h', alone, -, -⟩ := withRoots_error run settled₁
    obtain ⟨h'', failed, same, settled⟩ := withRoots_error (m := do
      Queue.push (h.ref g WaitGroup.waitersField) c
      LinkedList.pushBack (← Context.waitList c) g) (by rw [HeapM.run_bind, run]) settled₁
    rw [HeapM.run_bind, failed] at eq
    exact .starved eq ⟨n, h', alone⟩ (p₁.arena same settled.tidy).joined
  have waitList : Context.waitList c h₁ = .ok (h₁.ref c Context.waitsField) := p₁.tidy.sound.readNat_eq p₁.context (by decide)
  obtain ⟨h₂, settled₂, second⟩ := p₁.enter_second fun r hr => settled₁.roots ▸ root r hr
  have settled := settled₁.trans settled₂
  have both : (do
      Queue.push (h.ref g WaitGroup.waitersField) c
      LinkedList.pushBack (← Context.waitList c) g : HeapM Unit) (h.rooting [g, c]) = LinkedList.pushBack (h₁.ref c Context.waitsField) g h₁ := by
    simp only [HeapM.run_bind, HeapM.run_lift, run, waitList]
  rcases second with ⟨n, run', p₂⟩ | ⟨run', p₂⟩
  · obtain ⟨h', alone, -, -⟩ := withRoots_ok run settled₁
    obtain ⟨h'', failed, same, settled⟩ := withRoots_error (both.trans run') settled
    rw [HeapM.run_bind, failed] at eq
    exact .halfway eq alone (p₂.arena same settled.tidy).joined
  · obtain ⟨h'', done, same, -, settled⟩ := withRoots_ok (both.trans run') settled
    obtain ⟨h₃, blocked, p₃⟩ := (p₂.arena same settled.tidy).block
    rw [HeapM.run_bind, done] at eq
    simp only [HeapM.run_bind, blocked, HeapM.run_pure] at eq
    exact .waits eq p₃.joined

end Joinable

/-! ### Both places -/

/-- Whatever waits is entered in both places or the action fails. A channel that refuses a request, and a wait group that nobody has to wait
for, leave everything as it was; when there is no memory, the wait-list and the flag of the context are as they were, and the first entry
is there if there was memory for it. -/
theorem both_entered (h : Heap) :
    (∀ q c d waiting waits, h.Parkable q c d waiting waits → h.ParkEnds q c d waiting waits) ∧
      ∀ g c waiting waits flag, h.Joinable g c waiting waits flag → h.WaitEnds g c waiting waits flag :=
  ⟨fun _ _ _ _ _ p => p.ends, fun _ _ _ _ _ p => p.ends⟩

/-- A context at 32, a channel at 48 with a request of the context at 56, and a wait group at 68 with counter 1. -/
def meeting : List Operation :=
  [.allocateTagged .array 5, .write 8 0 4, .allocateTagged .stack 2, .write 4 1 8, .allocateTagged .array 5, .write 16 0 4,
    .allocateTagged .stack 2, .write 24 1 16, .allocateTagged .list 3, .allocateTagged .context 7, .write 32 1 4, .write 32 2 24,
    .write 32 5 28, .write 32 6 1, .registerContext 32, .allocateTagged .array 1, .allocateTagged .queue 3, .write 40 2 2,
    .allocateTagged .list 3, .allocateTagged .channel 3, .write 48 1 40, .write 48 2 44, .pushRoot 48, .allocateTagged .channelRequest 7,
    .write 56 0 32, .write 56 1 48, .write 56 2 7, .pushRoot 56, .allocateTagged .array 1, .allocateTagged .queue 3, .write 64 2 52,
    .allocateTagged .waitGroup 2, .write 68 0 1, .write 68 1 64, .pushRoot 68]

/-- The same with only four words left together, which is enough for one entry. -/
def crowd : List Operation :=
  [.allocateTagged .bytes 31, .pushRoot 96, .allocateTagged .bytes 15, .pushRoot 80, .allocateTagged .bytes 3, .pushRoot 72]

theorem tidy_meeting : (built 128 meeting).Tidy := tidy_built (by decide) (by decide +kernel) (by decide +kernel)

theorem tidy_crowd : (built 128 (meeting ++ crowd)).Tidy := tidy_built (by decide) (by decide +kernel) (by decide +kernel)

/-- A list without nodes. -/
theorem IsList.of_empty (is : h.Is a .list 3) (fields : ∀ i < 3, h.ref a i = 0) : h.IsList a [] [] where
  is := is
  length := fields _ (by decide)
  first := fields _ (by decide)
  last := fields _ (by decide)
  same := rfl
  nodup := List.nodup_nil
  node := fun n hn => absurd hn List.not_mem_nil
  value := fun i hi => absurd hi (Nat.not_lt_zero i)
  before := fun i hi => absurd hi (Nat.not_lt_zero i)
  after := fun i hi => absurd hi (Nat.not_lt_zero i)

/-- What stands where, and that all lists and queues are empty. -/
theorem meeting_layout : let h := built 128 meeting
    h.Is 56 .channelRequest 7 ∧ h.Is 32 .context 7 ∧ h.Is 48 .channel 3 ∧ h.Is 68 .waitGroup 2 ∧ h.ref 56 Request.contextField = 32 ∧
      h.ref 56 Request.channelField = 48 ∧ h.cell 32 Context.blockedField = 0 ∧
      (h.Is (h.ref 48 Channel.waitersField) .list 3 ∧ ∀ i < 3, h.ref (h.ref 48 Channel.waitersField) i = 0) ∧
      (h.Is (h.ref 32 Context.waitsField) .list 3 ∧ ∀ i < 3, h.ref (h.ref 32 Context.waitsField) i = 0) ∧
      h.ref 48 Channel.waitersField ≠ h.ref 32 Context.waitsField ∧
      (h.Is (h.ref 68 WaitGroup.waitersField) .queue 3 ∧ h.ref (h.ref 68 WaitGroup.waitersField) Queue.lengthField = 0 ∧
        h.ref (h.ref 68 WaitGroup.waitersField) Queue.itemsField = 52 ∧ h.Is 52 .array 1 ∧ h.ref 52 0 = 0) := by
  decide +kernel

theorem parkable_meeting : (built 128 meeting).Parkable 56 32 48 [] [] := by
  obtain ⟨request, context, channel, -, contextOf, channelOf, -, ⟨waiting, none⟩, ⟨waits, no⟩, apart, -⟩ := meeting_layout
  exact ⟨tidy_meeting, request, context, channel, contextOf, channelOf,
    ⟨[], [], .of_empty waiting none, .of_empty waits no, List.disjoint_singleton.mpr (mt List.mem_singleton.mp apart.symm)⟩,
    fun r hr => absurd hr List.not_mem_nil⟩

theorem joinable_meeting : (built 128 meeting).Joinable 68 32 [] [] 0 := by
  obtain ⟨-, context, -, group, -, -, flag, -, ⟨waits, no⟩, -, queue, length, storage, items, count⟩ := meeting_layout
  exact ⟨tidy_meeting, group, context, ⟨52, 0, queue, length, storage, [], 0, rfl, .inl rfl,
    ⟨items, rfl, count, fun i hi => absurd hi (Nat.not_lt_zero i)⟩, rfl⟩, ⟨[], .of_empty waits no⟩, flag⟩

/-- With enough memory the request is entered twice, and so is the context that waits for the wait group. -/
theorem both_entered_meeting : (∃ h', Channel.park 56 (built 128 meeting) = .ok () h' ∧ h'.Entered 48 32 [56] [56]) ∧
    ∃ h', WaitGroup.wait 68 32 (built 128 meeting) = .ok true h' ∧ h'.Joined 68 32 [32] [68] 1 := by
  have parks : Passes (fun _ _ => true) (Channel.park 56 (built 128 meeting)) = true := by decide +kernel
  have waits : Passes (fun waits _ => waits) (WaitGroup.wait 68 32 (built 128 meeting)) = true := by decide +kernel
  constructor
  · cases (both_entered (built 128 meeting)).1 56 32 48 [] [] parkable_meeting with
    | entered run both => exact ⟨_, run, both⟩
    | refused run => rw [run] at parks; cases parks
    | starved run _ _ => rw [run] at parks; cases parks
    | halfway run _ _ => rw [run] at parks; cases parks
  · cases (both_entered (built 128 meeting)).2 68 32 [] [] 0 joinable_meeting with
    | idle run _ => rw [run] at waits; cases waits
    | waits run both => exact ⟨_, run, both⟩
    | starved run _ _ => rw [run] at waits; cases waits
    | halfway run _ _ => rw [run] at waits; cases waits

/-- With memory for one entry only, the request is on its channel and not on the wait-list of its context, although parking it has
failed. -/
theorem park_halfway : ∃ n h', Channel.park 56 (built 128 (meeting ++ crowd)) = .error (.error (.outOfMemory n)) h' ∧
    (built 128 (meeting ++ crowd)).Entered 48 32 [] [] ∧ (built 128 (meeting ++ crowd)).Tidy ∧ h'.Entered 48 32 [56] [] := by
  have entered {h : Heap} {xs ys : List Nat} (found : ((Channel.waiting 48 h).toOption == some xs &&
      (Context.waits 32 h).toOption == some ys) = true) : h.Entered 48 32 xs ys := by
    rw [Bool.and_eq_true, beq_iff_eq, beq_iff_eq] at found
    exact ⟨toOption_eq found.1, toOption_eq found.2⟩
  have fails : Starves (fun h' => (Channel.waiting 48 h').toOption == some [56] && (Context.waits 32 h').toOption == some [])
      (Channel.park 56 (built 128 (meeting ++ crowd))) = true := by decide +kernel
  obtain ⟨n, h', run, found⟩ := starves_iff.mp fails
  exact ⟨n, h', run, entered (by decide +kernel), tidy_crowd, entered found⟩

end Heap

end FiberMachine
