import FiberMachine.Object.Queue
import FiberMachine.Object.Stack
import FiberMachine.Proofs.Graph.Sequences

/-!
# Stacks and queues in two heaps

A container that grows is protected together with the value that is added, and through the container its
items are. So both are still there in the end, and the items are those from before.
-/

namespace FiberMachine

namespace Heap

variable {v v' : View} {h h' k k' : Heap} {a b c d i j n x y : Nat} {t u : Tag} {as : List Addr} {P : Addr → Prop}

namespace Echoes

/-- An array and an object that refers to it are made. -/
theorem holder (g : Twins v h k) (layout : t.layout = .fields [i]) (leads : ∀ u, t.leadsTo i = some u → u = .array) (node : t ≠ .listNode)
    (within : i < n) (len : Nat) {m : HeapM Addr} (eq : m = Sequence.newArray len >>= fun items =>
      Heap.withRoots [items] (allocateTagged t n) >>= fun a => writes a [(i, UInt64.ofNat items)] >>= fun _ => Pure.pure a) :
    Echoes v h k m m fun v' h' a b => Answers t v' h' a b := by
  subst eq
  refine (createSeq g (t := .array) rfl len).bind g fun d _ v' h' k' g' _ => ?_
  rintro ⟨rfl, adds, tag, -⟩
  refine record (ρ := [d]) g' (by simpa using adds.new) layout node (by simpa using within) rfl rfl
    (.cons (.reference (by simp) (.extra (by simp)) fun u there => ?_) .nil)
  exact .inr (tag.trans (leads u there).symm)

/-! ### Stacks -/

theorem createStack (g : Twins v h k) : Echoes v h k Stack.create Stack.create fun v' h' a b => Answers .stack v' h' a b := by
  refine holder (i := 1) (n := 2) g rfl (fun u leads => by cases leads; rfl) (by decide) (by decide) Stack.initialCapacity ?_
  simp only [writes, bind_assoc, pure_bind]
  rfl

/-- The array behind a stack has room for one more item. -/
theorem stackRoom (g : Twins v h k) (q : Answers .stack v h a b) (r : Answers t v h x y) :
    Spares [a, x] v h k (Stack.room a n x) (Stack.room b n y) fun v' h' c d => Answers .array v' h' c d := by
  obtain ⟨ha, rfl, tag⟩ := q
  obtain ⟨hx, rfl, -⟩ := r
  have has : ∀ c ∈ [a, x], v.blocks c := by simp [ha, hx]
  refine .read (g.readNat_leads ha tag (i := 1) rfl) fun items _ _ => ?_
  rintro ⟨rfl, hi, rfl, array⟩
  refine .read (g.arrayLength_same hi array) fun _ _ _ => ?_
  rintro ⟨⟨rfl, rfl⟩, array⟩
  by_cases full : n = h.ref (h.ref a 1) 0
  · rw [if_pos full, if_pos full]
    refine growing g has (createRooted (t := .array) g has rfl (h.ref (h.ref a 1) 0 * 2)) fun c v' h' k' g' adds => ?_
    rintro ⟨is, -⟩
    have la : h.Live [a, x] a := .extra (by simp)
    have li : h.Live [a, x] (h.ref a 1) := la.child (g.child_of_refers ha (leadsTo_refers (t := .array) (tag ▸ rfl)))
    have kept := adds.kept _ li
    have tag' := (adds.kept _ la).tagAt.trans tag
    rw [← adds.name _ li, ← adds.name _ la]
    have copied := g'.edits_copySlots (P := fun b => h'.tagAt b ≠ .channelRequest) (a := h.ref a 1) (b := c) (i := 0) (j := 0) (n := n) (adds.old li)
      adds.new (by rw [is]; decide) (by rw [kept.tagAt, array]; rfl) (is ▸ rfl)
      (by rw [kept.ref ((g.laidOut hi).count_lt_room (array ▸ rfl))]; omega)
    refine copied.bind fun _ _ h'' k'' g'' e _ => ?_
    have is'' := (e.tag c adds.new).trans is
    refine (g''.edits_reference (P := fun b => h'.tagAt b ≠ .channelRequest) (adds.old la) (by rw [tag']; decide)
      ((e.tag a (adds.old la)).trans tag') (π := [1]) rfl (by decide) adds.new ?_ (fun no => by cases no) fun no => by cases no).bind
        fun _ _ _ _ g₃ e' _ => .answer g₃ ⟨adds.new, rfl, (e'.tag c adds.new).trans is''⟩
    rintro u leads
    cases leads
    exact .inr is''
  · rw [if_neg full, if_neg full]
    exact .answer g has ⟨hi, rfl, array⟩

theorem pushStack (g : Twins v h k) (q : Answers .stack v h a b) (r : Answers t v h x y) :
    Spares [a, x] v h k (Stack.push a x) (Stack.push b y) fun _ _ _ _ => True := by
  have ⟨ha, same, tag⟩ := q
  subst same
  have has : ∀ c ∈ [a, x], v.blocks c := by simp [ha, r.blocks]
  refine .read (g.readNat_number (i := 0) ha ((numberAt_fields tag rfl).mpr (by decide))) fun _ n _ => ?_
  rintro ⟨rfl, -⟩
  refine (stackRoom g q r).bind g has fun c d v' h' k' g' _ kept has' => ?_
  rintro ⟨hc, rfl, array⟩
  have ⟨ha', same, tag'⟩ := kept.answers (.inl (by simp)) q
  have ⟨hx', same', _⟩ := kept.answers (.inl (by simp)) r
  rw [same, same']
  refine .alters g' has' ((g'.edits_item hc (by rw [array]; decide) (array ▸ rfl) hx').bind fun _ _ h'' k'' g'' e _ => ?_)
  exact g''.edits_number ha' (by rw [tag']; decide) ((e.tag a ha').trans tag') (π := [1]) rfl (by decide)

/-- If a push on a stack that may be missing succeeds, the stack is there. -/
theorem pushStackAt (g : Twins v h k) (ha : v.blocks a) (is : a ≠ unassigned → h.tagAt a = .stack) (r : Answers t v h x y) :
    Spares [a, x] v h k (Stack.push a x) (Stack.push (v.name a) y) fun _ _ _ _ => True := by
  by_cases nil : a = unassigned
  · exact .read (R := fun _ _ => False) (fun _ run => absurd nil (g.readNat_nil run)) fun _ _ _ no => no.elim
  · exact pushStack g ⟨ha, rfl, is nil⟩ r

/-! ### Queues -/

theorem createQueue (g : Twins v h k) (len : Nat) :
    Echoes v h k (Queue.create len) (Queue.create len) fun v' h' a b => Answers .queue v' h' a b := by
  refine holder (i := 2) (n := 3) g rfl (fun u leads => by cases leads; rfl) (by decide) (by decide) len ?_
  simp only [writes, bind_assoc, pure_bind]
  rfl

end Echoes

namespace Twins

section

variable (g : Twins v h k) (ha : v.blocks a) (tag : h.tagAt a = .queue)
include g ha tag

/-- The array behind a queue is read. -/
theorem storage_same : Mirrors h k (Queue.storage a) (Queue.storage (v.name a)) fun x y =>
    y = v.name x ∧ v.blocks x ∧ x = h.ref a 2 ∧ (x ≠ unassigned → h.tagAt x = .array) :=
  g.readNat_leads ha tag rfl

theorem queueLength_same : Mirrors h k (Queue.length a) (Queue.length (v.name a)) fun x y => y = x :=
  (g.readNat_number ha ((numberAt_fields tag rfl).mpr (by decide))).weaken fun _ _ _ done => done.1

theorem head_same : Mirrors h k (Queue.head a) (Queue.head (v.name a)) fun x y => y = x :=
  (g.readNat_number ha ((numberAt_fields tag rfl).mpr (by decide))).weaken fun _ _ _ done => done.1

theorem queueCapacity_same : Mirrors h k (Queue.capacity a) (Queue.capacity (v.name a)) fun x y =>
    (y = x ∧ x = h.ref (h.ref a 2) 0) ∧ h.tagAt (h.ref a 2) = .array := by
  refine (g.storage_same ha tag).bind fun _ _ _ => ?_
  rintro ⟨rfl, hd, rfl, array⟩
  exact g.arrayLength_same hd array

theorem isFull_same : Mirrors h k (Queue.isFull a) (Queue.isFull (v.name a)) fun x y => y = x := by
  refine (g.queueLength_same ha tag).bind fun _ _ _ => ?_
  rintro rfl
  refine (g.queueCapacity_same ha tag).bind fun _ _ _ => ?_
  rintro ⟨⟨rfl, -⟩, -⟩
  exact .answer rfl

end

theorem itemsFrom_same (g : Twins v h k) (hd : v.blocks d) (array : h.tagAt d = .array) :
    Mirrors h k (Queue.itemsFrom d (h.ref d 0) j i n) (Queue.itemsFrom (v.name d) (h.ref d 0) j i n) fun xs ys =>
      ys = xs.map v.name ∧ ∀ x ∈ xs, h.Child d x := by
  induction n generalizing i with
  | zero => exact .answer ⟨rfl, fun _ no => absurd no List.not_mem_nil⟩
  | succ n ih =>
    refine Mirrors.remainder.bind fun _ p _ => ?_
    rintro ⟨rfl, lt⟩
    refine (g.slot_same hd (array ▸ rfl) lt).bind fun x _ _ => ?_
    rintro ⟨rfl, child⟩
    refine (ih (i := i + 1)).bind fun xs _ _ => ?_
    rintro ⟨rfl, children⟩
    refine .answer ⟨rfl, fun y hy => ?_⟩
    rcases List.mem_cons.mp hy with rfl | hy
    · exact child
    · exact children y hy

theorem queueItems_same (g : Twins v h k) (ha : v.blocks a) (tag : h.tagAt a = .queue) :
    Mirrors h k (Queue.items a) (Queue.items (v.name a)) fun xs ys => ys = xs.map v.name ∧ ∀ x ∈ xs, h.Child (h.ref a 2) x := by
  refine (g.storage_same ha tag).bind fun _ _ _ => ?_
  rintro ⟨rfl, hd, rfl, array⟩
  refine (g.arrayLength_same hd array).bind fun _ _ _ => ?_
  rintro ⟨⟨rfl, rfl⟩, array⟩
  refine (g.head_same ha tag).bind fun _ _ _ => ?_
  rintro rfl
  refine (g.queueLength_same ha tag).bind fun _ _ _ => ?_
  rintro rfl
  refine Mirrors.room.bind fun _ _ _ _ => ?_
  exact g.itemsFrom_same hd array

/-- Nothing is known to be full or not without a queue. -/
theorem missing_queue {look : HeapReader Bool} (g : Twins v h k) (nil : a = unassigned) : Mirrors h k (Queue.isFull a) look fun _ _ => False := by
  intro x run
  rw [Queue.isFull, HeapReader.run_bind] at run
  cases length : Queue.length a h with
  | error e => simp [length] at run
  | ok n => exact absurd nil (g.readNat_nil length)

/-- An item is added if there is room. -/
theorem edits_tryPush (g : Twins v h k) (q : Answers .queue v h a b) (r : Answers t v h x y) :
    Edits (fun b => h.tagAt b ≠ .channelRequest) v h k (Queue.tryPush a x) (Queue.tryPush b y) fun _ p q => q = p := by
  obtain ⟨ha, rfl, tag⟩ := q
  obtain ⟨hx, rfl, -⟩ := r
  refine .read (g.isFull_same ha tag) fun _ full _ => ?_
  rintro rfl
  cases full with
  | true => exact .answer g rfl
  | false =>
    refine .read (g.queueCapacity_same ha tag) fun _ _ _ => ?_
    rintro ⟨⟨rfl, rfl⟩, array⟩
    refine .read (g.head_same ha tag) fun _ head _ => ?_
    rintro rfl
    refine .read (g.queueLength_same ha tag) fun _ len _ => ?_
    rintro rfl
    refine .read (g.storage_same ha tag) fun _ _ _ => ?_
    rintro ⟨rfl, hd, rfl, -⟩
    refine .read Mirrors.remainder fun _ p _ => ?_
    rintro ⟨rfl, -⟩
    refine (g.edits_item hd (by rw [array]; decide) (array ▸ rfl) hx).bind fun _ _ h' k' g' e _ => ?_
    refine (g'.edits_number ha (by rw [tag]; decide) ((e.tag a ha).trans tag) (π := [2]) rfl (by decide)).bind fun _ _ _ _ g'' _ _ => ?_
    exact .answer g'' rfl

/-- An item is added to a queue that may be missing, which fails then. -/
theorem edits_tryPushAt (g : Twins v h k) (ha : v.blocks a) (is : a ≠ unassigned → h.tagAt a = .queue) (r : Answers t v h x y) :
    Edits (fun b => h.tagAt b ≠ .channelRequest) v h k (Queue.tryPush a x) (Queue.tryPush (v.name a) y) fun _ p q => q = p := by
  by_cases nil : a = unassigned
  · exact .read (g.missing_queue nil) fun _ _ _ no => no.elim
  · exact g.edits_tryPush ⟨ha, rfl, is nil⟩ r

end Twins

namespace Echoes

theorem growQueue (g : Twins v h k) (q : Answers .queue v h a b) (r : Answers t v h x y) :
    Spares [a, x] v h k (Queue.grow a x) (Queue.grow b y) fun _ _ _ _ => True := by
  obtain ⟨ha, rfl, tag⟩ := q
  obtain ⟨hx, rfl, -⟩ := r
  have has : ∀ c ∈ [a, x], v.blocks c := by simp [ha, hx]
  refine .read (g.queueItems_same ha tag) fun old _ _ => ?_
  rintro ⟨rfl, children⟩
  rw [List.length_map]
  refine growing g has (createRooted (t := .array) g has rfl (max (old.length * 2) Queue.leastGrowth)) fun c v' h' k' g' adds => ?_
  rintro ⟨is, -⟩
  have la : h.Live [a, x] a := .extra (by simp)
  have live (z : Nat) (hz : z ∈ old) : h.Live [a, x] z :=
    (la.child (g.child_of_refers ha (leadsTo_refers (t := .array) (tag ▸ rfl)))).child (children z hz)
  have tag' := (adds.kept _ la).tagAt.trans tag
  have plain : h'.tagAt a ≠ .channelRequest := by rw [tag']; decide
  rw [← adds.names live, ← adds.name _ la]
  refine (g'.edits_slots adds.new (by rw [is]; decide) (is ▸ rfl) fun z hz => adds.old (live z hz)).bind fun _ _ h₂ k₂ g₂ e _ => ?_
  have is₂ := (e.tag c adds.new).trans is
  have tag₂ := (e.tag a (adds.old la)).trans tag'
  refine (g₂.edits_reference (adds.old la) plain tag₂ (π := [2]) rfl (by decide) adds.new ?_ (fun no => by cases no) fun no => by cases no).bind
    fun _ _ h₃ k₃ g₃ e' _ => ?_
  · rintro u leads
    cases leads
    exact .inr is₂
  · exact g₃.edits_number (adds.old la) plain ((e'.tag a (adds.old la)).trans tag₂) (π := [2]) rfl (by decide)

theorem pushQueue (g : Twins v h k) (q : Answers .queue v h a b) (r : Answers t v h x y) :
    Spares [a, x] v h k (Queue.push a x) (Queue.push b y) fun _ _ _ _ => True := by
  have has : ∀ c ∈ [a, x], v.blocks c := by simp [q.blocks, r.blocks]
  have add (v' : View) (h' k' : Heap) (g' : Twins v' h' k') (has' : ∀ c ∈ [a, x], v'.blocks c) (q' : Answers .queue v' h' a b)
      (r' : Answers t v' h' x y) : Spares [a, x] v' h' k' (Queue.tryPush a x >>= fun _ => Pure.pure ()) (Queue.tryPush b y >>= fun _ => Pure.pure ())
      fun _ _ _ _ => True :=
    .alters g' has' ((g'.edits_tryPush q' r').bind fun _ _ _ _ g'' _ _ => .answer g'' trivial)
  have ⟨ha, same, tag⟩ := q
  subst same
  refine .read (g.isFull_same ha tag) fun _ full _ => ?_
  rintro rfl
  cases full with
  | true =>
    refine (growQueue g q r).bind g has fun _ _ v' h' k' g' _ kept has' _ => ?_
    exact add v' h' k' g' has' (kept.answers (.inl (by simp)) q) (kept.answers (.inl (by simp)) r)
  | false => exact add v h k g has q r

/-- If a push on a queue that may be missing succeeds, the queue is there. -/
theorem pushQueueAt (g : Twins v h k) (ha : v.blocks a) (is : a ≠ unassigned → h.tagAt a = .queue) (r : Answers t v h x y) :
    Spares [a, x] v h k (Queue.push a x) (Queue.push (v.name a) y) fun _ _ _ _ => True := by
  by_cases nil : a = unassigned
  · exact .read (g.missing_queue nil) fun _ _ _ no => no.elim
  · exact pushQueue g ⟨ha, rfl, is nil⟩ r

end Echoes

end Heap

end FiberMachine
