import FiberMachine.Object.Slice
import FiberMachine.Proofs.Graph.Echoes

/-!
# Making objects in two heaps

An object is made in the same way in both of two twins: the addresses that it is going to refer to are protected while
its block is allocated, and then its words are filled in. What can be reached stays as it is.
-/

namespace FiberMachine

namespace Heap

variable {α β γ δ : Type} {v v' v'' : View} {h h' h'' k k' : Heap} {a b c i j n r x : Nat} {t u : Tag} {w : Word} {π : List Nat}
  {as bs xs : List Addr} {P Q : Addr → Prop}

/-- The block at `a` in the one heap and the block at `b` in the other are the same object of the graph. -/
structure Answers (t : Tag) (v : View) (h : Heap) (a b : Addr) : Prop where
  blocks : v.blocks a
  name : b = v.name a
  tag : h.tagAt a = t

theorem Answers.arena (q : Answers t v h a b) (same : h.SameArena h') : Answers t v h' a b :=
  ⟨q.blocks, q.name, by rw [tagAt, same.wordAt]; exact q.tag⟩

/-- What is secure is still the same object afterwards. -/
theorem Shelters.answers (s : Shelters as v h v' h') (secure : h.Secure as a) (q : Answers t v h a b) : Answers t v' h' a b :=
  ⟨s.blocks a secure, q.name.trans (s.name a secure).symm, (s.tag a secure).trans q.tag⟩

/-- The block at `a` has just been allocated. -/
structure Unwritten (t : Tag) (n r : Nat) (v' : View) (h' : Heap) (a : Addr) : Prop where
  is : h'.Is a t n
  zero : ∀ i < h'.room a, h'.cell a i = 0
  rank : v'.rank a = r

namespace Adds

variable (e : Adds as v h v' h' a)
include e

theorem new : v'.blocks a := (e.blocks a).mpr (.inr rfl)

theorem old (hx : h.Live as x) : v'.blocks x := (e.blocks x).mpr (.inl hx)

theorem answers (hx : h.Live as x) (q : Answers t v h x b) : Answers t v' h' x b :=
  ⟨e.old hx, q.name.trans (e.name x hx).symm, (e.kept x hx).tagAt.trans q.tag⟩

/-- Afterwards the new block is filled in. -/
theorem edited (f : Edited (· = a) v' h' h'') : Adds as v h v' h'' a where
  kept x hx := (e.kept x hx).trans (f.kept x (e.old hx) fun same => e.fresh (same ▸ hx))
  blocks := e.blocks
  name := e.name
  rank := e.rank
  fresh := e.fresh

/-- Addresses that are protected, or known to be reached from them. -/
theorem names (live : ∀ x ∈ xs, h.Live as x) : xs.map v'.name = xs.map v.name :=
  List.map_congr_left fun x hx => e.name x (live x hx)

theorem arena {g' : Heap} (same : h'.SameArena g') : Adds as v h v' g' a where
  kept x hx := (e.kept x hx).trans (same.kept (e.kept x hx).allocated)
  blocks := e.blocks
  name := e.name
  rank := e.rank
  fresh := e.fresh

end Adds

theorem Adds.unrooting (tidy : h.Tidy) (good : ∀ r ∈ as, h.Allocated r) (e : Adds [] v (h.rooting as) v' h' a) : Adds as v h v' h' a where
  kept x hx := by
    have kept := e.kept x ((live_rooting tidy good).mpr hx)
    exact ⟨kept.allocated, kept.words⟩
  blocks x := by rw [e.blocks, live_rooting tidy good]
  name x hx := e.name x ((live_rooting tidy good).mpr hx)
  rank x hx := e.rank x ((live_rooting tidy good).mpr hx)
  fresh no := e.fresh ((live_rooting tidy good).mpr no)

/-- Blocks that are new on both sides join the graph. -/
theorem Twins.join (g : Twins v h k) (has : ∀ x ∈ as, v.blocks x) (f : Fresh h (h.Live as) h' a t n fun _ => 0)
    (f' : Fresh k (k.Live (as.map v.name)) k' b t n fun _ => 0) (room : k'.room b = h'.room a) (zero : ∀ i < h'.room a, h'.cell a i = 0)
    (zero' : ∀ i < k'.room b, k'.cell b i = 0) (r : Nat) :
    ∃ v', Twins v' h' k' ∧ Turns v h v' h' ∧ b = v'.name a ∧ Adds as v h v' h' a ∧ Unwritten t n r v' h' a := by
  have ne {x : Nat} (hx : h.Live as x) : x ≠ a := fun e => f.new (e ▸ hx)
  have adds : Adds as v h (v.add (h.Live as) a b r) h' a :=
    ⟨fun x hx => f.evolves.kept x hx id, fun _ => Iff.rfl, fun _ hx => View.add_name (ne hx), fun _ hx => View.add_rank (ne hx), f.new⟩
  exact ⟨v.add (h.Live as) a b r, g.add has f f' room zero zero',
    ⟨g.shelters_adds g.root (fun x hx => List.mem_append_left as hx) adds, rfl, f.evolves.contexts, f.evolves.temporaries⟩,
    View.add_name_self.symm, adds, f.is, zero, View.add_rank_self⟩

/-- A block is allocated on both sides. -/
theorem Twins.allocate (g : Twins v h k) (fits : t.Fits n) (r : Nat) (run : allocateTagged t n h = .ok a h') :
    NoMemory (allocateTagged t n) k ∨ ∃ b k' v', allocateTagged t n k = .ok b k' ∧ Twins v' h' k' ∧ Turns v h v' h' ∧ b = v'.name a ∧
      Adds [] v h v' h' a ∧ Unwritten t n r v' h' a ∧ ∀ i < k'.room b, k'.cell b i = 0 := by
  rcases g.tidy'.allocateTagged fits with full | ⟨b, k', run', f'⟩
  · exact .inl full
  rcases g.tidy.allocateTagged fits with full | ⟨a', h'', run'', f⟩
  · obtain ⟨n, h'', full⟩ := full
    cases run.symm.trans full
  cases run.symm.trans run''
  obtain ⟨room, zero⟩ := g.tidy.allocateTagged_room run
  obtain ⟨room', zero'⟩ := g.tidy'.allocateTagged_room run'
  obtain ⟨v', g', turns, name, adds, blank⟩ :=
    g.join (fun _ no => absurd no (List.not_mem_nil : _ ∉ ([] : List Addr))) f f' (room'.trans room.symm) zero zero' r
  exact .inr ⟨b, k', v', run', g', turns, name, adds, blank, zero'⟩

namespace Echoes

theorem allocate (g : Twins v h k) (fits : t.Fits n) (r : Nat) : Echoes v h k (allocateTagged t n) (allocateTagged t n)
    fun v' h' a b => b = v'.name a ∧ Adds [] v h v' h' a ∧ Unwritten t n r v' h' a := by
  intro a h' run
  rcases g.allocate fits r run with full | ⟨b, k', v', run', g', turns, name, adds, blank, _⟩
  · exact .inl full
  · exact .inr ⟨b, k', v', run', g', turns, name, adds, blank⟩

/-- A block is allocated with addresses protected. -/
theorem allocateRooted (g : Twins v h k) (has : ∀ a ∈ as, v.blocks a) (fits : t.Fits n) (r : Nat) :
    Echoes v h k (Heap.withRoots as (allocateTagged t n)) (Heap.withRoots (as.map v.name) (allocateTagged t n))
      fun v' h' a b => b = v'.name a ∧ Adds as v h v' h' a ∧ Unwritten t n r v' h' a := by
  have good : ∀ r ∈ as, h.Allocated r := fun r hr => g.allocated r (has r hr)
  refine (withRoots g has (fun g' => allocate g' fits r) ?_).echoes
  rintro v' h' h'' a b same ⟨name, adds, blank⟩
  refine ⟨name, (adds.unrooting g.tidy good).arena same, same.is.mpr blank.is, fun i hi => ?_, blank.rank⟩
  rw [room, levelAt, same.wordAt] at hi
  rw [cell, same.wordAt]
  exact blank.zero i hi

/-- An allocation, after which the new block is filled in. -/
theorem make {m m' : HeapM Addr} {p q : Addr → HeapM Addr} {S : View → Heap → Addr → Prop} {R : Heap → Addr → Prop} (g : Twins v h k)
    (alloc : Echoes v h k m m' fun v' h' a b => b = v'.name a ∧ Adds as v h v' h' a ∧ h'.tagAt a = t ∧ S v' h' a)
    (fill : ∀ a v' h' k', Twins v' h' k' → Adds as v h v' h' a → h'.tagAt a = t → S v' h' a →
      Edits (· = a) v' h' k' (p a) (q (v'.name a)) (fun h'' x y => x = a ∧ y = v'.name a ∧ R h'' a)) :
    Echoes v h k (m >>= p) (m' >>= q) fun v' h' a b => b = v'.name a ∧ Adds as v h v' h' a ∧ h'.tagAt a = t ∧ R h' a := by
  refine alloc.bind g ?_
  rintro a _ v' h' k' g' e ⟨rfl, adds, tag, more⟩
  have free : ∀ x ∈ h'.roots, h'.tagAt x = .channelRequest → ¬x = a := fun x hx _ same =>
    adds.fresh (same ▸ .root (e.roots ▸ hx))
  refine (edits g' (fill a v' h' k' g' adds tag more) free).weaken ?_
  rintro _ h'' _ _ ⟨rfl, edited, rfl, rfl, rest⟩
  exact ⟨rfl, adds.edited edited, (edited.tag _ adds.new).trans tag, rest⟩

end Echoes

/-! ### Blocks with fixed fields -/

/-- What is stored on either side: the same number, or a reference and its name. -/
inductive Stores (as : List Addr) (v : View) (h : Heap) (t : Tag) (π : List Nat) : Nat × Word → Nat × Word → Prop
  | number {i : Nat} {w : Word} : i ∉ π → Stores as v h t π (i, w) (i, w)
  | reference {i b : Nat} : i ∈ π → h.Live as b → (∀ u, t.leadsTo i = some u → b = unassigned ∨ h.tagAt b = u) →
      Stores as v h t π (i, UInt64.ofNat b) (i, UInt64.ofNat (v.name b))

/-- The words of a new block are filled in. -/
theorem Twins.edits_writes {h₀ : Heap} {v₀ : View} (g : Twins v h k) (adds : Adds as v₀ h₀ v h a) (tag : h.tagAt a = t) (layout : t.layout = .fields π)
    (node : t ≠ .listNode) {ω ω' : List (Nat × Word)} (each : List.Forall₂ (Stores as v₀ h₀ t π) ω ω') :
    Edits (· = a) v h k (writes a ω) (writes (v.name a) ω') fun _ _ _ => True := by
  induction each generalizing h k with
  | nil => exact .answer g trivial
  | @cons p q ω ω' stored _ ih =>
    have one : Edits (· = a) v h k (Heap.write a p.1 p.2) (Heap.write (v.name a) q.1 q.2) fun _ _ _ => True := by
      cases stored with
      | number out => exact g.edits_number adds.new rfl tag layout out
      | reference hi live typed =>
        rw [← adds.name _ live]
        refine g.edits_reference adds.new rfl tag layout hi (adds.old live) (fun u leads => ?_) (fun e => absurd e node) fun e => absurd e node
        rw [(adds.kept _ live).tagAt]
        exact typed u leads
    exact one.bind fun _ _ h' k' g' e _ => ih g' (adds.edited e) ((e.tag a adds.new).trans tag)

/-- An object with one block and fixed fields is made. -/
theorem Echoes.fields {m m' : HeapM Addr} {ω ω' : List (Nat × Word)} (g : Twins v h k) (has : ∀ a ∈ as, v.blocks a) (layout : t.layout = .fields π)
    (node : t ≠ .listNode) (within : ∀ p ∈ π, p < n) (eq : m = Heap.withRoots as (allocateTagged t n) >>= fun a => writes a ω >>= fun _ => pure a)
    (eq' : m' = Heap.withRoots (as.map v.name) (allocateTagged t n) >>= fun a => writes a ω' >>= fun _ => pure a)
    (each : List.Forall₂ (Stores as v h t π) ω ω') :
    Echoes v h k m m' fun v' h' a b => b = v'.name a ∧ Adds as v h v' h' a ∧ h'.tagAt a = t := by
  subst eq eq'
  have alloc := (Echoes.allocateRooted g has (Tag.fits_fields layout within) 0).weaken (S := fun v' h' a b =>
    b = v'.name a ∧ Adds as v h v' h' a ∧ h'.tagAt a = t ∧ True) fun v' h' a b done => ⟨done.1, done.2.1, done.2.2.is.tag, trivial⟩
  refine (Echoes.make (R := fun _ _ => True) g alloc fun a v' h' k' g' adds tag _ => ?_).weaken fun _ _ _ _ done => ⟨done.1, done.2.1, done.2.2.1⟩
  exact (g'.edits_writes adds tag layout node each).bind fun _ _ h'' k'' g'' _ _ => .answer g'' ⟨rfl, rfl, trivial⟩

/-! ### Counted blocks -/

theorem run_createSeq (small : ¬wordLimit ≤ n + 1) :
    Sequence.create t n h = (allocateTagged t (n + 1) >>= fun a => writeNat a 0 n >>= fun _ => pure a : HeapM Addr) h := by
  simp only [Sequence.create, HeapM.run_bind, small, if_false]

/-- A sequence of unassigned references is made. -/
theorem Echoes.createSeq (g : Twins v h k) (counted : t.layout = .counted) (n : Nat) : Echoes v h k (Sequence.create t n) (Sequence.create t n)
    fun v' h' a b => b = v'.name a ∧ Adds [] v h v' h' a ∧ h'.tagAt a = t ∧ h'.ref a 0 = n := by
  by_cases large : wordLimit ≤ n + 1
  · refine Echoes.fails (show Sequence.create t n h = .error (.error (.outOfMemory n)) h from ?_)
    simp only [Sequence.create, HeapM.run_bind, large, if_true, HeapM.run_lift, HeapReader.run_reject]
  refine Echoes.congr ?_ (run_createSeq large) (run_createSeq large)
  have small : (UInt64.ofNat n).toNat = n := by
    have : ¬18446744073709551616 ≤ n + 1 := large
    rw [UInt64.toNat_ofNat', Nat.mod_eq_of_lt (by omega)]
  intro a h'' run
  rw [HeapM.run_bind] at run
  cases alloc : allocateTagged t (n + 1) h with
  | error e h' => simp [alloc] at run
  | ok a' h' =>
    rw [alloc] at run
    rcases g.allocate (Tag.fits_counted counted (Nat.succ_pos n)) 0 alloc with full | ⟨b, k', v', run', g', turns, rfl, adds, blank, zero'⟩
    · exact .inl (full.bind _)
    have tag := blank.is.tag
    have room : n < h'.room a' := blank.is.room
    have zero (i : Nat) (hi : i < h'.room a') : h'.ref a' i = 0 := by
      rw [ref, blank.zero i hi]
      rfl
    have nothing (i : Nat) (hi : i < h'.room a') : k'.ref (v'.name a') i = 0 := by
      rw [ref, zero' i (g'.room' adds.new hi)]
      rfl
    have write : Edits (· = a') v' h' k' (writeNat a' 0 n) (writeNat (v'.name a') 0 n) fun h'' _ _ => h''.ref a' 0 = n := by
      refine (g'.edits_write (P := (· = a')) (i := 0) (z := UInt64.ofNat n) adds.new rfl (fun hi => ?_) fun _ _ => ?_).weaken fun _ _ _ refs =>
        ((refs 0).trans (if_pos rfl)).trans small
      · exact g'.put_count adds.new tag counted room small (fun j hj => zero _ (by omega)) fun j hj => nothing _ (by omega)
      · rw [zero 0 (Nat.lt_of_le_of_lt (Nat.zero_le n) room)]
        exact Nat.zero_le _
    have fill := write.bind (p := fun _ => pure a') (q := fun _ => pure (v'.name a')) (S := fun h'' x y => x = a' ∧ y = v'.name a' ∧ h''.ref a' 0 = n)
      fun _ _ h'' k'' g'' _ count => .answer g'' ⟨rfl, rfl, count⟩
    obtain ⟨_, k'', run'', g'', edited, rfl, rfl, count⟩ := fill a h'' run
    have shelters := g'.shelters_edited g'.root edited fun x hx _ same => adds.fresh (same ▸ .root (turns.roots ▸ hx))
    refine .inr ⟨_, k'', v', by rw [HeapM.run_bind, run']; exact run'', g'', g.turns_trans turns ⟨shelters, rfl, edited.contexts, edited.temporaries⟩,
      rfl, adds.edited edited, (edited.tag _ adds.new).trans tag, count⟩

theorem Echoes.createRooted (g : Twins v h k) (has : ∀ a ∈ as, v.blocks a) (counted : t.layout = .counted) (n : Nat) :
    Echoes v h k (Heap.withRoots as (Sequence.create t n)) (Heap.withRoots (as.map v.name) (Sequence.create t n))
      fun v' h' a b => b = v'.name a ∧ Adds as v h v' h' a ∧ h'.tagAt a = t ∧ h'.ref a 0 = n := by
  have good : ∀ r ∈ as, h.Allocated r := fun r hr => g.allocated r (has r hr)
  refine (withRoots g has (fun g' => createSeq g' counted n) ?_).echoes
  rintro v' h' h'' a b same ⟨name, adds, tag, count⟩
  refine ⟨name, (adds.unrooting g.tidy good).arena same, ?_, ?_⟩
  · rw [tagAt, same.wordAt]
    exact tag
  · rw [same.ref]
    exact count

/-- A block is allocated, and then blocks are edited that are not requests. -/
theorem Echoes.growing {m m' : HeapM Addr} {p : Addr → HeapM α} {q : Addr → HeapM β} {S : View → Heap → Addr → Prop}
    {R : View → Heap → α → β → Prop} (g : Twins v h k) (has : ∀ a ∈ as, v.blocks a)
    (alloc : Echoes v h k m m' fun v' h' a b => b = v'.name a ∧ Adds as v h v' h' a ∧ S v' h' a)
    (fill : ∀ a v' h' k', Twins v' h' k' → Adds as v h v' h' a → S v' h' a →
      Edits (fun b => h'.tagAt b ≠ .channelRequest) v' h' k' (p a) (q (v'.name a)) (R v')) :
    Spares as v h k (m >>= p) (m' >>= q) R := by
  have all := Spares.all g has
  intro x h'' run
  rw [HeapM.run_bind] at run
  cases first : m h with
  | error e => simp [first] at run
  | ok a h' =>
    rw [first] at run
    rcases alloc a h' first with full | ⟨_, k', v', run', g', turns, rfl, adds, more⟩
    · exact .inl (full.bind q)
    obtain ⟨y, k'', run'', g'', edited, related⟩ := fill a v' h' k' g' adds more x h'' run
    have kept : Shelters (h.roots ++ as) v h v' h' := g.shelters_adds all (fun _ ha => ha) adds
    have kept' : Shelters (h.roots ++ as) v' h' v' h'' :=
      g'.shelters_edited (fun a ha => kept.blocks a (.inl ha)) edited fun _ _ request out => out request
    have stays := g.shelters_trans all kept kept'
    exact .inr ⟨y, k'', v', by rw [HeapM.run_bind, run']; exact run'', g'',
      ⟨stays.mono fun a ha => List.mem_append_left as ha, turns.extent, edited.contexts.trans turns.contexts,
        edited.temporaries.trans turns.temporaries⟩, stays, related⟩

end Heap

end FiberMachine
