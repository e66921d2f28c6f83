import FiberMachine.Proofs.Growth
import Mathlib.Logic.Function.Basic

/-!
# Making blocks

Making an object means to allocate a block, with the addresses protected that it is going to refer to,
and to write some of its payload words. Either the memory is used up, or there is a new block with
these words and zeros.
-/

namespace FiberMachine

/-- A block with `n` payload words has room for the references that the tag calls for, if they are all
unassigned. -/
def Tag.Fits (t : Tag) (n : Nat) : Prop :=
  match t.layout with
  | .fields positions => ∀ p ∈ positions, p < n
  | .counted => 1 ≤ n

theorem Tag.fits_fields {t : Tag} {π : List Nat} {n : Nat} (layout : t.layout = .fields π)
    (within : ∀ p ∈ π, p < n) : t.Fits n := by
  rwa [Tag.Fits, layout]

theorem Tag.fits_counted {t : Tag} {n : Nat} (layout : t.layout = .counted) (pos : 1 ≤ n) : t.Fits n := by
  rwa [Tag.Fits, layout]

namespace Heap

/-- From `h` to `h'`, only a block at `a` is new, and `c` gives its payload. -/
structure Fresh (h : Heap) (L : Nat → Prop) (h' : Heap) (a : Nat) (t : Tag) (n : Nat) (c : Nat → Word) : Prop where
  evolves : Evolves h L h' (fun _ => False) [a]
  is : h'.Is a t n
  cells : ∀ i < n, h'.cell a i = c i
  since : Since h h' a

variable {h h' g : Heap} {a b i n : Nat} {t : Tag} {w : Word} {L P : Nat → Prop} {N rs : List Nat} {c : Nat → Word}

/-! ### Allocation in a tidy heap -/

theorem live_nil : h.Live [] a ↔ h.Reachable a := by rw [Live, List.append_nil, Reachable]

theorem Reachable.live (ha : h.Reachable a) : h.Live rs a := Reaches.mono (fun _ hr => Live.root hr) ha

theorem Collected.kept (c : Collected h g) (ha : h.Reachable a) : Kept h g a :=
  ⟨(c.allocated a).mpr ha, c.words a ha⟩

theorem MaybeCollected.kept (m : h.MaybeCollected g) (tidy : h.Tidy) (ha : h.Reachable a) : Kept h g a := by
  rcases m with rfl | c
  · exact .refl (tidy.allocated_of_reachable ha)
  · exact c.kept ha

theorem MaybeCollected.evolves (m : h.MaybeCollected g) (tidy : h.Tidy) :
    Evolves h (h.Live []) g (fun _ => False) [] := by
  have kept (a : Nat) (ha : h.Live [] a) : Kept h g a := m.kept tidy (live_nil.mp ha)
  have tidy' : g.Tidy := by
    rcases m with rfl | c
    · exact tidy
    · refine .of_blocks (c.sound tidy.sound) (fun a ha => (c.allocated a).mpr ?_) fun a ha => ?_
      · exact .start (c.roots ▸ ha)
      · have ha := (c.allocated a).mp ha
        have kept := c.kept ha
        have old := tidy.allocated_of_reachable ha
        refine ⟨kept.laidOut (tidy.laidOut old), fun b hb => (c.allocated b).mpr ?_⟩
        rw [kept.childrenAt (tidy.laidOut old)] at hb
        exact ha.child ((tidy.child_iff old).mpr hb)
  refine {
    tidy := tidy'
    contexts := ?_
    temporaries := ?_
    capacity := ?_
    kept := fun a ha _ => kept a ha
    stays := fun a ha => ⟨(kept a ha).allocated, (kept a ha).header⟩
    new := fun _ ha => absurd ha List.not_mem_nil
    lasts := m.lasts }
  all_goals rcases m with rfl | c
  · rfl
  · exact c.contexts
  · rfl
  · exact c.temporaries
  · rfl
  · exact c.capacity tidy.sound.wellFormed

theorem Made.kept {l : Nat} (m : Made g h a t l) (hb : g.Allocated b) : Kept g h b :=
  ⟨(m.allocated b).mpr (.inl hb), m.words b hb⟩

theorem Made.tidy {l : Nat} (m : Made g h a t l) (tidy : g.Tidy) (fits : t.Fits (2 ^ l - 1)) : h.Tidy := by
  have ha : h.Allocated a := (m.allocated a).mpr (.inr rfl)
  have zero (i : Nat) (hi : i < 2 ^ l - 1) : h.ref a i = 0 := by
    rw [ref, cell, m.payload i hi]
    rfl
  have room : h.room a = 2 ^ l - 1 := by rw [Heap.room, m.level]
  refine .of_blocks m.sound (fun b hb => (m.allocated b).mpr (.inl ?_)) fun b hb => ?_
  · rw [roots, m.contexts, m.temporaries] at hb
    exact tidy.root hb
  rcases (m.allocated b).mp hb with hb | rfl
  · obtain ⟨laid, children⟩ := tidy.each hb
    have kept := m.kept hb
    refine ⟨kept.laidOut laid, fun c hc => (m.allocated c).mpr (.inl (children c ?_))⟩
    rwa [kept.childrenAt laid] at hc
  · unfold Tag.Fits at fits
    rw [laidOut_iff, childrenAt_eq, m.tag, room]
    cases layout : t.layout with
    | fields positions =>
      simp only [layout] at fits
      refine ⟨fits, fun c hc => ?_⟩
      obtain ⟨p, hp, rfl⟩ := List.mem_map.mp hc
      rw [zero p (fits p hp)]
      exact m.sound.sentinel
    | counted =>
      simp only [layout] at fits
      have count : h.ref b 0 = 0 := zero 0 (by omega)
      simp only [count, List.range_zero, List.map_nil]
      exact ⟨by omega, fun c hc => absurd hc List.not_mem_nil⟩

theorem Tag.Fits.mono {n m : Nat} (fits : t.Fits n) (le : n ≤ m) : t.Fits m := by
  unfold Tag.Fits at fits ⊢
  split
  next positions layout =>
    simp only [layout] at fits
    exact fun p hp => Nat.lt_of_lt_of_le (fits p hp) le
  next layout =>
    simp only [layout] at fits
    omega

/-- The memory is used up, and what can be reached from the given addresses is as it was. -/
def Starved {α : Type} (m : HeapM α) (h : Heap) (rs : List Nat) : Prop :=
  ∃ n h', m h = .error (.error (.outOfMemory n)) h' ∧ Evolves h (h.Live rs) h' (fun _ => False) []

theorem Starved.noMemory {α : Type} {m : HeapM α} (full : Starved m h rs) : NoMemory m h := by
  obtain ⟨n, h', run, -⟩ := full
  exact ⟨n, h', run⟩

theorem Starved.bind {α β : Type} {m : HeapM α} (full : Starved m h rs) (k : α → HeapM β) : Starved (m >>= k) h rs := by
  obtain ⟨n, h', run, e⟩ := full
  exact ⟨n, h', by rw [HeapM.run_bind, run], e⟩

/-- The action finds no memory, or it makes an object with the property and leaves what can be reached from the given addresses as it
was. -/
def Delivers (m : HeapM Nat) (h : Heap) (rs : List Nat) (P : Heap → Nat → Prop) : Prop :=
  NoMemory m h ∨ ∃ r h' N, m h = .ok r h' ∧ Evolves h (h.Live rs) h' (fun _ => False) N ∧ h'.Allocated r ∧ P h' r

theorem Delivers.of_eq {m m' : HeapM Nat} {P : Heap → Nat → Prop} (same : m h = m' h) (made : Delivers m' h rs P) : Delivers m h rs P := by
  simpa only [Delivers, NoMemory, same] using made

theorem Tidy.allocateTagged_spec (tidy : h.Tidy) (fits : t.Fits n) :
    Starved (Heap.allocateTagged t n) h [] ∨ ∃ a h', Heap.allocateTagged t n h = .ok a h' ∧
      Fresh h (h.Live []) h' a t n fun _ => 0 := by
  obtain ⟨g, maybe, _, outcome⟩ := tidy.sound.allocateTagged (t := t) (n := n) fun _ => tidy.consistent.traceable
  rcases outcome with ⟨m, run⟩ | ⟨a, h', run, made⟩
  · exact .inl ⟨m, g, run, maybe.evolves tidy⟩
  · right
    have e := maybe.evolves tidy
    have room : n ≤ 2 ^ levelFor (n + 1) - 1 := by
      have := levelFor_le.mp (le_refl (levelFor (n + 1)))
      rw [levelWords_eq, Nat.pow_eq] at this
      omega
    have tidy' := made.tidy e.tidy (Tag.Fits.mono fits room)
    have ha : h'.Allocated a := (made.allocated a).mpr (.inr rfl)
    have kept (b : Nat) (hb : h.Live [] b) : Kept h h' b := (e.kept b hb id).trans (made.kept (e.stays b hb).1)
    have since : Since h h' a := ⟨g, maybe.lasts, made.fresh, fun b hb => (made.kept hb).stable, made.stats⟩
    refine ⟨a, h', run, ?_, ⟨ha, made.tag, ?_⟩, fun i hi => made.payload i (by omega), since⟩
    · refine {
        tidy := tidy'
        contexts := made.contexts.trans e.contexts
        temporaries := made.temporaries.trans e.temporaries
        capacity := ?_
        kept := fun b hb _ => kept b hb
        stays := fun b hb => ⟨(kept b hb).allocated, (kept b hb).header⟩
        new := ?_
        lasts := since.lasts }
      · rw [← e.capacity, made.sound.wellFormed.capacity, e.tidy.sound.wellFormed.capacity, made.levels]
      · intro b hb
        cases List.mem_singleton.mp hb
        exact ⟨ha, fun live => made.fresh (e.stays a live).1⟩
    · rw [Heap.room, made.level]
      exact room

theorem Tidy.allocateTagged (tidy : h.Tidy) (fits : t.Fits n) :
    NoMemory (Heap.allocateTagged t n) h ∨ ∃ a h', Heap.allocateTagged t n h = .ok a h' ∧
      Fresh h (h.Live []) h' a t n fun _ => 0 :=
  (tidy.allocateTagged_spec fits).imp_left Starved.noMemory

/-! ### Protection -/

/-- The size and the payload of a new block. -/
theorem Tidy.allocateTagged_room (tidy : h.Tidy) (run : Heap.allocateTagged t n h = .ok a h') :
    h'.room a = 2 ^ levelFor (n + 1) - 1 ∧ ∀ i < h'.room a, h'.cell a i = 0 := by
  obtain ⟨g, _, _, outcome⟩ := tidy.sound.allocateTagged (t := t) (n := n) fun _ => tidy.consistent.traceable
  rcases outcome with ⟨m, failed⟩ | ⟨b, h'', run', made⟩
  · cases run.symm.trans failed
  · cases run.symm.trans run'
    have room : h'.room a = 2 ^ levelFor (n + 1) - 1 := by rw [Heap.room, made.level]
    exact ⟨room, fun i hi => made.payload i (room ▸ hi)⟩

theorem shrink_append (xs : Array Nat) (rs : List Nat) : (xs ++ rs).shrink xs.size = xs := by
  apply Array.ext'
  simp

theorem Lasts.from_rooting (lasts : Lasts (h.rooting rs).Allocated (h.rooting rs) g) : Lasts h.Allocated h g :=
  .after (fun _ hb => (sameArena_rooting.kept hb).stable) rfl (lasts.mono fun _ hb => sameArena_rooting.allocated.mpr hb)

theorem Since.from_rooting (since : Since (h.rooting rs) g a) : Since h g a := by
  obtain ⟨k, lasts, rest⟩ := since
  exact ⟨k, lasts.from_rooting, rest⟩

/-- The protection of addresses ends. -/
theorem Evolves.unrooting (e : Evolves (h.rooting rs) L h' P N) : Evolves h L { h' with temporaries := h.temporaries } P N := by
  have same : h'.SameArena { h' with temporaries := h.temporaries } := ⟨rfl, rfl, rfl⟩
  have tidy' : ({ h' with temporaries := h.temporaries } : Heap).Tidy := by
    refine e.tidy.sameArena same fun a ha => e.tidy.root ?_
    rw [e.roots, roots_rooting]
    refine List.mem_append_left _ ?_
    have contexts : h'.contexts = h.contexts := e.contexts
    rw [roots] at ha ⊢
    simpa only [contexts] using ha
  have kept {b : Nat} (k : Kept (h.rooting rs) h' b) : Kept h { h' with temporaries := h.temporaries } b :=
    ⟨same.allocated.mpr k.allocated, k.words⟩
  exact {
    tidy := tidy'
    contexts := e.contexts
    temporaries := rfl
    capacity := e.capacity
    kept := fun a ha out => kept (e.kept a ha out)
    stays := fun a ha => ⟨same.allocated.mpr (e.stays a ha).1, (e.stays a ha).2⟩
    new := fun a ha => ⟨same.allocated.mpr (e.new a ha).1, (e.new a ha).2⟩
    lasts := (e.lasts.from_rooting).trans (.stays (fun _ hb => (same.kept hb).stable) rfl) fun _ _ hb => hb }

/-- The addresses that were protected before are those that are left. -/
theorem Evolves.shrink (e : Evolves (h.rooting rs) L h' P N) : h'.temporaries.shrink h.temporaries.size = h.temporaries := by
  rw [e.temporaries]
  exact shrink_append h.temporaries rs

/-- Protecting addresses while an action runs. -/
theorem withRoots_ok {α : Type} {m : HeapM α} {x : α} (run : m (h.rooting rs) = .ok x h') (e : Evolves (h.rooting rs) L h' P N) :
    ∃ h'', withRoots rs m h = .ok x h'' ∧ h'.SameArena h'' ∧ h''.stats = h'.stats ∧ Evolves h L h'' P N := by
  refine ⟨{ h' with temporaries := h.temporaries }, ?_, ⟨rfl, rfl, rfl⟩, rfl, e.unrooting⟩
  have run : m { h with temporaries := h.temporaries ++ rs } = .ok x h' := run
  simp only [withRoots, run, e.shrink]

theorem withRoots_error {α : Type} {m : HeapM α} {failure : HeapFailure} (run : m (h.rooting rs) = .error failure h')
    (e : Evolves (h.rooting rs) L h' P N) : ∃ h'', withRoots rs m h = .error failure h'' ∧ h'.SameArena h'' ∧ Evolves h L h'' P N := by
  refine ⟨{ h' with temporaries := h.temporaries }, ?_, ⟨rfl, rfl, rfl⟩, e.unrooting⟩
  have run : m { h with temporaries := h.temporaries ++ rs } = .error failure h' := run
  simp only [withRoots, run, e.shrink]

theorem withRoots_noMemory {α : Type} {m : HeapM α} (full : NoMemory m (h.rooting rs)) : NoMemory (withRoots rs m) h := by
  obtain ⟨n, h', run⟩ := full
  have run : m { h with temporaries := h.temporaries ++ rs } = .error (.error (.outOfMemory n)) h' := run
  exact ⟨n, { h' with temporaries := h'.temporaries.shrink h.temporaries.size }, by simp only [withRoots, run]⟩

theorem NoMemory.bind {α β : Type} {m : HeapM α} (full : NoMemory m h) (k : α → HeapM β) : NoMemory (m >>= k) h := by
  obtain ⟨n, h', run⟩ := full
  exact ⟨n, h', by rw [HeapM.run_bind, run]⟩

theorem run_after {α β : Type} {m : HeapM α} {x : α} (run : m h = .ok x h') (k : α → HeapM β) :
    (m >>= k) h = k x h' := by
  simp only [HeapM.run_bind, run]

theorem NoMemory.after {α β : Type} {m : HeapM α} {x : α} (run : m h = .ok x h') {k : α → HeapM β}
    (full : NoMemory (k x) h') : NoMemory (m >>= k) h := by
  obtain ⟨n, h'', run'⟩ := full
  exact ⟨n, h'', by simp only [HeapM.run_bind, run, run']⟩

theorem live_rooting (tidy : h.Tidy) (good : ∀ r ∈ rs, h.Allocated r) : (h.rooting rs).Live [] a ↔ h.Live rs a := by
  have tidy' := tidy.rooting good
  have roots : (h.rooting rs).roots ++ [] = h.roots ++ rs := by rw [roots_rooting, List.append_nil]
  constructor
  · intro r
    refine (Reaches.of_closed (M := fun a => h.Allocated a ∧ h.Live rs a) r (fun b hb => ?_) ?_).2
    · rw [roots] at hb
      exact ⟨tidy.allocated_of_live good (.start hb), .start hb⟩
    · rintro b c ⟨hb, live⟩ hc
      have hc := (tidy.child_sameArena tidy' sameArena_rooting hb).mp hc
      exact ⟨tidy.consistent.child b c hb hc, live.child hc⟩
  · intro r
    refine (Reaches.of_closed (M := fun a => h.Allocated a ∧ (h.rooting rs).Live [] a) r (fun b hb => ?_) ?_).2
    · exact ⟨tidy.allocated_of_live good (.start hb), .start (roots ▸ hb)⟩
    · rintro b c ⟨hb, live⟩ hc
      exact ⟨tidy.consistent.child b c hb hc,
        live.child ((tidy.child_sameArena tidy' sameArena_rooting hb).mpr hc)⟩

theorem Fresh.weaken {K : Nat → Prop} (f : Fresh h L h' a t n c) (fewer : ∀ b, K b → L b) : Fresh h K h' a t n c :=
  ⟨f.evolves.weaken fewer (fun _ _ hp => hp) fun _ hb => hb, f.is, f.cells, f.since⟩

theorem Fresh.new (f : Fresh h L h' a t n c) : ¬L a := (f.evolves.new a (List.mem_singleton_self a)).2

/-- An action fails while addresses are protected. -/
theorem withRoots_starved {α : Type} {m : HeapM α} (tidy : h.Tidy) (good : ∀ r ∈ rs, h.Allocated r) (full : Starved m (h.rooting rs) []) :
    Starved (withRoots rs m) h rs := by
  obtain ⟨n, h', run, e⟩ := full
  obtain ⟨h'', run', -, e'⟩ := withRoots_error run e
  exact ⟨n, h'', run', e'.weaken (fun b hb => (live_rooting tidy good).mpr hb) (fun _ _ no => no) fun _ hb => hb⟩

theorem Tidy.allocateRooted_spec (tidy : h.Tidy) (good : ∀ r ∈ rs, h.Allocated r) (fits : t.Fits n) :
    Starved (withRoots rs (Heap.allocateTagged t n)) h rs ∨
      ∃ a h', withRoots rs (Heap.allocateTagged t n) h = .ok a h' ∧ Fresh h (h.Live rs) h' a t n fun _ => 0 := by
  rcases (tidy.rooting good).allocateTagged_spec fits with full | ⟨a, h', run, f⟩
  · exact .inl (withRoots_starved tidy good full)
  · right
    have f := f.weaken fun b hb => (live_rooting tidy good).mpr hb
    obtain ⟨h'', run, same, stats, e⟩ := withRoots_ok run f.evolves
    have since := f.since.from_rooting.only (fun b hb _ => (same.kept hb).stable) stats
    refine ⟨a, h'', run, e, same.is.mpr f.is, fun i hi => ?_, since⟩
    rw [cell, same.wordAt]
    exact f.cells i hi

theorem Tidy.allocateRooted (tidy : h.Tidy) (good : ∀ r ∈ rs, h.Allocated r) (fits : t.Fits n) :
    NoMemory (withRoots rs (Heap.allocateTagged t n)) h ∨
      ∃ a h', withRoots rs (Heap.allocateTagged t n) h = .ok a h' ∧ Fresh h (h.Live rs) h' a t n fun _ => 0 :=
  (tidy.allocateRooted_spec good fits).imp_left Starved.noMemory

/-! ### Filling in fields -/

/-- Store payload words. -/
def writes (a : Nat) : List (Nat × Word) → HeapM Unit
  | [] => pure ()
  | p :: rest => do
    write a p.1 p.2
    writes a rest

/-- The payload after words have been stored. -/
def overwrite (c : Nat → Word) (ws : List (Nat × Word)) : Nat → Word :=
  ws.foldl (fun c p => Function.update c p.1 p.2) c

/-- A field of a new block is filled in. -/
theorem Fresh.put (f : Fresh h L h' a t n c) {π : List Nat} (layout : t.layout = .fields π)
    (hi : i < n) (good : i ∈ π → h'.Allocated w.toNat) :
    Fresh h L (h'.put a i w) a t n (Function.update c i w) := by
  have s := f.evolves.tidy.sound
  have hi' := Nat.lt_of_lt_of_le hi f.is.room
  have tidy := f.evolves.tidy.put_field f.is layout hi good
  have e := f.evolves.toAlters.mutate (f.evolves.tidy.alters_put f.is hi tidy)
  have since : Since h (h'.put a i w) a := f.since.only (fun b hb ne => (s.kept_put f.is.allocated hi' hb ne).stable) rfl
  refine ⟨⟨e.weaken (fun _ hb => hb) ?_ fun _ hb => hb, since.lasts⟩, (s.is_put f.is.allocated hi').mpr f.is, fun j hj => ?_, since⟩
  · rintro b hb (no | rfl)
    · exact no
    · exact f.new hb
  · rw [s.cell_put f.is.allocated hi', Function.update_apply, f.cells j hj]

theorem Fresh.writes (f : Fresh h L h' a t n c) {π : List Nat} (layout : t.layout = .fields π)
    {ω : List (Nat × Word)} (good : ∀ p ∈ ω, p.1 < n ∧ (p.1 ∈ π → h'.Allocated p.2.toNat)) :
    ∃ h'', Heap.writes a ω h' = .ok () h'' ∧ Fresh h L h'' a t n (overwrite c ω) := by
  induction ω generalizing h' c with
  | nil => exact ⟨h', rfl, f⟩
  | cons p ω ih =>
    obtain ⟨hi, ref⟩ := good p List.mem_cons_self
    have s := f.evolves.tidy.sound
    obtain ⟨h'', run, f'⟩ := ih (f.put layout hi ref) fun q hq => by
      obtain ⟨hi', ref'⟩ := good q (List.mem_cons_of_mem p hq)
      exact ⟨hi', fun hp => (s.allocated_put f.is.allocated (Nat.lt_of_lt_of_le hi f.is.room)).mpr (ref' hp)⟩
    refine ⟨h'', ?_, f'⟩
    simp only [Heap.writes, HeapM.run_bind, s.write_eq f.is hi, run]

/-- A block is allocated, and words are stored in it: the numbers of the object and addresses that can be
reached. -/
theorem make_live {π : List Nat} (layout : t.layout = .fields π) {alloc : HeapM Nat}
    (made : NoMemory alloc h ∨ ∃ a h', alloc h = .ok a h' ∧ Fresh h (h.Live rs) h' a t n fun _ => 0)
    {ω : List (Nat × Word)} (fields : ∀ p ∈ ω, p.1 < n ∧ (p.1 ∈ π → h.Live rs p.2.toNat)) :
    NoMemory (alloc >>= fun a => writes a ω >>= fun _ => pure a) h ∨
      ∃ a h', (alloc >>= fun a => writes a ω >>= fun _ => pure a) h = .ok a h' ∧
        Fresh h (h.Live rs) h' a t n (overwrite (fun _ => 0) ω) := by
  rcases made with full | ⟨a, h', run, f⟩
  · exact .inl (full.bind _)
  · right
    obtain ⟨h'', run', f'⟩ := f.writes layout fun p hp =>
      ⟨(fields p hp).1, fun ref => (f.evolves.stays _ ((fields p hp).2 ref)).1⟩
    refine ⟨a, h'', ?_, f'⟩
    simp only [HeapM.run_bind, run, run', HeapM.run_pure]

/-- The addresses that are stored were protected. -/
theorem make_fields {π : List Nat} (layout : t.layout = .fields π) {alloc : HeapM Nat}
    (made : NoMemory alloc h ∨ ∃ a h', alloc h = .ok a h' ∧ Fresh h (h.Live rs) h' a t n fun _ => 0)
    {ω : List (Nat × Word)} (fields : ∀ p ∈ ω, p.1 < n ∧ (p.1 ∈ π → p.2.toNat ∈ unassigned :: rs)) :
    NoMemory (alloc >>= fun a => writes a ω >>= fun _ => pure a) h ∨
      ∃ a h', (alloc >>= fun a => writes a ω >>= fun _ => pure a) h = .ok a h' ∧
        Fresh h (h.Live rs) h' a t n (overwrite (fun _ => 0) ω) := by
  refine make_live layout made fun p hp => ⟨(fields p hp).1, fun ref => ?_⟩
  rcases List.mem_cons.mp ((fields p hp).2 ref) with e | hr
  · exact .root (e ▸ List.mem_cons_self)
  · exact .extra hr

/-! ### New heaps -/

theorem Blank.tagAt {h : Heap} (blank : h.Blank) : h.tagAt unassigned = .unassigned := by
  rw [Heap.tagAt, blank.header]
  decide

theorem Blank.tidy {h : Heap} (blank : h.Blank) : h.Tidy := by
  have only {a : Nat} (ha : h.Allocated a) : a = unassigned := (blank.allocated a).mp ha
  refine .of_blocks blank.sound (fun a ha => ?_) fun a ha => ?_
  · have roots : h.roots = [unassigned] := by rw [Heap.roots, blank.contexts, blank.temporaries]; rfl
    rw [roots] at ha
    exact (blank.allocated a).mpr (List.mem_singleton.mp ha)
  · cases only ha
    refine ⟨?_, ?_⟩
    · rw [laidOut_iff, blank.tagAt]
      exact fun p hp => absurd hp List.not_mem_nil
    · rw [childrenAt_eq, blank.tagAt]
      exact fun c hc => absurd hc List.not_mem_nil

end Heap

end FiberMachine
