import FiberMachine.Proofs.Tidy

/-!
# How a heap evolves

An allocation may run the collector, so of all blocks only those that can be reached are sure to stay.
`Evolves` says what an operation leaves of a set of surviving blocks: all of them stay with their headers,
those outside the changed ones stay word for word, and the new blocks are none of them. An operation that
does not allocate keeps every allocated block; one that allocates keeps what can be reached from the
roots and from the addresses protected meanwhile.
-/

/-! ## What lasts

Objects are shared freely, so it matters that most of them never change. The tag of an object says which of its words do not: all of
them, or of an array or a frame the length. Such a word stays until a collection reclaims the block. A collection may run in the
middle of an operation, and at the end of the operation the address may belong to another object; so what lasts is said from one
collection to the next.
-/

namespace FiberMachine

/-- Payload word `i` of an object with this tag does not change once the object has been made. -/
def Tag.fixes : Tag → Nat → Bool
  | .frame, i | .array, i => i == 0
  | .context, _ | .stack, _ | .queue, _ | .list, _ | .listNode, _ | .waitGroup, _ => false
  | _, _ => true

/-- Of a counted block whose items may change, only the length does not. -/
theorem Tag.fixes_counted {t : Tag} {i : Nat} (counted : t.layout = .counted) (free : t.fixes 1 = false) (fixes : t.fixes i = true) :
    i = 0 := by
  cases t with
  | frame | array => exact beq_iff_eq.mp fixes
  | environment => cases free
  | _ => cases counted

namespace Heap

/-- The block at `b` is still allocated, with the same header, and the words of it that do not change are the same. -/
structure Stable (h h' : Heap) (b : Nat) : Prop where
  allocated : h'.Allocated b
  header : h'.wordAt b = h.wordAt b
  fixed : ∀ i < h.room b, (h.tagAt b).fixes i = true → h'.cell b i = h.cell b i

/-- From `h` to `h'` the blocks `S` stay as they are, until a collection reclaims them. -/
inductive Lasts : (Nat → Prop) → Heap → Heap → Prop where
  | stays {S : Nat → Prop} {h h' : Heap} (stable : ∀ b, S b → Stable h h' b) (stats : h'.stats = h.stats) : Lasts S h h'
  | collected {S : Nat → Prop} {h g g' h' : Heap} (stable : ∀ b, S b → Stable h g b) (stats : g.stats = h.stats)
      (collected : Collected g g') (later : Lasts (fun b => S b ∧ g.Reachable b) g' h') : Lasts S h h'

/-- The block at `a` is new, and from the moment when it was allocated on no other has changed. -/
def Since (h h' : Heap) (a : Nat) : Prop :=
  ∃ g, Lasts h.Allocated h g ∧ ¬g.Allocated a ∧ (∀ b, g.Allocated b → Stable g h' b) ∧ h'.stats = g.stats

variable {h h' h'' g k : Heap} {S T : Nat → Prop} {a b i n : Nat} {t : Tag} {w : Word}

theorem Kept.stable (kept : Kept h h' a) : Stable h h' a where
  allocated := kept.allocated
  header := kept.header
  fixed i hi _ := by
    have pos := Nat.two_pow_pos (h.levelAt a)
    unfold Heap.room at hi
    exact kept.words (a + 1 + i) (by omega) (by omega)

namespace Stable

theorem refl (ha : h.Allocated a) : Stable h h a := ⟨ha, rfl, fun _ _ _ => rfl⟩

theorem tagAt (s : Stable h h' a) : h'.tagAt a = h.tagAt a := by rw [Heap.tagAt, s.header, Heap.tagAt]

theorem room (s : Stable h h' a) : h'.room a = h.room a := by rw [Heap.room, levelAt, s.header, Heap.room, levelAt]

theorem trans (s : Stable h h' a) (t : Stable h' h'' a) : Stable h h'' a where
  allocated := t.allocated
  header := t.header.trans s.header
  fixed i hi fixes := (t.fixed i (s.room.symm ▸ hi) (s.tagAt.symm ▸ fixes)).trans (s.fixed i hi fixes)

/-- A word that may change is replaced. -/
theorem put (s : h.Sound) (ha : h.Allocated a) (hi : i < h.room a) (free : (h.tagAt a).fixes i = false) (hb : h.Allocated b) :
    Stable h (h.put a i w) b where
  allocated := (s.allocated_put ha hi).mpr hb
  header := s.header_put ha hi hb
  fixed j hj fixes := by
    by_cases same : b = a
    · subst same
      rw [s.cell_put ha hi, if_neg]
      rintro rfl
      exact absurd fixes (by rw [free]; exact Bool.false_ne_true)
    · exact (s.kept_put ha hi hb same).stable.fixed j hj fixes

end Stable

theorem Collected.stable (c : Collected g h) (ha : g.Reachable a) : Stable g h a :=
  Kept.stable ⟨(c.allocated a).mpr ha, c.words a ha⟩

namespace Lasts

theorem refl (allocated : ∀ b, S b → h.Allocated b) : Lasts S h h := .stays (fun b hb => .refl (allocated b hb)) rfl

theorem mono (lasts : Lasts S h h') (fewer : ∀ b, T b → S b) : Lasts T h h' := by
  induction lasts generalizing T with
  | stays stable stats => exact .stays (fun b hb => stable b (fewer b hb)) stats
  | collected stable stats collected _ ih =>
    exact .collected (fun b hb => stable b (fewer b hb)) stats collected (ih fun b hb => ⟨fewer b hb.1, hb.2⟩)

/-- Blocks that have been stable last as long as they last from then on. -/
theorem after (stable : ∀ b, S b → Stable h k b) (stats : k.stats = h.stats) (lasts : Lasts S k h') : Lasts S h h' := by
  cases lasts with
  | stays stable' stats' => exact .stays (fun b hb => (stable b hb).trans (stable' b hb)) (stats'.trans stats)
  | collected stable' stats' collected later =>
    exact .collected (fun b hb => (stable b hb).trans (stable' b hb)) (stats'.trans stats) collected later

theorem trans (first : Lasts S h h') (next : Lasts T h' h'') (still : ∀ b, S b → h'.Allocated b → T b) : Lasts S h h'' := by
  induction first with
  | stays stable stats => exact .after stable stats (next.mono fun b hb => still b hb (stable b hb).allocated)
  | collected stable stats collected _ ih => exact .collected stable stats collected (ih next fun b hb => still b hb.1)

theorem collections (lasts : Lasts S h h') : h.stats.collections ≤ h'.stats.collections := by
  induction lasts with
  | stays _ stats => exact Nat.le_of_eq (congrArg CollectionStats.collections stats).symm
  | collected _ stats collected _ ih =>
    have := collected.collections
    rw [stats] at this
    omega

/-- A block that is not as it was has been reclaimed by a collection, and was as it had been until then. -/
theorem stable_or_reclaimed (lasts : Lasts S h h') (hb : S b) : Stable h h' b ∨ ∃ g g', Stable h g b ∧ Collected g g' ∧ ¬g.Reachable b ∧
    h.stats.collections ≤ g.stats.collections ∧ g'.stats.collections ≤ h'.stats.collections := by
  induction lasts with
  | stays stable => exact .inl (stable b hb)
  | @collected S h g g' h' stable stats collected later ih =>
    by_cases reached : g.Reachable b
    · have before := stable b hb
      have survives := before.trans (collected.stable reached)
      rcases ih ⟨hb, reached⟩ with same | ⟨k, k', same, collected', gone, le, le'⟩
      · exact .inl (survives.trans same)
      · refine .inr ⟨k, k', survives.trans same, collected', gone, ?_, le'⟩
        have := collected.collections
        rw [stats] at this
        omega
    · exact .inr ⟨g, g', stable b hb, collected, reached, Nat.le_of_eq (congrArg CollectionStats.collections stats).symm, later.collections⟩

/-- Without a collection everything is as it was. -/
theorem stable (lasts : Lasts S h h') (none : h'.stats.collections = h.stats.collections) (hb : S b) : Stable h h' b := by
  rcases lasts.stable_or_reclaimed hb with same | ⟨g, g', _, collected, _, le, le'⟩
  · exact same
  · have := collected.collections
    omega

end Lasts

theorem MaybeCollected.lasts (maybe : h.MaybeCollected g) : Lasts h.Allocated h g := by
  rcases maybe with rfl | c
  · exact .refl fun _ ha => ha
  · exact .collected (fun _ ha => .refl ha) rfl c (.refl fun b hb => (c.allocated b).mpr hb.2)

namespace Since

theorem lasts (since : Since h h' a) : Lasts h.Allocated h h' := by
  obtain ⟨g, lasts, -, stable, stats⟩ := since
  exact lasts.trans (.stays stable stats) fun _ _ hb => hb

/-- Something is done to the new block only. -/
theorem only (since : Since h h' a) (stable : ∀ b, h'.Allocated b → b ≠ a → Stable h' h'' b) (stats : h''.stats = h'.stats) :
    Since h h'' a := by
  obtain ⟨g, lasts, fresh, stable', stats'⟩ := since
  refine ⟨g, lasts, fresh, fun b hb => (stable' b hb).trans (stable b (stable' b hb).allocated ?_), stats.trans stats'⟩
  rintro rfl
  exact fresh hb

end Since

end Heap

end FiberMachine

/-! ## How a heap evolves -/

namespace FiberMachine

namespace Heap

/-- The heap with more addresses protected. -/
def rooting (h : Heap) (rs : List Nat) : Heap := { h with temporaries := h.temporaries ++ rs }

/-- What can be reached from the roots and the given addresses. -/
def Live (h : Heap) (rs : List Nat) (a : Nat) : Prop := h.Reaches (h.roots ++ rs) a

/-- A set of allocated blocks that holds the roots and all that its blocks refer to. -/
structure Survives (h : Heap) (L : Nat → Prop) : Prop where
  allocated : ∀ a : Nat, L a → h.Allocated a
  root : ∀ a ∈ h.roots, L a
  child : ∀ a b : Nat, L a → h.Child a b → L b

/-- From `h` to `h'`, of the blocks in `L` only those in `P` change, and the blocks in `N` are new. -/
structure Alters (h : Heap) (L : Nat → Prop) (h' : Heap) (P : Nat → Prop) (N : List Nat) : Prop where
  tidy : h'.Tidy
  contexts : h'.contexts = h.contexts
  temporaries : h'.temporaries = h.temporaries
  capacity : h'.capacity = h.capacity
  kept : ∀ a : Nat, L a → ¬P a → Kept h h' a
  stays : ∀ a : Nat, L a → h'.Allocated a ∧ h'.wordAt a = h.wordAt a
  new : ∀ a ∈ N, h'.Allocated a ∧ ¬L a

/-- The heap alters, and no word changes that is not to change. -/
structure Evolves (h : Heap) (L : Nat → Prop) (h' : Heap) (P : Nat → Prop) (N : List Nat) : Prop extends Alters h L h' P N where
  lasts : Lasts h.Allocated h h'

/-- The action fails because the memory is used up. -/
def NoMemory {α : Type} (m : HeapM α) (h : Heap) : Prop :=
  ∃ n h', m h = .error (.error (.outOfMemory n)) h'

variable {h h' h'' : Heap} {a b i n : Nat} {t : Tag} {w : Word} {L K P Q : Nat → Prop} {N M rs ss : List Nat}

/-! ### Protecting addresses -/

theorem sameArena_rooting : h.SameArena (h.rooting rs) := ⟨rfl, rfl, rfl⟩

theorem roots_rooting : (h.rooting rs).roots = h.roots ++ rs := by
  simp [Heap.roots, rooting]

theorem SameArena.ref {k : Heap} (same : h.SameArena k) : k.ref a = h.ref a := by
  funext i
  rw [Heap.ref, cell, same.wordAt, Heap.ref, cell]

theorem SameArena.childrenAt {k : Heap} (same : h.SameArena k) : k.childrenAt a = h.childrenAt a := by
  simp only [childrenAt_eq, tagAt, same.ref, same.wordAt]

theorem SameArena.laidOut {k : Heap} (same : h.SameArena k) : k.LaidOut a ↔ h.LaidOut a := by
  simp only [laidOut_iff, tagAt, same.ref, room, levelAt, same.wordAt]

theorem SameArena.is {k : Heap} (same : h.SameArena k) : k.Is a t n ↔ h.Is a t n := by
  constructor
  · rintro ⟨ha, tag, room⟩
    refine ⟨same.allocated.mp ha, ?_, ?_⟩
    · rwa [tagAt, same.wordAt] at tag
    · rwa [Heap.room, levelAt, same.wordAt] at room
  · rintro ⟨ha, tag, room⟩
    refine ⟨same.allocated.mpr ha, ?_, ?_⟩
    · rwa [tagAt, same.wordAt]
    · rwa [Heap.room, levelAt, same.wordAt]

theorem SameArena.kept {k : Heap} (same : h.SameArena k) (ha : h.Allocated a) : Kept h k a :=
  ⟨same.allocated.mpr ha, fun x _ _ => by rw [same.wordAt]⟩

/-- The same arena with roots that are allocated is as tidy. -/
theorem Tidy.sameArena {k : Heap} (tidy : h.Tidy) (same : h.SameArena k)
    (root : ∀ a ∈ k.roots, h.Allocated a) : k.Tidy := by
  refine .of_blocks (same.sound tidy.sound) (fun a ha => same.allocated.mpr (root a ha)) fun a ha => ?_
  obtain ⟨laid, children⟩ := tidy.each (same.allocated.mp ha)
  refine ⟨same.laidOut.mpr laid, fun c hc => same.allocated.mpr (children c ?_)⟩
  rwa [same.childrenAt] at hc

theorem Tidy.root (tidy : h.Tidy) (ha : a ∈ h.roots) : h.Allocated a := tidy.consistent.root a ha

theorem Tidy.rooting (tidy : h.Tidy) (good : ∀ r ∈ rs, h.Allocated r) : (h.rooting rs).Tidy := by
  refine tidy.sameArena sameArena_rooting fun a ha => ?_
  rw [roots_rooting, List.mem_append] at ha
  rcases ha with ha | ha
  · exact tidy.root ha
  · exact good a ha

theorem Tidy.child_sameArena {k : Heap} (tidy : h.Tidy) (tidy' : k.Tidy) (same : h.SameArena k)
    (ha : h.Allocated a) : k.Child a b ↔ h.Child a b := by
  rw [tidy.child_iff ha, tidy'.child_iff (same.allocated.mpr ha), same.childrenAt]

/-! ### Sets that survive -/

theorem Survives.all (tidy : h.Tidy) : h.Survives h.Allocated :=
  ⟨fun _ ha => ha, fun _ ha => tidy.root ha, fun a b ha hb => tidy.consistent.child a b ha hb⟩

theorem Live.root (ha : a ∈ h.roots) : h.Live rs a := .start (List.mem_append_left _ ha)

theorem Live.extra (ha : a ∈ rs) : h.Live rs a := .start (List.mem_append_right _ ha)

theorem Live.child (ha : h.Live rs a) (hb : h.Child a b) : h.Live rs b := Reaches.child ha hb

theorem Tidy.allocated_of_live (tidy : h.Tidy) (good : ∀ r ∈ rs, h.Allocated r) (ha : h.Live rs a) :
    h.Allocated a := by
  refine Reaches.of_closed ha (fun b hb => ?_) fun b c hb hc => tidy.consistent.child b c hb hc
  rcases List.mem_append.mp hb with hb | hb
  · exact tidy.root hb
  · exact good b hb

theorem Survives.live (tidy : h.Tidy) (good : ∀ r ∈ rs, h.Allocated r) : h.Survives (h.Live rs) :=
  ⟨fun _ ha => tidy.allocated_of_live good ha, fun _ ha => .root ha, fun _ _ ha hb => ha.child hb⟩

/-! ### Steps of an evolution -/

namespace Alters

theorem refl (tidy : h.Tidy) (s : h.Survives L) : Alters h L h (fun _ => False) [] :=
  ⟨tidy, rfl, rfl, rfl, fun a ha _ => .refl (s.allocated a ha), fun a ha => ⟨s.allocated a ha, rfl⟩,
    fun _ ha => absurd ha List.not_mem_nil⟩

theorem roots (e : Alters h L h' P N) : h'.roots = h.roots := by
  rw [Heap.roots, e.contexts, e.temporaries, Heap.roots]

theorem weaken (e : Alters h L h' P N) (fewer : ∀ a, K a → L a) (more : ∀ a, K a → P a → Q a)
    (part : ∀ a ∈ M, a ∈ N) : Alters h K h' Q M :=
  ⟨e.tidy, e.contexts, e.temporaries, e.capacity, fun a ha out => e.kept a (fewer a ha) fun hp => out (more a ha hp),
    fun a ha => e.stays a (fewer a ha), fun a ha => ⟨(e.new a (part a ha)).1, fun hk => (e.new a (part a ha)).2 (fewer a hk)⟩⟩

theorem is (e : Alters h L h' P N) (ha : L a) (b : h.Is a t n) : h'.Is a t n := by
  obtain ⟨allocated, header⟩ := e.stays a ha
  refine ⟨allocated, ?_, ?_⟩
  · rw [tagAt, header]
    exact b.tag
  · rw [Heap.room, levelAt, header]
    exact b.room

theorem trans (e : Alters h L h' P N) (f : Alters h' K h'' Q M) (old : ∀ a, L a → K a)
    (new : ∀ a ∈ N, K a) : Alters h L h'' (fun a => P a ∨ Q a) (N ++ M) where
  tidy := f.tidy
  contexts := f.contexts.trans e.contexts
  temporaries := f.temporaries.trans e.temporaries
  capacity := f.capacity.trans e.capacity
  kept := fun a ha out => (e.kept a ha fun hp => out (.inl hp)).trans
    (f.kept a (old a ha) fun hq => out (.inr hq))
  stays := fun a ha => ⟨(f.stays a (old a ha)).1, (f.stays a (old a ha)).2.trans (e.stays a ha).2⟩
  new := by
    intro a ha
    rcases List.mem_append.mp ha with ha | ha
    · exact ⟨(f.stays a (new a ha)).1, (e.new a ha).2⟩
    · exact ⟨(f.new a ha).1, fun hl => (f.new a ha).2 (old a hl)⟩

/-- Alterations of allocated blocks follow. -/
theorem mutate (e : Alters h L h' P N) (f : Alters h' h'.Allocated h'' Q []) :
    Alters h L h'' (fun a => P a ∨ Q a) N := by
  have := e.trans f (fun a ha => (e.stays a ha).1) fun a ha => (e.new a ha).1
  rwa [List.append_nil] at this

end Alters

namespace Evolves

theorem refl (tidy : h.Tidy) (s : h.Survives L) : Evolves h L h (fun _ => False) [] := ⟨.refl tidy s, .refl fun _ ha => ha⟩

/-- Fewer blocks survive, and more of them may have changed. -/
theorem weaken (e : Evolves h L h' P N) (fewer : ∀ a, K a → L a) (more : ∀ a, K a → P a → Q a)
    (part : ∀ a ∈ M, a ∈ N) : Evolves h K h' Q M := ⟨e.toAlters.weaken fewer more part, e.lasts⟩

/-- One evolution after another, when what survives the first and its new blocks survive the
second. -/
theorem trans (e : Evolves h L h' P N) (f : Evolves h' K h'' Q M) (old : ∀ a, L a → K a)
    (new : ∀ a ∈ N, K a) : Evolves h L h'' (fun a => P a ∨ Q a) (N ++ M) :=
  ⟨e.toAlters.trans f.toAlters old new, e.lasts.trans f.lasts fun _ _ ha => ha⟩

/-- An evolution followed by changes to allocated blocks. -/
theorem mutate (e : Evolves h L h' P N) (f : Evolves h' h'.Allocated h'' Q []) :
    Evolves h L h'' (fun a => P a ∨ Q a) N := by
  have := e.trans f (fun a ha => (e.stays a ha).1) fun a ha => (e.new a ha).1
  rwa [List.append_nil] at this

/-- Blocks that were live are live after an evolution that changes none of them. -/
theorem live (e : Evolves h (h.Live rs) h' P N) (tidy : h.Tidy) (good : ∀ r ∈ rs, h.Allocated r)
    (still : ∀ a, h.Live rs a → ¬P a) (extra : ∀ r ∈ rs, h'.Live ss r) (ha : h.Live rs a) : h'.Live ss a := by
  have both : h.Live rs a ∧ h'.Live ss a := by
    refine Reaches.of_closed (M := fun a => h.Live rs a ∧ h'.Live ss a) ha (fun b hb => ⟨.start hb, ?_⟩) ?_
    · rcases List.mem_append.mp hb with hb | hb
      · exact .root (e.roots ▸ hb)
      · exact extra b hb
    · rintro b c ⟨hb, hb'⟩ hc
      refine ⟨hb.child hc, hb'.child ?_⟩
      have old := tidy.allocated_of_live good hb
      have kept := e.kept b hb (still b hb)
      rw [tidy.child_iff old] at hc
      rwa [e.tidy.child_iff kept.allocated, kept.childrenAt (tidy.laidOut old)]
  exact both.2

end Evolves

/-- A payload word of an allocated block is replaced. -/
theorem Tidy.alters_put (tidy : h.Tidy) (b : h.Is a t n) (hi : i < n) (tidy' : (h.put a i w).Tidy) :
    Alters h h.Allocated (h.put a i w) (· = a) [] where
  tidy := tidy'
  contexts := rfl
  temporaries := rfl
  capacity := capacity_put
  kept := fun _ hc ne => tidy.sound.kept_put b.allocated (Nat.lt_of_lt_of_le hi b.room) hc ne
  stays := fun _ hc => ⟨(tidy.sound.allocated_put b.allocated (Nat.lt_of_lt_of_le hi b.room)).mpr hc,
    tidy.sound.header_put b.allocated (Nat.lt_of_lt_of_le hi b.room) hc⟩
  new := fun _ hc => absurd hc List.not_mem_nil

/-- A payload word is replaced that may change. -/
theorem Tidy.evolves_put (tidy : h.Tidy) (b : h.Is a t n) (hi : i < n) (free : t.fixes i = false) (tidy' : (h.put a i w).Tidy) :
    Evolves h h.Allocated (h.put a i w) (· = a) [] where
  toAlters := tidy.alters_put b hi tidy'
  lasts := .stays (fun _ hc => .put tidy.sound b.allocated (Nat.lt_of_lt_of_le hi b.room) (b.tag.symm ▸ free) hc) rfl

/-- Writing a field of an allocated block. -/
theorem Tidy.write (tidy : h.Tidy) (b : h.Is a t n) {π : List Nat} (layout : t.layout = .fields π)
    (hi : i < n) (good : i ∈ π → h.Allocated w.toNat) (free : t.fixes i = false := by rfl) :
    ∃ h', Heap.write a i w h = .ok () h' ∧ Evolves h h.Allocated h' (· = a) [] ∧ h'.Is a t n ∧
      ∀ j : Nat, h'.cell a j = if j = i then w else h.cell a j := by
  have s := tidy.sound
  have hi' := Nat.lt_of_lt_of_le hi b.room
  have tidy' := tidy.put_field b layout hi good
  exact ⟨_, s.write_eq b hi, tidy.evolves_put b hi free tidy', (s.is_put b.allocated hi').mpr b,
    fun j => s.cell_put b.allocated hi'⟩

/-- Writing a number or an address into a field. -/
theorem Tidy.writeNat (tidy : h.Tidy) (b : h.Is a t n) {π : List Nat} (layout : t.layout = .fields π)
    (hi : i < n) {v : Nat} (small : v < 2 ^ 64) (good : i ∈ π → h.Allocated v) (free : t.fixes i = false := by rfl) :
    ∃ h', Heap.writeNat a i v h = .ok () h' ∧ Evolves h h.Allocated h' (· = a) [] ∧ h'.Is a t n ∧
      ∀ j : Nat, h'.ref a j = if j = i then v else h.ref a j := by
  have same : (UInt64.ofNat v).toNat = v := by rw [UInt64.toNat_ofNat', Nat.mod_eq_of_lt small]
  obtain ⟨h', run, e, is, cells⟩ := tidy.write b layout hi (w := UInt64.ofNat v) (fun ref => same.symm ▸ good ref) free
  refine ⟨h', run, e, is, fun j => ?_⟩
  rw [ref, cells]
  split
  · exact same
  · rfl

end Heap

end FiberMachine
