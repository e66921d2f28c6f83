import FiberMachine.Proofs.Graph.Basic

/-!
# Changes to two heaps at once

Twins stay twins when a payload word is replaced in both, the references under their names, and when a block
is allocated in both. An allocation may run the collector in one heap and not in the other; then the
graph shrinks to what can be reached.
-/

namespace FiberMachine

namespace Heap

variable {v v' : View} {h h' k k' : Heap} {a b c i j n : Nat} {t u : Tag} {w w' : Word} {π : List Nat} {as : List Addr}

namespace Twins

/-! ### Payload words -/

section

variable (g : Twins v h k) (ha : v.blocks a) (hi : i < h.room a)
include g ha hi

theorem room' : i < k.room (v.name a) := by rwa [(g.alike a ha).room]

theorem kept_put (hb : v.blocks b) (ne : b ≠ a) : Kept h (h.put a i w) b :=
  g.tidy.sound.kept_put (g.allocated a ha) hi (g.allocated b hb) ne

theorem kept_put' (hb : v.blocks b) (ne : b ≠ a) : Kept k (k.put (v.name a) i w') (v.name b) :=
  g.tidy'.sound.kept_put (g.allocated' a ha) (g.room' ha hi) (g.allocated' b hb) fun same => ne (g.injective b a hb ha same)

theorem tagAt_put (hb : v.blocks b) : (h.put a i w).tagAt b = h.tagAt b := by
  rw [tagAt, g.tidy.sound.header_put (g.allocated a ha) hi (g.allocated b hb), tagAt]

theorem room_put (hb : v.blocks b) : (h.put a i w).room b = h.room b := by
  rw [room, levelAt, g.tidy.sound.header_put (g.allocated a ha) hi (g.allocated b hb), room, levelAt]

theorem tagAt_put' (hb : v.blocks b) : (k.put (v.name a) i w').tagAt (v.name b) = k.tagAt (v.name b) := by
  rw [tagAt, g.tidy'.sound.header_put (g.allocated' a ha) (g.room' ha hi) (g.allocated' b hb), tagAt]

theorem room_put' (hb : v.blocks b) : (k.put (v.name a) i w').room (v.name b) = k.room (v.name b) := by
  rw [room, levelAt, g.tidy'.sound.header_put (g.allocated' a ha) (g.room' ha hi) (g.allocated' b hb), room, levelAt]

theorem ref_put : (h.put a i w).ref a j = if j = i then w.toNat else h.ref a j := by
  rw [ref, g.tidy.sound.cell_put (g.allocated a ha) hi]
  split <;> rfl

theorem ref_put' : (k.put (v.name a) i w').ref (v.name a) j = if j = i then w'.toNat else k.ref (v.name a) j := by
  rw [ref, g.tidy'.sound.cell_put (g.allocated' a ha) (g.room' ha hi)]
  split <;> rfl

/-- What has to be known of the block that is changed. -/
theorem put_of (tidy : (h.put a i w).Tidy) (tidy' : (k.put (v.name a) i w').Tidy) (alike : Alike v.name (h.put a i w) (k.put (v.name a) i w') a)
    (closed : ∀ j, (h.put a i w).RefersAt a j → v.blocks ((h.put a i w).ref a j)) (typed : (h.put a i w).Typed a)
    (ordered : Ordered v.rank (h.put a i w) a) : Twins v (h.put a i w) (k.put (v.name a) i w') := by
  have each (b : Nat) (hb : v.blocks b) {P : Nat → Prop} (self : P a) (other : Kept h (h.put a i w) b →
      Kept k (k.put (v.name a) i w') (v.name b) → P b) : P b := by
    by_cases e : b = a
    · exact e ▸ self
    · exact other (g.kept_put ha hi hb e) (g.kept_put' ha hi hb e)
  have allocated (b : Nat) (hb : v.blocks b) : (h.put a i w).Allocated b :=
    (g.tidy.sound.allocated_put (g.allocated a ha) hi).mpr (g.allocated b hb)
  have closed' (b c : Nat) (hb : v.blocks b) (hc : (h.put a i w).Child b c) : v.blocks c := by
    obtain ⟨j, refers, rfl⟩ := (tidy.child_iff_refers (allocated b hb)).mp hc
    by_cases e : b = a
    · subst e
      exact closed j refers
    · have kept : Kept h (h.put a i w) b := g.kept_put ha hi hb e
      have refers := (kept.refersAt (g.laidOut hb)).mp refers
      rw [kept.ref ((g.laidOut hb).lt_room refers)]
      exact (g.refers hb refers).1
  exact {
    tidy := tidy
    tidy' := tidy'
    root := g.root
    extent := capacity_store.trans g.extent
    nil := g.nil
    empty := (g.room_put ha hi g.zero).trans g.empty
    contexts := g.contexts
    temporaries := g.temporaries
    allocated := allocated
    allocated' := fun b hb => (g.tidy'.sound.allocated_put (g.allocated' a ha) (g.room' ha hi)).mpr (g.allocated' b hb)
    injective := g.injective
    closed := closed'
    alike := fun b hb => each b hb alike fun kept kept' => (g.alike b hb).kept (g.laidOut hb) kept kept'
    typed := fun b hb => each b hb typed fun kept _ => (g.typed b hb).kept (g.laidOut hb) kept fun _ refers =>
      g.tagAt_put ha hi (g.refers hb refers).1
    ordered := fun b hb => each b hb ordered fun kept _ => (g.ordered b hb).kept (g.laidOut hb) kept rfl fun _ _ => rfl }

/-- A word of a block with fixed fields. -/
theorem put_field (tag : h.tagAt a = t) (layout : t.layout = .fields π) (number : i ∉ π → w' = w)
    (reference : i ∈ π → v.blocks w.toNat ∧ w'.toNat = v.name w.toNat)
    (typed : ∀ u, t.leadsTo i = some u → w.toNat = unassigned ∨ h.tagAt w.toNat = u)
    (before : t = .listNode → i = 1 → w.toNat = unassigned ∨ v.rank w.toNat < v.rank a)
    (after : t = .listNode → i = 2 → w.toNat = unassigned ∨ v.rank a < v.rank w.toNat) :
    Twins v (h.put a i w) (k.put (v.name a) i w') := by
  have s := g.tidy.sound
  have s' := g.tidy'.sound
  have hi' := g.room' ha hi
  have alike := g.alike a ha
  have is : h.Is a t (i + 1) := ⟨g.allocated a ha, tag, hi⟩
  have is' : k.Is (v.name a) t (i + 1) := ⟨g.allocated' a ha, alike.tag.trans tag, hi'⟩
  have tag₁ : (h.put a i w).tagAt a = t := (g.tagAt_put ha hi ha).trans tag
  have cell' (j : Nat) : (k.put (v.name a) i w').cell (v.name a) j = if j = i then w' else k.cell (v.name a) j :=
    s'.cell_put (g.allocated' a ha) hi'
  have cell (j : Nat) : (h.put a i w).cell a j = if j = i then w else h.cell a j := s.cell_put (g.allocated a ha) hi
  have ref (j : Nat) : (h.put a i w).ref a j = if j = i then w.toNat else h.ref a j := g.ref_put ha hi
  refine g.put_of ha hi ?_ ?_ ⟨?_, ?_, fun j hj plain => ?_, fun j hj refers => ?_⟩ (fun j refers => ?_) (fun j u leads => ?_) ⟨fun node => ?_, fun node => ?_⟩
  · exact g.tidy.put_field is layout (Nat.lt_succ_self i) fun hi => g.allocated _ (reference hi).1
  · refine g.tidy'.put_field is' layout (Nat.lt_succ_self i) fun hi => ?_
    rw [(reference hi).2]
    exact g.allocated' _ (reference hi).1
  · rw [g.tagAt_put' ha hi ha, alike.tag, g.tagAt_put ha hi ha]
  · rw [g.room_put' ha hi ha, alike.room, g.room_put ha hi ha]
  · rw [g.room_put ha hi ha] at hj
    have plain := (numberAt_fields tag₁ layout).mp plain
    rw [cell', cell]
    split
    next same => exact number (same ▸ plain)
    next => exact alike.number j hj ((numberAt_fields tag layout).mpr plain)
  · rw [g.room_put ha hi ha] at hj
    have refers := (refersAt_fields tag₁ layout).mp refers
    rw [ref, g.ref_put' ha hi]
    split
    next same => exact (reference (same ▸ refers)).2
    next => exact alike.reference j hj ((refersAt_fields tag layout).mpr refers)
  · have refers := (refersAt_fields tag₁ layout).mp refers
    rw [ref]
    split
    next same => exact (reference (same ▸ refers)).1
    next => exact (g.refers ha ((refersAt_fields tag layout).mpr refers)).1
  · rw [tag₁] at leads
    have refers : h.RefersAt a j := leadsTo_refers (tag ▸ leads)
    have there := (refersAt_fields tag layout).mp refers
    rw [ref]
    split
    next same =>
      subst same
      rw [g.tagAt_put ha hi (reference there).1]
      exact typed u leads
    next =>
      rw [g.tagAt_put ha hi (g.refers ha refers).1]
      exact g.typed a ha j u (tag ▸ leads)
  · have node := tag₁.symm.trans node
    rw [ref]
    split
    next same => exact before node same.symm
    next => exact (g.ordered a ha).before (tag.trans node)
  · have node := tag₁.symm.trans node
    rw [ref]
    split
    next same => exact after node same.symm
    next => exact (g.ordered a ha).after (tag.trans node)

end

section

variable (g : Twins v h k) (ha : v.blocks a)
include g ha

/-- The words of a counted block after one of them has been replaced. -/
theorem put_counted (tag : h.tagAt a = t) (layout : t.layout = .counted) (hi : i < h.room a) (tidy : (h.put a i w).Tidy)
    (tidy' : (k.put (v.name a) i w').Tidy) (count : i = 0 → w' = w)
    (items : ∀ j, 1 ≤ j → j ≤ (h.put a i w).ref a 0 → v.blocks ((h.put a i w).ref a j) ∧
      (k.put (v.name a) i w').ref (v.name a) j = v.name ((h.put a i w).ref a j)) : Twins v (h.put a i w) (k.put (v.name a) i w') := by
  have alike := g.alike a ha
  have tag₁ : (h.put a i w).tagAt a = t := (g.tagAt_put ha hi ha).trans tag
  have leads (j : Nat) : t.leadsTo j = none := by cases t <;> first | rfl | cases layout
  have other (node : (h.put a i w).tagAt a = .listNode) : False := by
    rw [tag₁.symm.trans node] at layout
    cases layout
  refine g.put_of ha hi tidy tidy' ⟨?_, ?_, fun j hj plain => ?_, fun j _ refers => ?_⟩ (fun j refers => ?_) (fun j u leads' => ?_)
    ⟨fun node => (other node).elim, fun node => (other node).elim⟩
  · rw [g.tagAt_put' ha hi ha, alike.tag, g.tagAt_put ha hi ha]
  · rw [g.room_put' ha hi ha, alike.room, g.room_put ha hi ha]
  · rw [g.room_put ha hi ha] at hj
    obtain rfl := (numberAt_counted tag₁ layout).mp plain
    rw [g.tidy'.sound.cell_put (g.allocated' a ha) (g.room' ha hi), g.tidy.sound.cell_put (g.allocated a ha) hi]
    split
    next same => exact count same.symm
    next => exact alike.number 0 hj ((numberAt_counted tag layout).mpr rfl)
  · obtain ⟨pos, le⟩ := (refersAt_counted tag₁ layout).mp refers
    exact (items j pos le).2
  · obtain ⟨pos, le⟩ := (refersAt_counted tag₁ layout).mp refers
    exact (items j pos le).1
  · rw [tag₁, leads] at leads'
    cases leads'

/-- A slot of a counted block. What is stored behind its items may be anything. -/
theorem put_item (tag : h.tagAt a = t) (layout : t.layout = .counted) (hi : 1 + i < h.room a)
    (item : i < h.ref a 0 → v.blocks w.toNat ∧ w'.toNat = v.name w.toNat) : Twins v (h.put a (1 + i) w) (k.put (v.name a) (1 + i) w') := by
  have alike := g.alike a ha
  have is : h.Is a t (h.room a) := ⟨g.allocated a ha, tag, le_rfl⟩
  have is' : k.Is (v.name a) t (h.room a) := ⟨g.allocated' a ha, alike.tag.trans tag, alike.room.ge⟩
  have count : k.ref (v.name a) 0 = h.ref a 0 :=
    congrArg UInt64.toNat (alike.number 0 (Nat.lt_of_le_of_lt (Nat.zero_le _) hi) ((numberAt_counted tag layout).mpr rfl))
  refine g.put_counted ha tag layout hi ?_ ?_ (fun no => by omega) fun j pos le => ?_
  · exact g.tidy.put_item is layout hi fun inside => g.allocated _ (item inside).1
  · refine g.tidy'.put_item is' layout hi fun inside => ?_
    obtain ⟨hb, same⟩ := item (count ▸ inside)
    exact same ▸ g.allocated' _ hb
  · rw [g.ref_put ha hi, if_neg (by omega)] at le
    rw [g.ref_put ha hi, g.ref_put' ha hi]
    split
    next same => exact item (by omega)
    next => exact g.refers ha ((refersAt_counted tag layout).mpr ⟨pos, le⟩)

/-- The count of a counted block without references. -/
theorem put_count (tag : h.tagAt a = t) (layout : t.layout = .counted) (hn : n < h.room a) (count : w.toNat = n)
    (zero : ∀ j < n, h.ref a (1 + j) = 0) (zero' : ∀ j < n, k.ref (v.name a) (1 + j) = 0) : Twins v (h.put a 0 w) (k.put (v.name a) 0 w) := by
  have hi : 0 < h.room a := Nat.lt_of_le_of_lt (Nat.zero_le n) hn
  have alike := g.alike a ha
  refine g.put_counted ha tag layout hi ?_ ?_ (fun _ => rfl) fun j pos le => ?_
  · exact g.tidy.put_count ⟨g.allocated a ha, tag, hn⟩ layout count zero
  · exact g.tidy'.put_count ⟨g.allocated' a ha, alike.tag.trans tag, alike.room ▸ hn⟩ layout count zero'
  · rw [g.ref_put ha hi, if_pos rfl, count] at le
    obtain ⟨j, rfl⟩ := Nat.exists_eq_add_of_le pos
    rw [g.ref_put ha hi, if_neg (by omega), zero j (by omega), g.ref_put' ha hi, if_neg (by omega), zero' j (by omega)]
    exact ⟨g.zero, g.nil.symm⟩

end

end Twins

/-! ### Allocation -/

/-- The graph after an allocation: what can be reached, and the new block. -/
def View.add (v : View) (live : Addr → Prop) (a b r : Nat) : View where
  blocks x := live x ∨ x = a
  name := Function.update v.name a b
  rank := Function.update v.rank a r
  extent := v.extent

namespace View

variable {live : Addr → Prop} {r x : Nat}

theorem add_name (ne : x ≠ a) : (v.add live a b r).name x = v.name x := by
  rw [add]
  exact Function.update_of_ne ne b v.name

theorem add_name_self : (v.add live a b r).name a = b := by
  rw [add]
  exact Function.update_self a b v.name

theorem add_rank (ne : x ≠ a) : (v.add live a b r).rank x = v.rank x := by
  rw [add]
  exact Function.update_of_ne ne r v.rank

theorem add_rank_self : (v.add live a b r).rank a = r := by
  rw [add]
  exact Function.update_self a r v.rank

end View

/-- The block at `a` is new; what can be reached from the roots and from `as` stays as it is and keeps its name. -/
structure Adds (as : List Addr) (v : View) (h : Heap) (v' : View) (h' : Heap) (a : Addr) : Prop where
  kept : ∀ x, h.Live as x → Kept h h' x
  blocks : ∀ x, v'.blocks x ↔ h.Live as x ∨ x = a
  name : ∀ x, h.Live as x → v'.name x = v.name x
  rank : ∀ x, h.Live as x → v'.rank x = v.rank x
  fresh : ¬h.Live as a

/-- In both heaps a block of one kind and size is new, and all else that can be reached is kept. -/
theorem Twins.add (g : Twins v h k) {b r : Nat} (has : ∀ x ∈ as, v.blocks x) (f : Fresh h (h.Live as) h' a t n fun _ => 0)
    (f' : Fresh k (k.Live (as.map v.name)) k' b t n fun _ => 0) (room : k'.room b = h'.room a) (zero : ∀ i < h'.room a, h'.cell a i = 0)
    (zero' : ∀ i < k'.room b, k'.cell b i = 0) : Twins (v.add (h.Live as) a b r) h' k' := by
  have live {x : Nat} (hx : h.Live as x) := g.live has hx
  have kept {x : Nat} (hx : h.Live as x) : Kept h h' x := f.evolves.kept x hx id
  have kept' {x : Nat} (hx : h.Live as x) : Kept k k' (v.name x) := f'.evolves.kept _ (live hx).2 id
  have ne {x : Nat} (hx : h.Live as x) : x ≠ a := fun e => f.new (e ▸ hx)
  have name {x : Nat} (hx : h.Live as x) : (v.add (h.Live as) a b r).name x = v.name x := View.add_name (ne hx)
  have new : (v.add (h.Live as) a b r).name a = b := View.add_name_self
  have children {x i : Nat} (hx : h.Live as x) (refers : h.RefersAt x i) : h.Live as (h.ref x i) :=
    hx.child ((g.tidy.child_iff_refers (g.allocated x (live hx).1)).mpr ⟨i, refers, rfl⟩)
  -- a new block refers to nothing
  have none {i : Nat} (refers : h'.RefersAt a i) : h'.ref a i = unassigned := by
    rw [ref, zero i ((f.evolves.tidy.laidOut f.is.allocated).lt_room refers)]
    rfl
  have root {x : Nat} (hx : x ∈ h.roots) : h.Live as x := .root hx
  have names {xs : List Nat} (sub : ∀ x ∈ xs, x ∈ h.roots) : xs.map v.name = xs.map (v.add (h.Live as) a b r).name :=
    List.map_congr_left fun x hx => (name (root (sub x hx))).symm
  exact {
    tidy := f.evolves.tidy
    tidy' := f'.evolves.tidy
    root := fun x hx => .inl (root (f.evolves.roots ▸ hx))
    extent := f'.evolves.capacity.trans g.extent
    nil := (name (root (by simp [roots]))).trans g.nil
    empty := (kept (root (by simp [roots]))).room.trans g.empty
    contexts := by
      rw [f'.evolves.contexts, f.evolves.contexts, g.contexts]
      exact names fun x hx => by simp [roots, hx]
    temporaries := by
      rw [f'.evolves.temporaries, f.evolves.temporaries, g.temporaries]
      exact names fun x hx => by simp [roots, Array.mem_toList_iff.mp hx]
    allocated := by
      rintro x (hx | rfl)
      · exact (kept hx).allocated
      · exact f.is.allocated
    allocated' := by
      rintro x (hx | rfl)
      · exact (name hx).symm ▸ (kept' hx).allocated
      · exact new.symm ▸ f'.is.allocated
    injective := by
      have apart {x : Nat} (hx : h.Live as x) (same : v.name x = b) : False := f'.new (same ▸ (live hx).2)
      rintro x y (hx | rfl) (hy | rfl) same
      · rw [name hx, name hy] at same
        exact g.injective x y (live hx).1 (live hy).1 same
      · rw [name hx, new] at same
        exact (apart hx same).elim
      · rw [name hy, new] at same
        exact (apart hy same.symm).elim
      · rfl
    closed := by
      intro x y hx hy
      obtain ⟨i, refers, rfl⟩ := (f.evolves.tidy.child_iff_refers (hx.elim (fun hx => (kept hx).allocated) fun e => e ▸ f.is.allocated)).mp hy
      rcases hx with hx | rfl
      · have laid := g.laidOut (live hx).1
        have refers := ((kept hx).refersAt laid).mp refers
        rw [(kept hx).ref (laid.lt_room refers)]
        exact .inl (children hx refers)
      · rw [none refers]
        exact .inl (root (by simp [roots]))
    alike := by
      rintro x (hx | rfl)
      · have old : Alike v.name h' k' x := (g.alike x (live hx).1).kept (g.laidOut (live hx).1) (kept hx) (kept' hx)
        refine ⟨?_, ?_, fun i hi plain => ?_, fun i hi refers => ?_⟩
        · rw [name hx]
          exact old.tag
        · rw [name hx]
          exact old.room
        · rw [name hx]
          exact old.number i hi plain
        · rw [name hx]
          have refers' := ((kept hx).refersAt (g.laidOut (live hx).1)).mp refers
          have child := children hx refers'
          rw [← (kept hx).ref ((g.laidOut (live hx).1).lt_room refers')] at child
          rw [name child]
          exact old.reference i hi refers
      · refine ⟨?_, ?_, fun i hi _ => ?_, fun i hi refers => ?_⟩
        · rw [new, f.is.tag, f'.is.tag]
        · rw [new, room]
        · rw [new, zero i hi, zero' i (room ▸ hi)]
        · rw [none refers, new, name (root (by simp [roots])), g.nil, ref, zero' i (room ▸ hi)]
          rfl
    typed := by
      rintro x (hx | rfl)
      · exact (g.typed x (live hx).1).kept (g.laidOut (live hx).1) (kept hx) fun i refers => (kept (children hx refers)).tagAt
      · exact fun i u leads => .inl (none (leadsTo_refers leads))
    ordered := by
      rintro x (hx | rfl)
      · refine (g.ordered x (live hx).1).kept (g.laidOut (live hx).1) (kept hx) (View.add_rank (ne hx)) fun i refers => ?_
        exact View.add_rank (ne (children hx refers))
      · exact ⟨fun node => .inl (none ((refersAt_fields node rfl).mpr (by decide))), fun node => .inl (none ((refersAt_fields node rfl).mpr (by decide)))⟩ }

end Heap

end FiberMachine
