import FiberMachine.Proofs.Refinement.Collections
import FiberMachine.Proofs.Slicing

/-!
# Slices

A slice of the ideal machine lies within its array, so the lengths that the heap computes by subtraction
are never negative, and every position it reads exists.
-/

namespace FiberMachine

open Ideal

variable {w : World} {s : Store} {h : Heap} {r v : Ref} {a b i n : Nat} {xs : List Ref} {as : List Nat}

/-- The slice at `a` shows the positions from `i` up to `j` of the array `v`, which is at `d`. -/
structure SliceView (w : World) (h : Heap) (a : Nat) (v : Ref) (d i j : Nat) : Prop where
  home : w.home v d
  array : Slice.array a h = .ok d
  first : Slice.first a h = .ok i
  stop : Slice.stop a h = .ok j
  le : i ≤ j
  child : h.Child a d

/-- The items of the array at `d`, or none behind the nil slice. -/
structure Behind (w : World) (s : Store) (h : Heap) (array d : Nat) (xs : List Ref) (as : List Nat) : Prop where
  homes : List.Forall₂ w.home xs as
  nil : array = unassigned → d = unassigned ∧ as = []
  seq : array ≠ unassigned → d ≠ unassigned ∧ ∃ t, s.objects[array]? = some (.sequence t xs) ∧ h.IsSeq d t as

theorem Rep.slice (rep : Rep w s h) (ha : w.home r a) :
    (∃ t, sliceOf r s = .error .wild t) ∨
      ∃ array first stop d, sliceOf r s = .ok (array, first, stop) s ∧ SliceView w h a array d first stop := by
  obtain ⟨o, ho, has⟩ := rep.object r a ha
  unfold sliceOf
  rw [run_bind, Ideal.look, ho]
  cases o with
  | slice array first stop =>
    obtain ⟨is, home, hfirst, hstop⟩ := has
    by_cases le : first ≤ stop
    · right
      refine ⟨array, first, stop, h.ref a Slice.arrayField, ?_, home, rep.tidy.sound.readNat_eq is (by decide), ?_, ?_, le, ?_⟩
      · simp only [Option.bind, Obj.slice?, le, if_true]
        rfl
      · rw [Slice.first, rep.tidy.sound.readNat_eq is (by decide), hfirst]
      · rw [Slice.stop, rep.tidy.sound.readNat_eq is (by decide), hstop]
      · exact rep.tidy.child_field is (π := [0]) rfl (by decide)
    · left
      refine ⟨s, ?_⟩
      simp only [Option.bind, Obj.slice?, le, if_false]
      rfl
  | _ => exact .inl ⟨s, rfl⟩

theorem Rep.behind (rep : Rep w s h) {array d : Nat} (home : w.home array d) :
    (∃ t, itemsBehind array s = .error .wild t) ∨
      ∃ xs as, itemsBehind array s = .ok xs s ∧ Behind w s h array d xs as := by
  unfold itemsBehind
  by_cases nil : array = unassigned
  · right
    subst nil
    refine ⟨[], [], by rw [if_pos rfl]; rfl, .nil, fun _ => ⟨rep.single _ _ _ home rep.nil, rfl⟩, fun no => absurd rfl no⟩
  · rw [if_neg nil]
    unfold Ideal.items
    rw [run_bind, Ideal.look]
    obtain ⟨o, ho, has⟩ := rep.object array d home
    rw [ho]
    cases o with
    | sequence t xs =>
      obtain ⟨as, is, homes⟩ := has
      have ne : d ≠ unassigned := fun e => nil ((rep.eq_unassigned home).mp e)
      exact .inr ⟨xs, as, rfl, homes, fun no => absurd no nil, fun _ => ⟨ne, t, ho, is⟩⟩
    | _ => exact .inl ⟨s, rfl⟩

theorem Reads.ideal {α β δ : Type} {reader : HeapReader α} {m : StoreM δ} {l : δ → StoreM β} {x : δ} {Q : β → α → Prop}
    (run : m s = .ok x s) (next : Reads s h reader (l x) Q) : Reads s h reader (m >>= l) Q :=
  next.congr rfl (by rw [run_bind, run])

theorem Reads.wild {α β : Type} {reader : HeapReader α} {m : StoreM β} {Q : β → α → Prop} {t : Store}
    (run : m s = .error .wild t) : Reads s h reader m Q := by
  unfold Reads
  rw [run]
  exact .wild

/-! ### Looking at a slice -/

section

variable {α β : Type} {reader : HeapReader α} {Q : β → α → Prop}

theorem Reads.slice {l : Ref × Nat × Nat → StoreM β} (rep : Rep w s h) (ha : w.home r a)
    (next : ∀ array first stop d, SliceView w h a array d first stop → Reads s h reader (l (array, first, stop)) Q) :
    Reads s h reader (sliceOf r >>= l) Q := by
  rcases rep.slice ha with ⟨t, run⟩ | ⟨array, first, stop, d, run, view⟩
  · exact .wild (by rw [run_bind, run])
  · exact .ideal run (next array first stop d view)

theorem Reads.behind {l : List Ref → StoreM β} (rep : Rep w s h) {array d : Nat} (home : w.home array d)
    (next : ∀ xs as, Behind w s h array d xs as → Reads s h reader (l xs) Q) :
    Reads s h reader (itemsBehind array >>= l) Q := by
  rcases rep.behind home with ⟨t, run⟩ | ⟨xs, as, run, behind⟩
  · exact .wild (by rw [run_bind, run])
  · exact .ideal run (next xs as behind)

theorem Tracks.slice {m : HeapM α} {l : Ref × Nat × Nat → StoreM β} {Q : World → β → α → Prop} (rep : Rep w s h)
    (ha : w.home r a)
    (next : ∀ array first stop d, SliceView w h a array d first stop → Tracks w s h m (l (array, first, stop)) Q) :
    Tracks w s h m (sliceOf r >>= l) Q := by
  rcases rep.slice ha with ⟨t, run⟩ | ⟨array, first, stop, d, run, view⟩
  · exact .wild (by rw [run_bind, run])
  · exact .ideal run (next array first stop d view)

theorem Tracks.behind {m : HeapM α} {l : List Ref → StoreM β} {Q : World → β → α → Prop} (rep : Rep w s h)
    {array d : Nat} (home : w.home array d)
    (next : ∀ xs as, Behind w s h array d xs as → Tracks w s h m (l xs) Q) :
    Tracks w s h m (itemsBehind array >>= l) Q := by
  rcases rep.behind home with ⟨t, run⟩ | ⟨xs, as, run, behind⟩
  · exact .wild (by rw [run_bind, run])
  · exact .ideal run (next xs as behind)

end

theorem SliceView.length {array d first stop : Nat} (view : SliceView w h a array d first stop) :
    Slice.length a h = .ok (stop - first) := by
  simp only [Slice.length, HeapReader.run_bind, view.stop, view.first, difference_eq view.le]

theorem Reads.sliceLength (rep : Rep w s h) (ha : w.home r a) : Reads s h (Slice.length a) (Ideal.sliceLength r) Eq :=
  .slice rep ha fun _ _ _ _ view => .found view.length rfl rfl

theorem Reads.sliceCapacity (rep : Rep w s h) (ha : w.home r a) :
    Reads s h (Slice.capacity a) (Ideal.sliceCapacity r) Eq := by
  refine .slice rep ha fun array first stop d view => .behind rep view.home fun xs as back => ?_
  by_cases nil : array = unassigned
  · refine .found (a := 0) (b := 0) ?_ (by simp only [nil, if_true]; rfl) rfl
    simp only [Slice.capacity, HeapReader.run_bind, view.array, (back.nil nil).1, if_true]
    rfl
  · obtain ⟨ne, t, _, is⟩ := back.seq nil
    simp only [nil, if_false]
    by_cases le : first ≤ xs.length
    · refine .found (a := xs.length - first) ?_ (by simp only [le, if_true]; rfl) rfl
      have le : first ≤ as.length := back.homes.length_eq ▸ le
      simp only [Slice.capacity, HeapReader.run_bind, view.array, ne, if_false, is.length_eq rep.tidy, view.first,
        difference_eq le, back.homes.length_eq]
    · exact .wild (t := s) (by simp only [le, if_false]; rfl)

theorem Reads.elements (rep : Rep w s h) (ha : w.home r a) :
    Reads s h (Slice.elements a) (Ideal.elements r) (List.Forall₂ w.home) := by
  refine .slice rep ha fun array first stop d view => .behind rep view.home fun xs as back => ?_
  by_cases inside : stop ≤ xs.length
  · refine .found (a := (as.drop first).take (stop - first)) ?_ (by simp only [inside, if_true]; rfl) ?_
    · have small : stop - first < 2 ^ 28 := by
        by_cases nil : array = unassigned
        · rw [back.homes.length_eq, (back.nil nil).2, List.length_nil] at inside
          omega
        · obtain ⟨_, t, _, is⟩ := back.seq nil
          have : as.length < 268435456 := is.small rep.tidy
          rw [back.homes.length_eq] at inside
          omega
      have listable : (stop - first) * 8 < hostLimit := by
        unfold hostLimit
        omega
      have read : Heap.readNats d (1 + first) (stop - first) h = .ok ((as.drop first).take (stop - first)) := by
        by_cases nil : array = unassigned
        · rw [back.homes.length_eq, (back.nil nil).2, List.length_nil] at inside
          rw [Nat.le_zero.mp inside, Nat.zero_sub]
          rfl
        · obtain ⟨_, t, _, is⟩ := back.seq nil
          have := view.le
          exact is.readNats_eq rep.tidy (by rw [← back.homes.length_eq]; omega)
      simp only [Slice.elements, HeapReader.run_bind, view.array, view.first, view.stop, Heap.expectListable,
        Heap.expectRoom, listable, if_true, HeapReader.run_pure, read]
    · exact List.forall₂_take _ (List.forall₂_drop _ back.homes)
  · exact .wild (t := s) (by simp only [inside, if_false]; rfl)

/-! ### Elements -/

/-- The position in the array of an element. -/
theorem Reads.slicePosition (rep : Rep w s h) (ha : w.home r a) (index : Int) :
    Reads s h (Slice.position a index) (Ideal.slicePosition r index) fun x k => x.2 = k ∧
      ∃ d t as xs, w.home x.1 d ∧ Slice.array a h = .ok d ∧ s.objects[x.1]? = some (.sequence t xs) ∧ h.IsSeq d t as ∧
        List.Forall₂ w.home xs as ∧ k < xs.length := by
  refine .slice rep ha fun array first stop d view => ?_
  have run : Slice.position a index h =
      if index < 0 ∨ ((stop - first : Nat) : Int) ≤ index then .error (.error (.indexOutOfRange index (stop - first)))
      else .ok (first + index.toNat) := by
    simp only [Slice.position, HeapReader.run_bind, view.length]
    split
    · rfl
    · simp only [HeapReader.run_bind, HeapReader.run_pure, view.first]
  have position : Reads s h (Slice.position a index) (Ideal.within index (stop - first)) fun i k => first + i = k :=
    .within run fun _ => rfl
  refine (position.bind (k := Pure.pure) fun i k e => ?_).congr (by rw [bind_pure]) rfl
  refine .behind rep view.home fun xs as back => ?_
  by_cases inside : first + i < xs.length
  · simp only [inside, if_true]
    have nil : array ≠ unassigned := by
      intro nil
      rw [back.homes.length_eq, (back.nil nil).2] at inside
      exact absurd inside (Nat.not_lt_zero _)
    obtain ⟨_, t, ho, is⟩ := back.seq nil
    exact .pure ⟨e, d, t, as, xs, view.home, view.array, ho, is, back.homes, e ▸ inside⟩
  · exact .wild (t := s) (by simp only [inside, if_false]; rfl)

theorem Reads.sliceGet (rep : Rep w s h) (ha : w.home r a) (index : Int) :
    Reads s h (Slice.get a index) (Ideal.sliceGet r index) w.home := by
  refine (Reads.slicePosition rep ha index).bind ?_
  rintro ⟨array, i⟩ _ ⟨rfl, d, t, as, xs, home, run, ho, is, homes, inside⟩
  simp only [Ideal.items, bind_assoc]
  refine .look rep home fun o x ho' hx _ => ?_
  rw [ho] at ho'
  cases ho'
  cases hx
  have found := is.slot_eq rep.tidy (homes.length_eq ▸ inside)
  rw [← List.getD_eq_getElem _ 0] at found
  refine .found (a := as.getD i 0) ?_ rfl (getD_home homes inside)
  simp only [HeapReader.run_bind, run, found]

theorem Tracks.sliceSet (rep : Rep w s h) (ha : w.home r a) (index : Int) (hb : w.home v b) :
    Tracks w s h (Slice.set a index b) (Ideal.sliceSet r index v) fun w' _ _ => w' = w := by
  refine .read_bind (Reads.slicePosition rep ha index) ?_
  rintro ⟨array, i⟩ _ ⟨rfl, d, t, as, xs, home, run, _⟩
  exact .reading run (.setSlot rep home hb)

/-! ### Windows -/

theorem Reads.checkBounds (low high : Int) (capacity : Nat) :
    Reads s h (Slice.checkBounds low high capacity) (Ideal.checkBounds low high capacity) fun _ _ =>
      0 ≤ low ∧ low ≤ high ∧ high ≤ capacity := by
  unfold Slice.checkBounds Ideal.checkBounds
  by_cases above : high < 0 ∨ (capacity : Int) < high
  · simp only [above, if_true]
    exact .error rfl
  · simp only [above, if_false]
    by_cases below : low < 0 ∨ high < low
    · simp only [below, if_true]
      exact .error rfl
    · simp only [below, if_false]
      exact .ok (by omega)

theorem Tracks.window {d first stop : Nat} (rep : Rep w s h) (home : w.home v d) :
    Tracks w s h (Slice.window d first stop) (Ideal.window v first stop) (Makes w h [d]) := by
  refine .behind rep home fun xs as back => ?_
  by_cases inside : first ≤ stop ∧ stop ≤ xs.length
  · simp only [inside, and_self, if_true]
    have small : xs.length < 2 ^ 28 := by
      by_cases nil : v = unassigned
      · rw [back.homes.length_eq, (back.nil nil).2]
        decide
      · obtain ⟨_, t, _, is⟩ := back.seq nil
        exact back.homes.length_eq ▸ is.small rep.tidy
    have hd := rep.home_allocated home
    have same := rep.tidy.sound.toNat_ofNat hd
    have word (n : Nat) (le : n ≤ xs.length) : (UInt64.ofNat n).toNat = n := by
      rw [UInt64.toNat_ofNat', Nat.mod_eq_of_lt (by omega)]
    refine .fields (ρ := [d]) (ω := [(0, UInt64.ofNat d), (1, UInt64.ofNat first), (2, UInt64.ofNat stop)])
      (t := .slice) (n := 3) (π := [0]) rep rfl (by simpa using hd)
      (rep.tidy.allocateRooted (by simpa using hd) (Tag.fits_fields (π := [0]) rfl (by decide)))
      (by simp [same]) ?_ fun w' a h' stays is cells => ?_
    · simp only [Slice.window, Heap.writes, bind_assoc, pure_bind]
      rfl
    · refine ⟨is, ?_, ?_, ?_⟩
      · have : h'.ref a Slice.arrayField = d := by
          rw [Heap.ref, cells _ (by decide)]
          exact same
        rw [this]
        exact stays v d home (.extra (by simp))
      · rw [Heap.ref, cells _ (by decide)]
        exact word first (by omega)
      · rw [Heap.ref, cells _ (by decide)]
        exact word stop inside.2
  · exact .wild (t := s) (by simp only [inside, if_false]; rfl)

theorem Tracks.ofSlice (rep : Rep w s h) (ha : w.home r a) (low high : Option Int) :
    Tracks w s h (Slice.ofSlice a low high) (Ideal.ofSlice r low high) fun w' r' a' => w'.home r' a' := by
  refine .read_bind (Reads.sliceCapacity rep ha) ?_
  rintro capacity _ rfl
  refine .read_bind (Reads.sliceLength rep ha) ?_
  rintro length _ rfl
  refine .read_bind (Reads.checkBounds _ _ _) fun _ _ _ => ?_
  refine .slice rep ha fun array first stop d view => ?_
  refine .reading view.first (.reading view.array ?_)
  exact (Tracks.window rep view.home).weaken fun _ _ _ made => made.1

theorem Tracks.ofArray (rep : Rep w s h) (ha : w.home r a) (low high : Option Int) :
    Tracks w s h (Slice.ofArray a low high) (Ideal.ofArray r low high) fun w' r' a' => w'.home r' a' := by
  refine .read_bind (Reads.itemsLength rep ha) ?_
  rintro xs _ rfl
  refine .read_bind (Reads.checkBounds _ _ _) fun _ _ _ => ?_
  exact (Tracks.window rep ha).weaken fun _ _ _ made => made.1

/-! ### Appending -/

theorem Tracks.putItems {values : List Ref} {bs : List Nat} (rep : Rep w s h) (ha : w.home r a)
    (homes : List.Forall₂ w.home values bs) :
    Tracks w s h (Sequence.setSlots a i bs) (Ideal.putItems r i values) fun w' _ _ => w' = w := by
  refine .look rep ha fun o x ho hx _ => ?_
  obtain ⟨rfl, as, is, homes'⟩ := rep.sequence ha ho hx
  by_cases inside : i + values.length ≤ x.2.length ∧ x.1 ≠ .environment
  · have within : i + bs.length ≤ as.length := by rw [← homes.length_eq, ← homes'.length_eq]; exact inside.1
    obtain ⟨h', run, e, is'⟩ := is.setSlots rep.tidy within (rep.homes_allocated homes) (is.free inside.2)
    rw [Heap.splice_eq within] at is'
    refine .mutate (k := 0) (o := .sequence x.1 (x.2.take i ++ values ++ x.2.drop (i + values.length))) (y := ()) rep ha
      run ?_ e (fun c hc => hc ▸ ha) ⟨_, is', ?_⟩ rfl
    · simp only [if_pos inside]
      rfl
    · rw [← homes.length_eq]
      exact List.rel_append (List.rel_append (List.forall₂_take _ homes') homes) (List.forall₂_drop _ homes')
  · refine .wild (u := s) ?_
    simp only [if_neg inside]
    rfl

theorem Tracks.append {values : List Ref} {bs : List Nat} (rep : Rep w s h) (ha : w.home r a)
    (homes : List.Forall₂ w.home values bs) :
    Tracks w s h (Slice.append a bs) (Ideal.append r values) fun w' r' a' => w'.home r' a' := by
  refine .slice rep ha fun old base stop d view => ?_
  refine .reading view.array (.reading view.first (.reading view.length ?_))
  refine .read_bind (Reads.sliceCapacity rep ha) ?_
  rintro capacity _ rfl
  refine .behind rep view.home fun xs as back => ?_
  by_cases inside : stop ≤ xs.length
  swap
  · exact .wild (u := s) (by simp only [inside, if_false]; rfl)
  have le := view.le
  simp only [inside, if_true, ← homes.length_eq]
  by_cases fits : stop - base + values.length ≤ capacity
  · simp only [fits, if_true]
    have same : base + (stop - base) = stop := by omega
    rw [same]
    by_cases none : values = []
    · subst none
      cases homes
      simp only [ne_eq, not_true_eq_false, if_false]
      exact ((Tracks.window rep view.home).weaken fun _ _ _ made => made.1).congr rfl rfl
    · simp only [none, ne_eq, not_false_eq_true, if_true]
      refine (Tracks.putItems rep view.home homes).bind ?_
      rintro _ s' _ h' _ rep' _ rfl
      exact (Tracks.window rep' view.home).weaken fun _ _ _ made => made.1
  · simp only [fits, if_false]
    have grown : Tracks w s h (do
        let g ← Heap.withRoots (bs ++ [d]) (Sequence.newArray (Slice.grownCapacity capacity (stop - base + values.length)))
        Sequence.copySlots d base g 0 (stop - base)
        Sequence.setSlots g (stop - base) bs
        return g : HeapM Nat)
        (Ideal.newSequence .array ((xs.drop base).take (stop - base) ++ values ++
          List.replicate (Slice.grownCapacity capacity (stop - base + values.length) - (stop - base + values.length)) 0))
        (Makes w h (bs ++ [d])) := by
      have good : ∀ b ∈ bs ++ [d], h.Allocated b := by
        intro b hb
        rcases List.mem_append.mp hb with hb | hb
        · exact rep.homes_allocated homes b hb
        · cases List.mem_singleton.mp hb
          exact rep.home_allocated view.home
      have old : as = [] ∨ ∃ t, h.IsSeq d t as := by
        by_cases nil : old = unassigned
        · exact .inl (back.nil nil).2
        · obtain ⟨_, t, _, is⟩ := back.seq nil
          exact .inr ⟨t, is⟩
      have room : stop - base + bs.length ≤ Slice.grownCapacity capacity (stop - base + values.length) := by
        rw [← homes.length_eq]
        exact Nat.le_max_left _ _
      have within : base + (stop - base) ≤ as.length := by
        rw [← back.homes.length_eq]
        omega
      refine Tracks.make (ρ := bs ++ [d]) rep good rfl ?_ fun w' a home stays => ⟨home, stays⟩
      rcases rep.tidy.growSeq good old within room with full | ⟨g, h', run, e, is⟩
      · exact .inl full
      · right
        have c : World.Carries w h (h.Live (bs ++ [d])) (w.evolve (h.Live (bs ++ [d])) s.objects.length [(0, g)] fun _ => g) :=
          rep.carries (.live rep.tidy good)
        rw [← homes.length_eq] at is
        refine ⟨g, h', [(0, g)], fun _ => g, run, e, by simp, by simp, rfl, _, is, List.rel_append (List.rel_append ?_ ?_) ?_⟩
        · refine c.homes (List.forall₂_take _ (List.forall₂_drop _ back.homes)) fun b hb => ?_
          have hb := List.mem_of_mem_drop (List.mem_of_mem_take hb)
          rcases old with rfl | ⟨t, is⟩
          · cases hb
          · exact .child (.extra (by simp)) (is.child rep.tidy hb)
        · exact c.homes homes fun b hb => .extra (List.mem_append_left _ hb)
        · exact replicate_home (c.home _ _ rep.nil (.root List.mem_cons_self))
    refine (grown.bind ?_).congr (k := _ >>= fun g => Slice.window g 0 (stop - base + values.length)) ?_ rfl
    · rintro g s' g' h' w' rep' _ ⟨home, _⟩
      exact (Tracks.window rep' home).weaken fun _ _ _ made => made.1
    · simp only [bind_assoc, pure_bind]

end FiberMachine
