import FiberMachine.Object.Slice
import FiberMachine.Proofs.Sequences

/-!
# Slices as windows

A slice shows some positions of an array, from a first one up to a last one, and its capacity is what the array has from the first one
on. Cutting a slice is a matter of the positions only. Appending either writes behind the last position, and then every other slice of
the array sees it, or it copies what the slice shows to a longer array.
-/

namespace FiberMachine

theorem difference_eq {h : Heap} {n m : Nat} (le : m ≤ n) : Heap.difference n m h = .ok (n - m) := by
  unfold Heap.difference
  rw [if_pos le]
  rfl

namespace Slice

/-- The bounds of a part of something that has `n` positions. -/
def Bounds (low high : Int) (n : Nat) : Prop := 0 ≤ low ∧ low ≤ high ∧ high ≤ n

instance {low high : Int} {n : Nat} : Decidable (Bounds low high n) := inferInstanceAs (Decidable (_ ∧ _))

/-- The error for bounds that are not: the upper one is looked at first. -/
def boundsError (low high : Int) (n : Nat) : HeapError :=
  if high < 0 ∨ (n : Int) < high then .indexOutOfRange high n else .indexOutOfRange low high.toNat

theorem checkBounds_eq {h : Heap} (low high : Int) (n : Nat) :
    checkBounds low high n h = if Bounds low high n then .ok () else .error (.error (boundsError low high n)) := by
  unfold checkBounds Bounds boundsError
  by_cases above : high < 0 ∨ (n : Int) < high
  · have no : ¬(0 ≤ low ∧ low ≤ high ∧ high ≤ n) := by omega
    simp only [above, no, if_true, if_false]
    rfl
  · simp only [above, if_false]
    by_cases below : low < 0 ∨ high < low
    · have no : ¬(0 ≤ low ∧ low ≤ high ∧ high ≤ n) := by omega
      simp only [below, no, if_true, if_false]
      rfl
    · have yes : 0 ≤ low ∧ low ≤ high ∧ high ≤ n := by omega
      simp only [below, if_false, if_pos yes]
      rfl

/-- The items at the positions from `i` up to `j`. -/
def shown (xs : List Nat) (i j : Nat) : List Nat := (xs.drop i).take (j - i)

end Slice

namespace Heap

/-- The items of the array at `d` are `xs`; there are none behind the nil slice. -/
structure Backs (h : Heap) (d : Nat) (xs : List Nat) : Prop where
  nil : d = unassigned → xs = []
  items : d ≠ unassigned → h.IsSeq d .array xs

/-- The slice at `a` shows the positions from `i` up to `j` of the array at `d`, which has the items `xs`. -/
structure IsSlice (h : Heap) (a d i j : Nat) (xs : List Nat) : Prop where
  is : h.Is a .slice 3
  array : h.ref a Slice.arrayField = d
  first : h.ref a Slice.firstField = i
  stop : h.ref a Slice.stopField = j
  backs : h.Backs d xs
  le : i ≤ j
  within : j ≤ xs.length

variable {h h' : Heap} {a b d i j n x : Nat} {w : Word} {xs as bs values : List Nat} {L P : Nat → Prop} {N : List Nat}

namespace Backs

theorem kept (s : h.Backs d xs) (k : d ≠ unassigned → Kept h h' d) : h'.Backs d xs := ⟨s.nil, fun some => (s.items some).kept (k some)⟩

theorem allocated (s : h.Backs d xs) (tidy : h.Tidy) : h.Allocated d := by
  by_cases none : d = unassigned
  · exact none ▸ tidy.sound.sentinel
  · exact (s.items none).is.allocated

theorem small (s : h.Backs d xs) (tidy : h.Tidy) : xs.length < linkLimit := by
  by_cases none : d = unassigned
  · rw [s.nil none]
    decide
  · exact (s.items none).small tidy

/-- What is protected while the elements move. -/
theorem allocated_append (s : h.Backs d xs) (tidy : h.Tidy) (good : ∀ v ∈ values, h.Allocated v) : ∀ b ∈ values ++ [d], h.Allocated b := by
  intro b hb
  rcases List.mem_append.mp hb with hb | hb
  · exact good b hb
  · exact List.mem_singleton.mp hb ▸ s.allocated tidy

theorem isSeq (s : h.Backs d xs) : xs = [] ∨ ∃ t, h.IsSeq d t xs := by
  by_cases none : d = unassigned
  · exact .inl (s.nil none)
  · exact .inr ⟨.array, s.items none⟩

end Backs

namespace IsSlice

theorem child (s : h.IsSlice a d i j xs) (tidy : h.Tidy) : h.Child a d := by
  rw [← s.array]
  exact tidy.child_field s.is (π := [0]) rfl (by decide)

theorem kept (s : h.IsSlice a d i j xs) (k : Kept h h' a) (k' : h'.Backs d as) (le : xs.length ≤ as.length) : h'.IsSlice a d i j as where
  is := k.is s.is
  array := (k.ref (Nat.lt_of_lt_of_le (by decide) s.is.room)).trans s.array
  first := (k.ref (Nat.lt_of_lt_of_le (by decide) s.is.room)).trans s.first
  stop := (k.ref (Nat.lt_of_lt_of_le (by decide) s.is.room)).trans s.stop
  backs := k'
  le := s.le
  within := s.within.trans le

/-! ### Reading -/

theorem array_eq (s : h.IsSlice a d i j xs) (tidy : h.Tidy) : Slice.array a h = .ok d := by
  rw [Slice.array, tidy.sound.readNat_eq s.is (by decide), s.array]

theorem first_eq (s : h.IsSlice a d i j xs) (tidy : h.Tidy) : Slice.first a h = .ok i := by
  rw [Slice.first, tidy.sound.readNat_eq s.is (by decide), s.first]

theorem stop_eq (s : h.IsSlice a d i j xs) (tidy : h.Tidy) : Slice.stop a h = .ok j := by
  rw [Slice.stop, tidy.sound.readNat_eq s.is (by decide), s.stop]

theorem length_eq (s : h.IsSlice a d i j xs) (tidy : h.Tidy) : Slice.length a h = .ok (j - i) := by
  simp only [Slice.length, HeapReader.run_bind, s.stop_eq tidy, s.first_eq tidy, difference_eq s.le]

theorem capacity_eq (s : h.IsSlice a d i j xs) (tidy : h.Tidy) : Slice.capacity a h = .ok (xs.length - i) := by
  by_cases none : d = unassigned
  · simp only [Slice.capacity, HeapReader.run_bind, s.array_eq tidy, none, if_true, HeapReader.run_pure, s.backs.nil none, List.length_nil,
      Nat.zero_sub]
  · simp only [Slice.capacity, HeapReader.run_bind, s.array_eq tidy, none, if_false, (s.backs.items none).length_eq tidy, s.first_eq tidy,
      difference_eq (s.le.trans s.within)]

theorem elements_eq (s : h.IsSlice a d i j xs) (tidy : h.Tidy) : Slice.elements a h = .ok (Slice.shown xs i j) := by
  have small : xs.length < 268435456 := s.backs.small tidy
  have within := s.within
  have le := s.le
  have listable : (j - i) * 8 < hostLimit := by
    unfold hostLimit
    omega
  have items : readNats d (1 + i) (j - i) h = .ok (Slice.shown xs i j) := by
    by_cases none : d = unassigned
    · have empty := s.backs.nil none
      subst empty
      rw [List.length_nil] at within
      rw [show j - i = 0 by omega, Slice.shown, List.drop_nil, List.take_nil]
      rfl
    · exact (s.backs.items none).readNats_eq tidy (by omega)
  simp only [Slice.elements, HeapReader.run_bind, s.array_eq tidy, s.first_eq tidy, s.stop_eq tidy, expectListable, expectRoom, listable,
    if_true, HeapReader.run_pure, items]

end IsSlice

/-! ### Making slices -/

/-- A new slice refers to the array and has the positions. -/
theorem Tidy.makeWindow (tidy : h.Tidy) (backs : h.Backs d xs) (le : i ≤ j) (within : j ≤ xs.length) :
    NoMemory (Slice.window d i j) h ∨ ∃ a h', Slice.window d i j h = .ok a h' ∧
      Evolves h (h.Live [d]) h' (fun _ => False) [a] ∧ h'.IsSlice a d i j xs := by
  have small : xs.length < 268435456 := backs.small tidy
  have hd := backs.allocated tidy
  have same := tidy.sound.toNat_ofNat hd
  have word {k : Nat} (hk : k ≤ xs.length) : (UInt64.ofNat k).toNat = k := by
    rw [UInt64.toNat_ofNat', Nat.mod_eq_of_lt (by omega)]
  have eq : Slice.window d i j = withRoots [d] (Heap.allocateTagged .slice 3) >>= fun a =>
      writes a [(0, UInt64.ofNat d), (1, UInt64.ofNat i), (2, UInt64.ofNat j)] >>= fun _ => pure a := by
    simp only [Slice.window, writes, bind_assoc, pure_bind]
    rfl
  have good : ∀ r ∈ [d], h.Allocated r := by simpa using hd
  rw [eq]
  rcases make_fields (t := .slice) (n := 3) (π := [0]) rfl
    (tidy.allocateRooted good (Tag.fits_fields (π := [0]) rfl (by decide)))
    (ω := [(0, UInt64.ofNat d), (1, UInt64.ofNat i), (2, UInt64.ofNat j)]) (by simp [same]) with full | ⟨a, h', run, f⟩
  · exact .inl full
  · have backs' : h'.Backs d xs := backs.kept fun _ => f.evolves.kept d (.extra (List.mem_singleton_self d)) id
    refine .inr ⟨a, h', run, f.evolves, f.is, ?_, ?_, ?_, backs', le, within⟩
    · rw [ref, f.cells _ (by decide)]
      exact same
    · rw [ref, f.cells _ (by decide)]
      exact word (le.trans within)
    · rw [ref, f.cells _ (by decide)]
      exact word within

theorem Backs.empty : h.Backs unassigned [] := ⟨fun _ => rfl, fun no => absurd rfl no⟩

theorem signed_eq {n : Nat} (small : n < linkLimit) : Scope.signed n = n := by
  have : n < 268435456 := small
  rw [Scope.signed, Int64.toInt_ofNat_of_lt (by omega)]

/-- A part of an array, if the bounds are those of one. -/
theorem IsSeq.ofArray_eq (s : h.IsSeq d .array xs) (tidy : h.Tidy) (low high : Option Int) :
    Slice.ofArray d low high h =
      if Slice.Bounds (low.getD 0) (high.getD xs.length) xs.length then
        Slice.window d (low.getD 0).toNat (high.getD xs.length).toNat h
      else .error (.error (Slice.boundsError (low.getD 0) (high.getD xs.length) xs.length)) h := by
  by_cases bounds : Slice.Bounds (low.getD 0) (high.getD xs.length) xs.length
  · simp only [Slice.ofArray, HeapM.run_bind, HeapM.run_lift, s.length_eq tidy, signed_eq (s.small tidy), Slice.checkBounds_eq,
      if_pos bounds]
  · simp only [Slice.ofArray, HeapM.run_bind, HeapM.run_lift, s.length_eq tidy, signed_eq (s.small tidy), Slice.checkBounds_eq,
      if_neg bounds]

/-- A part of a slice, if the bounds are within its capacity. -/
theorem IsSlice.ofSlice_eq (s : h.IsSlice a d i j xs) (tidy : h.Tidy) (low high : Option Int) :
    Slice.ofSlice a low high h =
      if Slice.Bounds (low.getD 0) (high.getD (j - i : Nat)) (xs.length - i) then
        Slice.window d (i + (low.getD 0).toNat) (i + (high.getD (j - i : Nat)).toNat) h
      else .error (.error (Slice.boundsError (low.getD 0) (high.getD (j - i : Nat)) (xs.length - i))) h := by
  have small : j - i < linkLimit := Nat.lt_of_le_of_lt ((Nat.sub_le j i).trans s.within) (s.backs.small tidy)
  by_cases bounds : Slice.Bounds (low.getD 0) (high.getD (j - i : Nat)) (xs.length - i)
  · simp only [Slice.ofSlice, HeapM.run_bind, HeapM.run_lift, s.capacity_eq tidy, s.length_eq tidy, signed_eq small,
      Slice.checkBounds_eq, if_pos bounds, s.first_eq tidy, s.array_eq tidy]
  · simp only [Slice.ofSlice, HeapM.run_bind, HeapM.run_lift, s.capacity_eq tidy, s.length_eq tidy, signed_eq small,
      Slice.checkBounds_eq, if_neg bounds]

/-- The values are written into the array, or into a longer one after what the slice shows. -/
theorem IsSlice.append_eq (s : h.IsSlice a d i j xs) (tidy : h.Tidy) (values : List Nat) :
    Slice.append a values h =
      (if j - i + values.length ≤ xs.length - i then do
        Sequence.setSlots d j values
        Slice.window d i (j + values.length)
      else do
        let g ← withRoots (values ++ [d]) (Sequence.newArray (Slice.grownCapacity (xs.length - i) (j - i + values.length)))
        Sequence.copySlots d i g 0 (j - i)
        Sequence.setSlots g (j - i) values
        Slice.window g 0 (j - i + values.length) : HeapM Nat) h := by
  have le := s.le
  have start : i + (j - i) = j := by omega
  have stop : i + (j - i + values.length) = j + values.length := by omega
  simp only [Slice.append, HeapM.run_bind, HeapM.run_lift, s.array_eq tidy, s.first_eq tidy, s.length_eq tidy, s.capacity_eq tidy,
    start, stop]

/-! ### Longer arrays -/

theorem splice_grown {bs : List Nat} (room : as.length + bs.length ≤ n) :
    splice (splice (List.replicate n 0) 0 as) as.length bs =
      as ++ bs ++ List.replicate (n - (as.length + bs.length)) 0 := by
  have first : splice (List.replicate n 0) 0 as = as ++ List.replicate (n - as.length) 0 := by
    rw [splice_eq (by rw [List.length_replicate]; omega)]
    simp
  rw [first, splice_eq (by rw [List.length_append, List.length_replicate]; omega)]
  simp [Nat.sub_sub]

/-- A new array that is long enough is given the elements of a slice, and then others. -/
theorem Evolves.fillGrown {d g base length size : Nat} (e : Evolves h (h.Live (bs ++ [d])) h' (fun _ => False) [g])
    (is : h'.IsSeq g .array (List.replicate size 0)) (old : as = [] ∨ ∃ t, h.IsSeq d t as) (within : base + length ≤ as.length)
    (room : length + bs.length ≤ size) : ∃ h₁ h₂, Sequence.copySlots d base g 0 length h' = .ok () h₁ ∧
      Sequence.setSlots g length bs h₁ = .ok () h₂ ∧ Evolves h (h.Live (bs ++ [d])) h₂ (fun _ => False) [g] ∧
      h₂.IsSeq g .array ((as.drop base).take length ++ bs ++ List.replicate (size - (length + bs.length)) 0) := by
  have copied : ∃ h₁, Sequence.copySlots d base g 0 length h' = .ok () h₁ ∧ Evolves h' h'.Allocated h₁ (· = g) [] ∧
      h₁.IsSeq g .array (splice (List.replicate size 0) 0 ((as.drop base).take length)) := by
    rcases old with rfl | ⟨t, seq⟩
    · have none : length = 0 := by
        rw [List.length_nil] at within
        omega
      subst none
      exact ⟨h', rfl, (Evolves.refl e.tidy (.all e.tidy)).weaken (fun _ hb => hb) (fun _ _ no => no.elim) fun _ hb => hb, is⟩
    · have ld : h.Live (bs ++ [d]) d := .extra (by simp)
      have ne : d ≠ g := by
        rintro rfl
        exact (e.new _ (List.mem_singleton_self _)).2 ld
      refine is.copySlots (seq.kept (e.kept d ld id)) e.tidy ne within ?_
      rw [List.length_replicate]
      omega
  obtain ⟨h₁, run₁, e₁, is₁⟩ := copied
  have length_mid : ((as.drop base).take length).length = length := by
    rw [List.length_take, List.length_drop]
    omega
  have fits : length + bs.length ≤ (splice (List.replicate size 0) 0 ((as.drop base).take length)).length := by
    rw [length_splice, List.length_replicate]
    exact room
  obtain ⟨h₂, run₂, e₂, is₂⟩ := is₁.setSlots e₁.tidy fits fun b hb =>
    (e₁.stays b (e.stays b (.extra (List.mem_append_left _ hb))).1).1
  refine ⟨h₁, h₂, run₁, run₂, ?_, ?_⟩
  · refine (e.mutate (e₁.writes_trans e₂)).weaken (fun _ hb => hb) ?_ fun _ hb => hb
    rintro b hb (no | rfl)
    · exact no
    · exact (e.new b (List.mem_singleton_self b)).2 hb
  · have list := splice_grown (show ((as.drop base).take length).length + bs.length ≤ size by rwa [length_mid])
    rw [length_mid] at list
    exact list ▸ is₂

/-- A longer array holds the elements of a slice, then others, and is unassigned beyond. -/
theorem Tidy.growSeq {d base length size : Nat} {bs : List Nat} (tidy : h.Tidy)
    (good : ∀ b ∈ bs ++ [d], h.Allocated b) (old : as = [] ∨ ∃ t, h.IsSeq d t as)
    (within : base + length ≤ as.length) (room : length + bs.length ≤ size) :
    NoMemory (do
        let g ← withRoots (bs ++ [d]) (Sequence.newArray size)
        Sequence.copySlots d base g 0 length
        Sequence.setSlots g length bs
        return g : HeapM Nat) h ∨
      ∃ g h', (do
          let g ← withRoots (bs ++ [d]) (Sequence.newArray size)
          Sequence.copySlots d base g 0 length
          Sequence.setSlots g length bs
          return g : HeapM Nat) h = .ok g h' ∧ Evolves h (h.Live (bs ++ [d])) h' (fun _ => False) [g] ∧
        h'.IsSeq g .array ((as.drop base).take length ++ bs ++ List.replicate (size - (length + bs.length)) 0) := by
  rcases tidy.createRooted good (t := .array) rfl size with full | ⟨g, h₁, run, e, -, is⟩
  · exact .inl (full.bind _)
  · have run : withRoots (bs ++ [d]) (Sequence.newArray size) h = .ok g h₁ := run
    obtain ⟨h₂, h₃, run₂, run₃, e₃, is₃⟩ := e.fillGrown is old within room
    refine .inr ⟨g, h₃, ?_, e₃, is₃⟩
    simp only [HeapM.run_bind, run, run₂, run₃, HeapM.run_pure]

end Heap

end FiberMachine
