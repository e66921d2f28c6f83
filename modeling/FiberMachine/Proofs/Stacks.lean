import FiberMachine.Object.Stack
import FiberMachine.Proofs.Sequences

/-!
# Stacks as lists

A stack whose array holds `xs` and then unassigned slots behaves as the list `xs` with its top at the
end. Pushing may move the items to a larger array; popping leaves an unassigned slot.
-/

namespace FiberMachine

namespace Heap

/-- The stack at `a`, with its items in the array at `d`, holds `xs`. -/
structure IsStack (h : Heap) (a d : Nat) (xs : List Nat) : Prop where
  is : h.Is a .stack 2
  length : h.ref a Stack.lengthField = xs.length
  storage : h.ref a Stack.itemsField = d
  items : ∃ k, 0 < xs.length + k ∧ h.IsSeq d .array (xs ++ List.replicate k 0)

variable {h h' : Heap} {a d x : Nat} {xs : List Nat}

namespace IsStack

theorem child (s : h.IsStack a d xs) (tidy : h.Tidy) : h.Child a d := by
  rw [← s.storage]
  exact tidy.child_field s.is (π := [1]) rfl (by decide)

theorem allocated (s : h.IsStack a d xs) : h.Allocated d := by
  obtain ⟨k, _, items⟩ := s.items
  exact items.is.allocated

theorem ne (s : h.IsStack a d xs) : d ≠ a := by
  rintro rfl
  obtain ⟨k, _, items⟩ := s.items
  exact absurd (s.is.tag.symm.trans items.is.tag) (by decide)

theorem item_child (s : h.IsStack a d xs) (tidy : h.Tidy) (hx : x ∈ xs) : h.Child d x := by
  obtain ⟨k, _, items⟩ := s.items
  exact items.child tidy (List.mem_append_left _ hx)

theorem item_allocated (s : h.IsStack a d xs) (tidy : h.Tidy) (hx : x ∈ xs) : h.Allocated x :=
  tidy.consistent.child d x s.allocated (s.item_child tidy hx)

theorem kept (s : h.IsStack a d xs) (k : Kept h h' a) (k' : Kept h h' d) : h'.IsStack a d xs where
  is := k.is s.is
  length := by
    rw [k.ref (Nat.lt_of_lt_of_le (by decide) s.is.room)]
    exact s.length
  storage := by
    rw [k.ref (Nat.lt_of_lt_of_le (by decide) s.is.room)]
    exact s.storage
  items := by
    obtain ⟨n, pos, items⟩ := s.items
    exact ⟨n, pos, items.kept k'⟩

/-! ### Reading -/

theorem length_eq (s : h.IsStack a d xs) (tidy : h.Tidy) : Stack.length a h = .ok xs.length := by
  rw [Stack.length, tidy.sound.readNat_eq s.is (by decide), s.length]

theorem storage_eq (s : h.IsStack a d xs) (tidy : h.Tidy) : Stack.storage a h = .ok d := by
  rw [Stack.storage, tidy.sound.readNat_eq s.is (by decide), s.storage]

/-- There is room for a list of the items. -/
theorem listable (s : h.IsStack a d xs) (tidy : h.Tidy) : xs.length * 8 < hostLimit := by
  obtain ⟨k, _, items⟩ := s.items
  have small : (xs ++ List.replicate k 0).length < 268435456 := items.small tidy
  rw [List.length_append] at small
  unfold hostLimit
  omega

theorem items_eq (s : h.IsStack a d xs) (tidy : h.Tidy) : Stack.items a h = .ok xs := by
  obtain ⟨k, _, items⟩ := s.items
  have listable := s.listable tidy
  have read := items.readNats_eq tidy (i := 0) (n := xs.length) (by simp)
  simp only [Nat.add_zero, List.drop_zero, List.take_left] at read
  simp only [Stack.items, HeapReader.run_bind, s.storage_eq tidy, s.length_eq tidy, expectListable, expectRoom,
    listable, if_true, HeapReader.run_pure, read]

theorem peek_eq (s : h.IsStack a d xs) (tidy : h.Tidy) :
    Stack.peek a h = match xs.getLast? with
      | some x => .ok x
      | none => .error (.error .stackUnderflow) := by
  obtain ⟨k, _, items⟩ := s.items
  rcases List.eq_nil_or_concat' xs with rfl | ⟨ys, x, rfl⟩
  · simp only [Stack.peek, HeapReader.run_bind, s.length_eq tidy, List.length_nil, if_true, HeapReader.run_reject,
      List.getLast?_nil]
  · have some : (ys ++ [x]).length ≠ 0 := by simp
    have inside : (ys ++ [x]).length - 1 < (ys ++ [x] ++ List.replicate k 0).length := by simp
    have slot := items.slot_eq tidy inside
    have top : (ys ++ [x] ++ List.replicate k 0)[(ys ++ [x]).length - 1] = x := by simp
    rw [top] at slot
    simp only [Stack.peek, HeapReader.run_bind, s.length_eq tidy, some, if_false, s.storage_eq tidy, slot,
      List.getLast?_concat]

/-! ### Pushing and popping -/

/-- The last two steps of a push, when the array has room. -/
theorem pushInto (is : h.Is a .stack 2) (storage : h.ref a Stack.itemsField = d) {k : Nat}
    (items : h.IsSeq d .array (xs ++ List.replicate (k + 1) 0)) (tidy : h.Tidy) (hx : h.Allocated x) :
    ∃ h', (do
        Sequence.setSlot d xs.length x
        writeNat a Stack.lengthField (xs.length + 1) : HeapM Unit) h = .ok () h' ∧
      Evolves h h.Allocated h' (fun b => b = a ∨ b = d) [] ∧ h'.IsStack a d (xs ++ [x]) := by
  have ne : a ≠ d := by
    rintro rfl
    exact absurd (is.tag.symm.trans items.is.tag) (by decide)
  have small : (xs ++ List.replicate (k + 1) 0).length < 268435456 := items.small tidy
  rw [List.length_append] at small
  obtain ⟨h₁, run, e, items'⟩ := items.setSlot tidy (i := xs.length) (by simp) hx
  have kept : Kept h h₁ a := e.kept a is.allocated ne
  have is₁ := kept.is is
  obtain ⟨h₂, run', e', is', refs⟩ := e.tidy.writeNat is₁ (π := [1]) rfl (i := Stack.lengthField) (by decide)
    (v := xs.length + 1) (by omega) fun no => absurd no (by decide)
  have kept' : Kept h₁ h₂ d := e'.kept d items'.is.allocated ne.symm
  refine ⟨h₂, ?_, (e.mutate e').weaken (fun _ hb => hb) (fun b _ hb => hb.symm) fun _ hb => hb, is', ?_, ?_, k, by simp, ?_⟩
  · simp only [HeapM.run_bind, run, run']
  · rw [refs, if_pos rfl, List.length_append, List.length_singleton]
  · rw [refs, if_neg (by decide), kept.ref (Nat.lt_of_lt_of_le (by decide) is.room), storage]
  · have := items'.kept kept'
    rwa [List.set_append_right _ _ le_rfl, Nat.sub_self, List.replicate_succ, List.set_cons_zero,
      ← List.singleton_append, ← List.append_assoc] at this

/-- Pushing adds an item on top; the items may move to a new array. -/
theorem push_spec (s : h.IsStack a d xs) (tidy : h.Tidy) (hx : h.Allocated x) :
    Starved (Stack.push a x) h [a, x] ∨ ∃ h' d' N, Stack.push a x h = .ok () h' ∧
      Evolves h (h.Live [a, x]) h' (fun b => b = a ∨ b = d) N ∧ h'.IsStack a d' (xs ++ [x]) ∧
      (d' = d ∧ N = [] ∨ N = [d']) := by
  obtain ⟨k, pos, items⟩ := s.items
  have good : ∀ r ∈ [a, x], h.Allocated r := by simp [s.is.allocated, hx]
  have length : (xs ++ List.replicate k 0).length = xs.length + k := by simp
  cases k with
  | succ k =>
    right
    obtain ⟨h', run, e, s'⟩ := pushInto s.is s.storage items tidy hx
    refine ⟨h', d, [], ?_, e.weaken (fun b hb => tidy.allocated_of_live good hb) (fun _ _ hb => hb) fun _ hb => hb, s',
      .inl ⟨rfl, rfl⟩⟩
    have room : xs.length ≠ xs.length + (k + 1) := by omega
    rw [← run]
    simp only [Stack.push, Stack.room, HeapM.run_bind, HeapM.run_lift, s.length_eq tidy, s.storage_eq tidy,
      items.length_eq tidy, length, room, if_false, HeapM.run_pure]
  | zero =>
    rw [Nat.add_zero] at length
    rcases tidy.createRooted_spec good (t := .array) rfl (xs.length * 2) with full | ⟨g, h₁, run, e, -, new⟩
    · left
      obtain ⟨n, h', run, e⟩ := full
      refine ⟨n, h', ?_, e⟩
      simp only [Stack.push, Stack.room, HeapM.run_bind, HeapM.run_lift, s.length_eq tidy, s.storage_eq tidy,
        items.length_eq tidy, length, if_true, Sequence.newArray, run]
    · right
      have la : h.Live [a, x] a := .extra (by simp)
      have ld : h.Live [a, x] d := la.child (s.child tidy)
      have lx : h.Live [a, x] x := .extra (by simp)
      have ng : ¬h.Live [a, x] g := (e.new g (by simp)).2
      have ka : Kept h h₁ a := e.kept a la id
      have kd : Kept h h₁ d := e.kept d ld id
      have nd : d ≠ g := fun eq => ng (eq ▸ ld)
      have na : a ≠ g := fun eq => ng (eq ▸ la)
      obtain ⟨h₂, run₂, e₂, s₂⟩ := new.copySlots (items.kept kd) e.tidy nd (j := 0) (n := xs.length) (i := 0) (by simp)
        (by simp; omega)
      have filled : splice (List.replicate (xs.length * 2) 0) 0 (((xs ++ List.replicate 0 0).drop 0).take xs.length) =
          xs ++ List.replicate (xs.length - 1 + 1) 0 := by
        rw [splice_eq (by simp; omega)]
        simp
        omega
      rw [filled] at s₂
      have ka₂ : Kept h₁ h₂ a := e₂.kept a ka.allocated na
      have is₂ := ka₂.is (ka.is s.is)
      obtain ⟨h₃, run₃, e₃, is₃, refs⟩ := e₂.tidy.writeNat is₂ (π := [1]) rfl (i := Stack.itemsField) (by decide)
        (v := g) (e₂.tidy.sound.small s₂.is.allocated) fun _ => s₂.is.allocated
      have kg : Kept h₂ h₃ g := e₃.kept g s₂.is.allocated na.symm
      have hx₃ : h₃.Allocated x := (e₃.stays x (e₂.stays x (e.stays x lx).1).1).1
      obtain ⟨h₄, run₄, e₄, s₄⟩ := pushInto is₃ (by rw [refs, if_pos rfl]) (s₂.kept kg) e₃.tidy hx₃
      refine ⟨h₄, g, [g], ?_, ?_, s₄, .inr rfl⟩
      · rw [← run₄]
        simp only [Stack.push, Stack.room, HeapM.run_bind, HeapM.run_lift, s.length_eq tidy, s.storage_eq tidy,
          items.length_eq tidy, length, if_true, Sequence.newArray, run, run₂, run₃, HeapM.run_pure]
      · refine (((e.mutate e₂).mutate e₃).mutate e₄).weaken (fun _ hb => hb) ?_ fun _ hb => hb
        rintro b hb (((no | rfl) | rfl) | (rfl | rfl))
        · exact no.elim
        · exact absurd hb ng
        · exact .inl rfl
        · exact .inl rfl
        · exact absurd hb ng

theorem push (s : h.IsStack a d xs) (tidy : h.Tidy) (hx : h.Allocated x) :
    NoMemory (Stack.push a x) h ∨ ∃ h' d' N, Stack.push a x h = .ok () h' ∧
      Evolves h (h.Live [a, x]) h' (fun b => b = a ∨ b = d) N ∧ h'.IsStack a d' (xs ++ [x]) ∧
      (d' = d ∧ N = [] ∨ N = [d']) :=
  (s.push_spec tidy hx).imp_left Starved.noMemory

/-- Popping takes the item on top. -/
theorem pop (s : h.IsStack a d (xs ++ [x])) (tidy : h.Tidy) :
    ∃ h', Stack.pop a h = .ok x h' ∧ Evolves h h.Allocated h' (fun b => b = a ∨ b = d) [] ∧ h'.IsStack a d xs := by
  obtain ⟨k, _, items⟩ := s.items
  have some : (xs ++ [x]).length ≠ 0 := by simp
  have inside : (xs ++ [x]).length - 1 < (xs ++ [x] ++ List.replicate k 0).length := by simp
  have slot := items.slot_eq tidy inside
  have top : (xs ++ [x] ++ List.replicate k 0)[(xs ++ [x]).length - 1] = x := by simp
  rw [top] at slot
  obtain ⟨h₁, run, e, items'⟩ := items.setSlot tidy (i := (xs ++ [x]).length - 1) (by simp) tidy.sound.sentinel
  have kept : Kept h h₁ a := e.kept a s.is.allocated s.ne.symm
  have small : (xs ++ [x] ++ List.replicate k 0).length < 268435456 := items.small tidy
  simp only [List.length_append, List.length_singleton] at small
  obtain ⟨h₂, run', e', is', refs⟩ := e.tidy.writeNat (kept.is s.is) (π := [1]) rfl (i := Stack.lengthField)
    (by decide) (v := (xs ++ [x]).length - 1) (by simp; omega) fun no => absurd no (by decide)
  have kept' : Kept h₁ h₂ d := e'.kept d items'.is.allocated s.ne
  refine ⟨h₂, ?_, (e.mutate e').weaken (fun _ hb => hb) (fun b _ hb => hb.symm) fun _ hb => hb, is', ?_, ?_, k + 1,
    by omega, ?_⟩
  · simp only [Stack.pop, HeapM.run_bind, HeapM.run_lift, s.length_eq tidy, some, if_false, s.storage_eq tidy, slot,
      run, run', HeapM.run_pure]
  · rw [refs, if_pos rfl]
    simp
  · rw [refs, if_neg (by decide), kept.ref (Nat.lt_of_lt_of_le (by decide) s.is.room), s.storage]
  · have := items'.kept kept'
    have same : (xs ++ [x] ++ List.replicate k 0).set ((xs ++ [x]).length - 1) unassigned =
        xs ++ List.replicate (k + 1) 0 := by
      simp [List.replicate_succ, unassigned]
    rwa [same] at this

theorem pop_nil (s : h.IsStack a d []) (tidy : h.Tidy) :
    Stack.pop a h = .error (.error .stackUnderflow) h := by
  simp only [Stack.pop, HeapM.run_bind, HeapM.run_lift, s.length_eq tidy, List.length_nil, if_true,
    HeapReader.run_reject]

end IsStack

/-- A new stack is empty. -/
theorem Tidy.createStack (tidy : h.Tidy) :
    NoMemory Stack.create h ∨ ∃ a d h', Stack.create h = .ok a h' ∧
      Evolves h (h.Live []) h' (fun _ => False) [d, a] ∧ h'.IsStack a d [] := by
  have eq : Stack.create = Sequence.newArray Stack.initialCapacity >>= fun d =>
      withRoots [d] (Heap.allocateTagged .stack 2) >>= fun a => writes a [(1, UInt64.ofNat d)] >>= fun _ => pure a := by
    simp only [Stack.create, writes, bind_assoc, pure_bind]
    rfl
  rw [eq]
  rcases tidy.createSeq (t := .array) rfl Stack.initialCapacity with full | ⟨d, h₁, run, e, -, items⟩
  · exact .inl (full.bind _)
  · have run : Sequence.newArray Stack.initialCapacity h = .ok d h₁ := run
    have hd := items.is.allocated
    have good : ∀ r ∈ [d], h₁.Allocated r := by simp [hd]
    have small := e.tidy.sound.toNat_ofNat hd
    rcases make_fields (t := .stack) (π := [1]) rfl
      (e.tidy.allocateRooted good (t := .stack) (n := 2) (Tag.fits_fields rfl (by decide)))
      (ω := [(1, UInt64.ofNat d)]) (by simp [small]) with full | ⟨a, h₂, run', f⟩
    · exact .inl (.after run full)
    · right
      have ld : h₁.Live [d] d := .extra (by simp)
      refine ⟨a, d, h₂, (run_after run _).trans run', ?_, f.is, ?_, ?_, Stack.initialCapacity, by decide, ?_⟩
      · have both := e.trans f.evolves (fun b hb => e.live tidy (by simp) (fun _ _ no => no) (by simp) hb)
          fun b hb => (List.mem_singleton.mp hb) ▸ ld
        exact both.weaken (fun _ hb => hb) (fun _ _ no => no.elim id id) fun _ hb => hb
      · rw [ref, f.cells _ (by decide)]
        rfl
      · rw [ref, f.cells _ (by decide)]
        exact small
      · exact items.kept (f.evolves.kept d ld id)

end Heap

end FiberMachine
