import Mathlib.Data.List.Rotate
import FiberMachine.Object.Queue
import FiberMachine.Proofs.Sequences

/-!
# Queues as lists

The ring of a queue, turned so that the oldest item comes first, holds the items and then unassigned
slots. Pushing replaces the first of these slots; popping clears the first one and turns the ring on.
-/

namespace FiberMachine

theorem List.set_rotate {α : Type} (xs : List α) {k i : Nat} {x : α} (hi : i < xs.length) :
    (xs.set ((k + i) % xs.length) x).rotate k = (xs.rotate k).set i x := by
  have pos : 0 < xs.length := by omega
  refine List.ext_getElem (by simp) fun j hj hj' => ?_
  have hj : j < xs.length := by simpa using hj
  have same : (k + i) % xs.length = (j + k) % xs.length ↔ i = j := by
    constructor
    · intro e
      have e : (i + k) % xs.length = (j + k) % xs.length := by rwa [Nat.add_comm i k]
      have := Nat.ModEq.add_right_cancel' k (show i + k ≡ j + k [MOD xs.length] from e)
      rwa [Nat.ModEq, Nat.mod_eq_of_lt hi, Nat.mod_eq_of_lt hj] at this
    · rintro rfl
      rw [Nat.add_comm]
  rw [List.getElem_rotate, List.getElem_set, List.getElem_set, List.getElem_rotate]
  simp only [List.length_set, same]

namespace Heap

/-- The queue at `a`, with its ring of `n` slots in the array at `d`, holds `xs`. -/
structure IsQueue (h : Heap) (a d n : Nat) (xs : List Nat) : Prop where
  is : h.Is a .queue 3
  length : h.ref a Queue.lengthField = xs.length
  storage : h.ref a Queue.itemsField = d
  ring : ∃ slots k, slots.length = n ∧ (n = 0 ∨ h.ref a Queue.headField < n) ∧ h.IsSeq d .array slots ∧
    slots.rotate (h.ref a Queue.headField) = xs ++ List.replicate k 0

variable {h h' : Heap} {a d n i m x : Nat} {xs : List Nat}

namespace IsQueue

theorem child (q : h.IsQueue a d n xs) (tidy : h.Tidy) : h.Child a d := by
  rw [← q.storage]
  exact tidy.child_field q.is (π := [2]) rfl (by decide)

theorem allocated (q : h.IsQueue a d n xs) : h.Allocated d := by
  obtain ⟨slots, k, _, _, items, _⟩ := q.ring
  exact items.is.allocated

theorem ne (q : h.IsQueue a d n xs) : d ≠ a := by
  rintro rfl
  obtain ⟨slots, k, _, _, items, _⟩ := q.ring
  exact absurd (q.is.tag.symm.trans items.is.tag) (by decide)

theorem item_child (q : h.IsQueue a d n xs) (tidy : h.Tidy) (hx : x ∈ xs) : h.Child d x := by
  obtain ⟨slots, k, _, _, items, order⟩ := q.ring
  have turned : x ∈ slots.rotate (h.ref a Queue.headField) := by
    rw [order]
    exact List.mem_append_left _ hx
  exact items.child tidy (List.mem_rotate.mp turned)

theorem item_allocated (q : h.IsQueue a d n xs) (tidy : h.Tidy) (hx : x ∈ xs) : h.Allocated x :=
  tidy.consistent.child d x q.allocated (q.item_child tidy hx)

theorem length_le (q : h.IsQueue a d n xs) : xs.length ≤ n := by
  obtain ⟨slots, k, rfl, _, _, order⟩ := q.ring
  have := congrArg List.length order
  rw [List.length_rotate, List.length_append] at this
  omega

theorem small (q : h.IsQueue a d n xs) (tidy : h.Tidy) : n < linkLimit := by
  obtain ⟨slots, k, rfl, _, items, _⟩ := q.ring
  exact items.small tidy

theorem kept (q : h.IsQueue a d n xs) (k : Kept h h' a) (k' : Kept h h' d) : h'.IsQueue a d n xs := by
  have same (i : Nat) (hi : i < 3) : h'.ref a i = h.ref a i := k.ref (Nat.lt_of_lt_of_le hi q.is.room)
  obtain ⟨slots, r, length, head, items, order⟩ := q.ring
  refine ⟨k.is q.is, ?_, ?_, slots, r, length, ?_, items.kept k', ?_⟩
  · rw [same _ (by decide), q.length]
  · rw [same _ (by decide), q.storage]
  · rwa [same _ (by decide)]
  · rwa [same _ (by decide)]

/-! ### Reading -/

theorem length_eq (q : h.IsQueue a d n xs) (tidy : h.Tidy) : Queue.length a h = .ok xs.length := by
  rw [Queue.length, tidy.sound.readNat_eq q.is (by decide), q.length]

theorem storage_eq (q : h.IsQueue a d n xs) (tidy : h.Tidy) : Queue.storage a h = .ok d := by
  rw [Queue.storage, tidy.sound.readNat_eq q.is (by decide), q.storage]

theorem head_eq (q : h.IsQueue a d n xs) (tidy : h.Tidy) : Queue.head a h = .ok (h.ref a Queue.headField) :=
  tidy.sound.readNat_eq q.is (by decide)

theorem slots_eq (q : h.IsQueue a d n xs) (tidy : h.Tidy) : Sequence.length d h = .ok n := by
  obtain ⟨slots, k, rfl, _, items, _⟩ := q.ring
  exact items.length_eq tidy

theorem capacity_eq (q : h.IsQueue a d n xs) (tidy : h.Tidy) : Queue.capacity a h = .ok n := by
  simp only [Queue.capacity, HeapReader.run_bind, q.storage_eq tidy, q.slots_eq tidy]

theorem isFull_eq (q : h.IsQueue a d n xs) (tidy : h.Tidy) : Queue.isFull a h = .ok (decide (xs.length = n)) := by
  simp only [Queue.isFull, HeapReader.run_bind, q.length_eq tidy, q.capacity_eq tidy, HeapReader.run_pure]

theorem remainder_eq {k : Nat} (pos : 0 < n) : remainder k n h = .ok (k % n) := by
  have ne : n ≠ 0 := Nat.ne_of_gt pos
  simp only [remainder, ne, if_false, HeapReader.run_pure]

/-- Reading round the ring. -/
theorem itemsFrom_eq (q : h.IsQueue a d n xs) (tidy : h.Tidy) (within : i + m ≤ xs.length) :
    Queue.itemsFrom d n (h.ref a Queue.headField) i m h = .ok ((xs.drop i).take m) := by
  obtain ⟨slots, k, rfl, _, items, order⟩ := q.ring
  have le := q.length_le
  induction m generalizing i with
  | zero => simp [Queue.itemsFrom, HeapReader.run_pure]
  | succ m ih =>
    have hi : i < xs.length := by omega
    have slot := items.slot_eq tidy (Nat.mod_lt (h.ref a Queue.headField + i) (show 0 < slots.length by omega))
    have turned := List.getElem_rotate slots (h.ref a Queue.headField) i (by rw [List.length_rotate]; omega)
    simp only [order, List.getElem_append_left hi] at turned
    simp only [Nat.add_comm (h.ref a Queue.headField) i, ← turned] at slot
    rw [List.drop_eq_getElem_cons hi, List.take_succ_cons]
    simp only [Queue.itemsFrom, HeapReader.run_bind, remainder_eq (show 0 < slots.length by omega),
      Nat.add_comm (h.ref a Queue.headField) i, slot, ih (show i + 1 + m ≤ xs.length by omega), HeapReader.run_pure]

theorem items_eq (q : h.IsQueue a d n xs) (tidy : h.Tidy) : Queue.items a h = .ok xs := by
  have small : n < 268435456 := q.small tidy
  have le := q.length_le
  have listable : xs.length * 8 < hostLimit := by
    unfold hostLimit
    omega
  have read := q.itemsFrom_eq tidy (i := 0) (m := xs.length) (by omega)
  simp only [List.drop_zero, List.take_length] at read
  simp only [Queue.items, HeapReader.run_bind, q.storage_eq tidy, q.slots_eq tidy, q.head_eq tidy, q.length_eq tidy,
    expectListable, expectRoom, listable, if_true, HeapReader.run_pure, read]

/-! ### Pushing and popping -/

theorem tryPush_full (q : h.IsQueue a d n xs) (tidy : h.Tidy) (full : xs.length = n) :
    Queue.tryPush a x h = .ok false h := by
  simp only [Queue.tryPush, HeapM.run_bind, HeapM.run_lift, q.isFull_eq tidy, full, decide_true, if_true,
    HeapM.run_pure]

/-- With room in the ring, an item is added at the back. -/
theorem tryPush (q : h.IsQueue a d n xs) (tidy : h.Tidy) (hx : h.Allocated x) (room : xs.length ≠ n) :
    ∃ h', Queue.tryPush a x h = .ok true h' ∧ Evolves h h.Allocated h' (fun b => b = a ∨ b = d) [] ∧
      h'.IsQueue a d n (xs ++ [x]) := by
  have le := q.length_le
  have small : n < 268435456 := q.small tidy
  have head := q.head_eq tidy
  have storage := q.storage_eq tidy
  have capacity := q.capacity_eq tidy
  obtain ⟨slots, k, rfl, bound, items, order⟩ := q.ring
  generalize place : (h.ref a Queue.headField + xs.length) % slots.length = i
  have pos : 0 < slots.length := by omega
  have hi : i < slots.length := place ▸ Nat.mod_lt _ pos
  obtain ⟨h₁, run, e, items'⟩ := items.setSlot tidy hi hx
  have kept : Kept h h₁ a := e.kept a q.is.allocated q.ne.symm
  obtain ⟨h₂, run', e', is', refs⟩ := e.tidy.writeNat (kept.is q.is) (π := [2]) rfl (i := Queue.lengthField)
    (by decide) (v := xs.length + 1) (by omega) fun no => absurd no (by decide)
  have kept' : Kept h₁ h₂ d := e'.kept d items'.is.allocated q.ne
  have old (j : Nat) (hj : j < 3) (ne : j ≠ Queue.lengthField) : h₂.ref a j = h.ref a j := by
    rw [refs, if_neg ne, kept.ref (Nat.lt_of_lt_of_le hj q.is.room)]
  refine ⟨h₂, ?_, (e.mutate e').weaken (fun _ hb => hb) (fun b _ hb => hb.symm) fun _ hb => hb, is', ?_, ?_,
    slots.set i x, k - 1, by simp, ?_, items'.kept kept', ?_⟩
  · simp only [Queue.tryPush, HeapM.run_bind, HeapM.run_lift, q.isFull_eq tidy, room, decide_false, Bool.false_eq_true,
      if_false, capacity, head, q.length_eq tidy, storage, remainder_eq pos, place, run, run', HeapM.run_pure]
  · rw [refs, if_pos rfl, List.length_append, List.length_singleton]
  · rw [old _ (by decide) (by decide), q.storage]
  · rwa [old _ (by decide) (by decide)]
  · have total := congrArg List.length order
    rw [List.length_rotate, List.length_append, List.length_replicate] at total
    obtain ⟨m, rfl⟩ : ∃ m, k = m + 1 := ⟨k - 1, by omega⟩
    rw [old _ (by decide) (by decide), ← place, List.set_rotate _ (by omega), order, List.set_append_right _ _ le_rfl,
      Nat.sub_self, List.replicate_succ, List.set_cons_zero, Nat.add_sub_cancel, List.append_assoc, List.singleton_append]

theorem pop_nil (q : h.IsQueue a d n []) (tidy : h.Tidy) : Queue.pop a h = .ok none h := by
  simp only [Queue.pop, HeapM.run_bind, HeapM.run_lift, q.length_eq tidy, List.length_nil, if_true, HeapM.run_pure]

/-- The oldest item is taken. -/
theorem pop (q : h.IsQueue a d n (x :: xs)) (tidy : h.Tidy) :
    ∃ h', Queue.pop a h = .ok (some x) h' ∧ Evolves h h.Allocated h' (fun b => b = a ∨ b = d) [] ∧
      h'.IsQueue a d n xs := by
  have le := q.length_le
  have small : n < 268435456 := q.small tidy
  have head := q.head_eq tidy
  have storage := q.storage_eq tidy
  have slots_eq := q.slots_eq tidy
  rw [List.length_cons] at le
  obtain ⟨slots, k, rfl, bound, items, order⟩ := q.ring
  have hi : h.ref a Queue.headField < slots.length := by omega
  have pos : 0 < slots.length := by omega
  have slot := items.slot_eq tidy hi
  have first := List.getElem_rotate slots (h.ref a Queue.headField) 0 (by rw [List.length_rotate]; omega)
  simp only [order, List.cons_append, List.getElem_cons_zero, Nat.zero_add, Nat.mod_eq_of_lt hi] at first
  rw [← first] at slot
  obtain ⟨h₁, run, e, items'⟩ := items.setSlot tidy hi tidy.sound.sentinel
  have slots_eq' := items'.length_eq e.tidy
  rw [List.length_set] at slots_eq'
  have kept : Kept h h₁ a := e.kept a q.is.allocated q.ne.symm
  have next := Nat.mod_lt (h.ref a Queue.headField + 1) pos
  obtain ⟨h₂, run₂, e₂, is₂, refs₂⟩ := e.tidy.writeNat (kept.is q.is) (π := [2]) rfl (i := Queue.headField)
    (by decide) (v := (h.ref a Queue.headField + 1) % slots.length) (by omega) fun no => absurd no (by decide)
  obtain ⟨h₃, run₃, e₃, is₃, refs₃⟩ := e₂.tidy.writeNat is₂ (π := [2]) rfl (i := Queue.lengthField)
    (by decide) (v := (x :: xs).length - 1) (by simp; omega) fun no => absurd no (by decide)
  have kept' : Kept h₁ h₃ d := (e₂.kept d items'.is.allocated q.ne).trans
    (e₃.kept d (e₂.stays d items'.is.allocated).1 q.ne)
  have some : (x :: xs).length ≠ 0 := by simp
  refine ⟨h₃, ?_, ((e.mutate e₂).mutate e₃).weaken (fun _ hb => hb) (fun b _ hb => ?_) fun _ hb => hb, is₃, ?_, ?_,
    slots.set (h.ref a Queue.headField) unassigned, k + 1, by simp, ?_, items'.kept kept', ?_⟩
  · simp only [Queue.pop, HeapM.run_bind, HeapM.run_lift, q.length_eq tidy, some, if_false, head, storage, slot, run,
      slots_eq', remainder_eq pos, run₂, run₃, HeapM.run_pure]
  · rcases hb with (rfl | rfl) | rfl
    · exact .inr rfl
    · exact .inl rfl
    · exact .inl rfl
  · rw [refs₃, if_pos rfl, List.length_cons, Nat.add_sub_cancel]
  · rw [refs₃, if_neg (by decide), refs₂, if_neg (by decide), kept.ref (Nat.lt_of_lt_of_le (by decide) q.is.room),
      q.storage]
  · rw [refs₃, if_neg (by decide), refs₂, if_pos rfl]
    exact .inr next
  · have cleared := List.set_rotate slots (k := h.ref a Queue.headField) (i := 0) (x := unassigned) pos
    rw [Nat.add_zero, Nat.mod_eq_of_lt hi, order, List.cons_append, List.set_cons_zero] at cleared
    have turned := List.rotate_rotate (slots.set (h.ref a Queue.headField) unassigned) (h.ref a Queue.headField) 1
    rw [cleared, List.rotate_cons_succ, List.rotate_zero] at turned
    rw [refs₃, if_neg (by decide), refs₂, if_pos rfl]
    have length : slots.length = (slots.set (h.ref a Queue.headField) unassigned).length := by simp
    rw [length, List.rotate_mod, ← turned, List.append_assoc, List.replicate_succ']
    rfl

/-- A full ring is replaced by a longer one. -/
theorem grow (q : h.IsQueue a d n xs) (tidy : h.Tidy) (hx : h.Allocated x) :
    Starved (Queue.grow a x) h [a, x] ∨ ∃ h' g, Queue.grow a x h = .ok () h' ∧
      Evolves h (h.Live [a, x]) h' (fun b => b = a) [g] ∧
      h'.IsQueue a g (max (xs.length * 2) Queue.leastGrowth) xs := by
  have good : ∀ r ∈ [a, x], h.Allocated r := by simp [q.is.allocated, hx]
  have le := q.length_le
  have small : n < 268435456 := q.small tidy
  rcases tidy.createRooted_spec good (t := .array) rfl (max (xs.length * 2) Queue.leastGrowth) with full | ⟨g, h₁, run, e, -, new⟩
  · left
    obtain ⟨m, h', run, e⟩ := full
    refine ⟨m, h', ?_, e⟩
    simp only [Queue.grow, HeapM.run_bind, HeapM.run_lift, q.items_eq tidy, Sequence.newArray, run]
  · right
    have la : h.Live [a, x] a := .extra (by simp)
    have ng : ¬h.Live [a, x] g := (e.new g (by simp)).2
    have na : a ≠ g := fun eq => ng (eq ▸ la)
    have items_live (y : Nat) (hy : y ∈ xs) : h.Live [a, x] y := (la.child (q.child tidy)).child (q.item_child tidy hy)
    obtain ⟨h₂, run₂, e₂, s₂⟩ := new.setSlots e.tidy (show 0 + xs.length ≤ _ by simp; omega) fun y hy =>
      (e.stays y (items_live y hy)).1
    rw [splice_eq (by simp; omega)] at s₂
    have ka : Kept h h₂ a := (e.kept a la id).trans (e₂.kept a (e.stays a la).1 na)
    obtain ⟨h₃, run₃, e₃, is₃, refs₃⟩ := e₂.tidy.writeNat (ka.is q.is) (π := [2]) rfl (i := Queue.itemsField)
      (by decide) (v := g) (e₂.tidy.sound.small s₂.is.allocated) fun _ => s₂.is.allocated
    obtain ⟨h₄, run₄, e₄, is₄, refs₄⟩ := e₃.tidy.writeNat is₃ (π := [2]) rfl (i := Queue.headField)
      (by decide) (v := 0) (by decide) fun no => absurd no (by decide)
    have kg : Kept h₂ h₄ g := (e₃.kept g s₂.is.allocated na.symm).trans
      (e₄.kept g (e₃.stays g s₂.is.allocated).1 na.symm)
    refine ⟨h₄, g, ?_, ?_, is₄, ?_, ?_, _, max (xs.length * 2) Queue.leastGrowth - xs.length, ?_, ?_, s₂.kept kg, ?_⟩
    · simp only [Queue.grow, HeapM.run_bind, HeapM.run_lift, q.items_eq tidy, Sequence.newArray, run, run₂, run₃, run₄]
    · refine (((e.mutate e₂).mutate e₃).mutate e₄).weaken (fun _ hb => hb) ?_ fun _ hb => hb
      rintro b hb (((no | rfl) | rfl) | rfl)
      · exact no.elim
      · exact absurd hb ng
      · rfl
      · rfl
    · rw [refs₄, if_neg (by decide), refs₃, if_neg (by decide), ka.ref (Nat.lt_of_lt_of_le (by decide) q.is.room),
        q.length]
    · rw [refs₄, if_neg (by decide), refs₃, if_pos rfl]
    · simp
      omega
    · rw [refs₄, if_pos rfl]
      have : Queue.leastGrowth = 4 := rfl
      omega
    · rw [refs₄, if_pos rfl, List.rotate_zero]
      simp

/-- Pushing adds an item at the back. Only a full ring is replaced by a longer one, and only then memory may be lacking. -/
theorem push_cases (q : h.IsQueue a d n xs) (tidy : h.Tidy) (hx : h.Allocated x) :
    xs.length = n ∧ Starved (Queue.push a x) h [a, x] ∨ ∃ h' d' N, Queue.push a x h = .ok () h' ∧
      Evolves h (h.Live [a, x]) h' (fun b => b = a ∨ b = d) N ∧
      h'.IsQueue a d' (if xs.length = n then max (xs.length * 2) Queue.leastGrowth else n) (xs ++ [x]) ∧
      (d' = d ∧ N = [] ∨ N = [d']) := by
  have good : ∀ r ∈ [a, x], h.Allocated r := by simp [q.is.allocated, hx]
  by_cases full : xs.length = n
  · rcases q.grow tidy hx with ⟨m, h', run, e⟩ | ⟨h₁, g, run, e, q₁⟩
    · left
      refine ⟨full, m, h', ?_, e⟩
      simp only [Queue.push, HeapM.run_bind, HeapM.run_lift, q.isFull_eq tidy, full, decide_true, if_true, run]
    · right
      have lx : h.Live [a, x] x := .extra (by simp)
      have ng : ¬h.Live [a, x] g := (e.new g (by simp)).2
      have : Queue.leastGrowth = 4 := rfl
      obtain ⟨h₂, run₂, e₂, q₂⟩ := q₁.tryPush e.tidy (e.stays x lx).1 (by omega)
      rw [if_pos full]
      refine ⟨h₂, g, [g], ?_, (e.mutate e₂).weaken (fun _ hb => hb) ?_ fun _ hb => hb, q₂, .inr rfl⟩
      · simp only [Queue.push, HeapM.run_bind, HeapM.run_lift, q.isFull_eq tidy, full, decide_true, if_true, run, run₂,
          HeapM.run_pure]
      · rintro b hb (rfl | rfl | rfl)
        · exact .inl rfl
        · exact .inl rfl
        · exact absurd hb ng
  · right
    obtain ⟨h₁, run, e, q₁⟩ := q.tryPush tidy hx full
    rw [if_neg full]
    refine ⟨h₁, d, [], ?_, e.weaken (fun b hb => tidy.allocated_of_live good hb) (fun _ _ hb => hb) fun _ hb => hb, q₁,
      .inl ⟨rfl, rfl⟩⟩
    simp only [Queue.push, HeapM.run_bind, HeapM.run_lift, q.isFull_eq tidy, full, decide_false, Bool.false_eq_true,
      if_false, run, HeapM.run_pure]

theorem push_spec (q : h.IsQueue a d n xs) (tidy : h.Tidy) (hx : h.Allocated x) :
    Starved (Queue.push a x) h [a, x] ∨ ∃ h' d' n' N, Queue.push a x h = .ok () h' ∧
      Evolves h (h.Live [a, x]) h' (fun b => b = a ∨ b = d) N ∧ h'.IsQueue a d' n' (xs ++ [x]) ∧
      (d' = d ∧ N = [] ∨ N = [d']) :=
  (q.push_cases tidy hx).imp And.right fun ⟨h', d', N, run, e, queue, array⟩ => ⟨h', d', _, N, run, e, queue, array⟩

theorem push (q : h.IsQueue a d n xs) (tidy : h.Tidy) (hx : h.Allocated x) :
    NoMemory (Queue.push a x) h ∨ ∃ h' d' n' N, Queue.push a x h = .ok () h' ∧
      Evolves h (h.Live [a, x]) h' (fun b => b = a ∨ b = d) N ∧ h'.IsQueue a d' n' (xs ++ [x]) ∧
      (d' = d ∧ N = [] ∨ N = [d']) :=
  (q.push_spec tidy hx).imp_left Starved.noMemory

end IsQueue

/-- A new queue is empty. -/
theorem Tidy.createQueue (tidy : h.Tidy) (n : Nat) :
    NoMemory (Queue.create n) h ∨ ∃ a d h', Queue.create n h = .ok a h' ∧
      Evolves h (h.Live []) h' (fun _ => False) [d, a] ∧ h'.IsQueue a d n [] := by
  have eq : Queue.create n = Sequence.newArray n >>= fun d =>
      withRoots [d] (Heap.allocateTagged .queue 3) >>= fun a => writes a [(2, UInt64.ofNat d)] >>= fun _ => pure a := by
    simp only [Queue.create, writes, bind_assoc, pure_bind]
    rfl
  rw [eq]
  rcases tidy.createSeq (t := .array) rfl n with full | ⟨d, h₁, run, e, -, items⟩
  · exact .inl (full.bind _)
  · have run : Sequence.newArray n h = .ok d h₁ := run
    have hd := items.is.allocated
    have good : ∀ r ∈ [d], h₁.Allocated r := by simp [hd]
    have small := e.tidy.sound.toNat_ofNat hd
    rcases make_fields (t := .queue) (π := [2]) rfl
      (e.tidy.allocateRooted good (t := .queue) (n := 3) (Tag.fits_fields rfl (by decide)))
      (ω := [(2, UInt64.ofNat d)]) (by simp [small]) with full | ⟨a, h₂, run', f⟩
    · exact .inl (.after run full)
    · right
      have ld : h₁.Live [d] d := .extra (by simp)
      have head : h₂.ref a Queue.headField = 0 := by
        rw [ref, f.cells _ (by decide)]
        rfl
      refine ⟨a, d, h₂, (run_after run _).trans run', ?_, f.is, ?_, ?_, List.replicate n 0, n, by simp, ?_, ?_, ?_⟩
      · have both := e.trans f.evolves (fun b hb => e.live tidy (by simp) (fun _ _ no => no) (by simp) hb)
          fun b hb => (List.mem_singleton.mp hb) ▸ ld
        exact both.weaken (fun _ hb => hb) (fun _ _ no => no.elim id id) fun _ hb => hb
      · rw [ref, f.cells _ (by decide)]
        rfl
      · rw [ref, f.cells _ (by decide)]
        exact small
      · rw [head]
        omega
      · exact items.kept (f.evolves.kept d ld id)
      · rw [head, List.rotate_zero, List.nil_append]

end Heap

end FiberMachine
