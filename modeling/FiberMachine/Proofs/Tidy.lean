import FiberMachine.Proofs.Workload

/-!
# Tidy heaps

The machine keeps its heap tidy: sound, with every allocated block laid out and every reference to an
allocated block. In a tidy heap a collection is always possible, so nothing about garbage has to be
known. What is known of a block is stated in terms of its payload: `cell` reads a payload word, `put`
replaces one, and `Is` says that a block with a given tag is large enough.
-/

namespace FiberMachine

namespace Heap

/-- The number of payload words of the block at `a`. -/
def room (h : Heap) (a : Addr) : Nat := 2 ^ h.levelAt a - 1

/-- Payload word `i` of the block at `a`. -/
def cell (h : Heap) (a i : Nat) : Word := h.wordAt (a + 1 + i)

/-- Payload word `i` of the block at `a` as a number or an address. -/
def ref (h : Heap) (a i : Nat) : Nat := (h.cell a i).toNat

/-- The heap with payload word `i` of the block at `a` replaced. -/
def put (h : Heap) (a i : Nat) (w : Word) : Heap := h.store (a + 1 + i) w

/-- An allocated block with tag `t` and at least `n` payload words starts at `a`. -/
structure Is (h : Heap) (a : Nat) (t : Tag) (n : Nat) : Prop where
  allocated : h.Allocated a
  tag : h.tagAt a = t
  room : n ≤ h.room a

instance {h : Heap} {a n : Nat} {t : Tag} : Decidable (h.Is a t n) :=
  decidable_of_iff (h.Allocated a ∧ h.tagAt a = t ∧ n ≤ h.room a)
    ⟨fun ⟨allocated, tag, room⟩ => ⟨allocated, tag, room⟩, fun is => ⟨is.allocated, is.tag, is.room⟩⟩

/-- Sound, and every reference is to an allocated block. -/
structure Tidy (h : Heap) : Prop where
  sound : h.Sound
  consistent : h.Consistent

/-- The block at `b` is still allocated and holds the same words. -/
structure Kept (h h' : Heap) (b : Nat) : Prop where
  allocated : h'.Allocated b
  words : ∀ x : Nat, b ≤ x → x < b + 2 ^ h.levelAt b → h'.wordAt x = h.wordAt x

variable {h h' h'' : Heap} {a b c i j n : Nat} {t : Tag} {w : Word}

/-! ### Reading and writing payload words -/

theorem Is.le (b : h.Is a t n) (le : i ≤ n) : h.Is a t i := ⟨b.allocated, b.tag, le.trans b.room⟩

theorem Sound.lt_capacity (s : h.Sound) (ha : h.Allocated a) : a < h.capacity :=
  s.wellFormed.lt_capacity ha

theorem Sound.cell_lt (s : h.Sound) (ha : h.Allocated a) (hi : i < h.room a) : a + 1 + i < h.capacity := by
  have := s.wellFormed.block_le ha
  unfold room at hi
  omega

/-- Addresses fit into words. -/
theorem Sound.small (s : h.Sound) (ha : h.Allocated a) : a < 2 ^ 64 := by
  have := s.lt_capacity ha
  have le := s.wellFormed.capacity_le
  have : linkLimit ≤ 2 ^ 64 := by decide
  omega

theorem Sound.toNat_ofNat (s : h.Sound) (ha : h.Allocated a) : (UInt64.ofNat a).toNat = a := by
  rw [UInt64.toNat_ofNat', Nat.mod_eq_of_lt (s.small ha)]

theorem Sound.room_lt (s : h.Sound) (ha : h.Allocated a) : h.room a < linkLimit := by
  have := s.wellFormed.block_le ha
  have le := s.wellFormed.capacity_le
  have pos := Nat.two_pow_pos (h.levelAt a)
  unfold room
  omega

theorem Sound.read_eq (s : h.Sound) (b : h.Is a t n) (hi : i < n) : read a i h = .ok (h.cell a i) := by
  have hi := Nat.lt_of_lt_of_le hi b.room
  exact Heap.read_eq (s.lt_capacity b.allocated) hi (s.wellFormed.block_le b.allocated)

theorem Sound.readNat_eq (s : h.Sound) (b : h.Is a t n) (hi : i < n) : readNat a i h = .ok (h.ref a i) := by
  simp only [readNat, HeapReader.run_bind, s.read_eq b hi, HeapReader.run_pure, ref]

theorem Sound.tag_eq (s : h.Sound) (b : h.Is a t n) : tag a h = .ok t := by
  rw [Heap.tag_eq (s.lt_capacity b.allocated), b.tag]

theorem Sound.write_eq (s : h.Sound) (b : h.Is a t n) (hi : i < n) :
    Heap.write a i w h = .ok () (h.put a i w) := by
  have hi : i < h.room a := Nat.lt_of_lt_of_le hi b.room
  have hi' : i < 2 ^ h.levelAt a - 1 := hi
  have word := s.cell_lt b.allocated hi
  simp only [Heap.write, HeapM.run_bind, HeapM.run_lift, blockWords_eq (s.lt_capacity b.allocated), hi', if_true,
    setWord_eq word, Heap.put]

theorem Sound.writeNat_eq (s : h.Sound) (b : h.Is a t n) (hi : i < n) (v : Nat) :
    writeNat a i v h = .ok () (h.put a i (UInt64.ofNat v)) := s.write_eq b hi

/-! ### The heap after a payload word was replaced -/

/-- Replacing a payload word leaves a sound heap and all headers. -/
theorem Sound.put (s : h.Sound) (ha : h.Allocated a) (hi : i < h.room a) : Rewritten h (h.put a i w) a := by
  have : i < 2 ^ h.levelAt a - 1 := hi
  exact s.store ha (by omega) (by omega) fun e => by omega

@[simp] theorem contexts_put : (h.put a i w).contexts = h.contexts := rfl

@[simp] theorem temporaries_put : (h.put a i w).temporaries = h.temporaries := rfl

@[simp] theorem roots_put : (h.put a i w).roots = h.roots := rfl

@[simp] theorem capacity_put : (h.put a i w).capacity = h.capacity := capacity_store

theorem Sound.allocated_put (s : h.Sound) (ha : h.Allocated a) (hi : i < h.room a) :
    (h.put a i w).Allocated b ↔ h.Allocated b := (s.put ha hi).allocated b

/-- Headers stay. -/
theorem Sound.header_put (s : h.Sound) (ha : h.Allocated a) (hi : i < h.room a) (hb : h.Allocated b) :
    (h.put a i w).wordAt b = h.wordAt b := by
  have : i < 2 ^ h.levelAt a - 1 := hi
  refine wordAt_store_of_ne fun e => ?_
  have same := s.wellFormed.eq_of_mem ha hb (x := b) (by lia) (by lia) le_rfl
    (Nat.lt_add_of_pos_right (Nat.two_pow_pos _))
  lia

theorem Sound.is_put (s : h.Sound) (ha : h.Allocated a) (hi : i < h.room a) :
    (h.put a i w).Is b t n ↔ h.Is b t n := by
  have same (hb : h.Allocated b) : (h.put a i w).wordAt b = h.wordAt b := s.header_put ha hi hb
  constructor
  · rintro ⟨hb, tag, room⟩
    have hb := (s.allocated_put ha hi).mp hb
    refine ⟨hb, ?_, ?_⟩
    · rwa [tagAt, same hb] at tag
    · rwa [Heap.room, levelAt, same hb] at room
  · rintro ⟨hb, tag, room⟩
    refine ⟨(s.allocated_put ha hi).mpr hb, ?_, ?_⟩
    · rwa [tagAt, same hb]
    · rwa [Heap.room, levelAt, same hb]

theorem Sound.cell_put (s : h.Sound) (ha : h.Allocated a) (hi : i < h.room a) :
    (h.put a i w).cell a j = if j = i then w else h.cell a j := by
  rw [cell, Heap.put, wordAt_store (s.cell_lt ha hi)]
  by_cases e : j = i
  · rw [if_pos e, if_pos (by rw [e])]
  · rw [if_neg e, if_neg (by lia), cell]

/-- The other blocks stay as they are. -/
theorem Sound.kept_put (s : h.Sound) (ha : h.Allocated a) (hi : i < h.room a) (hb : h.Allocated b)
    (ne : b ≠ a) : Kept h (h.put a i w) b := by
  refine ⟨(s.allocated_put ha hi).mpr hb, fun x hx hxb => (s.put ha hi).outside x fun inside => ne ?_⟩
  exact (s.wellFormed.eq_of_mem ha hb inside.1 inside.2 hx hxb).symm

/-! ### Blocks that are kept -/

namespace Kept

variable (k : Kept h h' b)
include k

theorem header : h'.wordAt b = h.wordAt b :=
  k.words b le_rfl (Nat.lt_add_of_pos_right (Nat.two_pow_pos _))

theorem levelAt : h'.levelAt b = h.levelAt b := by rw [Heap.levelAt, k.header, Heap.levelAt]

theorem tagAt : h'.tagAt b = h.tagAt b := by rw [Heap.tagAt, k.header, Heap.tagAt]

theorem room : h'.room b = h.room b := by rw [Heap.room, k.levelAt, Heap.room]

theorem is (hb : h.Is b t n) : h'.Is b t n := ⟨k.allocated, k.tagAt.trans hb.tag, k.room ▸ hb.room⟩

theorem cell (hi : i < h.room b) : h'.cell b i = h.cell b i := by
  have : i < 2 ^ h.levelAt b - 1 := hi
  exact k.words (b + 1 + i) (by omega) (by omega)

theorem ref (hi : i < h.room b) : h'.ref b i = h.ref b i := by rw [Heap.ref, k.cell hi, Heap.ref]

theorem trans (l : Kept h' h'' b) : Kept h h'' b :=
  ⟨l.allocated, fun x hx hxb => (l.words x hx (by rwa [k.levelAt])).trans (k.words x hx hxb)⟩

end Kept

theorem Kept.refl (hb : h.Allocated b) : Kept h h b := ⟨hb, fun _ _ _ => rfl⟩

/-! ### References -/

theorem laidOut_iff : h.LaidOut a ↔
    match (h.tagAt a).layout with
    | .fields positions => ∀ p ∈ positions, p < h.room a
    | .counted => h.ref a 0 + 1 ≤ h.room a := Iff.rfl

theorem childrenAt_eq : h.childrenAt a =
    match (h.tagAt a).layout with
    | .fields positions => positions.map (h.ref a)
    | .counted => (List.range (h.ref a 0)).map fun i => h.ref a (1 + i) := rfl

theorem Kept.laidOut (k : Kept h h' b) (laid : h.LaidOut b) : h'.LaidOut b := by
  rw [laidOut_iff] at laid ⊢
  rw [k.tagAt, k.room]
  cases layout : (h.tagAt b).layout with
  | fields positions => simpa only [layout] using laid
  | counted =>
    simp only [layout] at laid ⊢
    rwa [k.ref (by omega)]

theorem Kept.childrenAt (k : Kept h h' b) (laid : h.LaidOut b) : h'.childrenAt b = h.childrenAt b := by
  rw [laidOut_iff] at laid
  rw [childrenAt_eq, childrenAt_eq, k.tagAt]
  cases layout : (h.tagAt b).layout with
  | fields positions =>
    simp only [layout] at laid
    exact List.map_congr_left fun p hp => k.ref (laid p hp)
  | counted =>
    simp only [layout] at laid
    rw [k.ref (show 0 < h.room b by omega)]
    refine List.map_congr_left fun i hi => k.ref ?_
    have := List.mem_range.mp hi
    omega

/-- A heap in which every allocated block is laid out and refers to allocated blocks. -/
theorem Tidy.of_blocks (s : h.Sound) (root : ∀ a ∈ h.roots, h.Allocated a)
    (each : ∀ a, h.Allocated a → h.LaidOut a ∧ ∀ c ∈ h.childrenAt a, h.Allocated c) : h.Tidy := by
  refine ⟨s, fun a ha => (each a ha).1, ?_, root⟩
  intro a b ha hb
  obtain ⟨laid, refers⟩ := each a ha
  exact refers b ((child_iff_of_run (children_eq (s.lt_capacity ha) (s.wellFormed.block_le ha) laid)).mp hb)

namespace Tidy

theorem laidOut (tidy : h.Tidy) (ha : h.Allocated a) : h.LaidOut a := tidy.consistent.laidOut a ha

theorem child_iff (tidy : h.Tidy) (ha : h.Allocated a) : h.Child a b ↔ b ∈ h.childrenAt a :=
  child_iff_of_run (children_eq (tidy.sound.lt_capacity ha) (tidy.sound.wellFormed.block_le ha) (tidy.laidOut ha))

theorem each (tidy : h.Tidy) (ha : h.Allocated a) :
    h.LaidOut a ∧ ∀ c ∈ h.childrenAt a, h.Allocated c :=
  ⟨tidy.laidOut ha, fun c hc => tidy.consistent.child a c ha ((tidy.child_iff ha).mpr hc)⟩

theorem allocated_of_reachable (tidy : h.Tidy) (ha : h.Reachable a) : h.Allocated a :=
  (tidy.consistent.traceable a ha).1

/-- A field that the tag makes a reference. -/
theorem child_field (tidy : h.Tidy) (b : h.Is a t n) {π : List Nat}
    (layout : t.layout = .fields π) (hi : i ∈ π) : h.Child a (h.ref a i) := by
  rw [tidy.child_iff b.allocated, childrenAt_eq, b.tag, layout]
  exact List.mem_map_of_mem hi

/-- An item of a counted block. -/
theorem child_item (tidy : h.Tidy) (b : h.Is a t n) (layout : t.layout = .counted) (hi : i < h.ref a 0) :
    h.Child a (h.ref a (1 + i)) := by
  rw [tidy.child_iff b.allocated, childrenAt_eq, b.tag, layout]
  exact List.mem_map_of_mem (List.mem_range.mpr hi)

/-- A payload word may be replaced if the block is laid out afterwards and refers to allocated
blocks. -/
theorem put_of (tidy : h.Tidy) (ha : h.Allocated a) (hi : i < h.room a)
    (each : (h.put a i w).LaidOut a ∧ ∀ c ∈ (h.put a i w).childrenAt a, h.Allocated c) :
    (h.put a i w).Tidy := by
  have s := tidy.sound
  refine .of_blocks (s.put ha hi).sound (fun b hb => ?_) fun b hb => ?_
  · exact (s.allocated_put ha hi).mpr (tidy.consistent.root b hb)
  · have hb' := (s.allocated_put ha hi).mp hb
    by_cases e : b = a
    · subst e
      exact ⟨each.1, fun c hc => (s.allocated_put ha hi).mpr (each.2 c hc)⟩
    · have kept : Kept h (h.put a i w) b := s.kept_put ha hi hb' e
      obtain ⟨laid, children⟩ := tidy.each hb'
      refine ⟨kept.laidOut laid, fun c hc => (s.allocated_put ha hi).mpr ?_⟩
      rw [kept.childrenAt laid] at hc
      exact children c hc

/-- A field of a block with fixed fields; if it is a reference, then to an allocated block. -/
theorem put_field (tidy : h.Tidy) (b : h.Is a t n) {π : List Nat}
    (layout : t.layout = .fields π) (hi : i < n) (good : i ∈ π → h.Allocated w.toNat) :
    (h.put a i w).Tidy := by
  have s := tidy.sound
  have hi := Nat.lt_of_lt_of_le hi b.room
  have b' : (h.put a i w).Is a t n := (s.is_put b.allocated hi).mpr b
  obtain ⟨laid, children⟩ := tidy.each b.allocated
  refine tidy.put_of b.allocated hi ⟨?_, ?_⟩
  · rw [laidOut_iff, b.tag, layout] at laid
    rw [laidOut_iff, b'.tag, layout]
    have room : (h.put a i w).room a = h.room a := by rw [room, (s.put b.allocated hi).level, room]
    rwa [room]
  · rw [childrenAt_eq, b.tag, layout] at children
    rw [childrenAt_eq, b'.tag, layout]
    intro c hc
    obtain ⟨p, hp, rfl⟩ := List.mem_map.mp hc
    rw [ref, s.cell_put b.allocated hi]
    split
    next e => exact good (e ▸ hp)
    next => exact children _ (List.mem_map_of_mem hp)

/-- A slot of a counted block. What is stored behind its items may be anything. -/
theorem put_item (tidy : h.Tidy) (b : h.Is a t n) (layout : t.layout = .counted) (hi : 1 + i < n)
    (good : i < h.ref a 0 → h.Allocated w.toNat) : (h.put a (1 + i) w).Tidy := by
  have s := tidy.sound
  have hi := Nat.lt_of_lt_of_le hi b.room
  have b' : (h.put a (1 + i) w).Is a t n := (s.is_put b.allocated hi).mpr b
  have count : (h.put a (1 + i) w).ref a 0 = h.ref a 0 := by
    rw [ref, s.cell_put b.allocated hi, if_neg (by omega), ref]
  obtain ⟨laid, children⟩ := tidy.each b.allocated
  refine tidy.put_of b.allocated hi ⟨?_, ?_⟩
  · rw [laidOut_iff, b.tag, layout] at laid
    rw [laidOut_iff, b'.tag, layout]
    have room : (h.put a (1 + i) w).room a = h.room a := by rw [room, (s.put b.allocated hi).level, room]
    simp only at laid ⊢
    rwa [count, room]
  · rw [childrenAt_eq, b.tag, layout] at children
    rw [childrenAt_eq, b'.tag, layout]
    simp only [count, List.mem_map, List.mem_range] at children ⊢
    rintro c ⟨j, hj, rfl⟩
    rw [ref, s.cell_put b.allocated hi]
    split
    next => exact good (by omega)
    next => exact children _ ⟨j, hj, rfl⟩

/-- The count of a counted block whose items are all unassigned. -/
theorem put_count (tidy : h.Tidy) (b : h.Is a t (n + 1)) (layout : t.layout = .counted)
    (count : w.toNat = n) (zero : ∀ i : Nat, i < n → h.ref a (1 + i) = 0) : (h.put a 0 w).Tidy := by
  have s := tidy.sound
  have hi : 0 < h.room a := Nat.lt_of_lt_of_le (Nat.succ_pos n) b.room
  have b' : (h.put a 0 w).Is a t (n + 1) := (s.is_put b.allocated hi).mpr b
  have length : (h.put a 0 w).ref a 0 = n := by rw [ref, s.cell_put b.allocated hi, if_pos rfl, count]
  refine tidy.put_of b.allocated hi ⟨?_, ?_⟩
  · rw [laidOut_iff, b'.tag, layout]
    simp only
    rw [length]
    exact b'.room
  · rw [childrenAt_eq, b'.tag, layout]
    simp only [length, List.mem_map, List.mem_range]
    rintro c ⟨j, hj, rfl⟩
    rw [ref, s.cell_put b.allocated hi, if_neg (by omega)]
    have zero := zero j hj
    rw [ref] at zero
    rw [zero]
    exact s.sentinel

end Tidy

/-! ### Heaps that operations build -/

/-- The operation may be made here, as a test that needs nothing to be traced. -/
def Operation.isSafe (h : Heap) : Operation → Bool
  | .allocate size => !decide (h.RunsCollector size)
  | .allocateTagged _ size => !decide (h.RunsCollector (size + 1))
  | .write addr i _ => decide (h.Allocated addr) && decide (i < 2 ^ h.levelAt addr - 1)
  | .pushRoot _ | .releaseRoots _ | .registerContext _ | .retireContext _ => true
  | _ => false

theorem Operation.allowed_of_isSafe {h : Heap} {op : Operation} (safe : op.isSafe h = true) : op.Allowed h := by
  cases op with
  | allocate size => exact fun runs => by simp [isSafe, runs] at safe
  | allocateTagged tag size => exact fun runs => by simp [isSafe, runs] at safe
  | write addr i w =>
    rw [isSafe, Bool.and_eq_true] at safe
    exact ⟨of_decide_eq_true safe.1, of_decide_eq_true safe.2⟩
  | pushRoot _ | releaseRoots _ | registerContext _ | retireContext _ => trivial
  | _ => cases safe

/-- Each operation of a sequence may be made where it is made. -/
def allSafe (h : Heap) : List Operation → Bool
  | [] => true
  | op :: ops => op.isSafe h && (op.after h).allSafe ops

theorem allAllowed_of_allSafe {h : Heap} {ops : List Operation} (safe : h.allSafe ops = true) : h.AllAllowed ops := by
  induction ops generalizing h with
  | nil => trivial
  | cons op ops ih =>
    rw [allSafe, Bool.and_eq_true] at safe
    exact ⟨Operation.allowed_of_isSafe safe.1, ih safe.2⟩

/-- Every allocated block is laid out, and the roots and all references are to allocated blocks. -/
def isConsistent (h : Heap) : Bool :=
  h.roots.all (fun a => decide (h.Allocated a)) && h.allocatedBlocks.all fun b =>
    decide (h.LaidOut b.addr) && ((children b.addr h).toOption.getD []).all fun c => decide (h.Allocated c)

theorem consistent_of_isConsistent {h : Heap} (good : h.isConsistent = true) : h.Consistent := by
  simp only [isConsistent, Bool.and_eq_true, List.all_eq_true, decide_eq_true_eq] at good
  exact .of_blocks good.1 good.2

/-- What operations make of a new heap of `words` words. -/
def built (words : Nat) (ops : List Operation) : Heap :=
  match create words (.start none) with
  | .ok new => new.afterAll ops
  | .error _ => bare minLevel (.start none)

theorem tidy_built {words : Nat} {ops : List Operation} (enough : levelWords minLevel ≤ words)
    (safe : (built words []).allSafe ops = true) (consistent : (built words ops).isConsistent = true) : (built words ops).Tidy := by
  obtain ⟨new, created, blank, -⟩ := create_eq enough (.start none)
  refine ⟨?_, consistent_of_isConsistent consistent⟩
  rw [built, created] at safe ⊢
  exact blank.sound.afterAll (allAllowed_of_allSafe safe)

end Heap

end FiberMachine
