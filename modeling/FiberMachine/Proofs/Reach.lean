import FiberMachine.Heap.Collection
import FiberMachine.Proofs.Walk

/-!
# References and reachability

A block is laid out as its tag requires when all the words that the tag makes references, and the
count where there is one, lie in its payload. Reading the children of such a block succeeds. What
can be reached from some addresses is the closure under children; a heap is traceable when
everything that can be reached from its roots is an allocated block that is laid out.
-/

namespace FiberMachine.Heap

/-- The words that the tag of the block at `a` makes references are in its payload. -/
def LaidOut (h : Heap) (a : Addr) : Prop :=
  match (h.tagAt a).layout with
  | .fields positions => ∀ p ∈ positions, p < 2 ^ h.levelAt a - 1
  | .counted => (h.wordAt (a + 1)).toNat + 1 ≤ 2 ^ h.levelAt a - 1

/-- The block at `a` refers to `b`. -/
def Child (h : Heap) (a b : Addr) : Prop := ∃ found, children a h = .ok found ∧ b ∈ found

/-- What can be reached from the given addresses. -/
inductive Reaches (h : Heap) (start : List Addr) : Addr → Prop
  | start {a : Addr} : a ∈ start → Reaches h start a
  | child {a b : Addr} : Reaches h start a → h.Child a b → Reaches h start b

/-- What a collection keeps. -/
def Reachable (h : Heap) (a : Addr) : Prop := h.Reaches h.roots a

/-- Every block that the collector traces is allocated and laid out. -/
def Traceable (h : Heap) : Prop := ∀ a, h.Reachable a → h.Allocated a ∧ h.LaidOut a

/-- No allocated block is marked. -/
def Unmarked (h : Heap) : Prop := ∀ a, h.Allocated a → h.markedAt a = false

/-- The addresses in a laid-out block. -/
def childrenAt (h : Heap) (a : Addr) : List Addr :=
  match (h.tagAt a).layout with
  | .fields positions => positions.map fun p => (h.wordAt (a + 1 + p)).toNat
  | .counted =>
    (List.range (h.wordAt (a + 1)).toNat).map fun i => (h.wordAt (a + 1 + (1 + i))).toNat

variable {h : Heap} {a b c : Addr} {start : List Addr}

/-! ### Reading payload words -/

theorem read_eq {i : Nat} (ha : a < h.capacity) (hi : i < 2 ^ h.levelAt a - 1)
    (inside : a + 2 ^ h.levelAt a ≤ h.capacity) : read a i h = .ok (h.wordAt (a + 1 + i)) := by
  have : a + 1 + i < h.capacity := by lia
  simp only [read, HeapReader.run_bind, blockWords_eq ha, HeapReader.run_ite, if_pos hi, word_eq this]

theorem readNat_eq {i : Nat} (ha : a < h.capacity) (hi : i < 2 ^ h.levelAt a - 1)
    (inside : a + 2 ^ h.levelAt a ≤ h.capacity) :
    readNat a i h = .ok (h.wordAt (a + 1 + i)).toNat := by
  simp only [readNat, HeapReader.run_bind, read_eq ha hi inside, HeapReader.run_pure]

theorem readNats_eq {i n : Nat} (ha : a < h.capacity) (hn : i + n ≤ 2 ^ h.levelAt a - 1)
    (inside : a + 2 ^ h.levelAt a ≤ h.capacity) :
    readNats a i n h = .ok ((List.range n).map fun j => (h.wordAt (a + 1 + (i + j))).toNat) := by
  induction n generalizing i with
  | zero => rfl
  | succ n ih =>
    have first := readNat_eq ha (show i < _ by omega) inside
    have rest := ih (i := i + 1) (by omega)
    simp only [readNats, HeapReader.run_bind, first, rest, HeapReader.run_pure]
    rw [List.range_succ_eq_map]
    simp only [List.map_cons, List.map_map, Nat.add_zero, Except.ok.injEq, List.cons.injEq, true_and,
      List.map_inj_left, Function.comp_apply]
    intro j _
    rw [show i + 1 + j = i + j.succ by omega]

theorem run_mapM_ok {α β : Type} {f : α → HeapReader β} {g : α → β} {xs : List α}
    (each : ∀ x ∈ xs, f x h = .ok (g x)) : (xs.mapM f) h = .ok (xs.map g) := by
  induction xs with
  | nil => rfl
  | cons x xs ih =>
    have rest := ih fun y hy => each y (List.mem_cons_of_mem x hy)
    rw [List.mapM_cons]
    simp only [HeapReader.run_bind, each x List.mem_cons_self, rest, HeapReader.run_pure, List.map_cons]

theorem levelAt_lt (h : Heap) (a : Addr) : h.levelAt a < 32 := BitField.toNat_get_lt Header.level_inWord (h.wordAt a)

/-- The children of a laid-out block can be read. -/
theorem children_eq (ha : a < h.capacity) (inside : a + 2 ^ h.levelAt a ≤ h.capacity) (laid : h.LaidOut a) :
    children a h = .ok (h.childrenAt a) := by
  unfold LaidOut at laid
  unfold childrenAt
  cases layout : (h.tagAt a).layout with
  | fields positions =>
    simp only [layout] at laid
    simp only [children, HeapReader.run_bind, tag_eq ha, layout]
    exact run_mapM_ok fun p hp => readNat_eq ha (laid p hp) inside
  | counted =>
    simp only [layout] at laid
    have listable : (h.wordAt (a + 1)).toNat * 8 < hostLimit := by
      -- no block has more words than the width of the level field allows
      have : 2 ^ h.levelAt a ≤ 2 ^ 31 := Nat.pow_le_pow_right (by decide) (Nat.le_of_lt_succ (h.levelAt_lt a))
      unfold hostLimit
      omega
    have count := readNat_eq ha (i := 0) (by omega) inside
    have found := readNats_eq ha (i := 1) (n := (h.wordAt (a + 1)).toNat) (by omega) inside
    simp only [Nat.add_zero] at count
    simp only [children, HeapReader.run_bind, tag_eq ha, layout, countedReferences, count, expectListable,
      expectRoom, listable, if_true, HeapReader.run_pure, found]

/-- A block has fewer children than words. -/
theorem length_childrenAt_lt (laid : h.LaidOut a) : (h.childrenAt a).length < 2 ^ h.levelAt a := by
  have pos := Nat.two_pow_pos (h.levelAt a)
  unfold LaidOut at laid
  unfold childrenAt
  cases layout : (h.tagAt a).layout with
  | fields positions =>
    simp only [layout] at laid
    have short : positions.length ≤ 2 ^ h.levelAt a - 1 := by
      generalize 2 ^ h.levelAt a - 1 = room at laid
      cases tag : h.tagAt a <;> simp only [tag, Tag.layout, Layout.fields.injEq, reduceCtorEq] at layout <;>
        subst layout <;> simp at laid ⊢ <;> omega
    simp
    omega
  | counted =>
    simp only [layout] at laid
    simp
    omega

/-! ### Reachability -/

theorem child_iff_of_run {found : List Addr} (run : children a h = .ok found) : h.Child a b ↔ b ∈ found := by
  constructor
  · rintro ⟨others, run', hb⟩
    rw [run] at run'
    cases run'
    exact hb
  · exact fun hb => ⟨found, run, hb⟩

/-- What a block refers to, as it can be computed. -/
theorem Child.mem (c : h.Child a b) : b ∈ (children a h).toOption.getD [] := by
  obtain ⟨found, run, hb⟩ := c
  rw [run]
  exact hb

instance : Decidable (h.Allocated a) := inferInstanceAs (Decidable (∃ b ∈ h.blocks, _))

instance : Decidable (h.LaidOut a) :=
  match layout : (h.tagAt a).layout with
  | .fields positions =>
    decidable_of_iff (∀ p ∈ positions, p < 2 ^ h.levelAt a - 1) (by simp only [LaidOut, layout])
  | .counted =>
    decidable_of_iff ((h.wordAt (a + 1)).toNat + 1 ≤ 2 ^ h.levelAt a - 1) (by simp only [LaidOut, layout])

theorem Reaches.mono {more : List Addr} (sub : ∀ a ∈ start, h.Reaches more a) (r : h.Reaches start a) :
    h.Reaches more a := by
  induction r with
  | start ha => exact sub _ ha
  | child _ hc ih => exact ih.child hc

/-- A set that holds the start and is closed under children holds everything reachable. -/
theorem Reaches.of_closed {M : Addr → Prop} (r : h.Reaches start a) (holds : ∀ a ∈ start, M a)
    (closed : ∀ a b, M a → h.Child a b → M b) : M a := by
  induction r with
  | start ha => exact holds _ ha
  | child _ hc ih => exact closed _ _ ih hc

/-- Addresses that hold the start and are closed under children are all that can be reached. -/
theorem Reaches.mem_of_closed {M : List Addr} (r : h.Reaches start a) (holds : ∀ a ∈ start, a ∈ M)
    (closed : ∀ a ∈ M, ∀ b ∈ (children a h).toOption.getD [], b ∈ M) : a ∈ M :=
  r.of_closed holds fun b c hb hc => closed b hb c hc.mem

/-- Addresses that hold the roots and are closed under children are all that there is to trace. -/
theorem Traceable.of_closed {M : List Addr} (roots : ∀ a ∈ h.roots, a ∈ M)
    (good : ∀ a ∈ M, h.Allocated a ∧ h.LaidOut a)
    (closed : ∀ a ∈ M, ∀ b ∈ (children a h).toOption.getD [], b ∈ M) : h.Traceable :=
  fun a ha => good a (ha.mem_of_closed roots closed)

end FiberMachine.Heap
