import FiberMachine.Proofs.Copies
import FiberMachine.Proofs.Refinement.Machines

/-!
# Comparing a value with its copy

Copying knows which kinds of values are duplicated, comparing knows which kinds are compared by what they hold, and the two agree on
every kind but one: arrays are copied, but two arrays are equal only if they are the same array. So a value that has been assigned is
equal to the value it was assigned from exactly if it is not an array.
-/

namespace FiberMachine

open Heap

variable {h : Heap} {m : Machine} {a b c k n v x y : Nat} {t : Tag}

namespace Heap

/-- The object at `v` can be compared with itself, and is not a NaN: a box has its word, and a string its bytes. -/
def Comparable (h : Heap) (v : Nat) : Prop :=
  match h.tagAt v with
  | .int | .bool => 0 < h.room v
  | .float => 0 < h.room v ∧ (Binary64.mk (h.cell v 0)).eq ⟨h.cell v 0⟩ = true
  | .string => ∃ bytes, Text.bytes v h = .ok bytes
  | _ => True

/-- A box with a given word. -/
structure IsBox (h : Heap) (a : Nat) (t : Tag) (w : Word) : Prop where
  is : h.Is a t 1
  word : h.cell a 0 = w

/-- A new box holds its word, if there is memory for it. -/
theorem Tidy.makeBox (tidy : h.Tidy) (layout : t.layout = .fields []) (w : Word) :
    NoMemory (Scalar.box t w) h ∨ ∃ a h', Scalar.box t w h = .ok a h' ∧ Evolves h (h.Live []) h' (fun _ => False) [a] ∧ h'.IsBox a t w := by
  have eq : Scalar.box t w = Heap.allocateTagged t 1 >>= fun a => writes a [(0, w)] >>= fun _ => pure a := by
    simp only [Scalar.box, writes, bind_assoc, pure_bind]
  rw [eq]
  have fields : ∀ p ∈ [(0, w)], p.1 < 1 ∧ (p.1 ∈ ([] : List Nat) → h.Live [] p.2.toNat) := by simp
  rcases make_live layout (tidy.allocateTagged (n := 1) (Tag.fits_fields layout (by simp))) fields with
    full | ⟨a, h', run, f⟩
  · exact .inl full
  · exact .inr ⟨a, h', run, f.evolves, f.is, (f.cells 0 Nat.one_pos).trans (by simp [overwrite])⟩

end Heap

namespace Machine

/-- An action uses the memory up or makes a truth value. -/
def Tells (m : Machine) (action : MachineM Addr) (b : Bool) : Prop :=
  (∃ n m', action m = .error (.error (.heap (.outOfMemory n))) m') ∨
    ∃ r m', action m = .ok r m' ∧ Heap.tag r m'.heap = .ok .bool ∧ Scalar.bool r m'.heap = .ok b

/-- The action does what boxing a truth value does. -/
theorem Tells.of_box (tidy : m.heap.Tidy) {action : MachineM Addr} {b : Bool}
    (eq : action m = (liftM (Primitive.bool b).box : MachineM Addr) m) : m.Tells action b := by
  rcases tidy.makeBox (t := .bool) rfl b.toUInt64 with ⟨n, h', full⟩ | ⟨r, h', run, e, is, word⟩
  · refine .inl ⟨n, { m with heap := h' }, ?_⟩
    rw [eq, run_heap, Primitive.box, Scalar.newBool, full]
    rfl
  · refine .inr ⟨r, { m with heap := h' }, ?_, e.tidy.sound.tag_eq is, ?_⟩
    · rw [eq, run_heap, Primitive.box, Scalar.newBool, run]
    · simp only [Scalar.bool, HeapReader.run_bind, e.tidy.sound.read_eq is Nat.one_pos, word, HeapReader.run_pure]
      cases b <;> rfl

/-- What the two operators for equality make of two objects that are the same or are not. -/
def verdict (op : BinaryOp) (same : Bool) : Bool := if op = .eq then same else !same

variable {op : BinaryOp} (equality : op = .eq ∨ op = .ne)
include equality

theorem comparison_self : comparison op .eq t t = .ok (.bool (verdict op true)) := by
  rcases equality with rfl | rfl <;> rfl

theorem onInts_self (n : Int64) : onInts op n n = .ok (.bool (verdict op true)) := by
  rcases equality with rfl | rfl <;> simp [onInts, comparison_self, verdict]

theorem onFloats_self {x : Binary64} (number : x.eq x = true) : onFloats op x x = .ok (.bool (verdict op true)) := by
  rcases equality with rfl | rfl <;> simp [onFloats, number, verdict]

theorem onBools_self (b : Bool) : onBools op b b = .ok (.bool (verdict op true)) := by
  rcases equality with rfl | rfl <;> simp [onBools, verdict]

/-- Two boxes with the same word are equal. -/
theorem compare_boxes (tidy : m.heap.Tidy) (hx : m.heap.Is x t 1) (hy : m.heap.Is y t 1) (kind : t.isScalar = true)
    (same : m.heap.cell y 0 = m.heap.cell x 0) (number : t = .float → (Binary64.mk (m.heap.cell x 0)).eq ⟨m.heap.cell x 0⟩ = true) :
    applyBinary op x y m = (liftM (Primitive.bool (verdict op true)).box : MachineM Addr) m := by
  have word : read y 0 m.heap = .ok (m.heap.cell x 0) := same ▸ tidy.sound.read_eq hy Nat.one_pos
  have word' := tidy.sound.read_eq hx Nat.one_pos
  cases t with
  | int =>
    simp only [applyBinary, run_bind, run_reader, tidy.sound.tag_eq hx, tidy.sound.tag_eq hy, Scalar.int, HeapReader.run_bind, word, word',
      HeapReader.run_pure, onInts_self equality]
    rfl
  | float =>
    simp only [applyBinary, run_bind, run_reader, tidy.sound.tag_eq hx, tidy.sound.tag_eq hy, Scalar.float, HeapReader.run_bind, word, word',
      HeapReader.run_pure, onFloats_self equality (number rfl)]
    rfl
  | bool =>
    simp only [applyBinary, run_bind, run_reader, tidy.sound.tag_eq hx, tidy.sound.tag_eq hy, Scalar.bool, HeapReader.run_bind, word, word',
      HeapReader.run_pure, onBools_self equality]
    rfl
  | _ => cases kind

/-- The operators for equality on objects of one kind that is not primitive compare addresses. -/
theorem compare_references (tidy : m.heap.Tidy) (hx : m.heap.Is x t n) (hy : m.heap.Is y t k) (kind : t.isPrimitive = false) :
    applyBinary op x y m = (liftM (Primitive.bool (verdict op (x = y))).box : MachineM Addr) m := by
  have verdictOf (b : Bool) : (if op = .eq then b else !b) = verdict op b := rfl
  have compared : sameReference? x y m.heap = .ok (some (decide (x = y))) := by
    cases t <;> try (cases kind; done)
    all_goals
      simp [sameReference?, HeapReader.run_bind, tidy.sound.tag_eq hx, tidy.sound.tag_eq hy, HeapReader.run_pure, Tag.isPrimitive]
  have references : onReferences op x y m = .ok (.bool (verdict op (x = y))) m := by
    rcases equality with rfl | rfl <;>
    simp only [onReferences, run_bind, run_reader, tidy.sound.tag_eq hx, tidy.sound.tag_eq hy, compared, verdictOf] <;> rfl
  cases t <;> try (cases kind; done)
  all_goals
    simp only [applyBinary, run_bind, run_reader, tidy.sound.tag_eq hx, tidy.sound.tag_eq hy, references]

/-- A string equals itself. -/
theorem compare_string (tidy : m.heap.Tidy) (hx : m.heap.Is x .string n) {bytes : List UInt8} (found : Text.bytes x m.heap = .ok bytes) :
    applyBinary op x x m = (liftM (Primitive.bool (verdict op true)).box : MachineM Addr) m := by
  have same : compare bytes bytes = .eq := Std.ReflCmp.compare_self
  have other : op ≠ .add := by rcases equality with rfl | rfl <;> decide
  simp only [applyBinary, run_bind, run_reader, tidy.sound.tag_eq hx, other, if_false, found, same, comparison_self equality]
  rfl

/-- A value and its copy, in either order, are equal unless the value is an array. -/
theorem compare_copy (tidy : h.Tidy) (hv : h.Allocated v) (run : Value.copy v h = .ok c m.heap) (comparable : m.heap.Comparable v)
    (pair : x = v ∧ y = c ∨ x = c ∧ y = v) : m.Tells (applyBinary op x y) (verdict op (h.tagAt v != .array)) := by
  rcases tidy.copied hv with ⟨_, _, full⟩ | ⟨c', h', new, run', d⟩
  · cases run.symm.trans full
  cases run.symm.trans run'
  have tidy' := d.evolves.tidy
  have kept : Heap.Kept h m.heap v := d.evolves.kept v (.extra List.mem_cons_self) id
  have here : m.heap.Is v (m.heap.tagAt v) 0 := ⟨kept.allocated, rfl, Nat.zero_le _⟩
  have fresh {a : Nat} (ha : a ∈ new) : a ≠ v := by
    rintro rfl
    exact (d.evolves.new a ha).2 (.extra List.mem_cons_self)
  rw [← kept.tagAt]
  refine .of_box tidy' ?_
  cases d.copies with
  | shared kind other _ =>
    have both : x = c ∧ y = c := pair.elim id id
    obtain ⟨rfl, rfl⟩ := both
    rw [show (m.heap.tagAt y != .array) = true from bne_iff_ne.mpr other]
    unfold Comparable at comparable
    cases tag : m.heap.tagAt y <;> rw [tag] at kind comparable here <;> try (cases kind; done)
    case string =>
      obtain ⟨bytes, found⟩ := comparable
      exact compare_string equality tidy' here found
    all_goals simpa using compare_references equality tidy' here here rfl
  | box kind is cells _ =>
    have ne : m.heap.tagAt v ≠ .array := fun no => by rw [no] at kind; cases kind
    have words : 0 < m.heap.room v ∧ (m.heap.tagAt v = .float → (Binary64.mk (m.heap.cell v 0)).eq ⟨m.heap.cell v 0⟩ = true) := by
      unfold Comparable at comparable
      cases tag : m.heap.tagAt v <;> rw [tag] at kind comparable <;> first
        | exact ⟨comparable, fun no => by cases no⟩
        | exact ⟨comparable.1, fun _ => comparable.2⟩
        | cases kind
    have original : m.heap.Is v (m.heap.tagAt v) 1 := ⟨here.allocated, rfl, words.1⟩
    have same := cells 0 words.1
    rw [show (m.heap.tagAt v != .array) = true from bne_iff_ne.mpr ne]
    rcases pair with ⟨rfl, rfl⟩ | ⟨rfl, rfl⟩
    · exact compare_boxes equality tidy' original (is.le words.1) kind same words.2
    · exact compare_boxes equality tidy' (is.le words.1) original kind same.symm (same ▸ words.2)
  | array original copy _ _ =>
    have ne : c ≠ v := fresh List.mem_cons_self
    rw [original.is.tag]
    rcases pair with ⟨rfl, rfl⟩ | ⟨rfl, rfl⟩
    · simpa [Ne.symm ne] using compare_references equality tidy' original.is copy.is rfl
    · simpa [ne] using compare_references equality tidy' copy.is original.is rfl

omit equality in
/-- An int is equal to its copy. -/
theorem compare_copy_int : ∃ (c : Addr) (m : Machine), Value.copy 2 rowsHeap = .ok c m.heap ∧ rowsHeap.tagAt 2 = .int ∧ m.Tells (applyBinary .eq 2 c) true := by
  have here : rowsHeap.Allocated 2 := by decide +kernel
  have runs : Passes (fun _ h' => decide (h'.tagAt 2 = .int) && decide (0 < h'.room 2)) (Value.copy 2 rowsHeap) = true := by decide +kernel
  have kind : rowsHeap.tagAt 2 = .int := by decide +kernel
  obtain ⟨c, h', run, found⟩ := passes_iff.mp runs
  rw [Bool.and_eq_true, decide_eq_true_eq, decide_eq_true_eq] at found
  have comparable : h'.Comparable 2 := by
    rw [Comparable, found.1]
    exact found.2
  have told : (create h' 1 0).Tells (applyBinary .eq 2 c) (verdict .eq (rowsHeap.tagAt 2 != .array)) :=
    compare_copy (.inl rfl) tidy_rowsHeap here run comparable (.inl ⟨rfl, rfl⟩)
  rw [kind] at told
  exact ⟨c, create h' 1 0, run, kind, told⟩

omit equality in
/-- An array of one int in an array is equal to itself, but not to its copy. -/
theorem compare_copy_rows : rowsHeap.Tidy ∧ rowsHeap.IsSeq 8 .array [4, 0] ∧ ∃ (c : Addr) (m : Machine), Value.copy 8 rowsHeap = .ok c m.heap ∧
    (∃ r m', applyBinary .eq 8 8 m = .ok r m' ∧ Scalar.bool r m'.heap = .ok true) ∧
    ∃ r m', applyBinary .eq 8 c m = .ok r m' ∧ Scalar.bool r m'.heap = .ok false := by
  have runs : Passes (fun c h' => Passes (fun r m' => (Scalar.bool r m'.heap).toOption == some true) (applyBinary .eq 8 8 (create h' 1 0)) &&
      Passes (fun r m' => (Scalar.bool r m'.heap).toOption == some false) (applyBinary .eq 8 c (create h' 1 0))) (Value.copy 8 rowsHeap) = true := by
    decide +kernel
  have item : rowsHeap.IsSeq 8 .array [4, 0] :=
    ⟨by decide +kernel, rfl, by decide +kernel, by decide +kernel⟩
  obtain ⟨c, h', run, found⟩ := passes_iff.mp runs
  rw [Bool.and_eq_true, passes_iff, passes_iff] at found
  obtain ⟨⟨r, m', same, truth⟩, ⟨r', m'', other, truth'⟩⟩ := found
  exact ⟨tidy_rowsHeap, item, c, create h' 1 0, run, ⟨r, m', same, toOption_eq (beq_iff_eq.mp truth)⟩, r', m'', other,
    toOption_eq (beq_iff_eq.mp truth')⟩

end Machine

end FiberMachine
