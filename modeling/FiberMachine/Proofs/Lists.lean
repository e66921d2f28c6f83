import FiberMachine.Object.LinkedList
import FiberMachine.Proofs.Making

/-!
# Linked lists as lists

The nodes of a linked list are blocks of their own, each linked with the nodes before and after it. The
chain is described by positions: node `i` refers to nodes `i - 1` and `i + 1`, where positions beyond
the ends are unassigned.
-/

namespace FiberMachine

namespace Heap

/-- Item `i`, or the unassigned object beyond the end. -/
def nth (ns : List Nat) (i : Nat) : Nat := ns[i]?.getD unassigned

/-- The item before position `i`, or the unassigned object at the start. -/
def nthBefore (ns : List Nat) (i : Nat) : Nat := if i = 0 then unassigned else nth ns (i - 1)

/-- The linked list at `a`, with its nodes at the addresses `ns`, holds `xs`. -/
structure IsList (h : Heap) (a : Nat) (ns xs : List Nat) : Prop where
  is : h.Is a .list 3
  length : h.ref a LinkedList.lengthField = ns.length
  first : h.ref a LinkedList.firstField = nth ns 0
  last : h.ref a LinkedList.lastField = nthBefore ns ns.length
  same : xs.length = ns.length
  nodup : ns.Nodup
  node : ∀ n ∈ ns, n ≠ unassigned ∧ h.Is n .listNode 3
  value : ∀ i < ns.length, h.ref (nth ns i) LinkedList.valueField = nth xs i
  before : ∀ i < ns.length, h.ref (nth ns i) LinkedList.beforeField = nthBefore ns i
  after : ∀ i < ns.length, h.ref (nth ns i) LinkedList.afterField = nth ns (i + 1)

variable {h h' : Heap} {a b c i j k m n x v : Nat} {t u : Tag} {ns xs : List Nat}

/-! ### Positions -/

theorem nth_of_lt (hi : i < ns.length) : nth ns i = ns[i] := by
  rw [nth, List.getElem?_eq_getElem hi, Option.getD_some]

theorem nth_of_le (hi : ns.length ≤ i) : nth ns i = unassigned := by
  rw [nth, List.getElem?_eq_none hi, Option.getD_none]

theorem nth_mem (hi : i < ns.length) : nth ns i ∈ ns := by
  rw [nth_of_lt hi]
  exact List.getElem_mem hi

theorem nth_inj (nodup : ns.Nodup) (hi : i < ns.length) (hj : j < ns.length) : nth ns i = nth ns j ↔ i = j := by
  rw [nth_of_lt hi, nth_of_lt hj, nodup.getElem_inj_iff]

theorem nth_eraseIdx : nth (ns.eraseIdx k) i = if i < k then nth ns i else nth ns (i + 1) := by
  unfold nth
  rw [List.getElem?_eraseIdx]
  split <;> rfl

theorem nth_append : nth (ns ++ [x]) i = if i < ns.length then nth ns i else if i = ns.length then x else unassigned := by
  unfold nth
  rw [List.getElem?_append]
  split
  · rfl
  · by_cases e : i = ns.length
    · rw [if_pos e, e, Nat.sub_self]
      rfl
    · rw [if_neg e, List.getElem?_eq_none (by simp; omega)]
      rfl

/-- What writing a field leaves of all blocks. -/
theorem Tidy.writeLink (tidy : h.Tidy) (b : h.Is a t n) {π : List Nat} (layout : t.layout = .fields π)
    (hi : i < n) (small : v < 2 ^ 64) (good : i ∈ π → h.Allocated v) (free : t.fixes i = false := by rfl) :
    ∃ h', Heap.writeNat a i v h = .ok () h' ∧ Evolves h h.Allocated h' (· = a) [] ∧
      ∀ c u m, h.Is c u m → h'.Is c u m ∧ ∀ j < m, h'.ref c j = if c = a ∧ j = i then v else h.ref c j := by
  obtain ⟨h', run, e, is, refs⟩ := tidy.writeNat b layout hi small good free
  refine ⟨h', run, e, fun c u m hc => ⟨e.is hc.allocated hc, fun j hj => ?_⟩⟩
  by_cases eq : c = a
  · subst eq
    rw [refs]
    simp only [true_and]
  · rw [if_neg fun both => eq both.1]
    exact (e.kept c hc.allocated eq).ref (Nat.lt_of_lt_of_le hj hc.room)

namespace IsList

theorem is_nth (s : h.IsList a ns xs) (hi : i < ns.length) : h.Is (nth ns i) .listNode 3 := (s.node _ (nth_mem hi)).2

theorem nth_ne (s : h.IsList a ns xs) (hi : i < ns.length) : nth ns i ≠ unassigned := (s.node _ (nth_mem hi)).1

theorem nth_eq_unassigned (s : h.IsList a ns xs) : nth ns i = unassigned ↔ ns.length ≤ i := by
  constructor
  · intro e
    by_contra lt
    exact s.nth_ne (Nat.lt_of_not_le lt) e
  · exact nth_of_le

theorem not_mem (s : h.IsList a ns xs) : a ∉ ns := fun ha =>
  absurd (s.is.tag.symm.trans (s.node a ha).2.tag) (by decide)

theorem child_first (s : h.IsList a ns xs) (tidy : h.Tidy) : h.Child a (nth ns 0) := by
  rw [← s.first]
  exact tidy.child_field s.is (π := [1, 2]) rfl (by decide)

theorem child_after (s : h.IsList a ns xs) (tidy : h.Tidy) (hi : i < ns.length) : h.Child (nth ns i) (nth ns (i + 1)) := by
  rw [← s.after i hi]
  exact tidy.child_field (s.is_nth hi) (π := [0, 1, 2]) rfl (by decide)

theorem child_value (s : h.IsList a ns xs) (tidy : h.Tidy) (hi : i < ns.length) : h.Child (nth ns i) (nth xs i) := by
  rw [← s.value i hi]
  exact tidy.child_field (s.is_nth hi) (π := [0, 1, 2]) rfl (by decide)

/-- A surviving list survives with its nodes. -/
theorem survives {L : Nat → Prop} (s : h.IsList a ns xs) (tidy : h.Tidy) (sv : h.Survives L) (ha : L a) :
    ∀ n ∈ ns, L n := by
  have each (i : Nat) (hi : i < ns.length) : L (nth ns i) := by
    induction i with
    | zero => exact sv.child _ _ ha (s.child_first tidy)
    | succ i ih => exact sv.child _ _ (ih (by omega)) (s.child_after tidy (by omega))
  intro n hn
  obtain ⟨i, hi, rfl⟩ := List.mem_iff_getElem.mp hn
  rw [← nth_of_lt hi]
  exact each i hi

theorem mem_iff (s : h.IsList a ns xs) : x ∈ xs ↔ ∃ i < ns.length, nth xs i = x := by
  rw [List.mem_iff_getElem]
  constructor
  · rintro ⟨i, hi, rfl⟩
    exact ⟨i, s.same ▸ hi, nth_of_lt hi⟩
  · rintro ⟨i, hi, rfl⟩
    have hi := s.same.symm ▸ hi
    exact ⟨i, hi, (nth_of_lt hi).symm⟩

theorem item_allocated (s : h.IsList a ns xs) (tidy : h.Tidy) (hx : x ∈ xs) : h.Allocated x := by
  obtain ⟨i, hi, rfl⟩ := s.mem_iff.mp hx
  exact tidy.consistent.child _ _ (s.is_nth hi).allocated (s.child_value tidy hi)

theorem item_survives {L : Nat → Prop} (s : h.IsList a ns xs) (tidy : h.Tidy) (sv : h.Survives L) (ha : L a)
    (hx : x ∈ xs) : L x := by
  obtain ⟨i, hi, rfl⟩ := s.mem_iff.mp hx
  exact sv.child _ _ (s.survives tidy sv ha _ (nth_mem hi)) (s.child_value tidy hi)

/-- There are fewer nodes than words. -/
theorem length_le (s : h.IsList a ns xs) (tidy : h.Tidy) : ns.length ≤ h.capacity := by
  have part : ns ⊆ List.range h.capacity := fun n hn =>
    List.mem_range.mpr (tidy.sound.lt_capacity (s.node n hn).2.allocated)
  have := (s.nodup.subperm part).length_le
  rwa [List.length_range] at this

theorem kept (s : h.IsList a ns xs) (k : Kept h h' a) (each : ∀ n ∈ ns, Kept h h' n) : h'.IsList a ns xs := by
  have header (i : Nat) (hi : i < 3) : h'.ref a i = h.ref a i := k.ref (Nat.lt_of_lt_of_le hi s.is.room)
  have inner (i : Nat) (hi : i < ns.length) (j : Nat) (hj : j < 3) : h'.ref (nth ns i) j = h.ref (nth ns i) j :=
    (each _ (nth_mem hi)).ref (Nat.lt_of_lt_of_le hj (s.is_nth hi).room)
  exact {
    is := k.is s.is
    length := (header _ (by decide)).trans s.length
    first := (header _ (by decide)).trans s.first
    last := (header _ (by decide)).trans s.last
    same := s.same
    nodup := s.nodup
    node := fun n hn => ⟨(s.node n hn).1, (each n hn).is (s.node n hn).2⟩
    value := fun i hi => (inner i hi _ (by decide)).trans (s.value i hi)
    before := fun i hi => (inner i hi _ (by decide)).trans (s.before i hi)
    after := fun i hi => (inner i hi _ (by decide)).trans (s.after i hi) }

/-! ### Reading -/

theorem length_eq (s : h.IsList a ns xs) (tidy : h.Tidy) : LinkedList.length a h = .ok ns.length := by
  rw [LinkedList.length, tidy.sound.readNat_eq s.is (by decide), s.length]

theorem first_eq (s : h.IsList a ns xs) (tidy : h.Tidy) : LinkedList.first a h = .ok (nth ns 0) := by
  rw [LinkedList.first, tidy.sound.readNat_eq s.is (by decide), s.first]

theorem last_eq (s : h.IsList a ns xs) (tidy : h.Tidy) : LinkedList.last a h = .ok (nthBefore ns ns.length) := by
  rw [LinkedList.last, tidy.sound.readNat_eq s.is (by decide), s.last]

theorem value_eq (s : h.IsList a ns xs) (tidy : h.Tidy) (hi : i < ns.length) :
    LinkedList.value (nth ns i) h = .ok (nth xs i) := by
  rw [LinkedList.value, tidy.sound.readNat_eq (s.is_nth hi) (by decide), s.value i hi]

theorem before_eq (s : h.IsList a ns xs) (tidy : h.Tidy) (hi : i < ns.length) :
    LinkedList.before (nth ns i) h = .ok (nthBefore ns i) := by
  rw [LinkedList.before, tidy.sound.readNat_eq (s.is_nth hi) (by decide), s.before i hi]

theorem after_eq (s : h.IsList a ns xs) (tidy : h.Tidy) (hi : i < ns.length) :
    LinkedList.after (nth ns i) h = .ok (nth ns (i + 1)) := by
  rw [LinkedList.after, tidy.sound.readNat_eq (s.is_nth hi) (by decide), s.after i hi]

theorem valuesFrom_eq (s : h.IsList a ns xs) (tidy : h.Tidy) (hi : i ≤ ns.length) (fuel : ns.length < i + m) :
    LinkedList.valuesFrom (nth ns i) m h = .ok (xs.drop i) := by
  induction m generalizing i with
  | zero => omega
  | succ m ih =>
    by_cases inside : i < ns.length
    · have inside' : i < xs.length := s.same.symm ▸ inside
      rw [List.drop_eq_getElem_cons inside', ← nth_of_lt inside']
      simp only [LinkedList.valuesFrom, HeapReader.run_bind, s.nth_ne inside, if_false, s.value_eq tidy inside,
        s.after_eq tidy inside, ih (show i + 1 ≤ ns.length by omega) (by omega), HeapReader.run_pure]
    · rw [List.drop_of_length_le (by rw [s.same]; omega)]
      simp only [LinkedList.valuesFrom, nth_of_le (Nat.le_of_not_lt inside), if_true, HeapReader.run_pure]

theorem values_eq (s : h.IsList a ns xs) (tidy : h.Tidy) : LinkedList.values a h = .ok xs := by
  have le := s.length_le tidy
  have small : h.capacity ≤ 268435456 := tidy.sound.wellFormed.capacity_le
  have listable : ns.length * 8 < hostLimit := by
    unfold hostLimit
    omega
  have read := s.valuesFrom_eq tidy (i := 0) (m := h.capacity + 1) (Nat.zero_le _) (by omega)
  rw [List.drop_zero] at read
  simp only [LinkedList.values, HeapReader.run_bind, s.length_eq tidy, expectListable, expectRoom, listable, if_true,
    HeapReader.run_pure, s.first_eq tidy, HeapReader.run_itself, read]

/-- The search for a value stops at the first one that satisfies the predicate. -/
theorem findFrom_eq (s : h.IsList a ns xs) (tidy : h.Tidy) {p : Addr → HeapReader Bool} {f : Nat → Bool}
    (test : ∀ x ∈ xs, p x h = .ok (f x)) (hi : i ≤ ns.length) (fuel : ns.length < i + m) :
    LinkedList.findFrom p (nth ns i) m h = .ok (((xs.drop i).findIdx? f).map fun j => nth ns (i + j)) := by
  induction m generalizing i with
  | zero => omega
  | succ m ih =>
    by_cases inside : i < ns.length
    · have inside' : i < xs.length := s.same.symm ▸ inside
      have tested := test xs[i] (List.getElem_mem inside')
      rw [← nth_of_lt inside'] at tested
      rw [List.drop_eq_getElem_cons inside', List.findIdx?_cons, ← nth_of_lt inside']
      cases hf : f (nth xs i) with
      | true =>
        simp only [LinkedList.findFrom, HeapReader.run_bind, s.nth_ne inside, if_false, s.value_eq tidy inside, tested,
          hf, if_true, HeapReader.run_pure, Option.map_some, Nat.add_zero]
      | false =>
        simp only [LinkedList.findFrom, HeapReader.run_bind, s.nth_ne inside, if_false, s.value_eq tidy inside, tested,
          hf, Bool.false_eq_true, s.after_eq tidy inside,
          ih (show i + 1 ≤ ns.length by omega) (by omega), Option.map_map]
        congr 2
        funext j
        simp only [Function.comp_apply, Nat.add_assoc, Nat.add_comm 1 j]
    · rw [List.drop_of_length_le (by rw [s.same]; omega)]
      simp only [LinkedList.findFrom, nth_of_le (Nat.le_of_not_lt inside), if_true, HeapReader.run_pure,
        List.findIdx?_nil, Option.map_none]

theorem find_eq (s : h.IsList a ns xs) (tidy : h.Tidy) {p : Addr → HeapReader Bool} {f : Nat → Bool}
    (test : ∀ x ∈ xs, p x h = .ok (f x)) :
    LinkedList.find? a p h = .ok ((xs.findIdx? f).map (nth ns)) := by
  have le := s.length_le tidy
  have found := s.findFrom_eq tidy test (i := 0) (m := h.capacity + 1) (Nat.zero_le _) (by omega)
  simp only [List.drop_zero, Nat.zero_add] at found
  simp only [LinkedList.find?, HeapReader.run_bind, s.first_eq tidy, HeapReader.run_itself, found]

end IsList

/-! ### Writing links -/

/-- A list block and its nodes, whatever their links. -/
structure ListBlocks (h : Heap) (a : Nat) (ns : List Nat) : Prop where
  is : h.Is a .list 3
  nodup : ns.Nodup
  node : ∀ n ∈ ns, n ≠ unassigned ∧ h.Is n .listNode 3

/-- The fields of a list block and of its nodes after one of them was replaced. -/
structure Relinked (h h' : Heap) (a : Nat) (ns : List Nat) (header : Nat → Nat) (inner : Nat → Nat → Nat) : Prop where
  evolves : Evolves h h.Allocated h' (fun b => b = a ∨ b ∈ ns) []
  blocks : h'.ListBlocks a ns
  header : ∀ j < 3, h'.ref a j = header j
  inner : ∀ i < ns.length, ∀ j < 3, h'.ref (nth ns i) j = inner i j

theorem IsList.blocks (s : h.IsList a ns xs) : h.ListBlocks a ns := ⟨s.is, s.nodup, s.node⟩

namespace ListBlocks

theorem is_nth (s : h.ListBlocks a ns) (hi : i < ns.length) : h.Is (nth ns i) .listNode 3 := (s.node _ (nth_mem hi)).2

theorem nth_ne (s : h.ListBlocks a ns) (hi : i < ns.length) : nth ns i ≠ a := fun e =>
  absurd (s.is.tag.symm.trans (e ▸ (s.is_nth hi).tag)) (by decide)

theorem evolve {P : Nat → Prop} {N : List Nat} (s : h.ListBlocks a ns) (e : Evolves h h.Allocated h' P N) :
    h'.ListBlocks a ns :=
  ⟨e.is s.is.allocated s.is, s.nodup, fun n hn => ⟨(s.node n hn).1, e.is (s.node n hn).2.allocated (s.node n hn).2⟩⟩

theorem writeHeader (s : h.ListBlocks a ns) (tidy : h.Tidy) (hi : i < 3) (small : v < 2 ^ 64)
    (good : i ≠ 0 → h.Allocated v) :
    ∃ h', Heap.writeNat a i v h = .ok () h' ∧
      Relinked h h' a ns (fun j => if j = i then v else h.ref a j) fun m j => h.ref (nth ns m) j := by
  obtain ⟨h', run, e, links⟩ := tidy.writeLink s.is (π := [1, 2]) rfl hi small fun hp => good (by
    rintro rfl
    exact absurd hp (by decide))
  refine ⟨h', run, e.weaken (fun _ hb => hb) (fun _ _ hb => .inl hb) fun _ hb => hb, s.evolve e, fun j hj => ?_,
    fun m hm j hj => ?_⟩
  · rw [(links a _ _ s.is).2 j hj]
    simp only [true_and]
  · rw [(links _ _ _ (s.is_nth hm)).2 j hj, if_neg fun both => s.nth_ne hm both.1]

theorem writeNode (s : h.ListBlocks a ns) (tidy : h.Tidy) (hk : k < ns.length) (hi : i < 3) (good : h.Allocated v) :
    ∃ h', Heap.writeNat (nth ns k) i v h = .ok () h' ∧
      Relinked h h' a ns (h.ref a) fun m j => if m = k ∧ j = i then v else h.ref (nth ns m) j := by
  obtain ⟨h', run, e, links⟩ := tidy.writeLink (s.is_nth hk) (π := [0, 1, 2]) rfl hi (tidy.sound.small good)
    fun _ => good
  refine ⟨h', run, e.weaken (fun _ hb => hb) (fun b _ hb => .inr (hb ▸ nth_mem hk)) fun _ hb => hb, s.evolve e,
    fun j hj => ?_, fun m hm j hj => ?_⟩
  · rw [(links a _ _ s.is).2 j hj, if_neg fun both => s.nth_ne hk both.1.symm]
  · rw [(links _ _ _ (s.is_nth hm)).2 j hj]
    simp only [nth_inj s.nodup hm hk]

end ListBlocks

namespace IsList

theorem nthBefore_allocated (s : h.IsList a ns xs) (tidy : h.Tidy) (hk : k ≤ ns.length) : h.Allocated (nthBefore ns k) := by
  unfold nthBefore
  split
  · exact tidy.sound.sentinel
  · exact (s.is_nth (by omega)).allocated

theorem nth_allocated (s : h.IsList a ns xs) (tidy : h.Tidy) : h.Allocated (nth ns k) := by
  by_cases hk : k < ns.length
  · exact (s.is_nth hk).allocated
  · rw [nth_of_le (Nat.le_of_not_lt hk)]
    exact tidy.sound.sentinel

theorem nthBefore_eq_unassigned (s : h.IsList a ns xs) (hk : k ≤ ns.length) : nthBefore ns k = unassigned ↔ k = 0 := by
  unfold nthBefore
  split
  next e => simp only [e]
  next e =>
    rw [s.nth_eq_unassigned]
    omega

/-- Taking a node out of the chain takes its value out of the list. -/
theorem unlink (s : h.IsList a ns xs) (tidy : h.Tidy) (hk : k < ns.length) :
    ∃ h', LinkedList.unlink a (nth ns k) h = .ok () h' ∧
      Evolves h h.Allocated h' (fun b => b = a ∨ b ∈ ns) [] ∧ h'.IsList a (ns.eraseIdx k) (xs.eraseIdx k) := by
  have small : ns.length ≤ 268435456 := (s.length_le tidy).trans tidy.sound.wellFormed.capacity_le
  have after := s.nth_allocated tidy (k := k + 1)
  have before := s.nthBefore_allocated tidy (Nat.le_of_lt hk)
  obtain ⟨h₁, run₁, r₁⟩ : ∃ h₁, (if nthBefore ns k = unassigned then
        writeNat a LinkedList.firstField (nth ns (k + 1))
      else writeNat (nthBefore ns k) LinkedList.afterField (nth ns (k + 1)) : HeapM Unit) h = .ok () h₁ ∧
      Relinked h h₁ a ns (fun j => if k = 0 ∧ j = 1 then nth ns (k + 1) else h.ref a j)
        fun m j => if m + 1 = k ∧ j = 2 then nth ns (k + 1) else h.ref (nth ns m) j := by
    by_cases e : k = 0
    · rw [if_pos ((s.nthBefore_eq_unassigned (Nat.le_of_lt hk)).mpr e)]
      obtain ⟨h₁, run, r⟩ := s.blocks.writeHeader tidy (i := 1) (by decide) (tidy.sound.small after) fun _ => after
      refine ⟨h₁, run, r.evolves, r.blocks, fun j hj => ?_, fun m hm j hj => ?_⟩
      · rw [r.header j hj]
        simp only [e, true_and]
      · rw [r.inner m hm j hj, if_neg (by omega)]
    · rw [if_neg fun eq => e ((s.nthBefore_eq_unassigned (Nat.le_of_lt hk)).mp eq), nthBefore, if_neg e]
      obtain ⟨h₁, run, r⟩ := s.blocks.writeNode tidy (k := k - 1) (i := 2) (by omega) (by decide) after
      refine ⟨h₁, run, r.evolves, r.blocks, fun j hj => ?_, fun m hm j hj => ?_⟩
      · rw [r.header j hj, if_neg fun both => e both.1]
      · rw [r.inner m hm j hj]
        simp only [show m = k - 1 ↔ m + 1 = k by omega]
  obtain ⟨h₂, run₂, r₂⟩ : ∃ h₂, (if nth ns (k + 1) = unassigned then
        writeNat a LinkedList.lastField (nthBefore ns k)
      else writeNat (nth ns (k + 1)) LinkedList.beforeField (nthBefore ns k) : HeapM Unit) h₁ = .ok () h₂ ∧
      Relinked h₁ h₂ a ns (fun j => if k + 1 = ns.length ∧ j = 2 then nthBefore ns k else h₁.ref a j)
        fun m j => if m = k + 1 ∧ j = 1 then nthBefore ns k else h₁.ref (nth ns m) j := by
    have before := (r₁.evolves.stays _ before).1
    have tidy := r₁.evolves.tidy
    by_cases e : k + 1 = ns.length
    · rw [if_pos (nth_of_le (Nat.le_of_eq e.symm))]
      obtain ⟨h₂, run, r⟩ := r₁.blocks.writeHeader tidy (i := 2) (by decide) (tidy.sound.small before) fun _ => before
      refine ⟨h₂, run, r.evolves, r.blocks, fun j hj => ?_, fun m hm j hj => ?_⟩
      · rw [r.header j hj]
        simp only [e, true_and]
      · rw [r.inner m hm j hj, if_neg (by omega)]
    · rw [if_neg fun eq => absurd (s.nth_eq_unassigned.mp eq) (by omega)]
      obtain ⟨h₂, run, r⟩ := r₁.blocks.writeNode tidy (k := k + 1) (i := 1) (by omega) (by decide) before
      refine ⟨h₂, run, r.evolves, r.blocks, fun j hj => ?_, fun m hm j hj => ?_⟩
      · rw [r.header j hj, if_neg fun both => e both.1]
      · rw [r.inner m hm j hj]
  have tidy₂ := r₂.evolves.tidy
  have count : h₂.ref a 0 = ns.length := by
    rw [r₂.header 0 (by decide), if_neg (by simp), r₁.header 0 (by decide), if_neg (by simp)]
    exact s.length
  have length_eq : LinkedList.length a h₂ = .ok ns.length := by
    rw [LinkedList.length, tidy₂.sound.readNat_eq r₂.blocks.is (by decide)]
    exact congrArg Except.ok count
  have difference : difference ns.length 1 h₂ = .ok (ns.length - 1) := by
    have : 1 ≤ ns.length := by omega
    simp only [Heap.difference, this, if_true, HeapReader.run_pure]
  obtain ⟨h₃, run₃, r₃⟩ := r₂.blocks.writeHeader tidy₂ (i := 0) (by decide) (v := ns.length - 1) (by omega)
    fun no => absurd rfl no
  have length : (ns.eraseIdx k).length = ns.length - 1 := List.length_eraseIdx_of_lt hk
  have header (j : Nat) (hj : j < 3) : h₃.ref a j = if j = 0 then ns.length - 1
      else if k + 1 = ns.length ∧ j = 2 then nthBefore ns k
      else if k = 0 ∧ j = 1 then nth ns (k + 1) else h.ref a j := by
    rw [r₃.header j hj, r₂.header j hj, r₁.header j hj]
  have inner (m : Nat) (hm : m < ns.length) (j : Nat) (hj : j < 3) : h₃.ref (nth ns m) j =
      if m = k + 1 ∧ j = 1 then nthBefore ns k
      else if m + 1 = k ∧ j = 2 then nth ns (k + 1) else h.ref (nth ns m) j := by
    rw [r₃.inner m hm j hj, r₂.inner m hm j hj, r₁.inner m hm j hj]
  have place (i : Nat) (hi : i < (ns.eraseIdx k).length) :
      ∃ m, m < ns.length ∧ nth (ns.eraseIdx k) i = nth ns m ∧ m = if i < k then i else i + 1 := by
    refine ⟨if i < k then i else i + 1, ?_, ?_, rfl⟩
    · split <;> omega
    · rw [nth_eraseIdx]
      split <;> rfl
  refine ⟨h₃, ?_, ((r₁.evolves.mutate r₂.evolves).mutate r₃.evolves).weaken (fun _ hb => hb)
    (fun b _ hb => hb.elim (fun hb => hb.elim id id) id) fun _ hb => hb, {
      is := r₃.blocks.is
      length := ?_
      first := ?_
      last := ?_
      same := ?_
      nodup := s.nodup.eraseIdx k
      node := fun n hn => r₃.blocks.node n (List.mem_of_mem_eraseIdx hn)
      value := fun i hi => ?_
      before := fun i hi => ?_
      after := fun i hi => ?_ }⟩
  · by_cases e₁ : nthBefore ns k = unassigned <;> by_cases e₂ : nth ns (k + 1) = unassigned
    all_goals
      simp only [e₁, e₂, if_true, if_false] at run₁ run₂
      simp only [LinkedList.unlink, HeapM.run_bind, HeapM.run_lift, s.before_eq tidy hk, s.after_eq tidy hk, e₁, e₂,
        if_true, if_false, run₁, run₂, length_eq, difference]
      exact run₃
  · rw [LinkedList.lengthField, header 0 (by decide), if_pos rfl, length]
  · rw [LinkedList.firstField, header 1 (by decide), if_neg (by decide), if_neg (by simp), nth_eraseIdx]
    by_cases e : k = 0
    · rw [if_pos ⟨e, rfl⟩, if_neg (by omega), e]
    · rw [if_neg fun both => e both.1, if_pos (by omega)]
      exact s.first
  · rw [LinkedList.lastField, header 2 (by decide), if_neg (by decide), length]
    by_cases e : k + 1 = ns.length
    · rw [if_pos ⟨e, rfl⟩, show ns.length - 1 = k by omega, nthBefore, nthBefore]
      split
      · rfl
      · rw [nth_eraseIdx, if_pos (by omega)]
    · rw [if_neg fun both => e both.1, if_neg (by simp), show h.ref a 2 = nthBefore ns ns.length from s.last, nthBefore,
        nthBefore, if_neg (by omega), if_neg (by omega), nth_eraseIdx, if_neg (by omega)]
      congr 1
      omega
  · rw [length, List.length_eraseIdx_of_lt (by rw [s.same]; exact hk), s.same]
  · obtain ⟨m, hm, at_, rfl⟩ := place i hi
    rw [at_, LinkedList.valueField, inner _ hm 0 (by decide), if_neg (by simp), if_neg (by simp), nth_eraseIdx]
    refine (s.value _ hm).trans ?_
    split <;> rfl
  · obtain ⟨m, hm, at_, em⟩ := place i hi
    rw [at_, LinkedList.beforeField, inner _ hm 1 (by decide)]
    by_cases e : m = k + 1
    · rw [if_pos ⟨e, rfl⟩]
      have : i = k := by
        split at em <;> omega
      subst this
      rw [nthBefore, nthBefore]
      split
      · rfl
      · rw [nth_eraseIdx, if_pos (by omega)]
    · rw [if_neg fun both => e both.1, if_neg (by simp)]
      refine (s.before _ hm).trans ?_
      rw [nthBefore, nthBefore]
      by_cases lt : i < k
      · rw [if_pos lt] at em
        subst em
        split
        · rfl
        · rw [nth_eraseIdx, if_pos (by omega)]
      · rw [if_neg lt] at em
        rw [if_neg (by omega), if_neg (by omega), nth_eraseIdx, if_neg (by omega)]
        congr 1
        omega
  · obtain ⟨m, hm, at_, em⟩ := place i hi
    rw [at_, LinkedList.afterField, inner _ hm 2 (by decide), if_neg (by simp), nth_eraseIdx]
    by_cases e : m + 1 = k
    · rw [if_pos ⟨e, rfl⟩, if_neg (by split at em <;> omega)]
      congr 1
      split at em <;> omega
    · rw [if_neg fun both => e both.1]
      refine (s.after _ hm).trans ?_
      by_cases lt : i < k
      · rw [if_pos lt] at em
        rw [if_pos (by omega), em]
      · rw [if_neg lt] at em
        rw [if_neg (by omega), em]

/-- Nothing happens if no value satisfies a predicate. -/
theorem takeFirst_none (s : h.IsList a ns xs) (tidy : h.Tidy) {p : Addr → HeapReader Bool} (test : ∀ x ∈ xs, p x h = .ok false) :
    LinkedList.takeFirst a p h = .ok none h := by
  have find := s.find_eq tidy test
  rw [List.findIdx?_eq_none_iff.mpr fun _ _ => rfl] at find
  simp only [LinkedList.takeFirst, HeapM.run_bind, HeapM.run_lift, find, Option.map_none, HeapM.run_pure]

/-- The first value that satisfies a predicate is taken out. -/
theorem takeFirst (s : h.IsList a ns xs) (tidy : h.Tidy) {p : Addr → HeapReader Bool} {f : Nat → Bool}
    (test : ∀ x ∈ xs, p x h = .ok (f x)) :
    ∃ h' ns', LinkedList.takeFirst a p h = .ok (xs.find? f) h' ∧
      Evolves h h.Allocated h' (fun b => b = a ∨ b ∈ ns) [] ∧ h'.IsList a ns' (xs.eraseP f) ∧ ∀ n ∈ ns', n ∈ ns := by
  have find := s.find_eq tidy test
  cases found : xs.findIdx? f with
  | none =>
    rw [found] at find
    have all := List.findIdx?_eq_none_iff.mp found
    have none : xs.find? f = none := List.find?_eq_none.mpr fun x hx => by simp [all x hx]
    refine ⟨h, ns, ?_, (Evolves.refl tidy (.all tidy)).weaken (fun _ hb => hb) (fun _ _ no => no.elim) fun _ hb => hb, ?_,
      fun _ hn => hn⟩
    · exact none ▸ s.takeFirst_none tidy fun x hx => (test x hx).trans (congrArg _ (all x hx))
    · rw [List.eraseP_of_forall_not fun x hx => by simp [all x hx]]
      exact s
  | some k =>
    rw [found] at find
    obtain ⟨hk, fk, earlier⟩ := List.findIdx?_eq_some_iff_getElem.mp found
    have hk' : k < ns.length := s.same ▸ hk
    have first : xs.find? f = some (nth xs k) :=
      List.find?_eq_some_iff_getElem.mpr ⟨by rwa [nth_of_lt hk], k, hk, (nth_of_lt hk).symm, fun j hj => by
        simpa using earlier j hj⟩
    obtain ⟨h', run, e, s'⟩ := s.unlink tidy hk'
    refine ⟨h', ns.eraseIdx k, ?_, e, ?_, fun n hn => List.mem_of_mem_eraseIdx hn⟩
    · simp only [LinkedList.takeFirst, HeapM.run_bind, HeapM.run_lift, find, Option.map_some, s.value_eq tidy hk', run,
        HeapM.run_pure, first]
    · rwa [List.eraseP_eq_eraseIdx, found]

theorem remove (s : h.IsList a ns xs) (tidy : h.Tidy) :
    ∃ h' ns', LinkedList.remove a x h = .ok (decide (x ∈ xs)) h' ∧
      Evolves h h.Allocated h' (fun b => b = a ∨ b ∈ ns) [] ∧ h'.IsList a ns' (xs.erase x) ∧ ∀ n ∈ ns', n ∈ ns := by
  obtain ⟨h', ns', run, e, s', sub⟩ := s.takeFirst tidy (p := fun found => pure (found == x)) (f := (· == x))
    fun _ _ => rfl
  have found : (xs.find? (· == x)).isSome = decide (x ∈ xs) := by
    rw [Bool.eq_iff_iff, List.find?_isSome, decide_eq_true_iff]
    simp
  refine ⟨h', ns', ?_, e, ?_, sub⟩
  · simp only [LinkedList.remove, HeapM.run_bind, run, HeapM.run_pure, found]
  · rwa [List.erase_eq_eraseP']

/-- The first value is taken. -/
theorem popFront (s : h.IsList a ns xs) (tidy : h.Tidy) :
    ∃ h' ns', LinkedList.popFront a h = .ok xs.head? h' ∧
      Evolves h h.Allocated h' (fun b => b = a ∨ b ∈ ns) [] ∧ h'.IsList a ns' xs.tail ∧ ∀ n ∈ ns', n ∈ ns := by
  have first := s.first_eq tidy
  by_cases none : ns.length = 0
  · obtain rfl : xs = [] := List.eq_nil_of_length_eq_zero (s.same.trans none)
    rw [nth_of_le (by omega)] at first
    refine ⟨h, ns, ?_, (Evolves.refl tidy (.all tidy)).weaken (fun _ hb => hb) (fun _ _ no => no.elim) fun _ hb => hb, s, fun _ hn => hn⟩
    simp only [LinkedList.popFront, HeapM.run_bind, HeapM.run_lift, first, if_true, HeapM.run_pure, List.head?_nil]
  · have some : 0 < ns.length := Nat.pos_of_ne_zero none
    obtain ⟨h', run, e, s'⟩ := s.unlink tidy some
    have head : xs.head? = .some (nth xs 0) := by
      rw [nth_of_lt (s.same ▸ some), List.head?_eq_getElem?, List.getElem?_eq_getElem]
    refine ⟨h', ns.eraseIdx 0, ?_, e, List.eraseIdx_zero ▸ s', fun n hn => List.mem_of_mem_eraseIdx hn⟩
    simp only [LinkedList.popFront, HeapM.run_bind, HeapM.run_lift, first, s.nth_ne some, if_false, s.value_eq tidy some, run,
      HeapM.run_pure, head]

theorem clear (s : h.IsList a ns xs) (tidy : h.Tidy) :
    ∃ h', LinkedList.clear a h = .ok () h' ∧ Evolves h h.Allocated h' (fun b => b = a ∨ b ∈ ns) [] ∧ h'.IsList a [] [] := by
  obtain ⟨h₁, run₁, r₁⟩ := s.blocks.writeHeader tidy (i := LinkedList.lengthField) (v := 0) (by decide) (by decide) fun no => absurd rfl no
  obtain ⟨h₂, run₂, r₂⟩ := r₁.blocks.writeHeader r₁.evolves.tidy (i := LinkedList.firstField) (v := unassigned) (by decide) (by decide)
    fun _ => r₁.evolves.tidy.sound.sentinel
  obtain ⟨h₃, run₃, r₃⟩ := r₂.blocks.writeHeader r₂.evolves.tidy (i := LinkedList.lastField) (v := unassigned) (by decide) (by decide)
    fun _ => r₂.evolves.tidy.sound.sentinel
  refine ⟨h₃, ?_, ((r₁.evolves.mutate r₂.evolves).mutate r₃.evolves).weaken (fun _ hb => hb)
    (fun b _ hb => hb.elim (fun hb => hb.elim id id) id) fun _ hb => hb, {
      is := r₃.blocks.is
      length := ?_
      first := ?_
      last := ?_
      same := rfl
      nodup := List.nodup_nil
      node := fun n hn => absurd hn List.not_mem_nil
      value := fun i hi => absurd hi (Nat.not_lt_zero i)
      before := fun i hi => absurd hi (Nat.not_lt_zero i)
      after := fun i hi => absurd hi (Nat.not_lt_zero i) }⟩
  · simp only [LinkedList.clear, HeapM.run_bind, run₁, run₂, run₃]
  · rw [r₃.header _ (by decide), if_neg (by decide), r₂.header _ (by decide), if_neg (by decide), r₁.header _ (by decide),
      if_pos rfl, List.length_nil]
  · rw [r₃.header _ (by decide), if_neg (by decide), r₂.header _ (by decide), if_pos rfl]
    rfl
  · rw [r₃.header _ (by decide), if_pos rfl]
    rfl

/-- A new list is empty. -/
theorem of_fresh {L : Nat → Prop} (f : Fresh h L h' a .list 3 fun _ => 0) : h'.IsList a [] [] := by
  have zero (i : Nat) (hi : i < 3) : h'.ref a i = 0 := by
    rw [ref, f.cells i hi]
    rfl
  exact {
    is := f.is
    length := zero _ (by decide)
    first := zero _ (by decide)
    last := zero _ (by decide)
    same := rfl
    nodup := List.nodup_nil
    node := fun n hn => absurd hn List.not_mem_nil
    value := fun i hi => absurd hi (Nat.not_lt_zero i)
    before := fun i hi => absurd hi (Nat.not_lt_zero i)
    after := fun i hi => absurd hi (Nat.not_lt_zero i) }

/-- A value is added at the end, in a new node. -/
theorem pushBack_spec (s : h.IsList a ns xs) (tidy : h.Tidy) (hx : h.Allocated x) :
    Starved (LinkedList.pushBack a x) h [a, x] ∨ ∃ h' m, LinkedList.pushBack a x h = .ok () h' ∧
      Evolves h (h.Live [a, x]) h' (fun b => b = a ∨ b ∈ ns) [m] ∧ h'.IsList a (ns ++ [m]) (xs ++ [x]) := by
  have good : ∀ r ∈ [a, x], h.Allocated r := by simp [s.is.allocated, hx]
  rcases tidy.allocateRooted_spec good (t := .listNode) (n := 3) (Tag.fits_fields rfl (by decide)) with
    full | ⟨m, h₁, run₁, f⟩
  · exact .inl (full.bind _)
  right
  have sv := Survives.live tidy good
  have la : h.Live [a, x] a := .extra (by simp)
  have lx : h.Live [a, x] x := .extra (by simp)
  have ln := s.survives tidy sv la
  have tidy₁ := f.evolves.tidy
  have s₁ : h₁.IsList a ns xs := s.kept (f.evolves.kept a la id) fun n hn => f.evolves.kept n (ln n hn) id
  have new : m ∉ ns := fun hm => f.new (ln m hm)
  have ne : m ≠ unassigned := by
    rintro rfl
    exact f.new (.root (by simp [roots]))
  have blocks : h₁.ListBlocks a (ns ++ [m]) := by
    refine ⟨s₁.is, ?_, fun n hn => ?_⟩
    · exact List.Nodup.append s.nodup (List.nodup_singleton m) (by simpa using new)
    · rcases List.mem_append.mp hn with hn | hn
      · exact s₁.node n hn
      · rw [List.mem_singleton.mp hn]
        exact ⟨ne, f.is⟩
  have at_last : nth (ns ++ [m]) ns.length = m := by rw [nth_append, if_neg (by omega), if_pos rfl]
  have inside (i : Nat) (hi : i < ns.length) : nth (ns ++ [m]) i = nth ns i := by rw [nth_append, if_pos hi]
  have small : ns.length < 268435456 := by
    have := s₁.length_le tidy₁
    have part : ns.length < (ns ++ [m]).length := by simp
    have le : (ns ++ [m]).length ≤ h₁.capacity := by
      have sub : ns ++ [m] ⊆ List.range h₁.capacity := fun n hn =>
        List.mem_range.mpr (tidy₁.sound.lt_capacity (blocks.node n hn).2.allocated)
      have := (blocks.nodup.subperm sub).length_le
      rwa [List.length_range] at this
    have cap : h₁.capacity ≤ 268435456 := tidy₁.sound.wellFormed.capacity_le
    omega
  have last := s₁.nthBefore_allocated tidy₁ le_rfl
  have hx₁ := (f.evolves.stays x lx).1
  have hk : ns.length < (ns ++ [m]).length := by simp
  obtain ⟨h₂, run₂, r₂⟩ := blocks.writeNode tidy₁ hk (i := LinkedList.valueField) (by decide) hx₁
  have last₂ := (r₂.evolves.stays _ last).1
  obtain ⟨h₃, run₃, r₃⟩ := r₂.blocks.writeNode r₂.evolves.tidy hk (i := LinkedList.beforeField) (by decide) last₂
  rw [at_last] at run₂ run₃
  have tidy₃ := r₃.evolves.tidy
  have hm₃ : h₃.Allocated m := (r₃.blocks.node m (by simp)).2.allocated
  obtain ⟨h₄, run₄, r₄⟩ : ∃ h₄, (if nthBefore ns ns.length = unassigned then writeNat a LinkedList.firstField m
      else writeNat (nthBefore ns ns.length) LinkedList.afterField m : HeapM Unit) h₃ = .ok () h₄ ∧
      Relinked h₃ h₄ a (ns ++ [m]) (fun j => if ns.length = 0 ∧ j = 1 then m else h₃.ref a j)
        fun i j => if i + 1 = ns.length ∧ j = 2 then m else h₃.ref (nth (ns ++ [m]) i) j := by
    by_cases e : ns.length = 0
    · rw [if_pos ((s.nthBefore_eq_unassigned le_rfl).mpr e)]
      obtain ⟨h₄, run, r⟩ := r₃.blocks.writeHeader tidy₃ (i := 1) (by decide) (tidy₃.sound.small hm₃) fun _ => hm₃
      refine ⟨h₄, run, r.evolves, r.blocks, fun j hj => ?_, fun i hi j hj => ?_⟩
      · rw [r.header j hj]
        simp only [e, true_and]
      · rw [r.inner i hi j hj, if_neg (by omega)]
    · rw [if_neg fun eq => e ((s.nthBefore_eq_unassigned le_rfl).mp eq), nthBefore, if_neg e, ← inside _ (by omega)]
      obtain ⟨h₄, run, r⟩ := r₃.blocks.writeNode tidy₃ (k := ns.length - 1) (i := 2) (by simp) (by decide) hm₃
      refine ⟨h₄, run, r.evolves, r.blocks, fun j hj => ?_, fun i hi j hj => ?_⟩
      · rw [r.header j hj, if_neg fun both => e both.1]
      · rw [r.inner i hi j hj]
        simp only [show i = ns.length - 1 ↔ i + 1 = ns.length by omega]
  have hm₄ := (r₄.evolves.stays m hm₃).1
  obtain ⟨h₅, run₅, r₅⟩ := r₄.blocks.writeHeader r₄.evolves.tidy (i := LinkedList.lastField) (by decide)
    (r₄.evolves.tidy.sound.small hm₄) fun _ => hm₄
  have count : h₅.ref a LinkedList.lengthField = ns.length := by
    rw [r₅.header _ (by decide), if_neg (by decide), r₄.header _ (by decide), if_neg (by simp [LinkedList.lengthField]),
      r₃.header _ (by decide), r₂.header _ (by decide)]
    exact s₁.length
  have length_eq : LinkedList.length a h₅ = .ok ns.length := by
    rw [LinkedList.length, r₅.evolves.tidy.sound.readNat_eq r₅.blocks.is (by decide)]
    exact congrArg Except.ok count
  obtain ⟨h₆, run₆, r₆⟩ := r₅.blocks.writeHeader r₅.evolves.tidy (i := LinkedList.lengthField) (by decide)
    (v := ns.length + 1) (by omega) fun no => absurd rfl no
  have header (j : Nat) (hj : j < 3) : h₆.ref a j = if j = 0 then ns.length + 1 else if j = 2 then m
      else if ns.length = 0 ∧ j = 1 then m else h₁.ref a j := by
    rw [r₆.header j hj, r₅.header j hj, r₄.header j hj, r₃.header j hj, r₂.header j hj]
    rfl
  have inner (i : Nat) (hi : i < ns.length + 1) (j : Nat) (hj : j < 3) : h₆.ref (nth (ns ++ [m]) i) j =
      if i + 1 = ns.length ∧ j = 2 then m else if i = ns.length ∧ j = 1 then nthBefore ns ns.length
      else if i = ns.length ∧ j = 0 then x else h₁.ref (nth (ns ++ [m]) i) j := by
    have hi : i < (ns ++ [m]).length := by simpa using hi
    rw [r₆.inner i hi j hj, r₅.inner i hi j hj, r₄.inner i hi j hj, r₃.inner i hi j hj, r₂.inner i hi j hj]
    rfl
  have length : (ns ++ [m]).length = ns.length + 1 := by simp
  refine ⟨h₆, m, ?_, ?_, {
    is := r₆.blocks.is
    length := ?_
    first := ?_
    last := ?_
    same := by simp [s.same]
    nodup := r₆.blocks.nodup
    node := r₆.blocks.node
    value := fun i hi => ?_
    before := fun i hi => ?_
    after := fun i hi => ?_ }⟩
  · by_cases e : nthBefore ns ns.length = unassigned
    all_goals
      simp only [e, if_true, if_false] at run₃ run₄
      simp only [LinkedList.pushBack, HeapM.run_bind, HeapM.run_lift, run₁, s₁.last_eq tidy₁, run₂, run₃, e, if_true,
        if_false, run₄, run₅, length_eq, run₆]
  · refine (((((f.evolves.mutate r₂.evolves).mutate r₃.evolves).mutate r₄.evolves).mutate r₅.evolves).mutate
      r₆.evolves).weaken (fun _ hb => hb) ?_ fun _ hb => hb
    have part (b : Nat) (hb : h.Live [a, x] b) (hp : b = a ∨ b ∈ ns ++ [m]) : b = a ∨ b ∈ ns := by
      rcases hp with hp | hp
      · exact .inl hp
      · rcases List.mem_append.mp hp with hp | hp
        · exact .inr hp
        · exact absurd (List.mem_singleton.mp hp ▸ hb) f.new
    rintro b hb (((((no | hp) | hp) | hp) | hp) | hp)
    · exact no.elim
    all_goals exact part b hb hp
  · rw [LinkedList.lengthField, header 0 (by decide), if_pos rfl, length]
  · rw [LinkedList.firstField, header 1 (by decide), if_neg (by decide), if_neg (by decide), nth_append]
    by_cases e : ns.length = 0
    · rw [if_pos ⟨e, rfl⟩, if_neg (by omega), if_pos e.symm]
    · rw [if_neg fun both => e both.1, if_pos (by omega)]
      exact s₁.first
  · rw [LinkedList.lastField, header 2 (by decide), if_neg (by decide), if_pos rfl, length, nthBefore,
      if_neg (Nat.succ_ne_zero _), Nat.add_sub_cancel, at_last]
  · rw [length] at hi
    have value : nth (xs ++ [x]) i = if i < ns.length then nth xs i else if i = ns.length then x else unassigned := by
      rw [nth_append, s.same]
    rw [LinkedList.valueField, inner i hi 0 (by decide), if_neg (by simp), if_neg (by simp), value]
    by_cases e : i = ns.length
    · rw [if_pos ⟨e, rfl⟩, if_neg (by omega), if_pos e]
    · rw [if_neg fun both => e both.1, if_pos (by omega), inside i (by omega)]
      exact s₁.value i (by omega)
  · rw [length] at hi
    rw [LinkedList.beforeField, inner i hi 1 (by decide), if_neg (by simp)]
    by_cases e : i = ns.length
    · rw [if_pos ⟨e, rfl⟩, e, nthBefore, nthBefore]
      split
      · rfl
      · rw [inside _ (by omega)]
    · rw [if_neg fun both => e both.1, if_neg (by simp), nth_append, if_pos (by omega)]
      refine (s₁.before i (by omega)).trans ?_
      rw [nthBefore, nthBefore]
      split
      · rfl
      · rw [inside _ (by omega)]
  · rw [length] at hi
    rw [LinkedList.afterField, inner i hi 2 (by decide)]
    by_cases e : i + 1 = ns.length
    · rw [if_pos ⟨e, rfl⟩, e, at_last]
    · rw [if_neg fun both => e both.1, if_neg (by simp), if_neg (by simp)]
      by_cases e' : i = ns.length
      · rw [e', at_last, nth_of_le (by simp), ref, f.cells 2 (by decide)]
        rfl
      · rw [inside i (by omega), inside (i + 1) (by omega)]
        exact s₁.after i (by omega)

theorem pushBack (s : h.IsList a ns xs) (tidy : h.Tidy) (hx : h.Allocated x) :
    NoMemory (LinkedList.pushBack a x) h ∨ ∃ h' m, LinkedList.pushBack a x h = .ok () h' ∧
      Evolves h (h.Live [a, x]) h' (fun b => b = a ∨ b ∈ ns) [m] ∧ h'.IsList a (ns ++ [m]) (xs ++ [x]) :=
  (s.pushBack_spec tidy hx).imp_left Starved.noMemory

end IsList

end Heap

end FiberMachine
