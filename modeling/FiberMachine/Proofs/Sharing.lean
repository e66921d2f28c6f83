import FiberMachine.Proofs.Copies
import FiberMachine.Proofs.Slicing

/-!
# Appending to a slice

A slice with room behind its last position is extended in place, so the array is shared from then on; otherwise what it shows moves to
a longer array, and the old one stays. Either way the result shows the old elements and then the new ones, and everything else that is
in use afterwards is as it was.
-/

namespace FiberMachine

namespace Heap

variable {h h' : Heap} {a b d g i j n r s x : Nat} {w : Word} {xs values rs N : List Nat} {L : Nat → Prop}

/-! ### Writing behind a position -/

theorem write_outside (run : write a i w h = .ok () h') (other : x ≠ a + 1 + i) : h'.wordAt x = h.wordAt x := by
  obtain ⟨k, h₁, looked, run⟩ := HeapM.bind_ok run
  obtain ⟨-, rfl⟩ := HeapM.lift_ok looked
  rw [HeapM.run_ite] at run
  split at run
  · simp only [setWord] at run
    split at run
    · cases run
      exact wordAt_store_of_ne (Ne.symm other)
    · cases run
  · cases run

theorem setSlots_outside (run : Sequence.setSlots a i values h = .ok () h')
    (outside : ∀ k, i ≤ k → k < i + values.length → x ≠ a + 1 + (1 + k)) : h'.wordAt x = h.wordAt x := by
  induction values generalizing h i with
  | nil =>
    cases run
    rfl
  | cons v vs ih =>
    obtain ⟨_, h₁, first, rest⟩ := HeapM.bind_ok run
    rw [ih (i := i + 1) rest fun k le lt => outside k (by omega) (by rw [List.length_cons]; omega)]
    exact write_outside first (outside i le_rfl (by rw [List.length_cons]; omega))

theorem mem_splice (hx : x ∈ splice xs i values) : x ∈ xs ∨ x ∈ values := by
  induction values generalizing xs i with
  | nil => exact .inl hx
  | cons v vs ih =>
    rcases ih hx with hx | hx
    · exact (List.mem_or_eq_of_mem_set hx).imp_right fun same => List.mem_cons.mpr (.inl same)
    · exact .inr (List.mem_cons_of_mem v hx)

theorem Backs.child (backs : h.Backs d xs) (tidy : h.Tidy) (hx : x ∈ xs) : h.Child d x := by
  by_cases none : d = unassigned
  · rw [backs.nil none] at hx
    cases hx
  · exact (backs.items none).child tidy hx

/-- Items of the array behind a slice are replaced. -/
theorem Backs.setSlots (backs : h.Backs d xs) (tidy : h.Tidy) (within : j + values.length ≤ xs.length)
    (good : ∀ v ∈ values, h.Allocated v) : ∃ h', Sequence.setSlots d j values h = .ok () h' ∧
      Evolves h h.Allocated h' (fun b => b = d ∧ d ≠ unassigned) [] ∧ h'.Backs d (splice xs j values) ∧
      ∀ b, h'.Child d b → h.Child d b ∨ b ∈ values := by
  by_cases none : d = unassigned
  · have empty := backs.nil none
    subst empty
    rw [List.length_nil] at within
    obtain rfl : values = [] := List.length_eq_zero_iff.mp (by omega)
    exact ⟨h, rfl, (Evolves.refl tidy (.all tidy)).weaken (fun _ ha => ha) (fun _ _ no => no.elim) fun _ ha => ha, backs,
      fun _ child => .inl child⟩
  · obtain ⟨h', run, e, items⟩ := (backs.items none).setSlots tidy within good
    refine ⟨h', run, e.weaken (fun _ ha => ha) (fun _ _ same => ⟨same, none⟩) fun _ ha => ha,
      ⟨fun no => absurd no none, fun _ => items⟩, fun b child => ?_⟩
    exact (mem_splice (items.child_mem e.tidy child)).imp_left ((backs.items none).child tidy)

/-! ### What is in use afterwards -/

/-- Of all that is in use after a block has been made, only the block is new. -/
theorem Evolves.live_new (e : Evolves h (h.Live rs) h' (fun _ => False) [r]) (tidy : h.Tidy) (good : ∀ r ∈ rs, h.Allocated r)
    (children : ∀ b, h'.Child r b → h.Live rs b) (ha : h'.Live [r] a) : a = r ∨ h.Live rs a := by
  refine Reaches.of_closed (M := fun a => a = r ∨ h.Live rs a) ha (fun b hb => ?_) fun b c hb child => ?_
  · rw [List.mem_append, List.mem_singleton, e.roots] at hb
    exact hb.elim (fun hb => .inr (.root hb)) .inl
  · rcases hb with rfl | hb
    · exact .inr (children c child)
    · exact .inr (hb.child ((tidy.child_kept e.tidy (tidy.allocated_of_live good hb) (e.kept b hb id)).mp child))

/-- Nothing that was in use before or after leads to a new block. -/
theorem Evolves.unused (e : Evolves h (h.Live rs) h' (fun _ => False) [r]) (tidy : h.Tidy) (good : ∀ r ∈ rs, h.Allocated r) :
    ¬h'.Reachable r := fun no =>
  (e.new r (List.mem_singleton_self r)).2 ((e.live_iff tidy good).mp no.live)

/-- The same can be reached from the roots. -/
theorem Evolves.reachable_iff (e : Evolves h (h.Live rs) h' (fun _ => False) N) (tidy : h.Tidy) : h'.Reachable a ↔ h.Reachable a := by
  have fewer (b : Nat) (hb : h.Live [] b) : h.Live rs b := (live_nil.mp hb).live
  have := (e.weaken fewer (fun _ _ no => no) fun _ hb => hb).live_iff tidy (by simp) (a := a)
  rwa [live_nil, live_nil] at this

theorem IsSlice.child_mem (slice : h.IsSlice a d i j xs) (tidy : h.Tidy) (child : h.Child a b) : b = d := by
  rw [tidy.child_iff slice.is.allocated, childrenAt_eq, slice.is.tag] at child
  exact (List.mem_singleton.mp child).trans slice.array

/-- The values were appended to a slice, which showed the positions from `i` up to `j` of the array at `d` with the items `xs`, and the
result is the slice at `r`. -/
inductive Appended (h : Heap) (d i j : Nat) (xs values : List Nat) (h' : Heap) (r : Nat) : Prop where
  /-- They were written into the array. -/
  | shared (fits : j - i + values.length ≤ xs.length - i)
      (slice : h'.IsSlice r d i (j + values.length) (xs.take j ++ values ++ xs.drop (j + values.length)))
      (others : ∀ k < h.room d, ¬(1 + j ≤ k ∧ k < 1 + j + values.length) → h'.cell d k = h.cell d k)
      (kept : ∀ b, h'.Live [r] b → b ≠ r → b ≠ d ∨ d = unassigned → Kept h h' b)
  /-- The elements moved to the new array at `g`. -/
  | moved (g : Nat) (full : xs.length - i < j - i + values.length)
      (slice : h'.IsSlice r g 0 (j - i + values.length) (Slice.shown xs i j ++ values ++
        List.replicate (max (j - i + values.length) (if xs.length - i = 0 then 4 else 2 * (xs.length - i)) - (j - i + values.length))
          unassigned))
      (new : ¬h.Live (values ++ [d]) g) (unused : ¬h'.Reachable g)
      (kept : ∀ b, h'.Live [r] b → b ≠ r → b ≠ g → Kept h h' b)

theorem length_shown (le : i ≤ j) (within : j ≤ xs.length) : (Slice.shown xs i j).length = j - i := by
  rw [Slice.shown, List.length_take, List.length_drop]
  omega

/-- The array has other items from `j` on. -/
theorem shown_behind (le : i ≤ j) (within : j ≤ xs.length) (bs : List Nat) (n : Nat) :
    Slice.shown (xs.take j ++ bs) i (j + n) = Slice.shown xs i j ++ bs.take n := by
  have front : (xs.take j).drop i = Slice.shown xs i j := List.drop_take
  have length := length_shown le within
  rw [Slice.shown, List.drop_append_of_le_length (by rw [List.length_take]; omega), front, List.take_append,
    List.take_of_length_le (by omega)]
  congr 2
  omega

/-- The result shows the elements of the slice, and then the values. -/
theorem Appended.elements (made : Appended h d i j xs values h' r) (tidy : h'.Tidy) (le : i ≤ j) (within : j ≤ xs.length) :
    Slice.elements r h' = .ok (Slice.shown xs i j ++ values) := by
  cases made with
  | shared fits slice =>
    rw [slice.elements_eq tidy]
    congr 1
    rw [List.append_assoc, shown_behind le within, List.take_left]
  | moved g _ slice =>
    rw [slice.elements_eq tidy]
    congr 1
    rw [Slice.shown, List.drop_zero, Nat.sub_zero, List.take_left']
    rw [List.length_append, length_shown le within]

/-- Appending to the slice at `s` finds no memory, or the values are appended and the new slice is not in use yet. -/
def AppendsTo (h : Heap) (s d i j : Nat) (xs values : List Nat) : Prop :=
  NoMemory (Slice.append s values) h ∨ ∃ r h', Slice.append s values h = .ok r h' ∧ h'.Tidy ∧ h'.roots = h.roots ∧ ¬h'.Reachable r ∧
    Appended h d i j xs values h' r

/-- The array has room. -/
theorem IsSlice.append_shared (slice : h.IsSlice s d i j xs) (tidy : h.Tidy) (good : ∀ v ∈ values, h.Allocated v)
    (fits : j - i + values.length ≤ xs.length - i) : h.AppendsTo s d i j xs values := by
  have le := slice.le
  have within := slice.within
  obtain ⟨h₁, put, e, backs, children⟩ := slice.backs.setSlots tidy (show j + values.length ≤ xs.length by omega) good
  have eq : Slice.append s values h = Slice.window d i (j + values.length) h₁ := by
    rw [slice.append_eq tidy, if_pos fits]
    exact run_after put _
  rcases e.tidy.makeWindow backs (i := i) (j := j + values.length) (by omega) (by rw [length_splice]; omega) with
    ⟨n, h', full⟩ | ⟨r, h', run, e', made⟩
  · exact .inl ⟨n, h', eq.trans full⟩
  have ld : h₁.Live [d] d := .extra (List.mem_singleton_self d)
  have kd : Kept h₁ h' d := e'.kept d ld id
  have allocated : ∀ x ∈ [d], h₁.Allocated x := by simpa using backs.allocated e.tidy
  refine .inr ⟨r, h', eq.trans run, e'.tidy, e'.roots.trans e.roots, e'.unused e.tidy allocated, .shared fits ?_ ?_ ?_⟩
  · rwa [← splice_eq (by omega)]
  · intro k hk outside
    have room : k < h₁.room d := by
      rw [room, levelAt, (e.stays d (slice.backs.allocated tidy)).2]
      exact hk
    rw [kd.cell room]
    exact setSlots_outside put fun m lo hi eq => outside (by omega)
  · intro b hb other ne
    have live : h₁.Live [d] b := (e'.live_new e.tidy allocated (fun c child => made.child_mem e'.tidy child ▸ ld) hb).resolve_left other
    have old : h.Allocated b := by
      refine Reaches.of_closed (M := h.Allocated) live (fun a ha => ?_) fun a c ha child => ?_
      · rw [e.roots, List.mem_append, List.mem_singleton] at ha
        exact ha.elim tidy.root fun same => same ▸ slice.backs.allocated tidy
      · by_cases here : a = d
        · subst here
          exact (children c child).elim (tidy.consistent.child a c ha) (good c)
        · exact tidy.consistent.child a c ha ((tidy.child_kept e.tidy ha (e.kept a ha fun no => here no.1)).mp child)
    exact (e.kept b old fun no => ne.elim (· no.1) no.2).trans (e'.kept b live id)

/-- The elements move to a longer array. -/
theorem IsSlice.append_moved (slice : h.IsSlice s d i j xs) (tidy : h.Tidy) (good : ∀ v ∈ values, h.Allocated v)
    (full : xs.length - i < j - i + values.length) : h.AppendsTo s d i j xs values := by
  have le := slice.le
  have within := slice.within
  have good' := slice.backs.allocated_append tidy good
  have capacity : Slice.grownCapacity (xs.length - i) (j - i + values.length) =
      max (j - i + values.length) (if xs.length - i = 0 then 4 else 2 * (xs.length - i)) := by
    rw [Slice.grownCapacity, Slice.leastGrowth, Nat.mul_comm]
  have room : j - i + values.length ≤ Slice.grownCapacity (xs.length - i) (j - i + values.length) := Nat.le_max_left _ _
  have eq := slice.append_eq tidy values
  rw [if_neg (Nat.not_le_of_lt full)] at eq
  rcases tidy.createRooted good' (t := .array) rfl (Slice.grownCapacity (xs.length - i) (j - i + values.length)) with
    grown | ⟨g, h₀, run, e, -, new⟩
  · obtain ⟨n, h', grown⟩ := grown
    exact .inl ⟨n, h', eq.trans (by rw [HeapM.run_bind, Sequence.newArray, grown])⟩
  obtain ⟨h₀', h₁, copied, put, e, items⟩ := e.fillGrown new slice.backs.isSeq (show i + (j - i) ≤ xs.length by omega) room
  have eq : Slice.append s values h = Slice.window g 0 (j - i + values.length) h₁ := by
    rw [eq, run_after (show withRoots (values ++ [d]) (Sequence.newArray _) h = .ok g h₀ from run), run_after copied, run_after put]
  have new : ¬h.Live (values ++ [d]) g := (e.new g (List.mem_singleton_self g)).2
  have some : g ≠ unassigned := fun none => new (.root (none ▸ List.mem_cons_self))
  have backs : h₁.Backs g _ := ⟨fun no => absurd no some, fun _ => items⟩
  have enough : j - i + values.length ≤ (Slice.shown xs i j ++ values ++
      List.replicate (Slice.grownCapacity (xs.length - i) (j - i + values.length) - (j - i + values.length)) 0).length := by
    rw [List.length_append, List.length_append, length_shown le within]
    omega
  rcases e.tidy.makeWindow backs (i := 0) (j := j - i + values.length) (Nat.zero_le _) enough with ⟨n, h', full⟩ | ⟨r, h', run', e', made⟩
  · exact .inl ⟨n, h', eq.trans full⟩
  have lg : h₁.Live [g] g := .extra (List.mem_singleton_self g)
  have allocated : ∀ x ∈ [g], h₁.Allocated x := by simpa using items.is.allocated
  refine .inr ⟨r, h', eq.trans run', e'.tidy, e'.roots.trans e.roots, e'.unused e.tidy allocated,
    .moved g full ?_ new (fun no => ?_) ?_⟩
  · rwa [capacity] at made
  · have before : h₁.Reachable g := (e'.reachable_iff e.tidy).mp no
    exact e.unused tidy good' before
  · intro b hb other ne
    have live : h₁.Live [g] b := (e'.live_new e.tidy allocated (fun c child => made.child_mem e'.tidy child ▸ lg) hb).resolve_left other
    have old : h.Live (values ++ [d]) b := by
      refine (e.live_new tidy good' (fun c child => ?_) live).resolve_left ne
      rcases List.mem_append.mp (items.child_mem e.tidy child) with hc | hc
      · rcases List.mem_append.mp hc with hc | hc
        · exact Live.child (.extra (by simp)) (slice.backs.child tidy (List.mem_of_mem_drop (List.mem_of_mem_take hc)))
        · exact .extra (List.mem_append_left _ hc)
      · exact .root (List.eq_of_mem_replicate hc ▸ List.mem_cons_self)
    exact (e.kept b old id).trans (e'.kept b live id)

/-- If the slice itself is in use afterwards, it shows what it showed. -/
theorem Appended.same (made : Appended h d i j xs values h' r) (slice : h.IsSlice s d i j xs) (tidy : h'.Tidy) (new : ¬h'.Reachable r)
    (hs : h'.Reachable s) : Kept h h' s ∧ Slice.elements s h' = .ok (Slice.shown xs i j) := by
  have old {b : Nat} (hb : h'.Reachable b) : b ≠ r := fun no => new (no ▸ hb)
  cases made with
  | shared fits result _ kept =>
    have apart : s ≠ d ∨ d = unassigned := by
      by_cases none : d = unassigned
      · exact .inr none
      · refine .inl ?_
        rintro rfl
        exact absurd (slice.is.tag.symm.trans (slice.backs.items none).is.tag) (by decide)
    have within := slice.within
    have ks := kept s hs.live (old hs) apart
    have slice' := slice.kept ks result.backs (by
      rw [List.length_append, List.length_append, List.length_take, List.length_drop]
      omega)
    refine ⟨ks, ?_⟩
    rw [slice'.elements_eq tidy]
    congr 1
    have behind := shown_behind slice.le within (values ++ xs.drop (j + values.length)) 0
    rwa [Nat.add_zero, List.take_zero, List.append_nil, ← List.append_assoc] at behind
  | moved g full result new unused kept =>
    have ks : Kept h h' s := kept s hs.live (old hs) fun no => unused (no ▸ hs)
    have is' := ks.is slice.is
    have hd : h'.Reachable d := by
      have child := tidy.child_field is' (π := [0]) rfl (i := Slice.arrayField) (by decide)
      rw [ks.ref (Nat.lt_of_lt_of_le (by decide) slice.is.room), slice.array] at child
      exact hs.child child
    have kd : Kept h h' d := kept d hd.live (old hd) fun no => unused (no ▸ hd)
    exact ⟨ks, (slice.kept ks (slice.backs.kept fun _ => kd) le_rfl).elements_eq tidy⟩

/-- Appending to a slice adds the values to what it shows. If they fit behind it they are written into its array, and into no other
words; otherwise the elements move to a new array, at least twice as long, that is unassigned beyond them. The roots stay, and what is in
use afterwards is as it was; so the slice itself shows what it showed. -/
theorem Tidy.append_exact (tidy : h.Tidy) (slice : h.IsSlice s d i j xs) (good : ∀ v ∈ values, h.Allocated v) :
    NoMemory (Slice.append s values) h ∨ ∃ r h', Slice.append s values h = .ok r h' ∧ h'.Tidy ∧ h'.roots = h.roots ∧
      Slice.elements r h' = .ok (Slice.shown xs i j ++ values) ∧ Appended h d i j xs values h' r ∧
      (h'.Reachable s → Kept h h' s ∧ Slice.elements s h' = .ok (Slice.shown xs i j)) := by
  have appended : h.AppendsTo s d i j xs values := by
    by_cases fits : j - i + values.length ≤ xs.length - i
    · exact slice.append_shared tidy good fits
    · exact slice.append_moved tidy good (Nat.lt_of_not_le fits)
  rcases appended with full | ⟨r, h', run, tidy', roots, new, made⟩
  · exact .inl full
  · exact .inr ⟨r, h', run, tidy', roots, made.elements tidy' slice.le slice.within, made, made.same slice tidy' new⟩

/-- A slice of the first item of an array of three, and an int. -/
def rowHeap : Heap :=
  built 64 [.allocateTagged .int 1, .write 2 0 7, .allocateTagged .array 4, .write 8 0 3, .write 8 1 2, .allocateTagged .slice 3,
    .write 4 0 8, .write 4 2 1, .pushRoot 4]

theorem append_exact_row : ∃ r h', Slice.append 4 [2] rowHeap = .ok r h' ∧ Slice.elements r h' = .ok [2, 2] ∧
    Slice.elements 4 h' = .ok [2] := by
  have tidy : rowHeap.Tidy := tidy_built (by decide) (by decide +kernel) (by decide +kernel)
  have items : rowHeap.IsSeq 8 .array [2, 0, 0] := ⟨by decide +kernel, rfl, by decide +kernel, by decide +kernel⟩
  have slice : rowHeap.IsSlice 4 8 0 1 [2, 0, 0] :=
    ⟨by decide +kernel, by decide +kernel, by decide +kernel, by decide +kernel, ⟨by decide, fun _ => items⟩, by decide, by decide⟩
  have runs : Passes (fun _ _ => true) (Slice.append 4 [2] rowHeap) = true := by decide +kernel
  obtain ⟨r, h', run, -⟩ := passes_iff.mp runs
  have root : 4 ∈ rowHeap.roots := by decide +kernel
  have value : ∀ v ∈ [2], rowHeap.Allocated v := by decide +kernel
  rcases tidy.append_exact slice value with ⟨_, _, full⟩ | ⟨r', h'', run', -, roots, elements, -, same⟩
  · cases run.symm.trans full
  · cases run.symm.trans run'
    have used : h'.Reachable 4 := by
      refine .start ?_
      rw [roots]
      exact root
    exact ⟨r, h', run, elements, (same used).2⟩

end Heap

end FiberMachine
