import FiberMachine.Proofs.Runs
import FiberMachine.Proofs.Sharing

/-!
# Slices stay within their arrays

Whatever slices are made of arrays and of other slices, by cutting and by appending, each of them lies within its array, for an array
never gets shorter and a slice never changes. A slice that is not in use but has not been reclaimed yet is no exception. A part of a part
is a part, with the positions added up.
-/

namespace FiberMachine

namespace Heap

variable {h h' h'' g k : Heap} {a b d i j m n r x : Nat} {t : Tag} {w : Word} {xs values rs : List Nat} {ω : List (Nat × Word)}

/-! ### Changes in one block -/

/-- Nothing but the payload of the block at `a` changes. -/
structure Only (a : Nat) (h h' : Heap) : Prop where
  sound : h'.Sound
  allocated : ∀ b : Nat, h'.Allocated b ↔ h.Allocated b
  header : h'.wordAt a = h.wordAt a
  kept : ∀ b, h.Allocated b → b ≠ a → Kept h h' b

namespace Only

theorem refl (s : h.Sound) : Only a h h := ⟨s, fun _ => Iff.rfl, rfl, fun _ hb _ => .refl hb⟩

theorem trans (first : Only a h h') (next : Only a h' h'') : Only a h h'' where
  sound := next.sound
  allocated b := (next.allocated b).trans (first.allocated b)
  header := next.header.trans first.header
  kept b hb ne := (first.kept b hb ne).trans (next.kept b ((first.allocated b).mpr hb) ne)

theorem tagAt (only : Only a h h') : h'.tagAt a = h.tagAt a := by rw [Heap.tagAt, only.header, Heap.tagAt]

theorem write (s : h.Sound) (ha : h.Allocated a) (run : Heap.write a i w h = .ok () h') : Only a h h' := by
  by_cases inside : i < h.room a
  · cases run.symm.trans (s.write_eq ⟨ha, rfl, inside⟩ (Nat.lt_succ_self i))
    exact ⟨(s.put ha inside).sound, fun b => s.allocated_put ha inside, s.header_put ha inside ha,
      fun b hb ne => s.kept_put ha inside hb ne⟩
  · have outside : ¬i < 2 ^ h.levelAt a - 1 := inside
    simp only [Heap.write, HeapM.run_bind, HeapM.run_lift, blockWords_eq (s.lt_capacity ha), outside, if_false] at run
    cases run

theorem writes (s : h.Sound) (ha : h.Allocated a) (run : Heap.writes a ω h = .ok () h') : Only a h h' := by
  induction ω generalizing h with
  | nil =>
    cases run
    exact .refl s
  | cons p ω ih =>
    obtain ⟨_, h₁, first, rest⟩ := HeapM.bind_ok run
    have only := Only.write s ha first
    exact only.trans (ih only.sound ((only.allocated a).mpr ha) rest)

theorem setSlots (s : h.Sound) (ha : h.Allocated a) (run : Sequence.setSlots a i values h = .ok () h') : Only a h h' := by
  induction values generalizing h i with
  | nil =>
    cases run
    exact .refl s
  | cons v vs ih =>
    obtain ⟨_, h₁, first, rest⟩ := HeapM.bind_ok run
    have only := Only.write s ha first
    exact only.trans (ih only.sound ((only.allocated a).mpr ha) (i := i + 1) rest)

theorem copySlots (s : h.Sound) (ha : h.Allocated a) (run : Sequence.copySlots d j a i n h = .ok () h') : Only a h h' := by
  induction n generalizing h i j with
  | zero =>
    cases run
    exact .refl s
  | succ n ih =>
    obtain ⟨v, h₀, look, store⟩ := HeapM.bind_ok run
    obtain ⟨-, rfl⟩ := HeapM.lift_ok look
    obtain ⟨_, h₁, first, rest⟩ := HeapM.bind_ok store
    have only := Only.write s ha first
    exact only.trans (ih only.sound ((only.allocated a).mpr ha) rest)

end Only

/-! ### Every slice in the heap -/

/-- The positions are those of a slice of the array at `d`, or the nil slice has none. -/
def Window (h : Heap) (d i j : Nat) : Prop :=
  (d = unassigned ∧ i = 0 ∧ j = 0) ∨ (d ≠ unassigned ∧ h.Is d .array 1 ∧ i ≤ j ∧ j ≤ h.ref d 0)

instance : Decidable (h.Window d i j) := inferInstanceAs (Decidable (_ ∨ _))

/-- Every slice in the heap, in use or not, lies within its array. -/
def Windowed (h : Heap) : Prop :=
  ∀ a, h.Allocated a → h.tagAt a = .slice → h.Is a .slice 3 ∧
    h.Window (h.ref a Slice.arrayField) (h.ref a Slice.firstField) (h.ref a Slice.stopField)

theorem IsSlice.window (slice : h.IsSlice a d i j xs) : h.Window d i j := by
  by_cases none : d = unassigned
  · have empty := slice.backs.nil none
    have within := slice.within
    have le := slice.le
    rw [empty, List.length_nil] at within
    exact .inl ⟨none, by omega, by omega⟩
  · have items := slice.backs.items none
    exact .inr ⟨none, items.is.le (Nat.le_add_right 1 _), slice.le, items.length ▸ slice.within⟩

theorem Windowed.isSlice (windowed : h.Windowed) (tidy : h.Tidy) (ha : h.Allocated a) (tag : h.tagAt a = .slice) :
    ∃ d i j xs, h.IsSlice a d i j xs := by
  obtain ⟨is, window⟩ := windowed a ha tag
  rcases window with ⟨none, first, stop⟩ | ⟨some, array, le, within⟩
  · exact ⟨_, _, _, [], is, rfl, rfl, rfl, none ▸ .empty, by omega, by omega⟩
  · obtain ⟨xs, items⟩ := tidy.counted array.allocated (by rw [array.tag]; rfl)
    rw [array.tag] at items
    exact ⟨_, _, _, xs, is, rfl, rfl, rfl, ⟨fun none => absurd none some, fun _ => items⟩, le, items.length ▸ within⟩

theorem SameArena.windowed (same : h.SameArena k) (windowed : h.Windowed) : k.Windowed := by
  intro a ha tag
  rw [tagAt, same.wordAt] at tag
  obtain ⟨is, window⟩ := windowed a (same.allocated.mp ha) tag
  simp only [Window, same.ref, same.is]
  exact ⟨is, window⟩

/-- If the array has not changed, the positions are still within it. -/
theorem Window.kept (window : h.Window d i j) (k : d ≠ unassigned → Kept h h' d) : h'.Window d i j := by
  rcases window with none | ⟨some, array, le, within⟩
  · exact .inl none
  · have kept := k some
    refine .inr ⟨some, kept.is array, le, ?_⟩
    rwa [kept.ref (Nat.lt_of_lt_of_le Nat.one_pos array.room)]

/-- A slice that has not changed has the same positions. -/
theorem Kept.windows (kept : Kept h h' b) (is : h.Is b .slice 3)
    (window : h'.Window (h.ref b Slice.arrayField) (h.ref b Slice.firstField) (h.ref b Slice.stopField)) :
    h'.Is b .slice 3 ∧ h'.Window (h'.ref b Slice.arrayField) (h'.ref b Slice.firstField) (h'.ref b Slice.stopField) := by
  have field (n : Nat) (hn : n < 3) : h'.ref b n = h.ref b n := kept.ref (Nat.lt_of_lt_of_le hn is.room)
  rw [field _ (by decide), field _ (by decide), field _ (by decide)]
  exact ⟨kept.is is, window⟩

theorem Windowed.maybeCollected (windowed : h.Windowed) (tidy : h.Tidy) (maybe : h.MaybeCollected g) : g.Windowed := by
  rcases maybe with rfl | c
  · exact windowed
  intro a ha tag
  have reached := (c.allocated a).mp ha
  have kept := c.kept reached
  rw [kept.tagAt] at tag
  obtain ⟨is, window⟩ := windowed a (tidy.allocated_of_reachable reached) tag
  refine kept.windows is (window.kept fun _ => c.kept (reached.child ?_))
  exact tidy.child_field is (π := [0]) rfl (by decide)

/-- A new block is all zero; a slice that is all zero is nil. -/
theorem Windowed.made {l : Nat} (windowed : g.Windowed) (tidy : g.Tidy) (made : Made g h a t l) (room : t = .slice → 3 ≤ 2 ^ l - 1) :
    h.Windowed := by
  intro b hb tag
  rcases (made.allocated b).mp hb with hb | rfl
  · have kept := made.kept hb
    rw [kept.tagAt] at tag
    obtain ⟨is, window⟩ := windowed b hb tag
    refine kept.windows is (window.kept fun _ => made.kept (tidy.consistent.child b _ hb ?_))
    exact tidy.child_field is (π := [0]) rfl (by decide)
  · have size := room (made.tag.symm.trans tag)
    have zero (n : Nat) (hn : n < 3) : h.ref b n = 0 := by
      rw [ref, cell, made.payload n (by omega)]
      rfl
    refine ⟨⟨hb, tag, ?_⟩, .inl ⟨zero _ (by decide), zero _ (by decide), zero _ (by decide)⟩⟩
    rw [Heap.room, made.level]
    exact size

/-- One block changes. If it is an array it does not get shorter, and if it is a slice it lies within its array afterwards. -/
theorem Windowed.only (windowed : h.Windowed) (only : Only a h h')
    (array : h.tagAt a = .array → h.ref a 0 ≤ h'.ref a 0) (slice : h.tagAt a = .slice → ∃ d i j xs, h'.IsSlice a d i j xs) :
    h'.Windowed := by
  intro b hb tag
  have hb := (only.allocated b).mp hb
  by_cases here : b = a
  · subst here
    obtain ⟨d, i, j, xs, slice⟩ := slice (only.tagAt.symm.trans tag)
    rw [slice.array, slice.first, slice.stop]
    exact ⟨slice.is, slice.window⟩
  · have kept := only.kept b hb here
    rw [kept.tagAt] at tag
    obtain ⟨is, window⟩ := windowed b hb tag
    refine kept.windows is ?_
    rcases window with none | ⟨some, is, le, within⟩
    · exact .inl none
    · by_cases same : h.ref b Slice.arrayField = a
      · rw [same] at is within some ⊢
        refine .inr ⟨some, ⟨(only.allocated a).mpr is.allocated, only.tagAt.trans is.tag, ?_⟩, le, within.trans (array is.tag)⟩
        rw [Heap.room, levelAt, only.header]
        exact is.room
      · exact Window.kept (.inr ⟨some, is, le, within⟩) fun _ => only.kept _ is.allocated same

/-! ### Making slices -/

/-- A tidy heap in which every slice lies within its array. -/
structure Orderly (h : Heap) : Prop where
  tidy : h.Tidy
  windowed : h.Windowed

/-- The heap is orderly afterwards, whether the action succeeded or not. -/
def Settled {α : Type} : EStateM.Result HeapFailure Heap α → Prop
  | .ok _ h | .error _ h => h.Orderly

theorem Orderly.roots (o : h.Orderly) (same : h.SameArena k) (root : ∀ a ∈ k.roots, h.Allocated a) : k.Orderly :=
  ⟨o.tidy.sameArena same root, same.windowed o.windowed⟩

theorem Orderly.rooting (o : h.Orderly) (good : ∀ r ∈ rs, h.Allocated r) : (h.rooting rs).Orderly :=
  ⟨o.tidy.rooting good, sameArena_rooting.windowed o.windowed⟩

/-- Fewer addresses are protected. -/
theorem Orderly.shrink (o : h.Orderly) (n : Nat) : ({ h with temporaries := h.temporaries.shrink n } : Heap).Orderly := by
  refine o.roots ⟨rfl, rfl, rfl⟩ fun a ha => o.tidy.root ?_
  simp only [Heap.roots, List.mem_append] at ha ⊢
  refine ha.imp_right fun ha => ?_
  rw [Array.toList_shrink] at ha
  exact List.mem_of_mem_take ha

namespace Settled

variable {α β : Type} {action : HeapM α} {next : α → HeapM β} {y : α}

theorem withRoots (settled : Settled (action (h.rooting rs))) : Settled (Heap.withRoots rs action h) := by
  rw [rooting] at settled
  simp only [Heap.withRoots]
  cases found : action { h with temporaries := h.temporaries ++ rs } with
  | ok y h' =>
    rw [found] at settled
    exact settled.shrink _
  | error e h' =>
    rw [found] at settled
    exact settled.shrink _

theorem failed {e : HeapFailure} (settled : Settled (action h)) (run : action h = .error e h') : h'.Orderly := by
  rw [run] at settled
  exact settled

theorem succeeded (settled : Settled (action h)) (run : action h = .ok y h') : h'.Orderly := by
  rw [run] at settled
  exact settled

/-- If the first action fails, the rest does not matter. -/
theorem bind (settled : Settled (action h)) (rest : ∀ y h', action h = .ok y h' → Settled (next y h')) : Settled ((action >>= next) h) := by
  rw [HeapM.run_bind]
  cases found : action h with
  | ok y h' => exact rest y h' found
  | error e h' => exact settled.failed found

end Settled

namespace Orderly

theorem allocateTagged (o : h.Orderly) (fits : t.Fits n) (room : t = .slice → 3 ≤ n) : Settled (Heap.allocateTagged t n h) := by
  obtain ⟨g, maybe, _, outcome⟩ := o.tidy.sound.allocateTagged (t := t) (n := n) fun _ => o.tidy.consistent.traceable
  have tidy := (maybe.evolves o.tidy).tidy
  have windowed := o.windowed.maybeCollected o.tidy maybe
  have large : n ≤ 2 ^ levelFor (n + 1) - 1 := by
    have := levelFor_le.mp (le_refl (levelFor (n + 1)))
    rw [levelWords_eq, Nat.pow_eq] at this
    omega
  rcases outcome with ⟨m, run⟩ | ⟨a, h', run, made⟩
  · rw [run]
    exact ⟨tidy, windowed⟩
  · rw [run]
    exact ⟨made.tidy tidy (Tag.Fits.mono fits large), windowed.made tidy made fun slice => (room slice).trans large⟩

theorem newArray (o : h.Orderly) (n : Nat) : Settled (Sequence.newArray n h) := by
  by_cases large : wordLimit ≤ n + 1
  · simp only [Sequence.newArray, Sequence.create, HeapM.run_bind, large, if_true, HeapM.run_lift, HeapReader.run_reject]
    exact o
  have small : n < 2 ^ 64 := by
    have : ¬18446744073709551616 ≤ n + 1 := large
    omega
  have fits : Tag.array.Fits (n + 1) := Tag.fits_counted rfl (Nat.succ_pos n)
  have eq : Sequence.newArray n h = ((do
      let a ← Heap.allocateTagged .array (n + 1)
      writeNat a 0 n
      return a : HeapM Nat)) h := by
    simp only [Sequence.newArray, Sequence.create, HeapM.run_bind, large, if_false]
  rw [eq]
  refine .bind (o.allocateTagged fits fun no => absurd no (by decide)) fun a h₁ run => ?_
  have o₁ := (o.allocateTagged fits fun no => absurd no (by decide)).succeeded run
  rcases o.tidy.allocateTagged fits with ⟨_, _, full⟩ | ⟨_, _, run', f⟩
  · cases run.symm.trans full
  cases run.symm.trans run'
  obtain ⟨h₂, put, e, -, items⟩ := f.isSeq rfl small
  have first : h₁.ref a 0 = 0 := by
    rw [ref, f.cells 0 (Nat.succ_pos n)]
    rfl
  have only := Only.write f.evolves.tidy.sound f.is.allocated put
  simp only [HeapM.run_bind, put]
  refine ⟨e.tidy, o₁.windowed.only only (fun _ => ?_) fun slice => ?_⟩
  · rw [first]
    exact Nat.zero_le _
  · exact absurd (f.is.tag.symm.trans slice) (by decide)

/-- A slice within its array. -/
theorem window (o : h.Orderly) (backs : h.Backs d xs) (le : i ≤ j) (within : j ≤ xs.length) : Settled (Slice.window d i j h) := by
  have hd := backs.allocated o.tidy
  have good : ∀ r ∈ [d], h.Allocated r := by simpa using hd
  have fits : Tag.slice.Fits 3 := Tag.fits_fields (π := [0]) rfl (by decide)
  have eq : Slice.window d i j = Heap.withRoots [d] (Heap.allocateTagged .slice 3) >>= fun a =>
      writes a [(0, UInt64.ofNat d), (1, UInt64.ofNat i), (2, UInt64.ofNat j)] >>= fun _ => pure a := by
    simp only [Slice.window, Heap.writes, bind_assoc, pure_bind]
    rfl
  rw [eq]
  have settled : Settled (Heap.withRoots [d] (Heap.allocateTagged .slice 3) h) :=
    .withRoots ((o.rooting good).allocateTagged fits fun _ => le_rfl)
  refine .bind settled fun a h₁ run => ?_
  rcases o.tidy.allocateRooted good fits with ⟨_, _, full⟩ | ⟨_, _, run', f⟩
  · cases run.symm.trans full
  cases run.symm.trans run'
  have kd := (f.evolves.stays d (.extra (List.mem_singleton_self d))).1
  obtain ⟨h₂, put, -⟩ := f.writes (π := [0]) rfl (ω := [(0, UInt64.ofNat d), (1, UInt64.ofNat i), (2, UInt64.ofNat j)]) (by
    simp [o.tidy.sound.toNat_ofNat hd, kd])
  have rest : (writes a [(0, UInt64.ofNat d), (1, UInt64.ofNat i), (2, UInt64.ofNat j)] >>= fun _ => pure a) h₁ = .ok a h₂ :=
    run_after put _
  have whole : Slice.window d i j h = .ok a h₂ := by rw [eq, run_after run, rest]
  rw [rest]
  rcases o.tidy.makeWindow backs le within with ⟨_, _, full⟩ | ⟨_, _, made, e, slice⟩
  · cases whole.symm.trans full
  · cases whole.symm.trans made
    have only := Only.writes f.evolves.tidy.sound f.is.allocated put
    refine ⟨e.tidy, (settled.succeeded run).windowed.only only (fun array => ?_) fun _ => ⟨_, _, _, _, slice⟩⟩
    exact absurd (f.is.tag.symm.trans array) (by decide)

theorem ofArray (o : h.Orderly) (items : h.IsSeq d .array xs) (some : d ≠ unassigned) (low high : Option Int) :
    Settled (Slice.ofArray d low high h) := by
  rw [items.ofArray_eq o.tidy]
  split
  next bounds =>
    obtain ⟨nonneg, le, within⟩ := bounds
    exact o.window ⟨fun none => absurd none some, fun _ => items⟩ (by omega) (by omega)
  next => exact o

theorem ofSlice (o : h.Orderly) (slice : h.IsSlice a d i j xs) (low high : Option Int) : Settled (Slice.ofSlice a low high h) := by
  rw [slice.ofSlice_eq o.tidy]
  split
  next bounds =>
    obtain ⟨nonneg, le, within⟩ := bounds
    have := slice.le
    have := slice.within
    exact o.window slice.backs (by omega) (by omega)
  next => exact o

/-- Items of an array are replaced. -/
theorem setSlots (o : h.Orderly) (backs : h.Backs d xs) (within : j + values.length ≤ xs.length) (good : ∀ v ∈ values, h.Allocated v)
    (run : Sequence.setSlots d j values h = .ok () h') : h'.Orderly := by
  by_cases none : d = unassigned
  · have empty := backs.nil none
    subst empty
    rw [List.length_nil] at within
    obtain rfl : values = [] := List.length_eq_zero_iff.mp (by omega)
    cases run
    exact o
  · have items := backs.items none
    obtain ⟨_, run', e, items'⟩ := items.setSlots o.tidy within good
    cases run.symm.trans run'
    refine ⟨e.tidy, o.windowed.only (Only.setSlots o.tidy.sound items.is.allocated run) (fun _ => ?_) fun slice => ?_⟩
    · rw [items.length, items'.length, length_splice]
    · exact absurd (items.is.tag.symm.trans slice) (by decide)

theorem append (o : h.Orderly) (slice : h.IsSlice a d i j xs) (good : ∀ v ∈ values, h.Allocated v) :
    Settled (Slice.append a values h) := by
  have le := slice.le
  have within := slice.within
  rw [slice.append_eq o.tidy]
  split
  next fits =>
    have inside : j + values.length ≤ xs.length := by omega
    obtain ⟨h₁, put, -, backs, -⟩ := slice.backs.setSlots o.tidy inside good
    rw [run_after put]
    exact (o.setSlots slice.backs inside good put).window backs (by omega) (by rw [length_splice]; exact inside)
  next more =>
    have good' := slice.backs.allocated_append o.tidy good
    have settled := Settled.withRoots
      ((o.rooting good').newArray (Slice.grownCapacity (xs.length - i) (j - i + values.length)))
    refine .bind settled fun g h₁ run => ?_
    have room : j - i + values.length ≤ Slice.grownCapacity (xs.length - i) (j - i + values.length) := Nat.le_max_left _ _
    rcases o.tidy.createRooted good' (t := .array) rfl (Slice.grownCapacity (xs.length - i) (j - i + values.length)) with
      ⟨_, _, full⟩ | ⟨_, _, run', e, -, new⟩
    · cases run.symm.trans full
    cases run.symm.trans run'
    obtain ⟨h₂, h₃, copied, put, e₃, items⟩ := e.fillGrown new slice.backs.isSeq (show i + (j - i) ≤ xs.length by omega) room
    have first := Only.copySlots e.tidy.sound new.is.allocated copied
    have only := first.trans (Only.setSlots first.sound ((first.allocated g).mpr new.is.allocated) put)
    have some : g ≠ unassigned := fun none => (e.new g (List.mem_singleton_self g)).2 (.root (none ▸ List.mem_cons_self))
    have length : (Slice.shown xs i j ++ values ++
        List.replicate (Slice.grownCapacity (xs.length - i) (j - i + values.length) - (j - i + values.length)) 0).length =
        Slice.grownCapacity (xs.length - i) (j - i + values.length) := by
      rw [List.length_append, List.length_append, length_shown le within, List.length_replicate]
      omega
    have windowed : h₃.Windowed := by
      refine (settled.succeeded run).windowed.only only (fun _ => ?_) fun slice => ?_
      · rw [new.length, items.length, List.length_replicate]
        exact le_of_eq length.symm
      · exact absurd (new.is.tag.symm.trans slice) (by decide)
    rw [run_after copied, run_after put]
    exact Orderly.window ⟨e₃.tidy, windowed⟩ ⟨fun none => absurd none some, fun _ => items⟩ (Nat.zero_le _)
      (room.trans (le_of_eq length.symm))

end Orderly

/-! ### Sequences of operations -/

/-- An operation on slices, or one that makes an array or says what is protected. -/
inductive SliceOperation where
  | newArray (n : Nat)
  | nil
  | ofArray (array : Addr) (low high : Option Int)
  | ofSlice (slice : Addr) (low high : Option Int)
  | append (slice : Addr) (values : List Addr)
  | protect (addr : Addr)
  | release (mark : Nat)

namespace SliceOperation

/-- The action that an operation stands for. -/
def run : SliceOperation → HeapM Unit
  | .newArray n => do let _ ← Sequence.newArray n
  | .nil => do let _ ← Slice.nil
  | .ofArray array low high => do let _ ← Slice.ofArray array low high
  | .ofSlice slice low high => do let _ ← Slice.ofSlice slice low high
  | .append slice values => do let _ ← Slice.append slice values
  | .protect addr => Heap.pushRoot addr
  | .release mark => Heap.releaseRoots mark

/-- What an operation asks of its caller: that its operands are what they are taken for. -/
def Allowed (h : Heap) : SliceOperation → Prop
  | .newArray _ | .nil | .release _ => True
  | .ofArray array _ _ => array ≠ unassigned ∧ h.Is array .array 1
  | .ofSlice slice _ _ => h.Is slice .slice 3
  | .append slice values => h.Is slice .slice 3 ∧ ∀ v ∈ values, h.Allocated v
  | .protect addr => h.Allocated addr

/-- The heap after an operation, which may have failed. -/
def after (h : Heap) (op : SliceOperation) : Heap :=
  match op.run h with
  | .ok _ h' => h'
  | .error _ h' => h'

/-- Allowed operations, one after the other, lead from one heap to another. -/
inductive Performs : Heap → List SliceOperation → Heap → Prop where
  | nil {h : Heap} : Performs h [] h
  | cons {h h' : Heap} {op : SliceOperation} {ops : List SliceOperation} (allowed : op.Allowed h) (rest : Performs (op.after h) ops h') :
      Performs h (op :: ops) h'

variable {op : SliceOperation} {ops : List SliceOperation}

theorem settled (o : h.Orderly) (allowed : op.Allowed h) : Settled (op.run h) := by
  have only {action : HeapM Addr} (settled : Settled (action h)) : Settled ((action >>= fun _ => pure ()) h) :=
    .bind settled fun _ _ run => settled.succeeded run
  cases op with
  | newArray n => exact only (o.newArray n)
  | nil => exact only (o.window .empty le_rfl (Nat.zero_le _))
  | ofArray array low high =>
    obtain ⟨some, is⟩ := allowed
    obtain ⟨xs, items⟩ := o.tidy.counted is.allocated (by rw [is.tag]; rfl)
    exact only (o.ofArray (is.tag ▸ items) some low high)
  | ofSlice slice low high =>
    obtain ⟨d, i, j, xs, is⟩ := o.windowed.isSlice o.tidy allowed.allocated allowed.tag
    exact only (o.ofSlice is low high)
  | append slice values =>
    obtain ⟨d, i, j, xs, is⟩ := o.windowed.isSlice o.tidy allowed.1.allocated allowed.1.tag
    exact only (o.append is allowed.2)
  | protect addr =>
    refine o.roots ⟨rfl, rfl, rfl⟩ fun a ha => ?_
    simp only [Heap.roots, Array.toList_push, List.mem_append, List.mem_singleton] at ha
    rcases ha with ha | ha | rfl
    · exact o.tidy.root (List.mem_append_left _ ha)
    · exact o.tidy.root (List.mem_append_right _ ha)
    · exact allowed
  | release mark => exact o.shrink mark

/-- Whatever is done with slices, each of them lies within its array. -/
theorem Performs.orderly (performs : Performs h ops h') (o : h.Orderly) : h'.Orderly := by
  induction performs with
  | nil => exact o
  | @cons h h' op ops allowed _ ih =>
    refine ih ?_
    have settled := settled o allowed
    rw [after]
    cases found : op.run h with
    | ok _ h' => exact settled.succeeded found
    | error _ h' => exact settled.failed found

end SliceOperation

/-! ### A part of a part -/

/-- What is read of a slice: its array, where it starts and stops, and its capacity. -/
structure Extent (h : Heap) (a d i j c : Nat) : Prop where
  array : Slice.array a h = .ok d
  first : Slice.first a h = .ok i
  stop : Slice.stop a h = .ok j
  capacity : Slice.capacity a h = .ok c

/-- The action makes a slice with that extent, if there is memory for it. -/
def Cuts (h : Heap) (action : HeapM Addr) (d i j c : Nat) : Prop :=
  NoMemory action h ∨ ∃ r h', action h = .ok r h' ∧ h'.Extent r d i j c

theorem IsSlice.extent (slice : h.IsSlice a d i j xs) (tidy : h.Tidy) : h.Extent a d i j (xs.length - i) :=
  ⟨slice.array_eq tidy, slice.first_eq tidy, slice.stop_eq tidy, slice.capacity_eq tidy⟩

/-- The slice of a slice. -/
def ofSliceTwice (a : Addr) (low high low' high' : Option Int) : HeapM Addr := do
  let part ← Slice.ofSlice a low high
  Slice.ofSlice part low' high'

namespace IsSlice

variable {low high low' high' : Option Int} {lo hi lo' hi' : Int}

theorem ofSlice (slice : h.IsSlice a d i j xs) (tidy : h.Tidy) (hlo : low.getD 0 = lo) (hhi : high.getD (j - i : Nat) = hi)
    (bounds : Slice.Bounds lo hi (xs.length - i)) :
    NoMemory (Slice.ofSlice a low high) h ∨ ∃ r h', Slice.ofSlice a low high h = .ok r h' ∧ h'.Tidy ∧
      h'.IsSlice r d (i + lo.toNat) (i + hi.toNat) xs := by
  have eq := slice.ofSlice_eq tidy low high
  rw [hlo, hhi, if_pos bounds] at eq
  obtain ⟨nonneg, le, within⟩ := bounds
  have := slice.le
  have := slice.within
  rcases tidy.makeWindow slice.backs (i := i + lo.toNat) (j := i + hi.toNat) (by omega) (by omega) with
    ⟨n, h', full⟩ | ⟨r, h', run, e, made⟩
  · exact .inl ⟨n, h', eq.trans full⟩
  · exact .inr ⟨r, h', eq.trans run, e.tidy, made⟩

theorem ofSlice_cuts (slice : h.IsSlice a d i j xs) (tidy : h.Tidy) (hlo : low.getD 0 = lo) (hhi : high.getD (j - i : Nat) = hi)
    (bounds : Slice.Bounds lo hi (xs.length - i)) :
    h.Cuts (Slice.ofSlice a low high) d (i + lo.toNat) (i + hi.toNat) (xs.length - i - lo.toNat) := by
  rcases slice.ofSlice tidy hlo hhi bounds with full | ⟨r, h', run, tidy', made⟩
  · exact .inl full
  · refine .inr ⟨r, h', run, ?_⟩
    rw [Nat.sub_sub]
    exact made.extent tidy'

theorem ofSlice_rejected (slice : h.IsSlice a d i j xs) (tidy : h.Tidy) (hlo : low.getD 0 = lo) (hhi : high.getD (j - i : Nat) = hi)
    (no : ¬Slice.Bounds lo hi (xs.length - i)) :
    Slice.ofSlice a low high h = .error (.error (Slice.boundsError lo hi (xs.length - i))) h := by
  rw [slice.ofSlice_eq tidy, hlo, hhi, if_neg no]

/-- A slice of a slice is a slice, with the positions added up. -/
theorem ofSliceTwice_cuts (slice : h.IsSlice a d i j xs) (tidy : h.Tidy) (hlo : low.getD 0 = lo) (hhi : high.getD (j - i : Nat) = hi)
    (hlo' : low'.getD 0 = lo') (hhi' : high'.getD (hi - lo) = hi') (bounds : Slice.Bounds lo hi (xs.length - i))
    (bounds' : Slice.Bounds lo' hi' (xs.length - i - lo.toNat)) :
    h.Cuts (ofSliceTwice a low high low' high') d (i + (lo + lo').toNat) (i + (lo + hi').toNat) (xs.length - i - (lo + lo').toNat) := by
  rcases slice.ofSlice tidy hlo hhi bounds with full | ⟨q, h₁, run, tidy₁, part⟩
  · exact .inl (full.bind _)
  obtain ⟨nonneg, le, -⟩ := bounds
  have length : high'.getD ((i + hi.toNat - (i + lo.toNat) : Nat) : Int) = hi' := by
    rw [← hhi']
    congr 1
    omega
  rw [Nat.sub_sub] at bounds'
  rcases part.ofSlice_cuts tidy₁ hlo' length bounds' with full | ⟨r, h₂, run', extent⟩
  · exact .inl (.after run full)
  · obtain ⟨nonneg', le', -⟩ := bounds'
    have first : i + (lo + lo').toNat = i + lo.toNat + lo'.toNat := by omega
    have stop : i + (lo + hi').toNat = i + lo.toNat + hi'.toNat := by omega
    have capacity : xs.length - i - (lo + lo').toNat = xs.length - (i + lo.toNat) - lo'.toNat := by omega
    rw [first, stop, capacity]
    exact .inr ⟨r, h₂, (run_after run _).trans run', extent⟩

/-- The same slice, made at once. -/
theorem ofSlice_sum_cuts (slice : h.IsSlice a d i j xs) (tidy : h.Tidy) (bounds : Slice.Bounds lo hi (xs.length - i))
    (bounds' : Slice.Bounds lo' hi' (xs.length - i - lo.toNat)) :
    h.Cuts (Slice.ofSlice a (some (lo + lo')) (some (lo + hi'))) d (i + (lo + lo').toNat) (i + (lo + hi').toNat)
      (xs.length - i - (lo + lo').toNat) := by
  obtain ⟨nonneg, le, within⟩ := bounds
  obtain ⟨nonneg', le', within'⟩ := bounds'
  exact slice.ofSlice_cuts tidy rfl rfl ⟨by omega, by omega, by omega⟩

/-- Bounds outside what is left of the capacity. -/
theorem ofSliceTwice_rejected (slice : h.IsSlice a d i j xs) (tidy : h.Tidy) (hlo : low.getD 0 = lo) (hhi : high.getD (j - i : Nat) = hi)
    (hlo' : low'.getD 0 = lo') (hhi' : high'.getD (hi - lo) = hi') (bounds : Slice.Bounds lo hi (xs.length - i))
    (no : ¬Slice.Bounds lo' hi' (xs.length - i - lo.toNat)) : NoMemory (ofSliceTwice a low high low' high') h ∨
      ∃ h', ofSliceTwice a low high low' high' h = .error (.error (Slice.boundsError lo' hi' (xs.length - i - lo.toNat))) h' := by
  rcases slice.ofSlice tidy hlo hhi bounds with full | ⟨q, h₁, run, tidy₁, part⟩
  · exact .inl (full.bind _)
  obtain ⟨nonneg, le, -⟩ := bounds
  have length : high'.getD ((i + hi.toNat - (i + lo.toNat) : Nat) : Int) = hi' := by
    rw [← hhi']
    congr 1
    omega
  rw [Nat.sub_sub] at no ⊢
  exact .inr ⟨h₁, (run_after run _).trans (part.ofSlice_rejected tidy₁ hlo' length no)⟩

end IsSlice

end Heap

open Ideal Heap

variable {code : Array Instruction} {config : Config} {journal : Journal} {history : List Entry} {x : Execution}

/-- A slice of the store lies within its array, so the one in the heap does. -/
theorem Rep.isSlice {w : World} {s : Store} {h : Heap} {a : Nat} (rep : Rep w s h) (typed : s.Typed) (holds : h.Holds a .slice) :
    ∃ d i j xs, h.IsSlice a d i j xs := by
  obtain ⟨r, o, home, ho, tag, has⟩ := rep.object_at holds (by decide)
  obtain ⟨array, first, stop, n, found, le, within, behind⟩ := typed.slice ⟨o, ho, tag⟩
  cases ho.symm.trans found
  obtain ⟨is, there, hfirst, hstop⟩ := has
  rcases behind with ⟨none, rfl⟩ | ⟨ys, hys, rfl⟩
  · have same : h.ref a Slice.arrayField = unassigned := rep.single _ _ _ (none ▸ there) rep.nil
    exact ⟨unassigned, first, stop, [], is, same, hfirst, hstop, .empty, le, within⟩
  · obtain ⟨o, ho', has⟩ := rep.object _ _ there
    cases hys.symm.trans ho'
    obtain ⟨as, items, homes⟩ := has
    refine ⟨_, first, stop, as, is, rfl, hfirst, hstop, ⟨fun none => ?_, fun _ => items⟩, le, homes.length_eq ▸ within⟩
    have array : array = unassigned := (rep.eq_unassigned there).mp none
    cases typed.nil.unique (show s.IsTag unassigned .array from ⟨_, array ▸ hys, rfl⟩)

/-- Every slice lies within its array, or is nil: after any operations on slices, and in every state of a run. A part of a slice is made,
if there is memory for it, exactly for bounds within the capacity, and shows those positions of the same array. A part of a part is made
exactly if the first part is and the second bounds are within what is left of the capacity, and it is the part for the added bounds. -/
theorem Heap.IsSlice.reslicing :
    (∀ {h h' : Heap} {ops : List SliceOperation}, h.Tidy → h.Windowed → SliceOperation.Performs h ops h' →
      ∀ a, h'.Allocated a → h'.tagAt a = .slice → ∃ d i j xs, h'.IsSlice a d i j xs ∧ h'.Window d i j) ∧
    (∀ {code config journal history x}, Run code config journal history x →
      ∀ a, x.machine.heap.Holds a .slice → ∃ d i j xs, x.machine.heap.IsSlice a d i j xs ∧ x.machine.heap.Window d i j) ∧
    ∀ {h : Heap} {a d i j : Nat} {xs : List Nat}, h.Tidy → h.IsSlice a d i j xs →
      ∀ (low high low' high' : Option Int) {lo hi lo' hi' : Int} {cap : Nat}, xs.length - i = cap →
        low.getD 0 = lo → high.getD (j - i : Nat) = hi → low'.getD 0 = lo' → high'.getD (hi - lo) = hi' →
      h.Extent a d i j cap ∧
      (Slice.Bounds lo hi cap → h.Cuts (Slice.ofSlice a low high) d (i + lo.toNat) (i + hi.toNat) (cap - lo.toNat)) ∧
      (¬Slice.Bounds lo hi cap →
        Slice.ofSlice a low high h = .error (.error (Slice.boundsError lo hi cap)) h ∧
        ofSliceTwice a low high low' high' h = .error (.error (Slice.boundsError lo hi cap)) h) ∧
      (Slice.Bounds lo hi cap → Slice.Bounds lo' hi' (cap - lo.toNat) →
        h.Cuts (ofSliceTwice a low high low' high') d (i + (lo + lo').toNat) (i + (lo + hi').toNat) (cap - (lo + lo').toNat) ∧
        h.Cuts (Slice.ofSlice a (some (lo + lo')) (some (lo + hi'))) d (i + (lo + lo').toNat) (i + (lo + hi').toNat)
          (cap - (lo + lo').toNat)) ∧
      (Slice.Bounds lo hi cap → ¬Slice.Bounds lo' hi' (cap - lo.toNat) → NoMemory (ofSliceTwice a low high low' high') h ∨
        ∃ h', ofSliceTwice a low high low' high' h = .error (.error (Slice.boundsError lo' hi' (cap - lo.toNat))) h') := by
  refine ⟨fun tidy windowed performs a ha tag => ?_, fun run a holds => ?_, ?_⟩
  · have orderly := performs.orderly ⟨tidy, windowed⟩
    obtain ⟨d, i, j, xs, slice⟩ := orderly.windowed.isSlice orderly.tidy ha tag
    exact ⟨d, i, j, xs, slice, slice.window⟩
  · obtain ⟨w, t, log, followed⟩ := run.followed
    obtain ⟨d, i, j, xs, slice⟩ := followed.sim.machine.rep.isSlice followed.steady.linked.typed holds
    exact ⟨d, i, j, xs, slice, slice.window⟩
  · rintro h a d i j xs tidy slice low high low' high' lo hi lo' hi' cap rfl hlo hhi hlo' hhi'
    refine ⟨slice.extent tidy, slice.ofSlice_cuts tidy hlo hhi, fun no => ?_, fun bounds bounds' => ?_, fun bounds no => ?_⟩
    · have run := slice.ofSlice_rejected tidy hlo hhi no
      exact ⟨run, by rw [ofSliceTwice, HeapM.run_bind, run]⟩
    · exact ⟨slice.ofSliceTwice_cuts tidy hlo hhi hlo' hhi' bounds bounds', slice.ofSlice_sum_cuts tidy bounds bounds'⟩
    · exact slice.ofSliceTwice_rejected tidy hlo hhi hlo' hhi' bounds no

/-- A slice of the first item of an array of three: after an append, in a run, and as what the other two items are a slice of. -/
theorem Heap.IsSlice.reslicing_row :
    (∃ h', SliceOperation.Performs rowHeap [.append 4 [2]] h' ∧ ∃ a, h'.Allocated a ∧ h'.tagAt a = .slice ∧
      ∃ d i j xs, h'.IsSlice a d i j xs ∧ h'.Window d i j) ∧
    (∃ history x, Run #[.loadInt 7, .makeArray 1, .slice false false, .done] { heapWords := 256 } (.start none) history x ∧
      ∃ a d i j xs, x.machine.heap.IsSlice a d i j xs ∧ x.machine.heap.Window d i j) ∧
    ∃ r h', ofSliceTwice 4 none (some 3) (some 1) none rowHeap = .ok r h' ∧ h'.Extent r 8 1 3 2 := by
  have tidy : rowHeap.Tidy := tidy_built (by decide) (by decide +kernel) (by decide +kernel)
  have items : rowHeap.IsSeq 8 .array [2, 0, 0] := ⟨by decide +kernel, rfl, by decide +kernel, by decide +kernel⟩
  have slice : rowHeap.IsSlice 4 8 0 1 [2, 0, 0] :=
    ⟨by decide +kernel, by decide +kernel, by decide +kernel, by decide +kernel, ⟨by decide, fun _ => items⟩, by decide, by decide⟩
  refine ⟨⟨_, .cons ?_ .nil, 4, ?_⟩, ?_, ?_⟩
  · exact show rowHeap.Is 4 .slice 3 ∧ ∀ v ∈ [2], rowHeap.Allocated v by decide +kernel
  · have windowed : rowHeap.Windowed := by
      have small : ∀ a < 64, rowHeap.Allocated a → rowHeap.tagAt a = .slice → rowHeap.Is a .slice 3 ∧
          rowHeap.Window (rowHeap.ref a Slice.arrayField) (rowHeap.ref a Slice.firstField) (rowHeap.ref a Slice.stopField) := by
        decide +kernel
      intro a ha
      exact small a (Nat.lt_of_lt_of_eq (tidy.sound.lt_capacity ha) (by decide +kernel)) ha
    have here : (SliceOperation.after rowHeap (.append 4 [2])).Is 4 .slice 3 := by decide +kernel
    refine ⟨here.allocated, here.tag, IsSlice.reslicing.1 tidy windowed (.cons ?_ .nil) 4 here.allocated here.tag⟩
    exact show rowHeap.Is 4 .slice 3 ∧ ∀ v ∈ [2], rowHeap.Allocated v by decide +kernel
  · obtain ⟨history, x, run, found⟩ := Run.of_follow (P := fun _ x => x.machine.heap.finds x.main [0, 0, 0] .slice)
      #[.loadInt 7, .makeArray 1, .slice false false, .done] { heapWords := 256 } (.start none) 3 (by decide +kernel)
    obtain ⟨a, -, holds⟩ := finds_holds found
    exact ⟨history, x, run, a, IsSlice.reslicing.2.1 run a holds⟩
  · have runs : Passes (fun _ _ => true) (ofSliceTwice 4 none (some 3) (some 1) none rowHeap) = true := by decide +kernel
    obtain ⟨r, h', run, -⟩ := passes_iff.mp runs
    obtain ⟨-, -, -, twice, -⟩ := IsSlice.reslicing.2.2 tidy slice none (some 3) (some 1) none rfl rfl rfl rfl rfl
    rcases (twice (by decide) (by decide)).1 with ⟨_, _, full⟩ | ⟨_, _, run', extent⟩
    · cases run.symm.trans full
    · cases run.symm.trans run'
      exact ⟨r, h', run, extent⟩

end FiberMachine
