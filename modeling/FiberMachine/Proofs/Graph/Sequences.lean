import FiberMachine.Object.Callable
import FiberMachine.Object.Slice
import FiberMachine.Proofs.Graph.Making

/-!
# Sequences, slices and closures in two heaps

The elements that go into a new array are protected while it is allocated. Those that are copied from another array
are kept alive by that array, which is protected.
-/

namespace FiberMachine

namespace Heap

variable {v v' : View} {h h' k k' : Heap} {a a' b b' c d d' i j n x x' : Nat} {t u : Tag} {as xs values values' : List Addr} {P : Addr → Prop}

/-! ### References in a row -/

namespace Twins

variable (g : Twins v h k)
include g

theorem readNats_references (ha : v.blocks a) (refers : ∀ j < n, h.RefersAt a (i + j)) :
    Mirrors h k (readNats a i n) (readNats (v.name a) i n) fun xs ys => ys = xs.map v.name ∧ (∀ x ∈ xs, h.Child a x) ∧ xs.length = n := by
  induction n generalizing i with
  | zero => exact .answer ⟨rfl, fun _ no => absurd no List.not_mem_nil, rfl⟩
  | succ n ih =>
    refine (g.readNat_reference ha (refers 0 (Nat.succ_pos n))).bind fun x _ _ => ?_
    rintro ⟨rfl, -, rfl⟩
    refine (ih (i := i + 1) fun j hj => ?_).bind fun xs _ _ => ?_
    · rw [Nat.add_assoc, Nat.add_comm 1 j]
      exact refers (j + 1) (by omega)
    rintro ⟨rfl, children, rfl⟩
    refine .answer ⟨rfl, fun x hx => ?_, rfl⟩
    rcases List.mem_cons.mp hx with rfl | hx
    · exact g.child_of_refers ha (refers 0 (Nat.succ_pos _))
    · exact children x hx

/-- The number of items is read. -/
theorem length_same (ha : v.blocks a) (counted : (h.tagAt a).layout = .counted) :
    Mirrors h k (Sequence.length a) (Sequence.length (v.name a)) fun x y => y = x ∧ x = h.ref a 0 :=
  g.readNat_number ha ((numberAt_counted rfl counted).mpr rfl)

/-- If the length of an array can be read, there is one. -/
theorem arrayLength_same (ha : v.blocks a) (array : a ≠ unassigned → h.tagAt a = .array) :
    Mirrors h k (Sequence.length a) (Sequence.length (v.name a)) fun x y => (y = x ∧ x = h.ref a 0) ∧ h.tagAt a = .array :=
  g.known array fun tag => g.length_same ha (tag ▸ rfl)

/-- An item is read. -/
theorem slot_same (ha : v.blocks a) (counted : (h.tagAt a).layout = .counted) (hi : i < h.ref a 0) :
    Mirrors h k (Sequence.slot a i) (Sequence.slot (v.name a) i) fun x y => y = v.name x ∧ h.Child a x := by
  have refers : h.RefersAt a (1 + i) := (refersAt_counted rfl counted).mpr ⟨by omega, by omega⟩
  refine (g.readNat_reference ha refers).weaken fun x y _ => ?_
  rintro ⟨rfl, -, rfl⟩
  exact ⟨rfl, g.child_of_refers ha refers⟩

/-- All items are read. -/
theorem items_same (ha : v.blocks a) (counted : (h.tagAt a).layout = .counted) :
    Mirrors h k (Sequence.toList a) (Sequence.toList (v.name a)) fun xs ys => ys = xs.map v.name ∧ ∀ x ∈ xs, h.Child a x := by
  refine (g.length_same ha counted).bind fun n _ _ => ?_
  rintro ⟨rfl, rfl⟩
  refine Mirrors.room.bind fun _ _ _ _ => ?_
  refine (g.readNats_references ha fun j hj => ?_).weaken fun xs ys _ done => ⟨done.1, done.2.1⟩
  exact (refersAt_counted rfl counted).mpr ⟨by omega, by omega⟩

end Twins

/-- References are stored one after the other. -/
theorem Twins.edits_slots (g : Twins v h k) (ha : v.blocks a) (self : P a) (counted : (h.tagAt a).layout = .counted) (hxs : ∀ x ∈ xs, v.blocks x) :
    Edits P v h k (Sequence.setSlots a i xs) (Sequence.setSlots (v.name a) i (xs.map v.name)) fun _ _ _ => True := by
  induction xs generalizing h k i with
  | nil => exact .answer g trivial
  | cons x xs ih =>
    refine (g.edits_item ha self counted (hxs x List.mem_cons_self)).bind fun _ _ h' k' g' e _ => ?_
    exact ih (i := i + 1) g' ((e.tag a ha).symm ▸ counted) fun y hy => hxs y (List.mem_cons_of_mem x hy)

/-- Items are copied from one counted block into another. -/
theorem Twins.edits_copySlots (g : Twins v h k) (ha : v.blocks a) (hb : v.blocks b) (self : P b) (counted : (h.tagAt a).layout = .counted)
    (counted' : (h.tagAt b).layout = .counted) (within : j + n ≤ h.ref a 0) :
    Edits P v h k (Sequence.copySlots a j b i n) (Sequence.copySlots (v.name a) j (v.name b) i n) fun _ _ _ => True := by
  induction n generalizing h k i j with
  | zero => exact .answer g trivial
  | succ n ih =>
    refine Edits.read (g.slot_same ha counted (by omega)) fun x _ _ => ?_
    rintro ⟨rfl, child⟩
    refine (g.edits_item hb self counted' (g.closed a x ha child)).bind fun _ _ h' k' g' e _ => ?_
    have more := e.count a ha counted
    exact ih (i := i + 1) (j := j + 1) g' ((e.tag a ha).symm ▸ counted) ((e.tag b hb).symm ▸ counted') (by omega)

/-! ### Arrays and environments -/

namespace Echoes

/-- A sequence is made and filled. -/
theorem filled (g : Twins v h k) (has : ∀ a ∈ as, v.blocks a) (counted : t.layout = .counted) (live : ∀ x ∈ xs, h.Live as x) (n : Nat) :
    Echoes v h k (Heap.withRoots as (Sequence.create t n) >>= fun a => Sequence.setSlots a 0 xs >>= fun _ => Pure.pure a)
      (Heap.withRoots (as.map v.name) (Sequence.create t n) >>= fun a => Sequence.setSlots a 0 (xs.map v.name) >>= fun _ => Pure.pure a)
      fun v' h' a b => Answers t v' h' a b := by
  refine (growing (R := fun v' h' a b => Answers t v' h' a b) g has (createRooted g has counted n) fun a v' h' k' g' adds => ?_).echoes
  rintro ⟨tag, -⟩
  rw [← adds.names live]
  have other : h'.tagAt a ≠ .channelRequest := by
    rw [tag]
    rintro rfl
    cases counted
  refine (g'.edits_slots (P := fun b => h'.tagAt b ≠ .channelRequest) adds.new other (tag ▸ counted) fun x hx => adds.old (live x hx)).bind
    fun _ _ h'' k'' g'' e _ => .answer g'' ⟨adds.new, rfl, (e.tag a adds.new).trans tag⟩

theorem arrayOf (g : Twins v h k) (hxs : ∀ x ∈ xs, v.blocks x) :
    Echoes v h k (Sequence.arrayOf xs) (Sequence.arrayOf (xs.map v.name)) fun v' h' a b => Answers .array v' h' a b := by
  rw [show Sequence.arrayOf (xs.map v.name) = (Heap.withRoots (xs.map v.name) (Sequence.create .array xs.length) >>= fun a =>
    Sequence.setSlots a 0 (xs.map v.name) >>= fun _ => Pure.pure a) from congrArg (fun n => Heap.withRoots (xs.map v.name) (Sequence.create .array n) >>=
      fun a => Sequence.setSlots a 0 (xs.map v.name) >>= fun _ => Pure.pure a) (List.length_map v.name)]
  exact filled g hxs rfl (fun x hx => .extra hx) xs.length

theorem extend (g : Twins v h k) (q : Answers .environment v h a b) (r : Answers t v h c d) :
    Echoes v h k (Scope.extend a c) (Scope.extend b d) fun v' h' a b => Answers .environment v' h' a b := by
  obtain ⟨ha, rfl, tag⟩ := q
  obtain ⟨hc, rfl, -⟩ := r
  have has : ∀ x ∈ [a, c], v.blocks x := by simp [ha, hc]
  refine read (g.items_same ha (tag ▸ rfl)) fun xs _ _ => ?_
  rintro ⟨rfl, children⟩
  rw [List.length_map]
  have live : ∀ x ∈ xs ++ [c], h.Live [a, c] x := by
    intro x hx
    rcases List.mem_append.mp hx with hx | hx
    · exact Live.child (.extra (by simp)) (children x hx)
    · exact .extra (by simp [List.mem_singleton.mp hx])
  have made := filled (t := .environment) g has rfl live (xs.length + 1)
  rwa [List.map_append] at made

/-! ### Objects with one block -/

/-- An object with fixed fields is made. -/
theorem record {ρ : List Addr} {m m' : HeapM Addr} {ω χ : List (Nat × Word)} {π : List Nat} (g : Twins v h k) (has : ∀ a ∈ ρ, v.blocks a)
    (layout : t.layout = .fields π) (node : t ≠ .listNode) (within : ∀ p ∈ π, p < n)
    (eq : m = Heap.withRoots ρ (allocateTagged t n) >>= fun a => writes a ω >>= fun _ => Pure.pure a)
    (eq' : m' = Heap.withRoots (ρ.map v.name) (allocateTagged t n) >>= fun a => writes a χ >>= fun _ => Pure.pure a)
    (each : List.Forall₂ (Stores ρ v h t π) ω χ) : Echoes v h k m m' fun v' h' a b => Answers t v' h' a b :=
  (fields g has layout node within eq eq' each).weaken fun _ _ _ _ done => ⟨done.2.1.new, done.1, done.2.2⟩

theorem closure (g : Twins v h k) (q : Answers t v h a b) (entry arity declaration : Nat) :
    Echoes v h k (Closure.create entry arity a declaration) (Closure.create entry arity b declaration) fun v' h' a b => Answers .func v' h' a b := by
  obtain ⟨ha, rfl, -⟩ := q
  refine record (ρ := [a]) (π := [2]) (n := 4)
    (ω := [(0, UInt64.ofNat entry), (1, UInt64.ofNat arity), (2, UInt64.ofNat a), (3, UInt64.ofNat declaration)])
    (χ := [(0, UInt64.ofNat entry), (1, UInt64.ofNat arity), (2, UInt64.ofNat (v.name a)), (3, UInt64.ofNat declaration)])
    g (by simpa using ha) rfl (by decide) (by decide) ?_ ?_ ?_
  · simp only [Closure.create, writes, bind_assoc, pure_bind]
    rfl
  · simp only [Closure.create, writes, bind_assoc, pure_bind]
    rfl
  · refine .cons (.number (by decide)) (.cons (.number (by decide)) (.cons (.reference (by decide) (.extra (by simp)) ?_)
      (.cons (.number (by decide)) .nil)))
    exact fun u leads => by cases leads

theorem window (g : Twins v h k) (ha : v.blocks a) (tag : a ≠ unassigned → h.tagAt a = .array) (first stop : Nat) :
    Echoes v h k (Slice.window a first stop) (Slice.window (v.name a) first stop) fun v' h' a b => Answers .slice v' h' a b := by
  refine record (ρ := [a]) (π := [0]) (n := 3)
    (ω := [(0, UInt64.ofNat a), (1, UInt64.ofNat first), (2, UInt64.ofNat stop)])
    (χ := [(0, UInt64.ofNat (v.name a)), (1, UInt64.ofNat first), (2, UInt64.ofNat stop)])
    g (by simpa using ha) rfl (by decide) (by decide) ?_ ?_ ?_
  · simp only [Slice.window, writes, bind_assoc, pure_bind]
    rfl
  · simp only [Slice.window, writes, bind_assoc, pure_bind]
    rfl
  · refine .cons (.reference (by decide) (.extra (by simp)) ?_) (.cons (.number (by decide)) (.cons (.number (by decide)) .nil))
    rintro u leads
    cases leads
    exact (em (a = unassigned)).imp_right tag

end Echoes

/-! ### Slices -/

namespace Twins

section

variable (g : Twins v h k) (ha : v.blocks a) (tag : h.tagAt a = .slice)
include g ha tag

/-- The array behind a slice is read. -/
theorem sliceArray_same : Mirrors h k (Slice.array a) (Slice.array (v.name a)) fun x y =>
    y = v.name x ∧ v.blocks x ∧ x = h.ref a 0 ∧ (x ≠ unassigned → h.tagAt x = .array) :=
  g.readNat_leads ha tag rfl

theorem sliceFirst_same : Mirrors h k (Slice.first a) (Slice.first (v.name a)) fun x y => y = x ∧ x = h.ref a 1 :=
  g.readNat_number ha ((numberAt_fields tag rfl).mpr (by decide))

theorem sliceLength_same : Mirrors h k (Slice.length a) (Slice.length (v.name a)) fun x y => y = x ∧ h.ref a 1 + x = h.ref a 2 := by
  refine (g.readNat_number (i := 2) ha ((numberAt_fields tag rfl).mpr (by decide))).bind fun _ _ _ => ?_
  rintro ⟨rfl, rfl⟩
  refine (g.sliceFirst_same ha tag).bind fun _ _ _ => ?_
  rintro ⟨rfl, rfl⟩
  exact .difference

theorem sliceCapacity_same : Mirrors h k (Slice.capacity a) (Slice.capacity (v.name a)) fun x y => y = x ∧ (h.ref a 0 = unassigned → x = 0) := by
  refine (g.sliceArray_same ha tag).bind fun d _ _ => ?_
  rintro ⟨rfl, hd, rfl, array⟩
  by_cases nil : h.ref a 0 = unassigned
  · rw [if_pos nil, if_pos ((g.name_nil hd).mpr nil)]
    exact .answer ⟨rfl, fun _ => rfl⟩
  · rw [if_neg nil, if_neg (mt (g.name_nil hd).mp nil)]
    refine (g.length_same hd (array nil ▸ rfl)).bind fun _ _ _ => ?_
    rintro ⟨rfl, rfl⟩
    refine (g.sliceFirst_same ha tag).bind fun _ _ _ => ?_
    rintro ⟨rfl, rfl⟩
    exact Mirrors.difference.weaken fun _ _ _ done => ⟨done.1, fun no => absurd no nil⟩

end

end Twins

theorem Mirrors.bounds {low high : Int} : Mirrors h k (Slice.checkBounds low high n) (Slice.checkBounds low high n) fun _ _ => True := by
  refine (Mirrors.same ?_).weaken fun _ _ _ _ => trivial
  unfold Slice.checkBounds
  split <;> split <;> rfl

namespace Echoes

variable {low high : Option Int}

theorem ofSlice (g : Twins v h k) (q : Answers .slice v h a b) :
    Echoes v h k (Slice.ofSlice a low high) (Slice.ofSlice b low high) fun v' h' a b => Answers .slice v' h' a b := by
  obtain ⟨ha, rfl, tag⟩ := q
  refine read (g.sliceCapacity_same ha tag) fun capacity _ _ => ?_
  rintro ⟨rfl, -⟩
  refine read (g.sliceLength_same ha tag) fun length _ _ => ?_
  rintro ⟨rfl, -⟩
  refine read Mirrors.bounds fun _ _ _ _ => ?_
  refine read (g.sliceFirst_same ha tag) fun first _ _ => ?_
  rintro ⟨rfl, -⟩
  refine read (g.sliceArray_same ha tag) fun array _ _ => ?_
  rintro ⟨rfl, hd, -, is⟩
  exact window g hd is _ _

theorem ofArray (g : Twins v h k) (q : Answers .array v h a b) :
    Echoes v h k (Slice.ofArray a low high) (Slice.ofArray b low high) fun v' h' a b => Answers .slice v' h' a b := by
  obtain ⟨ha, rfl, tag⟩ := q
  refine read (g.length_same ha (tag ▸ rfl)) fun length _ _ => ?_
  rintro ⟨rfl, -⟩
  refine read Mirrors.bounds fun _ _ _ _ => ?_
  exact window g ha (fun _ => tag) _ _

/-- The slice has a window onto its array. -/
theorem append (g : Twins v h k) (q : Answers .slice v h a b) (inside : h.ref a 0 ≠ unassigned → h.ref a 2 ≤ h.ref (h.ref a 0) 0)
    (hvs : ∀ x ∈ values, v.blocks x) :
    Echoes v h k (Slice.append a values) (Slice.append b (values.map v.name)) fun v' h' a b => Answers .slice v' h' a b := by
  obtain ⟨ha, rfl, tag⟩ := q
  refine read (g.sliceArray_same ha tag) fun old _ _ => ?_
  rintro ⟨rfl, hd, rfl, array⟩
  refine read (g.sliceFirst_same ha tag) fun first _ _ => ?_
  rintro ⟨rfl, rfl⟩
  refine read (g.sliceLength_same ha tag) fun _ length _ => ?_
  rintro ⟨rfl, stop⟩
  refine read (g.sliceCapacity_same ha tag) fun _ capacity _ => ?_
  rintro ⟨rfl, none⟩
  rw [List.length_map]
  by_cases fits : length + values.length ≤ capacity
  · rw [if_pos fits, if_pos fits]
    have edit : Edits (fun b => h.tagAt b ≠ .channelRequest) v h k (Sequence.setSlots (h.ref a 0) (h.ref a 1 + length) values)
        (Sequence.setSlots (v.name (h.ref a 0)) (h.ref a 1 + length) (values.map v.name)) fun _ _ _ => True := by
      by_cases nil : h.ref a 0 = unassigned
      · have : values = [] := List.eq_nil_of_length_eq_zero (by have := none nil; omega)
        subst this
        exact .answer g trivial
      · exact g.edits_slots (P := fun b => h.tagAt b ≠ .channelRequest) hd (by rw [array nil]; decide) (array nil ▸ rfl) hvs
    refine (edits g edit fun r _ request out => out request).bind g fun _ _ v' h' k' g' e => ?_
    rintro ⟨rfl, edited, -⟩
    exact window g' hd (fun some => (edited.tag _ hd).trans (array some)) _ _
  · rw [if_neg fits, if_neg fits]
    have has : ∀ x ∈ values ++ [h.ref a 0], v.blocks x := by
      intro x hx
      rcases List.mem_append.mp hx with hx | hx
      · exact hvs x hx
      · exact List.mem_singleton.mp hx ▸ hd
    have grow := growing (R := fun v' h' a b => Answers .array v' h' a b) g has
      (createRooted (t := .array) g has rfl (Slice.grownCapacity capacity (length + values.length)))
      (p := fun grown => Sequence.copySlots (h.ref a 0) (h.ref a 1) grown 0 length >>= fun _ =>
        Sequence.setSlots grown length values >>= fun _ => Pure.pure grown)
      (q := fun grown => Sequence.copySlots (v.name (h.ref a 0)) (h.ref a 1) grown 0 length >>= fun _ =>
        Sequence.setSlots grown length (values.map v.name) >>= fun _ => Pure.pure grown) ?_
    · have both := grow.echoes.bind g
        (p := fun grown => Slice.window grown 0 (length + values.length)) (q := fun grown => Slice.window grown 0 (length + values.length))
        fun c d v' h' k' g' _ made => by
          obtain ⟨hc, rfl, is⟩ := made
          exact window g' hc (fun _ => is) _ _
      rw [List.map_append] at both
      simp only [bind_assoc, pure_bind] at both
      exact both
    · rintro c v' h' k' g' adds ⟨is, -⟩
      have other : h'.tagAt c ≠ .channelRequest := by
        rw [is]
        decide
      have live (x : Nat) (hx : x ∈ values) : h.Live (values ++ [h.ref a 0]) x := .extra (List.mem_append_left _ hx)
      have live' : h.Live (values ++ [h.ref a 0]) (h.ref a 0) := .extra (by simp)
      have copied : Edits (fun b => h'.tagAt b ≠ .channelRequest) v' h' k' (Sequence.copySlots (h.ref a 0) (h.ref a 1) c 0 length)
          (Sequence.copySlots (v.name (h.ref a 0)) (h.ref a 1) (v'.name c) 0 length) fun _ _ _ => True := by
        by_cases nil : h.ref a 0 = unassigned
        · cases length with
          | zero => exact .answer g' trivial
          | succ n => exact Edits.read (R := fun _ _ => False) (fun _ run => absurd nil (g'.readNat_nil run)) fun _ _ _ no => no.elim
        · have kept := adds.kept _ live'
          have counted : (h.tagAt (h.ref a 0)).layout = .counted := array nil ▸ rfl
          rw [← adds.name _ live']
          refine g'.edits_copySlots (P := fun b => h'.tagAt b ≠ .channelRequest) (adds.old live') adds.new other ?_ (is ▸ rfl) ?_
          · rwa [kept.tagAt]
          · rw [kept.ref ((g.laidOut hd).count_lt_room counted)]
            have := inside nil
            omega
      refine copied.bind fun _ _ h'' k'' g'' e _ => ?_
      rw [← adds.names live]
      have counted : (h''.tagAt c).layout = .counted := by
        rw [e.tag c adds.new, is]
        rfl
      refine (g''.edits_slots (P := fun b => h'.tagAt b ≠ .channelRequest) adds.new other counted fun x hx => adds.old (live x hx)).bind
        fun _ _ _ _ g₃ e' _ => .answer g₃ ⟨adds.new, rfl, ?_⟩
      rw [e'.tag c adds.new, e.tag c adds.new, is]

end Echoes

end Heap

end FiberMachine

/-! ## Strings and bound methods in two heaps

The bytes of a string are numbers, so they are the same in both heaps. They are protected while the block that refers to
them is allocated.
-/

namespace FiberMachine

namespace Heap

variable {v v' : View} {h h' k k' : Heap} {a a' b b' c d i j n x : Nat} {t u : Tag} {as : List Addr} {bytes : List UInt8} {P : Addr → Prop}

/-- The bytes of a string are stored. -/
theorem Twins.edits_bytes (g : Twins v h k) (ha : v.blocks a) (self : P a) (tag : h.tagAt a = .bytes) :
    Edits P v h k (Text.writeBytes a i bytes n) (Text.writeBytes (v.name a) i bytes n) fun _ _ _ => True := by
  induction n generalizing h k i bytes with
  | zero => exact .answer g trivial
  | succ n ih =>
    refine (g.edits_number ha self tag (π := []) rfl List.not_mem_nil).bind fun _ _ h' k' g' e _ => ?_
    exact ih g' ((e.tag a ha).trans tag)

/-- The bytes of a string are read. The empty string has none. -/
theorem Twins.unpack_same (g : Twins v h k) (ha : v.blocks a) (tag : a ≠ unassigned → h.tagAt a = .bytes) :
    Mirrors h k (Text.unpackFrom a i n) (Text.unpackFrom (v.name a) i n) fun x y => y = x := by
  induction n generalizing i with
  | zero => exact .answer rfl
  | succ n ih =>
    have word : Mirrors h k (read a i) (read (v.name a) i) fun w w' => w' = w := by
      intro w run
      have plain := (numberAt_fields (i := i) (tag (g.read_nil run)) (π := []) rfl).mpr List.not_mem_nil
      obtain ⟨w', run', same, -⟩ := g.read_number ha plain w run
      exact ⟨w', run', same⟩
    refine word.bind fun _ _ _ => ?_
    rintro rfl
    refine (ih (i := i + 1)).bind fun _ _ _ => ?_
    rintro rfl
    exact .answer rfl

theorem Twins.bytes_same (g : Twins v h k) (q : Answers .string v h a b) : Mirrors h k (Text.bytes a) (Text.bytes b) fun x y => y = x := by
  obtain ⟨ha, rfl, tag⟩ := q
  refine (g.readNat_number ha ((numberAt_fields tag (π := [1]) rfl).mpr (by decide))).bind fun _ n _ => ?_
  rintro ⟨rfl, -⟩
  refine Mirrors.room.bind fun _ _ _ _ => ?_
  by_cases none : n = 0
  · rw [if_pos none, if_pos none]
    exact .answer rfl
  · rw [if_neg none, if_neg none]
    refine (g.readNat_leads ha tag (i := 1) rfl).bind fun d _ _ => ?_
    rintro ⟨rfl, hd, -, stored⟩
    refine (g.unpack_same hd stored).bind fun _ _ _ => ?_
    rintro rfl
    exact .answer rfl

namespace Echoes

theorem newBytes (g : Twins v h k) : Echoes v h k (Text.newBytes bytes) (Text.newBytes bytes)
    fun v' h' a b => v'.blocks a ∧ b = v'.name a ∧ (a ≠ unassigned → h'.tagAt a = .bytes) := by
  unfold Text.newBytes
  by_cases none : bytes.isEmpty
  · rw [if_pos none]
    exact .answer g ⟨g.zero, g.nil.symm, fun no => absurd rfl no⟩
  · rw [if_neg none]
    have alloc := (allocate (t := .bytes) g (Tag.fits_fields (n := Text.wordsFor bytes.length) (π := []) rfl (by simp)) 0).weaken
      (S := fun v' h' a b => b = v'.name a ∧ Adds [] v h v' h' a ∧ h'.tagAt a = .bytes ∧ True) fun v' h' a b done =>
        ⟨done.1, done.2.1, done.2.2.is.tag, trivial⟩
    refine (make (R := fun _ _ => True) g alloc fun a v' h' k' g' adds tag _ => ?_).weaken fun _ _ _ _ done =>
      ⟨done.2.1.new, done.1, fun _ => done.2.2.1⟩
    exact (g'.edits_bytes (P := (· = a)) adds.new rfl tag).bind fun _ _ h'' k'' g'' _ _ => .answer g'' ⟨rfl, rfl, trivial⟩

theorem ofBytes (g : Twins v h k) : Echoes v h k (Text.ofBytes bytes) (Text.ofBytes bytes) fun v' h' a b => Answers .string v' h' a b := by
  refine (newBytes g).bind g fun d _ v' h' k' g' _ => ?_
  rintro ⟨hd, rfl, tag⟩
  refine record (ρ := [d]) (π := [1]) (n := 2) (ω := [(0, UInt64.ofNat bytes.length), (1, UInt64.ofNat d)])
    (χ := [(0, UInt64.ofNat bytes.length), (1, UInt64.ofNat (v'.name d))]) g' (by simpa using hd) rfl (by decide) (by decide) ?_ ?_ ?_
  · simp only [writes, bind_assoc, pure_bind]
    rfl
  · simp only [writes, bind_assoc, pure_bind]
    rfl
  · refine .cons (.number (by decide)) (.cons (.reference (by decide) (.extra (by simp)) ?_) .nil)
    rintro u leads
    cases leads
    exact (em (d = unassigned)).imp_right tag

theorem concat (g : Twins v h k) (q : Answers .string v h a b) (r : Answers .string v h c d) :
    Echoes v h k (Text.concat a c) (Text.concat b d) fun v' h' a b => Answers .string v' h' a b := by
  refine read (g.bytes_same q) fun _ _ _ => ?_
  rintro rfl
  refine read (g.bytes_same r) fun _ _ _ => ?_
  rintro rfl
  exact ofBytes g

theorem method (g : Twins v h k) (q : Answers t v h a b) (name : String) :
    Echoes v h k (Method.create a name) (Method.create b name) fun v' h' a b => Answers .method v' h' a b := by
  have ⟨ha, same, _⟩ := q
  subst same
  refine bind g (withRoots (ρ := [a]) (S := fun v' h' a b => Answers .string v' h' a b) g (by simpa using ha) (fun g' => ofBytes g')
    fun _ _ _ _ _ same made => made.arena same) fun c d v' h' k' g' _ => ?_
  rintro ⟨kept, made⟩
  obtain ⟨hc, rfl, -⟩ := made
  obtain ⟨ha', same, -⟩ := kept.answers (.inl (by simp)) q
  rw [same]
  refine record (ρ := [a, c]) (π := [0, 1]) (n := 2) (ω := [(0, UInt64.ofNat a), (1, UInt64.ofNat c)])
    (χ := [(0, UInt64.ofNat (v'.name a)), (1, UInt64.ofNat (v'.name c))]) g' (by simp [ha', hc]) rfl (by decide) (by decide) ?_ ?_ ?_
  · simp only [writes, bind_assoc, pure_bind]
    rfl
  · simp only [writes, bind_assoc, pure_bind]
    rfl
  · refine .cons (.reference (by decide) (.extra (by simp)) ?_) (.cons (.reference (by decide) (.extra (by simp)) ?_) .nil)
    · exact fun u leads => by cases leads
    · exact fun u leads => by cases leads

end Echoes

end Heap

end FiberMachine
