import FiberMachine.Object.Value
import FiberMachine.Proofs.Duplicates
import FiberMachine.Proofs.Sequences

/-!
# Copies of values

A copied value is a tree of new blocks: a box for each number and truth value, an array for each array, and at the leaves the same
strings, slices, channels and functions as in the original. All of these blocks are different, so what is stored in a copy later
cannot be seen in the original.

An array that is being copied and its copy are protected. Hence the copy that is being filled, all that it holds already and all of the
original survive the allocations of the next element, and an array that holds itself uses the memory up.
-/

namespace FiberMachine

/-- Values of this kind get a box of their own when they are copied. -/
def Tag.isScalar : Tag → Bool
  | .int | .float | .bool => true
  | _ => false

namespace Heap

/-- The values `ys` are copies of `xs` with the new blocks `new`: a box has the same words, an array holds copies of the elements, and
any other value is the same. -/
inductive Copies (h : Heap) : List Nat → List Nat → List Nat → Prop
  | nil : Copies h [] [] []
  | shared {x : Nat} {xs ys new : List Nat} (kind : (h.tagAt x).isScalar = false) (other : h.tagAt x ≠ .array)
      (rest : Copies h xs ys new) : Copies h (x :: xs) (x :: ys) new
  | box {x y : Nat} {xs ys new : List Nat} (kind : (h.tagAt x).isScalar = true) (is : h.Is y (h.tagAt x) (h.room x))
      (cells : ∀ i < h.room x, h.cell y i = h.cell x i) (rest : Copies h xs ys new) : Copies h (x :: xs) (y :: ys) (y :: new)
  | array {x y : Nat} {as bs xs ys inner new : List Nat} (original : h.IsSeq x .array as) (copy : h.IsSeq y .array bs)
      (elements : Copies h as bs inner) (rest : Copies h xs ys new) : Copies h (x :: xs) (y :: ys) (y :: (inner ++ new))

/-- The block at `a` was allocated on the way from `h` to `h'`. -/
def Allocates (h h' : Heap) (a : Nat) : Prop :=
  ∃ g, Lasts h.Allocated h g ∧ ¬g.Allocated a ∧ Lasts g.Allocated g h' ∧ h'.Allocated a

/-- From `h` to `h'` the value `v` was copied: `c` is its copy, made of the blocks `new`. -/
structure Copied (h : Heap) (v : Nat) (h' : Heap) (c : Nat) (new : List Nat) : Prop where
  evolves : Evolves h (h.Live [v]) h' (fun _ => False) new
  copies : h'.Copies [v] [c] new
  made : ∀ a ∈ new, Allocates h h' a
  nodup : new.Nodup

variable {h h' b g k : Heap} {a c i m n v x y out : Nat} {t : Tag} {w : Word} {K L : Nat → Prop}
  {as bs xs ys zs rs inner new more done left π : List Nat}

/-! ### Counted blocks -/

/-- A counted block holds as many addresses as it says. -/
theorem Tidy.counted (tidy : h.Tidy) (ha : h.Allocated a) (layout : (h.tagAt a).layout = .counted) :
    ∃ xs, h.IsSeq a (h.tagAt a) xs := by
  have laid := tidy.laidOut ha
  rw [laidOut_iff, layout] at laid
  have count : ((List.range (h.ref a 0)).map fun i => h.ref a (1 + i)).length = h.ref a 0 := by simp
  refine ⟨_, ⟨ha, rfl, ?_⟩, layout, count.symm, fun i hi => ?_⟩
  · rw [count, Nat.add_comm]
    exact laid
  · rw [List.getElem_map, List.getElem_range]

/-! ### New blocks -/

theorem Since.allocates (since : Since h h' a) (ha : h'.Allocated a) : Allocates h h' a := by
  obtain ⟨g, lasts, fresh, stable, stats⟩ := since
  exact ⟨g, lasts, fresh, .stays stable stats, ha⟩

theorem Allocates.later (made : Allocates h h' a) (lasts : Lasts h'.Allocated h' k) (ha : k.Allocated a) : Allocates h k a := by
  obtain ⟨g, before, fresh, since, -⟩ := made
  exact ⟨g, before, fresh, since.trans lasts fun _ _ hb => hb, ha⟩

theorem Allocates.earlier (made : Allocates h' k a) (lasts : Lasts h.Allocated h h') : Allocates h k a := by
  obtain ⟨g, before, rest⟩ := made
  exact ⟨g, lasts.trans before fun _ _ hb => hb, rest⟩

theorem Allocates.from_rooting (made : Allocates (h.rooting rs) h' a) : Allocates h h' a := by
  obtain ⟨g, before, rest⟩ := made
  exact ⟨g, before.from_rooting, rest⟩

theorem SameArena.lasts (same : h.SameArena k) (stats : k.stats = h.stats) : Lasts h.Allocated h k :=
  .stays (fun _ hb => (same.kept hb).stable) stats

/-! ### Reachability over blocks that are kept -/

theorem Tidy.child_kept (tidy : h.Tidy) (tidy' : h'.Tidy) (ha : h.Allocated a) (kept : Kept h h' a) : h'.Child a c ↔ h.Child a c := by
  rw [tidy.child_iff ha, tidy'.child_iff kept.allocated, kept.childrenAt (tidy.laidOut ha)]

/-- If all that can be reached is kept, then nothing else can be reached afterwards. -/
theorem Tidy.reaches_kept (tidy : h.Tidy) (tidy' : h'.Tidy) (good : ∀ r ∈ rs, h.Allocated r)
    (kept : ∀ a, h.Reaches rs a → Kept h h' a) : h'.Reaches rs a ↔ h.Reaches rs a := by
  have allocated {a : Nat} (ha : h.Reaches rs a) : h.Allocated a := ha.of_closed good tidy.consistent.child
  constructor
  · intro ha
    refine ha.of_closed (fun _ hr => .start hr) fun a c ha child => ha.child ?_
    exact (tidy.child_kept tidy' (allocated ha) (kept a ha)).mp child
  · intro ha
    refine (ha.of_closed (M := fun a => h.Reaches rs a ∧ h'.Reaches rs a) (fun _ hr => ⟨.start hr, .start hr⟩) ?_).2
    rintro a c ⟨ha, ha'⟩ child
    exact ⟨ha.child child, ha'.child ((tidy.child_kept tidy' (allocated ha) (kept a ha)).mpr child)⟩

/-- What is live stays live, and nothing else becomes so, when no live block changes. -/
theorem Evolves.live_iff (e : Evolves h (h.Live rs) h' (fun _ => False) new) (tidy : h.Tidy) (good : ∀ r ∈ rs, h.Allocated r) :
    h'.Live rs a ↔ h.Live rs a := by
  rw [Live, e.roots]
  refine tidy.reaches_kept e.tidy (fun r hr => ?_) fun a ha => e.kept a ha id
  rcases List.mem_append.mp hr with hr | hr
  · exact tidy.root hr
  · exact good r hr

/-- Different blocks start at different words. -/
theorem Tidy.length_le (tidy : h.Tidy) (nodup : π.Nodup) (good : ∀ c ∈ π, h.Allocated c) : π.length ≤ h.capacity := by
  have part : π ⊆ List.range h.capacity := fun c hc => List.mem_range.mpr (tidy.sound.lt_capacity (good c hc))
  have := (nodup.subperm part).length_le
  rwa [List.length_range] at this

/-! ### Lists of copies -/

namespace Copies

theorem length_eq (s : h.Copies xs ys new) : ys.length = xs.length := by
  induction s with
  | nil => rfl
  | shared _ _ _ ih => rw [List.length_cons, List.length_cons, ih]
  | box _ _ _ _ ih => rw [List.length_cons, List.length_cons, ih]
  | array _ _ _ _ _ ih => rw [List.length_cons, List.length_cons, ih]

/-- A copy is the original or one of the new blocks. -/
theorem mem (s : h.Copies xs ys new) (hy : y ∈ ys) : y ∈ xs ∨ y ∈ new := by
  induction s with
  | nil => exact absurd hy List.not_mem_nil
  | shared _ _ _ ih => grind
  | box _ _ _ _ ih => grind
  | array _ _ _ _ _ ih => grind

/-- The new blocks are found in the copies. -/
theorem new_mem (s : h.Copies xs ys new) (tidy : h.Tidy) (closed : ∀ a c, L a → h.Child a c → L c) (hys : ∀ y ∈ ys, L y) :
    ∀ a ∈ new, L a := by
  induction s with
  | nil => exact fun a ha => absurd ha List.not_mem_nil
  | shared _ _ _ ih => exact ih fun y hy => hys y (List.mem_cons_of_mem _ hy)
  | box _ _ _ _ ih =>
    intro a ha
    rcases List.mem_cons.mp ha with rfl | ha
    · exact hys a List.mem_cons_self
    · exact ih (fun y hy => hys y (List.mem_cons_of_mem _ hy)) a ha
  | array original copy _ _ ih ih' =>
    have top := hys _ List.mem_cons_self
    intro a ha
    rcases List.mem_cons.mp ha with rfl | ha
    · exact top
    rcases List.mem_append.mp ha with ha | ha
    · exact ih (fun y hy => closed _ y top (copy.child tidy hy)) a ha
    · exact ih' (fun y hy => hys y (List.mem_cons_of_mem _ hy)) a ha

theorem append (s : h.Copies xs ys new) (r : h.Copies as bs more) : h.Copies (xs ++ as) (ys ++ bs) (new ++ more) := by
  induction s with
  | nil => exact r
  | shared kind other _ ih => exact .shared kind other ih
  | box kind is cells _ ih => exact .box kind is cells ih
  | array original copy elements _ _ ih =>
    have := Copies.array original copy elements ih
    rwa [← List.append_assoc, ← List.cons_append] at this

/-- Copies are copies as long as the originals and the new blocks are kept. -/
theorem kept (s : h.Copies xs ys new) (tidy : h.Tidy) (closed : ∀ a c, K a → h.Child a c → K c) (hxs : ∀ x ∈ xs, K x)
    (old : ∀ a, K a → h.Allocated a ∧ Kept h h' a) (fresh : ∀ a ∈ new, Kept h h' a) : h'.Copies xs ys new := by
  induction s with
  | nil => exact .nil
  | shared kind other _ ih =>
    have kept := (old _ (hxs _ List.mem_cons_self)).2
    refine .shared ?_ ?_ (ih (fun x hx => hxs x (List.mem_cons_of_mem _ hx)) fresh)
    · rwa [kept.tagAt]
    · rwa [kept.tagAt]
  | @box x y _ _ _ kind is cells _ ih =>
    have original := (old x (hxs x List.mem_cons_self)).2
    have copy := fresh y List.mem_cons_self
    refine .box ?_ ?_ (fun i hi => ?_) (ih (fun x hx => hxs x (List.mem_cons_of_mem _ hx)) fun a ha => fresh a (List.mem_cons_of_mem _ ha))
    · rwa [original.tagAt]
    · rw [original.tagAt, original.room]
      exact copy.is is
    · rw [original.room] at hi
      rw [copy.cell (Nat.lt_of_lt_of_le hi is.room), original.cell hi, cells i hi]
  | @array x y _ _ _ _ _ _ original copy _ _ ih ih' =>
    have top := hxs x List.mem_cons_self
    refine .array (original.kept (old x top).2) (copy.kept (fresh y List.mem_cons_self)) (ih ?_ ?_) (ih' ?_ ?_)
    · exact fun z hz => closed x z top (original.child tidy hz)
    · exact fun a ha => fresh a (List.mem_cons_of_mem _ (List.mem_append_left _ ha))
    · exact fun z hz => hxs z (List.mem_cons_of_mem _ hz)
    · exact fun a ha => fresh a (List.mem_cons_of_mem _ (List.mem_append_right _ ha))

end Copies

/-! ### Filling an array with copies -/

/-- The array `out` is being filled with copies `ys` of `xs`, and `n` of its slots are left. Since `b` nothing else has changed of what
could be reached from `rs`. -/
structure Filling (b g : Heap) (rs : List Nat) (out : Nat) (xs ys : List Nat) (n : Nat) (new : List Nat) : Prop where
  evolves : Evolves b (fun a => b.Reaches rs a ∨ a = out) g (· = out) new
  slots : g.IsSeq out .array (ys ++ List.replicate n unassigned)
  copies : g.Copies xs ys new
  reached : ∀ x ∈ xs, b.Reaches rs x
  made : ∀ a ∈ new, Allocates b g a
  nodup : new.Nodup

/-- An array that can be filled: it is protected, and it cannot be reached from the protected values that are copied into it. -/
structure Target (b : Heap) (rs : List Nat) (out : Nat) : Prop where
  tidy : b.Tidy
  roots : ∀ r ∈ rs, r ∈ b.roots
  root : out ∈ b.roots
  apart : ¬b.Reaches rs out

namespace Filling

variable (f : Filling b g rs out xs ys n new) (s : Target b rs out)
include f s

theorem kept (ha : b.Reaches rs a) : Kept b g a := f.evolves.kept a (.inl ha) fun same => s.apart (same ▸ ha)

theorem reaches_iff : g.Reaches rs a ↔ b.Reaches rs a :=
  s.tidy.reaches_kept f.evolves.tidy (fun r hr => s.tidy.root (s.roots r hr)) fun _ ha => f.kept s ha

/-- The originals are live while the array is being filled. -/
theorem live (ha : b.Reaches rs a) : g.Live [] a :=
  ((f.reaches_iff s).mpr ha).mono fun r hr => Live.root (f.evolves.roots ▸ s.roots r hr)

theorem live_out : g.Live [] out := .root (f.evolves.roots ▸ s.root)

theorem live_new (ha : a ∈ new) : g.Live [] a := by
  refine f.copies.new_mem f.evolves.tidy (fun _ _ ha child => ha.child child) (fun y hy => ?_) a ha
  exact (f.live_out s).child (f.slots.child f.evolves.tidy (List.mem_append_left _ hy))

end Filling

/-- A new array is going to be filled. -/
theorem Target.filling (s : Target b rs out) (slots : b.IsSeq out .array (List.replicate n unassigned))
    (covers : ∀ r ∈ b.roots, b.Reaches rs r ∨ r = out) : Filling b b rs out [] [] n [] := by
  have survives : b.Survives fun a => b.Reaches rs a ∨ a = out := by
    refine ⟨?_, covers, ?_⟩
    · rintro a (ha | rfl)
      · exact ha.of_closed (fun r hr => s.tidy.root (s.roots r hr)) s.tidy.consistent.child
      · exact slots.is.allocated
    · rintro a c (ha | rfl) child
      · exact .inl (ha.child child)
      · rw [List.eq_of_mem_replicate (slots.child_mem s.tidy child)]
        exact covers unassigned List.mem_cons_self
  refine ⟨(Evolves.refl s.tidy survives).weaken (fun _ ha => ha) (fun _ _ no => no.elim) fun _ ha => ha, slots, .nil, ?_, ?_, List.nodup_nil⟩
  all_goals exact fun _ no => absurd no List.not_mem_nil

/-- A value has been copied, and the copy is stored in the next slot. -/
theorem Filling.store (f : Filling b g rs out xs ys (n + 1) new) (s : Target b rs out) (hx : b.Reaches rs x) (d : Copied g x h c more) :
    ∃ h', Sequence.setSlot out ys.length c h = .ok () h' ∧ Filling b h' rs out (xs ++ [x]) (ys ++ [c]) n (new ++ more) := by
  have tidy := f.evolves.tidy
  have tidy₁ := d.evolves.tidy
  have still {a : Nat} (ha : g.Live [] a) : g.Live [x] a := ha.mono fun r hr => Live.root (by simpa using hr)
  have kept {a : Nat} (ha : g.Live [] a) : Kept g h a := d.evolves.kept a (still ha) id
  have slots := f.slots.kept (kept (f.live_out s))
  have hc : h.Allocated c := by
    rcases d.copies.mem List.mem_cons_self with hc | hc
    · cases List.mem_singleton.mp hc
      exact (kept (f.live s hx)).allocated
    · exact (d.evolves.new c hc).1
  obtain ⟨h', run, e, slots'⟩ := slots.setSlot (i := ys.length) tidy₁ (by simp) hc
  have slots' : h'.IsSeq out .array ((ys ++ [c]) ++ List.replicate n unassigned) := by
    simpa [List.replicate_succ] using slots'
  have closed₁ (a c : Nat) (ha : b.Reaches rs a) (child : h.Child a c) : b.Reaches rs c := by
    have ha := (f.reaches_iff s).mpr ha
    have live := f.live s ((f.reaches_iff s).mp ha)
    exact (f.reaches_iff s).mp (ha.child ((tidy.child_kept tidy₁ (tidy.allocated_of_live (by simp) live) (kept live)).mp child))
  have closed (a c : Nat) (ha : b.Reaches rs a) (child : g.Child a c) : b.Reaches rs c :=
    (f.reaches_iff s).mp (((f.reaches_iff s).mpr ha).child child)
  -- the copies that are there already are live through the array, and those of the new element are not the array
  have before : h.Copies xs ys new :=
    f.copies.kept tidy closed f.reached (fun a ha => ⟨tidy.allocated_of_live (by simp) (f.live s ha), kept (f.live s ha)⟩)
      fun a ha => kept (f.live_new s ha)
  have apart {a : Nat} (ha : a ∈ new ++ more) : a ≠ out := by
    rintro rfl
    rcases List.mem_append.mp ha with ha | ha
    · exact (f.evolves.new _ ha).2 (.inr rfl)
    · exact (d.evolves.new _ ha).2 (still (f.live_out s))
  have allocated {a : Nat} (ha : a ∈ new ++ more) : h.Allocated a := by
    rcases List.mem_append.mp ha with ha | ha
    · exact (kept (f.live_new s ha)).allocated
    · exact (d.evolves.new a ha).1
  have originals {a : Nat} (ha : b.Reaches rs a) : h.Allocated a ∧ Kept h h' a := by
    have old := (kept (f.live s ha)).allocated
    exact ⟨old, e.kept a old fun same => s.apart (same ▸ ha)⟩
  have reached (z : Nat) (hz : z ∈ xs ++ [x]) : b.Reaches rs z := by
    rcases List.mem_append.mp hz with hz | hz
    · exact f.reached z hz
    · exact List.mem_singleton.mp hz ▸ hx
  have both := (before.append d.copies).kept tidy₁ closed₁ reached (fun a ha => originals ha) fun a ha => e.kept a (allocated ha) (apart ha)
  have evolves : Evolves b (fun a => b.Reaches rs a ∨ a = out) h' (· = out) (new ++ more) := by
    have first := f.evolves.trans d.evolves (fun a ha => ?_) fun a ha => still (f.live_new s ha)
    · exact (first.mutate e).weaken (fun _ ha => ha) (by grind) fun _ ha => ha
    · rcases ha with ha | rfl
      · exact still (f.live s ha)
      · exact still (f.live_out s)
  have made (a : Nat) (ha : a ∈ new ++ more) : Allocates b h' a := by
    have here := (evolves.new a ha).1
    rcases List.mem_append.mp ha with ha | ha
    · exact (f.made a ha).later (d.evolves.lasts.trans e.lasts fun _ _ hb => hb) here
    · exact ((d.made a ha).later e.lasts here).earlier f.evolves.lasts
  refine ⟨h', run, evolves, slots', both, reached, made, ?_⟩
  exact List.nodup_append.mpr ⟨f.nodup, d.nodup, fun a ha c hc same => (d.evolves.new c hc).2 (still (same ▸ f.live_new s ha))⟩

/-- The array is given up; what could be reached from `rs` has not changed. -/
theorem Filling.abandon (f : Filling b g rs out xs ys n new) (s : Target b rs out)
    (e : Evolves g (g.Live [x]) h (fun _ => False) []) : Evolves b (b.Reaches rs) h (fun _ => False) [] := by
  have still {a : Nat} (ha : g.Live [] a) : g.Live [x] a := ha.mono fun r hr => Live.root (by simpa using hr)
  refine (f.evolves.trans e (fun a ha => still ?_) fun a ha => still (f.live_new s ha)).weaken (fun _ => .inl) (fun a ha out => ?_)
    fun _ no => absurd no List.not_mem_nil
  · rcases ha with ha | rfl
    · exact f.live s ha
    · exact f.live_out s
  · rcases out with rfl | no
    · exact s.apart ha
    · exact no

/-- All remaining values are copied into the array. -/
theorem Filling.fillSlots (f : Filling b g rs out done ys left.length new) (s : Target b rs out) (hxs : ∀ x ∈ left, b.Reaches rs x)
    {copy : Addr → HeapM Addr} (each : ∀ {k : Heap} {x}, k.Tidy → k.roots = b.roots → k.capacity = b.capacity → k.Live [] x →
      Starved (copy x) k [x] ∨ ∃ c h' more, copy x k = .ok c h' ∧ Copied k x h' c more) :
    (∃ m h', Value.fillSlots copy out ys.length left g = .error (.error (.outOfMemory m)) h' ∧
      Evolves b (b.Reaches rs) h' (fun _ => False) []) ∨
      ∃ h' zs more, Value.fillSlots copy out ys.length left g = .ok () h' ∧ Filling b h' rs out (done ++ left) zs 0 more := by
  induction left generalizing g done ys new with
  | nil => exact .inr ⟨g, ys, new, rfl, by rwa [List.append_nil]⟩
  | cons x left ih =>
    have hx := hxs x List.mem_cons_self
    rcases each f.evolves.tidy f.evolves.roots f.evolves.capacity (f.live s hx) with full | ⟨c, h₁, more, run, copied⟩
    · obtain ⟨m, h', run, e⟩ := full.bind fun c => Sequence.setSlot out ys.length c >>= fun _ =>
        Value.fillSlots copy out (ys.length + 1) left
      exact .inl ⟨m, h', run, f.abandon s e⟩
    obtain ⟨h₂, run', f'⟩ := f.store s hx copied
    have start : Value.fillSlots copy out ys.length (x :: left) g = Value.fillSlots copy out (ys ++ [c]).length left h₂ := by
      simp only [Value.fillSlots, HeapM.run_bind, run, run', List.length_append, List.length_singleton]
    rcases ih f' fun z hz => hxs z (List.mem_cons_of_mem x hz) with ⟨m, h₃, full, e⟩ | ⟨h₃, zs, all, run'', f''⟩
    · exact .inl ⟨m, h₃, start.trans full, e⟩
    · exact .inr ⟨h₃, zs, all, start.trans run'', by rwa [List.append_assoc] at f''⟩

/-! ### Copying -/

/-- A number or a truth value is copied into a box of its own. -/
theorem Tidy.copied_box (tidy : h.Tidy) (hv : h.Allocated v) (kind : (h.tagAt v).isScalar = true) :
    Starved (Heap.duplicate v) h [v] ∨ ∃ c h' new, Heap.duplicate v h = .ok c h' ∧ Copied h v h' c new := by
  have layout : (h.tagAt v).layout = .fields [] := by
    cases tag : h.tagAt v <;> rw [tag] at kind <;> first | rfl | cases kind
  rcases tidy.duplicate_spec ⟨hv, rfl, le_rfl⟩ layout with full | ⟨c, h', run, fresh⟩
  · exact .inl full
  have kept : Kept h h' v := fresh.evolves.kept v (.extra List.mem_cons_self) id
  refine .inr ⟨c, h', [c], run, fresh.evolves, .box ?_ ?_ (fun i hi => ?_) .nil, fun a ha => ?_, List.nodup_singleton c⟩
  · rwa [kept.tagAt]
  · rw [kept.tagAt, kept.room]
    exact fresh.is
  · rw [kept.room] at hi
    rw [fresh.cells i hi, kept.cell hi]
  · exact List.mem_singleton.mp ha ▸ fresh.since.allocates fresh.is.allocated

theorem live_self : h.Live [v] v := .extra List.mem_cons_self

/-- A new array has been made while the original was protected. -/
structure Started (h : Heap) (v out : Nat) (h₁ : Heap) (n : Nat) : Prop where
  tidy : h.Tidy
  original : h.Allocated v
  evolves : Evolves h (h.Live [v]) h₁ (fun _ => False) [out]
  since : Since h h₁ out
  slots : h₁.IsSeq out .array (List.replicate n unassigned)

namespace Started

variable {h₁ h₂ h₃ : Heap} {zs : List Nat} (p : Started h v out h₁ n)
include p

theorem good : ∀ r ∈ [v], h.Allocated r := by simpa using p.original

theorem fresh : ¬h.Live [v] out := (p.evolves.new out List.mem_cons_self).2

theorem kept : Kept h h₁ v := p.evolves.kept v live_self id

theorem roots : (h₁.rooting [v, out]).roots = h.roots ++ [v, out] := by rw [roots_rooting, p.evolves.roots]

theorem rooted : (h₁.rooting [v, out]).Tidy :=
  p.evolves.tidy.rooting (by simpa using ⟨p.kept.allocated, p.slots.is.allocated⟩)

/-- With the new array protected as well, the same can be reached from the old roots and the original. -/
theorem reaches (a : Nat) : (h₁.rooting [v, out]).Reaches (h.roots ++ [v]) a ↔ h.Live [v] a := by
  have tidy₁ := p.evolves.tidy
  have same : (h₁.rooting [v, out]).Reaches (h₁.roots ++ [v]) a ↔ h₁.Live [v] a := by
    refine tidy₁.reaches_kept p.rooted (fun r hr => ?_) fun a ha => sameArena_rooting.kept (tidy₁.allocated_of_live (by simpa using p.kept.allocated) ha)
    rcases List.mem_append.mp hr with hr | hr
    · exact tidy₁.root hr
    · exact List.mem_singleton.mp hr ▸ p.kept.allocated
  rw [← p.evolves.live_iff p.tidy p.good, ← same, p.evolves.roots]

theorem target : Target (h₁.rooting [v, out]) (h.roots ++ [v]) out where
  tidy := p.rooted
  roots := fun r hr => by
    have := p.roots
    grind
  root := by simp [p.roots]
  apart := fun ha => p.fresh ((p.reaches out).mp ha)

theorem filling : Filling (h₁.rooting [v, out]) (h₁.rooting [v, out]) (h.roots ++ [v]) out [] [] n [] := by
  refine p.target.filling (p.slots.kept (sameArena_rooting.kept p.slots.is.allocated)) fun r hr => ?_
  rw [p.roots, List.mem_append] at hr
  rcases hr with hr | hr
  · exact .inl (.start (List.mem_append_left _ hr))
  · rcases List.mem_cons.mp hr with rfl | hr
    · exact .inl (.start (by simp))
    · exact .inr (List.mem_singleton.mp hr)

/-- The new array is given up. -/
theorem abandon (e : Evolves h₁ ((h₁.rooting [v, out]).Reaches (h.roots ++ [v])) h₂ (fun _ => False) []) :
    Evolves h (h.Live [v]) h₂ (fun _ => False) [] := by
  have before : Evolves h (h.Live [v]) h₁ (fun _ => False) [] :=
    p.evolves.weaken (fun _ ha => ha) (fun _ _ no => no) fun _ no => absurd no List.not_mem_nil
  exact (before.trans e (fun a ha => (p.reaches a).mpr ha) fun _ no => absurd no List.not_mem_nil).weaken (fun _ ha => ha)
    (fun _ _ no => no.elim id id) fun _ hb => hb

/-- All elements have been copied into the new array. -/
theorem finish (s : h.IsSeq v .array xs) (filled : Filling (h₁.rooting [v, out]) h₂ (h.roots ++ [v]) out xs zs 0 more) (same : h₂.SameArena h₃)
    (stats : h₃.stats = h₂.stats)
    (e : Evolves h₁ (fun a => (h₁.rooting [v, out]).Reaches (h.roots ++ [v]) a ∨ a = out) h₃ (· = out) more) : Copied h v h₃ out (out :: more) := by
  have evolves : Evolves h (h.Live [v]) h₃ (fun _ => False) (out :: more) := by
    have both := p.evolves.trans e (fun a ha => .inl ((p.reaches a).mpr ha)) fun a ha => .inr (List.mem_singleton.mp ha)
    refine both.weaken (fun _ ha => ha) ?_ fun _ ha => ha
    rintro a ha (no | rfl)
    · exact no
    · exact p.fresh ha
  have slots : h₃.IsSeq out .array zs := by
    have := filled.slots.kept (same.kept filled.slots.is.allocated)
    simpa using this
  have copies : h₃.Copies xs zs more := by
    have tidy₂ := filled.evolves.tidy
    have kept {a : Nat} (ha : h₂.Allocated a) : h₂.Allocated a ∧ Kept h₂ h₃ a := ⟨ha, same.kept ha⟩
    refine filled.copies.kept tidy₂ tidy₂.consistent.child (fun x hx => ?_) (fun a ha => kept ha) fun a ha => (kept (filled.evolves.new a ha).1).2
    exact (filled.kept p.target ((p.reaches x).mpr (live_self.child (s.child p.tidy hx)))).allocated
  have all : h₃.Copies [v] [out] (out :: (more ++ [])) := .array (s.kept (evolves.kept v live_self id)) slots copies .nil
  rw [List.append_nil] at all
  have made (a : Nat) (ha : a ∈ out :: more) : Allocates h h₃ a := by
    have here := (evolves.new a ha).1
    rcases List.mem_cons.mp ha with rfl | ha
    · exact (p.since.allocates p.slots.is.allocated).later e.lasts here
    · exact (((filled.made a ha).later (same.lasts stats) here).from_rooting).earlier p.evolves.lasts
  exact ⟨evolves, all, made, List.nodup_cons.mpr ⟨fun no => (filled.evolves.new out no).2 (.inr rfl), filled.nodup⟩⟩

end Started

/-- An array is copied if its elements are. -/
theorem Tidy.copied_array (tidy : h.Tidy) (s : h.IsSeq v .array xs) (copy : Addr → HeapM Addr)
    (each : ∀ {k : Heap} {out x}, k.Tidy → (∀ r ∈ out :: h.roots, r ∈ k.roots) → ¬h.Live [v] out → k.capacity = h.capacity → k.Live [] x →
      Starved (copy x) k [x] ∨ ∃ c h' more, copy x k = .ok c h' ∧ Copied k x h' c more) {m : HeapM Addr}
    (eq : m h = (do
      let out ← withRoots [v] (Sequence.newArray xs.length)
      withRoots [v, out] (Value.fillSlots copy out 0 xs)
      return out : HeapM Addr) h) :
    Starved m h [v] ∨ ∃ c h' new, m h = .ok c h' ∧ Copied h v h' c new := by
  have good : ∀ r ∈ [v], h.Allocated r := by simpa using s.is.allocated
  rcases tidy.createRooted_spec good (t := .array) rfl xs.length with full | ⟨out, h₁, run, e₁, since, slots⟩
  · obtain ⟨n, h', run, e⟩ := full.bind _
    exact .inl ⟨n, h', eq.trans run, e⟩
  have start := eq.trans (run_after run _)
  have p : Started h v out h₁ xs.length := ⟨tidy, s.is.allocated, e₁, since, slots⟩
  have elements (x : Nat) (hx : x ∈ xs) : (h₁.rooting [v, out]).Reaches (h.roots ++ [v]) x :=
    (p.reaches x).mpr (live_self.child (s.child tidy hx))
  have each₁ {k : Heap} {x : Nat} (tidy' : k.Tidy) (roots : k.roots = (h₁.rooting [v, out]).roots)
      (capacity : k.capacity = (h₁.rooting [v, out]).capacity) (hx : k.Live [] x) :
      Starved (copy x) k [x] ∨ ∃ c h' more, copy x k = .ok c h' ∧ Copied k x h' c more := by
    refine each tidy' (fun r hr => ?_) p.fresh (capacity.trans e₁.capacity) hx
    rw [roots, p.roots]
    rcases List.mem_cons.mp hr with rfl | hr
    · simp
    · exact List.mem_append_left _ hr
  rcases p.filling.fillSlots p.target elements each₁ with ⟨n, h₂, full, e₂⟩ | ⟨h₂, zs, more, run₂, filled⟩
  · obtain ⟨h₃, run₃, -, e₃⟩ := withRoots_error full e₂
    have failed : withRoots [v, out] (Value.fillSlots copy out 0 xs) h₁ = .error (.error (.outOfMemory n)) h₃ := run₃
    exact .inl ⟨n, h₃, start.trans (by rw [HeapM.run_bind, failed]), p.abandon e₃⟩
  obtain ⟨h₃, run₃, same, stats, e₃⟩ := withRoots_ok run₂ filled.evolves
  exact .inr ⟨out, h₃, out :: more, start.trans (run_after run₃ _), p.finish s filled same stats e₃⟩

/-- A value is copied while the arrays `π` are being filled; each of them needs a block of its own. -/
theorem Tidy.copyWithin (tidy : h.Tidy) (hv : h.Allocated v) (nodup : π.Nodup) (nested : ∀ c ∈ π, c ∈ h.roots)
    (fuel : h.capacity < π.length + n) :
    Starved (Value.copyWithin n v) h [v] ∨ ∃ c h' new, Value.copyWithin n v h = .ok c h' ∧ Copied h v h' c new := by
  induction n generalizing h v π with
  | zero =>
    have := tidy.length_le nodup fun c hc => tidy.root (nested c hc)
    omega
  | succ n ih =>
    have tag := tidy.sound.tag_eq ⟨hv, rfl, le_rfl⟩
    have good : ∀ r ∈ [v], h.Allocated r := by simpa using hv
    have shared (kind : (h.tagAt v).isScalar = false) (other : h.tagAt v ≠ .array) : Copied h v h v [] :=
      ⟨.refl tidy (.live tidy good), .shared kind other .nil, fun _ no => absurd no List.not_mem_nil, List.nodup_nil⟩
    have box (kind : (h.tagAt v).isScalar = true) := tidy.copied_box hv kind
    cases kind : h.tagAt v with
    | int | float | bool =>
      have start : Value.copyWithin (n + 1) v h = Heap.duplicate v h := by
        simp only [Value.copyWithin, HeapM.run_bind, HeapM.run_lift, tag, kind]
      simpa only [Starved, start] using box (kind ▸ rfl)
    | array =>
      obtain ⟨xs, s⟩ := tidy.counted hv (kind ▸ rfl)
      rw [kind] at s
      refine tidy.copied_array s (Value.copyWithin n) (fun {k out x} tidy' roots fresh capacity hx => ?_) ?_
      · refine ih tidy' (tidy'.allocated_of_live (by simp) hx) (π := out :: π) ?_ (fun c hc => roots c ?_) ?_
        · exact List.nodup_cons.mpr ⟨fun no => fresh (Live.root (nested out no)), nodup⟩
        · rcases List.mem_cons.mp hc with rfl | hc
          · exact List.mem_cons_self
          · exact List.mem_cons_of_mem _ (nested c hc)
        · rw [capacity, List.length_cons]
          omega
      · simp only [Value.copyWithin, HeapM.run_bind, HeapM.run_lift, tag, kind, s.toList_eq tidy]
    | _ =>
      have start : Value.copyWithin (n + 1) v h = .ok v h := by
        simp only [Value.copyWithin, HeapM.run_bind, HeapM.run_lift, tag, kind, HeapM.run_pure]
      exact .inr ⟨v, h, [], start, shared (kind ▸ rfl) (by simp [kind])⟩

theorem Tidy.copied_spec (tidy : h.Tidy) (hv : h.Allocated v) :
    Starved (Value.copy v) h [v] ∨ ∃ c h' new, Value.copy v h = .ok c h' ∧ Copied h v h' c new :=
  tidy.copyWithin (π := []) hv List.nodup_nil (fun _ no => absurd no List.not_mem_nil) (by simp)

theorem Tidy.copied (tidy : h.Tidy) (hv : h.Allocated v) :
    NoMemory (Value.copy v) h ∨ ∃ c h' new, Value.copy v h = .ok c h' ∧ Copied h v h' c new :=
  (tidy.copied_spec hv).imp_left Starved.noMemory

/-! ### What a copy shows, and what its arrays are used for later -/

theorem read_both {α β : Type} {r : HeapReader α} {k : α → HeapReader β} {z : β} :
    (r >>= k) h = .ok z ↔ ∃ y, r h = .ok y ∧ k y h = .ok z := by
  rw [HeapReader.run_bind]
  cases r h <;> simp

theorem read_cons {β : Type} {f : Nat → HeapReader β} {ts : List β} :
    (x :: xs).mapM f h = .ok ts ↔ ∃ t us, f x h = .ok t ∧ xs.mapM f h = .ok us ∧ t :: us = ts := by
  rw [List.mapM_cons, read_both]
  simp only [read_both, HeapReader.run_pure, Except.ok.injEq]
  grind

/-- A box with the same words is displayed as the original. -/
theorem Tidy.display_box (tidy : h.Tidy) (hx : h.Allocated x) (kind : (h.tagAt x).isScalar = true) (is : h.Is y (h.tagAt x) (h.room x))
    (cells : ∀ i < h.room x, h.cell y i = h.cell x i) : ∀ text, Value.displayWithin n x h = .ok text → Value.displayWithin n y h = .ok text := by
  intro text shown
  have original : h.Is x (h.tagAt x) (h.room x) := ⟨hx, rfl, le_rfl⟩
  cases n with
  | zero => cases shown
  | succ n =>
    rw [Value.displayWithin, HeapReader.run_bind, tidy.sound.tag_eq original] at shown
    rw [Value.displayWithin, HeapReader.run_bind, tidy.sound.tag_eq is]
    have word {z : Word} (found : read x 0 h = .ok z) : read y 0 h = .ok z := by
      by_cases inside : 0 < h.room x
      · rw [tidy.sound.read_eq is inside, cells 0 inside, ← tidy.sound.read_eq original inside, found]
      · have outside : ¬0 < 2 ^ h.levelAt x - 1 := inside
        simp only [read, HeapReader.run_bind, blockWords_eq (tidy.sound.lt_capacity hx), outside, if_false] at found
        cases found
    cases tag : h.tagAt x <;> rw [tag] at kind shown <;> try cases kind
    all_goals
      simp only [Scalar.int, Scalar.float, Scalar.bool, read_both] at shown ⊢
      obtain ⟨_, ⟨z, found, rest⟩, shown⟩ := shown
      exact ⟨_, ⟨z, word found, rest⟩, shown⟩

/-- Copies are displayed as their originals. -/
theorem Copies.display (s : h.Copies xs ys new) (tidy : h.Tidy) (good : ∀ x ∈ xs, h.Allocated x) {texts : List String}
    (shown : xs.mapM (Value.displayWithin n) h = .ok texts) : ys.mapM (Value.displayWithin n) h = .ok texts := by
  induction n generalizing xs ys new texts with
  | zero =>
    cases xs with
    | nil => cases s; exact shown
    | cons x xs =>
      obtain ⟨_, _, no, -⟩ := read_cons.mp shown
      cases no
  | succ n ih =>
    induction s generalizing texts with
    | nil => exact shown
    | shared _ _ _ rest =>
      obtain ⟨t, us, first, more, same⟩ := read_cons.mp shown
      exact read_cons.mpr ⟨t, us, first, rest (fun x hx => good x (List.mem_cons_of_mem _ hx)) more, same⟩
    | box kind is cells _ rest =>
      obtain ⟨t, us, first, more, same⟩ := read_cons.mp shown
      have first := tidy.display_box (good _ List.mem_cons_self) kind is cells t first
      exact read_cons.mpr ⟨t, us, first, rest (fun x hx => good x (List.mem_cons_of_mem _ hx)) more, same⟩
    | @array x y as bs _ _ _ _ original copy elements _ _ rest =>
      obtain ⟨t, us, first, more, same⟩ := read_cons.mp shown
      refine read_cons.mpr ⟨t, us, ?_, rest (fun x hx => good x (List.mem_cons_of_mem _ hx)) more, same⟩
      simp only [Value.displayWithin, HeapReader.run_bind, tidy.sound.tag_eq original.is, original.toList_eq tidy] at first
      simp only [Value.displayWithin, HeapReader.run_bind, tidy.sound.tag_eq copy.is, copy.toList_eq tidy]
      cases inner : as.mapM (Value.displayWithin n) h with
      | error e =>
        rw [inner] at first
        cases first
      | ok parts =>
        rw [inner] at first
        rw [ih elements (fun x hx => original.allocated tidy hx) inner]
        exact first

/-- A word is stored in one of the arrays among the blocks `new`. -/
def StoresIn (new : List Nat) (h h' : Heap) : Prop := ∃ a ∈ new, h.tagAt a = .array ∧ ∃ i x, Sequence.setSlot a i x h = .ok () h'

/-- Nothing but the array changes. -/
theorem StoresIn.kept (stores : StoresIn new h h') (s : h.Sound) (good : ∀ a ∈ new, h.Allocated a) :
    h'.Sound ∧ ∀ b, h.Allocated b → h'.Allocated b ∧ (b ∉ new → Kept h h' b) := by
  obtain ⟨a, ha, -, i, x, run⟩ := stores
  have here := good a ha
  by_cases inside : 1 + i < h.room a
  · cases run.symm.trans (s.writeNat_eq ⟨here, rfl, inside⟩ (Nat.lt_succ_self _) x)
    refine ⟨(s.put here inside).sound, fun b hb => ⟨(s.allocated_put here inside).mpr hb, fun out => s.kept_put here inside hb ?_⟩⟩
    rintro rfl
    exact out ha
  · have outside : ¬1 + i < 2 ^ h.levelAt a - 1 := inside
    simp only [Sequence.setSlot, writeNat, Heap.write, HeapM.run_bind, HeapM.run_lift, blockWords_eq (s.lt_capacity here), outside,
      if_false] at run
    cases run

/-- However often something is stored in the arrays, the blocks that are not among them stay as they are. -/
theorem kept_of_storesIn (stores : Relation.ReflTransGen (StoresIn new) h k) (s : h.Sound) (good : ∀ a ∈ new, h.Allocated a) :
    k.Sound ∧ (∀ b, h.Allocated b → k.Allocated b) ∧ ∀ b, h.Allocated b → b ∉ new → Kept h k b := by
  induction stores with
  | refl => exact ⟨s, fun _ hb => hb, fun _ hb _ => .refl hb⟩
  | tail _ store ih =>
    obtain ⟨s', still, kept⟩ := ih
    obtain ⟨s'', next⟩ := store.kept s' fun a ha => still a (good a ha)
    exact ⟨s'', fun b hb => (next b (still b hb)).1, fun b hb out => (kept b hb out).trans ((next b (still b hb)).2 out)⟩

/-- Copying a value uses the memory up, as it does when an array holds itself, or makes a faithful and independent copy: a tree of the
same shape whose boxes have the same words and whose other leaves are the same objects. Its blocks are all different and were allocated
on the way, nothing changes that could be reached from the original, the copy is displayed as the original, and what is stored in
arrays of the copy later leaves the original as it was. -/
theorem Tidy.copy_faithful (tidy : h.Tidy) (hv : h.Allocated v) :
    NoMemory (Value.copy v) h ∨ ∃ c h' new, Value.copy v h = .ok c h' ∧ h'.Copies [v] [c] new ∧ new.Nodup ∧
      (∀ a ∈ new, Allocates h h' a ∧ ¬h.Live [v] a) ∧ (∀ a, h.Live [v] a → Kept h h' a) ∧
      (∀ text, Value.display v h' = .ok text → Value.display c h' = .ok text) ∧
      ∀ k, Relation.ReflTransGen (StoresIn new) h' k → ∀ a, h.Live [v] a → Kept h k a := by
  rcases tidy.copied hv with full | ⟨c, h', new, run, d⟩
  · exact .inl full
  have tidy' := d.evolves.tidy
  have kept (a : Nat) (ha : h.Live [v] a) : Kept h h' a := d.evolves.kept a ha id
  have fresh (a : Nat) (ha : a ∈ new) : Allocates h h' a ∧ ¬h.Live [v] a := ⟨d.made a ha, (d.evolves.new a ha).2⟩
  refine .inr ⟨c, h', new, run, d.copies, d.nodup, fresh, kept, fun text shown => ?_, fun k stores a ha => (kept a ha).trans ?_⟩
  · have shown : [v].mapM (Value.displayWithin (h'.capacity + 1)) h' = .ok [text] := read_cons.mpr ⟨text, [], shown, rfl, rfl⟩
    have good : ∀ x ∈ [v], h'.Allocated x := by simpa using (kept v (.extra List.mem_cons_self)).allocated
    obtain ⟨_, _, first, -, same⟩ := read_cons.mp (d.copies.display tidy' good shown)
    cases same
    exact first
  · have stays := kept_of_storesIn stores tidy'.sound fun a ha => (d.evolves.new a ha).1
    exact stays.2.2 a (kept a ha).allocated fun no => (fresh a no).2 ha

/-- An array that holds an array and the unassigned object; the inner one holds an int. -/
def rowsHeap : Heap :=
  built 64 [.allocateTagged .int 1, .write 2 0 7, .allocateTagged .array 2, .write 4 0 1, .write 4 1 2, .allocateTagged .array 3,
    .write 8 0 2, .write 8 1 4]

theorem tidy_rowsHeap : rowsHeap.Tidy := tidy_built (by decide) (by decide +kernel) (by decide +kernel)

theorem copy_faithful_rows : ∃ c h' new, Value.copy 8 rowsHeap = .ok c h' ∧ rowsHeap.IsSeq 8 .array [4, 0] ∧ h'.Copies [8] [c] new ∧ new.Nodup ∧
    Value.display c h' = .ok "[[7] <nil>]" := by
  have here : rowsHeap.Allocated 8 := by decide +kernel
  have runs : Passes (fun c h' => (Value.display 8 h').toOption == some "[[7] <nil>]") (Value.copy 8 rowsHeap) = true := by decide +kernel
  obtain ⟨c, h', run, shown⟩ := passes_iff.mp runs
  have shown : Value.display 8 h' = .ok "[[7] <nil>]" := toOption_eq (beq_iff_eq.mp shown)
  have item : rowsHeap.IsSeq 8 .array [4, 0] := ⟨⟨here, by decide +kernel, by decide +kernel⟩, rfl, by decide +kernel, by decide +kernel⟩
  rcases tidy_rowsHeap.copy_faithful here with ⟨_, _, full⟩ | ⟨d, k, new, run', copies, nodup, -, -, same, -⟩
  · cases run.symm.trans full
  · cases run.symm.trans run'
    exact ⟨c, h', new, run, item, copies, nodup, same _ shown⟩

end Heap

end FiberMachine
