import FiberMachine.Object.Callable
import FiberMachine.Object.Scalar
import FiberMachine.Object.Slice
import FiberMachine.Proofs.Refinement.Tracking

/-!
# Sequences, slices, closures and methods

The operations on arrays, frames, environments and slices, and on closures and bound methods, follow those
of the ideal machine.
-/

/-! ## Numbers, strings, sequences and slices

The operations on values that have one block, or one block and their bytes, follow those of the
ideal machine.
-/

namespace FiberMachine

open Ideal

variable {w w' : World} {s : Store} {h h' : Heap} {r : Ref} {a i n : Nat} {t : Tag} {o : Obj} {v : Word}

/-- A new object, and what stays where it is. -/
def Makes (w : World) (h : Heap) (ρ : List Nat) (w' : World) (r : Ref) (a : Nat) : Prop :=
  w'.home r a ∧ Tracks.Stays w h ρ w'

/-- Blocks that are all different have one role each. -/
theorem roles_of_nodup {M : List (Nat × Nat)} (nodup : (M.map Prod.snd).Nodup) (k k' b : Nat) (hb : (k, b) ∈ M)
    (hb' : (k', b) ∈ M) : k = k' :=
  congrArg Prod.fst (List.inj_on_of_nodup_map nodup hb hb' rfl)

/-- An object with a single block is made. -/
theorem Tracks.fields {π : List Nat} {ρ : List Nat} {ω : List (Nat × Word)} {alloc m : HeapM Nat}
    (rep : Rep w s h) (layout : t.layout = .fields π) (good : ∀ b ∈ ρ, h.Allocated b)
    (made : Heap.NoMemory alloc h ∨ ∃ a h', alloc h = .ok a h' ∧ Heap.Fresh h (h.Live ρ) h' a t n fun _ => 0)
    (fields : ∀ p ∈ ω, p.1 < n ∧ (p.1 ∈ π → p.2.toNat ∈ unassigned :: ρ))
    (eq : m = alloc >>= fun a => Heap.writes a ω >>= fun _ => pure a)
    (has : ∀ w' a h', Tracks.Stays w h ρ w' → h'.Is a t n → (∀ i < n, h'.cell a i = Heap.overwrite (fun _ => 0) ω i) →
      w'.Has h' s.objects.length a o) : Tracks w s h m (add o) (Makes w h ρ) := by
  subst eq
  refine Tracks.make (ρ := ρ) (o := o) rep good rfl ?_ fun w' a home stays => ⟨home, stays⟩
  rcases Heap.make_fields layout made fields with full | ⟨a, h', run, f⟩
  · exact .inl full
  · right
    refine ⟨a, h', [(0, a)], fun _ => a, run, f.evolves, ?_, ?_, rfl, has _ a h' (fun q b hb lb => World.home_evolve hb lb) f.is f.cells⟩
    · simp
    · simp

/-- An object is seen. -/
theorem Reads.seen {α δ : Type} {view : Obj → Option δ} {reader : HeapReader α} {Q : δ → α → Prop} (rep : Rep w s h)
    (ha : w.home r a)
    (next : ∀ o x, s.objects[r]? = some o → view o = some x → w.Has h r a o → ∃ y, reader h = .ok y ∧ Q x y) :
    Reads s h reader (Ideal.look view r) Q := by
  have same : Reads s h reader (Ideal.look view r >>= fun x => Pure.pure x) Q := by
    refine .look rep ha fun o x ho hx has => ?_
    obtain ⟨y, run, q⟩ := next o x ho hx has
    exact .found run rfl q
  exact same.congr rfl (by rw [bind_pure])

theorem run_within (index : Int) : Ideal.within index n s =
    if index < 0 ∨ (n : Int) ≤ index then .error (.error (.heap (.indexOutOfRange index n))) s
    else .ok index.toNat s := by
  unfold Ideal.within
  split <;> rfl

/-- Both look at a position, which must be within the same bounds. -/
theorem Reads.within {α : Type} {reader : HeapReader α} {Q : Nat → α → Prop} {index : Int} {y : α}
    (run : reader h = if index < 0 ∨ (n : Int) ≤ index then .error (.error (.indexOutOfRange index n)) else .ok y)
    (q : ¬(index < 0 ∨ (n : Int) ≤ index) → Q index.toNat y) : Reads s h reader (Ideal.within index n) Q := by
  unfold Reads
  rw [run, run_within]
  split
  next => exact .error rfl
  next inside => exact .ok (q inside)

theorem Reads.tag (rep : Rep w s h) (ha : w.home r a) : Reads s h (Heap.tag a) (Ideal.tag r) Eq := by
  refine .seen rep ha fun o x _ hx has => ?_
  obtain ⟨n, is⟩ := has.tag
  cases hx
  exact ⟨_, rep.tidy.sound.tag_eq is, rfl⟩

theorem Reads.expect (rep : Rep w s h) (ha : w.home r a) (expected : Tag) :
    Reads s h (Heap.expect a expected) (Ideal.expect r expected) fun _ _ => True := by
  refine (Reads.tag rep ha).bind fun t u e => ?_
  subst e
  by_cases same : t = expected
  · simp only [same, ne_eq, not_true_eq_false, if_false]
    exact .pure trivial
  · simp only [same, ne_eq, not_false_eq_true, if_true]
    exact .error rfl

/-! ### Numbers -/

theorem Reads.word (rep : Rep w s h) (ha : w.home r a) : Reads s h (Heap.read a 0) (Ideal.word r) Eq := by
  refine .seen rep ha fun o x _ hx has => ?_
  cases o with
  | number t v =>
    cases hx
    exact ⟨_, rep.tidy.sound.read_eq has.2.1 Nat.one_pos, has.2.2.symm⟩
  | _ => cases hx

theorem Reads.int (rep : Rep w s h) (ha : w.home r a) : Reads s h (Scalar.int a) (Ideal.int r) Eq :=
  (Reads.word rep ha).bind fun _ _ e => .pure (congrArg _ e)

theorem Reads.float (rep : Rep w s h) (ha : w.home r a) : Reads s h (Scalar.float a) (Ideal.float r) Eq :=
  (Reads.word rep ha).bind fun _ _ e => .pure (congrArg _ e)

theorem Reads.bool (rep : Rep w s h) (ha : w.home r a) : Reads s h (Scalar.bool a) (Ideal.bool r) Eq :=
  (Reads.word rep ha).bind fun _ _ e => .pure (by rw [e])

theorem Reads.expectInt (rep : Rep w s h) (ha : w.home r a) : Reads s h (Scalar.expectInt a) (Ideal.expectInt r) Eq :=
  (Reads.expect rep ha .int).bind fun _ _ _ => .int rep ha

theorem Reads.expectBool (rep : Rep w s h) (ha : w.home r a) : Reads s h (Scalar.expectBool a) (Ideal.expectBool r) Eq :=
  (Reads.expect rep ha .bool).bind fun _ _ _ => .bool rep ha

theorem Reads.target (rep : Rep w s h) (ha : w.home r a) :
    Reads s h (ReturnMarker.target a) (Ideal.target r) Eq :=
  (Reads.word rep ha).bind fun _ _ e => .pure (by rw [e])

theorem Tracks.box (rep : Rep w s h) (layout : t.layout = .fields []) :
    Tracks w s h (Scalar.box t v) (add (.number t v)) (Makes w h []) := by
  refine .fields (ω := [(0, v)]) rep layout (by simp) (rep.tidy.allocateTagged (Tag.fits_fields layout (by simp)))
    (by simp) ?_ fun w' a h' _ is cells => ⟨layout, is, cells 0 Nat.one_pos⟩
  simp only [Scalar.box, Heap.writes, bind_assoc, pure_bind]

theorem Tracks.newInt (rep : Rep w s h) (x : Int64) :
    Tracks w s h (Scalar.newInt x) (Ideal.newInt x) (Makes w h []) := .box rep rfl

theorem Tracks.newFloat (rep : Rep w s h) (x : Binary64) :
    Tracks w s h (Scalar.newFloat x) (Ideal.newFloat x) (Makes w h []) := .box rep rfl

theorem Tracks.newBool (rep : Rep w s h) (x : Bool) :
    Tracks w s h (Scalar.newBool x) (Ideal.newBool x) (Makes w h []) := .box rep rfl

theorem Tracks.newMarker (rep : Rep w s h) (pc : Option Nat) :
    Tracks w s h (ReturnMarker.create pc) (Ideal.newMarker pc) (Makes w h []) := .box rep rfl

/-! ### Strings -/

theorem Reads.bytes (rep : Rep w s h) (ha : w.home r a) : Reads s h (Text.bytes a) (Ideal.bytes r) Eq := by
  refine .seen rep ha fun o x _ hx has => ?_
  cases o with
  | text bs =>
    cases hx
    obtain ⟨d, is, _⟩ := has
    exact ⟨_, is.bytes_eq rep.tidy, rfl⟩
  | _ => cases hx

theorem Reads.textLength (rep : Rep w s h) (ha : w.home r a) :
    Reads s h (Text.length a) (Ideal.bytes r) fun bs n => bs.length = n := by
  refine .seen rep ha fun o x _ hx has => ?_
  cases o with
  | text bs =>
    cases hx
    obtain ⟨d, is, _⟩ := has
    exact ⟨_, is.length_eq rep.tidy, rfl⟩
  | _ => cases hx

theorem Reads.byteAt (rep : Rep w s h) (ha : w.home r a) (index : Int) :
    Reads s h (Text.get a index) (Ideal.byteAt r index) Eq := by
  refine .look rep ha fun o bs _ hx has => ?_
  cases o with
  | text _ =>
    cases hx
    obtain ⟨d, is, _⟩ := has
    have read : Reads s h (Text.get a index) (Ideal.within index bs.length) fun i x => bs.getD i 0 = x :=
      .within (is.get_eq rep.tidy index) fun _ => rfl
    exact (read.bind (k := Pure.pure) fun i x e => .pure e).congr (by rw [bind_pure]) rfl
  | _ => cases hx

theorem Tracks.newText (rep : Rep w s h) (bs : List UInt8) :
    Tracks w s h (Text.ofBytes bs) (Ideal.newText bs) (Makes w h []) := by
  refine Tracks.make (ρ := []) (o := .text bs) rep (by simp) rfl ?_ fun w' a home stays => ⟨home, stays⟩
  rcases rep.tidy.makeText bs with full | ⟨a, d, h', run, e, is⟩
  · exact .inl full
  · right
    by_cases some : bs = []
    · rw [if_pos some] at e
      exact ⟨a, h', [(0, a)], fun _ => a, run, e, by simp, by simp, rfl, d, is, fun no => absurd some no⟩
    · have ne : d ≠ a := by
        rintro rfl
        have := (is.block some).tag.symm.trans is.is.tag
        cases this
      rw [if_neg some] at e
      refine ⟨a, h', [(0, a), (1, d)], fun _ => a, run, e, roles_of_nodup ?_, by simp, rfl, d, is, fun _ => World.owns_evolve_new ?_⟩
      · simpa using ne.symm
      · simp

end FiberMachine

/-! ## Sequences, slices, closures and methods -/

namespace FiberMachine

open Ideal

variable {w w' : World} {s : Store} {h h' : Heap} {r v : Ref} {a b i n : Nat} {t : Tag} {o : Obj} {xs : List Ref}
  {as : List Nat}

/-! ### Sequences -/

theorem getD_home {P : Ref → Nat → Prop} (homes : List.Forall₂ P xs as) (hi : i < xs.length) :
    P (xs.getD i 0) (as.getD i 0) := by
  have hi' : i < as.length := homes.length_eq ▸ hi
  rw [List.getD_eq_getElem _ _ hi, List.getD_eq_getElem _ _ hi']
  exact List.forall₂_iff_get.mp homes |>.2 i hi hi'

theorem set_home {P : Ref → Nat → Prop} {x y : Nat} (homes : List.Forall₂ P xs as) (hx : P x y) :
    List.Forall₂ P (xs.set i x) (as.set i y) := by
  induction homes generalizing i with
  | nil => exact .nil
  | cons hz rest ih =>
    cases i with
    | zero => exact .cons hx rest
    | succ i => exact .cons hz ih

theorem replicate_home {P : Ref → Nat → Prop} {x y : Nat} (hx : P x y) :
    List.Forall₂ P (List.replicate n x) (List.replicate n y) := by
  induction n with
  | zero => exact .nil
  | succ n ih => exact .cons hx ih

/-- What a sequence is in the heap. -/
theorem Rep.sequence (rep : Rep w s h) (ha : w.home r a) {x : Tag × List Ref} (ho : s.objects[r]? = some o)
    (hx : o.items? = some x) : o = .sequence x.1 x.2 ∧ ∃ as, h.IsSeq a x.1 as ∧ List.Forall₂ w.home x.2 as := by
  have has := rep.has ha ho
  cases o with
  | sequence t xs =>
    cases hx
    exact ⟨rfl, has⟩
  | _ => cases hx

theorem Reads.items (rep : Rep w s h) (ha : w.home r a) :
    Reads s h (Sequence.toList a) (Ideal.items r) (List.Forall₂ w.home) := by
  refine .look rep ha fun o x ho hx _ => ?_
  obtain ⟨_, as, is, homes⟩ := rep.sequence ha ho hx
  exact .found (is.toList_eq rep.tidy) rfl homes

theorem Reads.itemsLength (rep : Rep w s h) (ha : w.home r a) :
    Reads s h (Sequence.length a) (Ideal.items r) fun xs n => xs.length = n := by
  refine .look rep ha fun o x ho hx _ => ?_
  obtain ⟨_, as, is, homes⟩ := rep.sequence ha ho hx
  exact .found (is.length_eq rep.tidy) rfl homes.length_eq

theorem Reads.getItem (rep : Rep w s h) (ha : w.home r a) (index : Int) :
    Reads s h (Sequence.get a index) (Ideal.getItem r index) w.home := by
  unfold Ideal.getItem Ideal.items
  rw [bind_assoc]
  refine .look rep ha fun o x ho hx _ => ?_
  obtain ⟨_, as, is, homes⟩ := rep.sequence ha ho hx
  have run := is.position_eq rep.tidy index
  rw [← homes.length_eq] at run
  refine (Reads.within (Q := fun i j => i = j ∧ i < x.2.length) run fun inside => ⟨rfl, by omega⟩).bind ?_
  rintro i _ ⟨rfl, hi⟩
  have found := is.slot_eq rep.tidy (homes.length_eq ▸ hi)
  rw [← List.getD_eq_getElem _ 0] at found
  exact .found found rfl (getD_home homes hi)

theorem Tracks.setSlot (rep : Rep w s h) (ha : w.home r a) (hb : w.home v b) :
    Tracks w s h (Sequence.setSlot a i b) (Ideal.setSlot r i v) fun w' _ _ => w' = w := by
  refine .look rep ha fun o x ho hx _ => ?_
  obtain ⟨rfl, as, is, homes⟩ := rep.sequence ha ho hx
  by_cases inside : i < x.2.length ∧ x.1 ≠ .environment
  · obtain ⟨h', run, e, is'⟩ := is.setSlot rep.tidy (homes.length_eq ▸ inside.1) (rep.home_allocated hb) (is.free inside.2)
    refine .mutate (k := 0) (o := .sequence x.1 (x.2.set i v)) (y := ()) rep ha run ?_ e (fun c hc => hc ▸ ha)
      ⟨_, is', set_home homes hb⟩ rfl
    simp only [if_pos inside]
    rfl
  · refine .wild (u := s) ?_
    simp only [if_neg inside]
    rfl

theorem Tracks.setItem (rep : Rep w s h) (ha : w.home r a) (index : Int) (hb : w.home v b) :
    Tracks w s h (Sequence.set a index b) (Ideal.setItem r index v) fun w' _ _ => w' = w := by
  unfold Ideal.setItem Ideal.items
  rw [bind_assoc]
  refine .look rep ha fun o x ho hx _ => ?_
  obtain ⟨_, as, is, homes⟩ := rep.sequence ha ho hx
  have run := is.position_eq rep.tidy index
  rw [← homes.length_eq] at run
  rw [pure_bind]
  refine .read_bind (.within (Q := Eq) run fun _ => rfl) ?_
  rintro i _ rfl
  exact .setSlot rep ha hb

theorem Tracks.newSequence (rep : Rep w s h) (counted : t.layout = .counted) (n : Nat) :
    Tracks w s h (Sequence.create t n) (Ideal.newSequence t (List.replicate n 0)) (Makes w h []) := by
  refine Tracks.make (ρ := []) (o := .sequence t (List.replicate n 0)) rep (by simp) rfl ?_ fun w' a home stays => ⟨home, stays⟩
  rcases rep.tidy.createSeq counted n with full | ⟨a, h', run, e, -, is⟩
  · exact .inl full
  · right
    refine ⟨a, h', [(0, a)], fun _ => a, run, e, by simp, by simp, rfl, _, is, replicate_home ?_⟩
    exact World.home_evolve rep.nil (.root List.mem_cons_self)

/-- A sequence is made of objects that are reachable from protected ones. -/
theorem Tracks.fillSequence {l rs : List Nat} {m : HeapM Nat} (rep : Rep w s h) (counted : t.layout = .counted)
    (good : ∀ b ∈ rs, h.Allocated b) (homes : List.Forall₂ w.home xs l) (live : ∀ b ∈ l, h.Live rs b)
    (eq : ∀ g : Heap, m g = (do
      let a ← Heap.withRoots rs (Sequence.create t l.length)
      Sequence.setSlots a 0 l
      return a : HeapM Nat) g) : Tracks w s h m (Ideal.newSequence t xs) (Makes w h rs) := by
  refine Tracks.make (ρ := rs) (o := .sequence t xs) rep good rfl ?_ fun w' a home stays => ⟨home, stays⟩
  rcases rep.tidy.fillSeq good counted live eq with full | ⟨a, h', run, e, is⟩
  · exact .inl full
  · right
    refine ⟨a, h', [(0, a)], fun _ => a, run, e, by simp, by simp, rfl, _, is, ?_⟩
    exact (rep.carries (.live rep.tidy good)).homes homes live

theorem Tracks.arrayOf (rep : Rep w s h) (homes : List.Forall₂ w.home xs as) :
    Tracks w s h (Sequence.arrayOf as) (Ideal.newSequence .array xs) (Makes w h as) :=
  .fillSequence rep rfl (rep.homes_allocated homes) homes (fun _ hb => .extra hb) fun _ => rfl

theorem Tracks.extend (rep : Rep w s h) (ha : w.home r a) (hb : w.home v b) :
    Tracks w s h (Scope.extend a b) (Ideal.extend r v) (Makes w h [a, b]) := by
  unfold Ideal.extend Ideal.items
  rw [bind_assoc]
  refine .look rep ha fun o x ho hx _ => ?_
  obtain ⟨_, as, is, homes⟩ := rep.sequence ha ho hx
  have good : ∀ c ∈ [a, b], h.Allocated c := by
    simp [rep.home_allocated ha, rep.home_allocated hb]
  refine .reading (is.toList_eq rep.tidy) (.fillSequence rep (t := .environment) (l := as ++ [b]) rfl good
    (List.rel_append homes (.cons hb .nil)) (fun c hc => ?_) fun g => ?_)
  · rcases List.mem_append.mp hc with hc | hc
    · exact .child (.extra (by simp)) (is.child rep.tidy hc)
    · cases List.mem_singleton.mp hc
      exact .extra (by simp)
  · rw [List.length_append, List.length_singleton]

theorem Tracks.assign (rep : Rep w s h) (ha : w.home r a) (index slot : Nat) (hb : w.home v b) :
    Tracks w s h (Scope.assign a index slot b) (Ideal.assign r index slot v) fun w' _ _ => w' = w := by
  unfold Scope.assign Ideal.assign
  refine .read_bind (Reads.getItem rep ha _) fun f d hf => ?_
  have f := (Tracks.setItem rep hf (Scope.signed slot) hb).bind (k := fun _ => pure d) (l := fun _ => pure ())
    (R := fun w' _ _ => w' = w) fun _ s' _ h' w' rel _ e => .pure rel e
  exact f.congr rfl (by rw [bind_pure_unit])

theorem Reads.lookup (rep : Rep w s h) (ha : w.home r a) (index slot : Nat) :
    Reads s h (Scope.lookup a index slot) (Ideal.lookup r index slot) w.home :=
  (Reads.getItem rep ha _).bind fun _ _ hf => .getItem rep hf _

end FiberMachine
