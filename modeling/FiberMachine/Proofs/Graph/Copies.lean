import FiberMachine.Object.Value
import FiberMachine.Proofs.Duplicates
import FiberMachine.Proofs.Graph.Sequences

/-!
# Copies in two heaps

A duplicate has the words of its original, one after the other: the count of a counted block before its items. A copy of an
array protects the array and its copy while the elements are copied, so the copies that are being made are all
different, and there is a level left for the next one in whatever heap.
-/

namespace FiberMachine

namespace Heap

variable {v v' : View} {h h' k k' : Heap} {a b c d i j m n x y : Nat} {t u : Tag} {as π : List Addr} {P : Addr → Prop}

/-! ### Duplicates -/

/-- The block at `a` is going to be a duplicate of the one at `b`, from word `i` on. -/
structure Likens (v : View) (h k : Heap) (a b i : Nat) : Prop where
  blocks : v.blocks a
  original : v.blocks b
  apart : a ≠ b
  tag : h.tagAt a = h.tagAt b
  room : h.room a = h.room b
  rank : v.rank a = v.rank b
  blank : i = 0 → ∀ j < h.room a, h.ref a j = 0 ∧ k.ref (v.name a) j = 0
  count : 0 < i → (h.tagAt b).layout = .counted → h.ref a 0 = h.ref b 0

namespace Twins

/-- A word of the original is stored in the duplicate. -/
theorem edits_word (g : Twins v h k) (s : Likens v h k a b i) (hi : i < h.room b) :
    Edits (· = a) v h k (Heap.write a i (h.cell b i)) (Heap.write (v.name a) i (k.cell (v.name b) i)) fun h' _ _ =>
      ∀ j, h'.ref a j = if j = i then h.ref b i else h.ref a j := by
  have alike := g.alike b s.original
  have refers (there : h.RefersAt b i) : v.blocks (h.cell b i).toNat ∧ (k.cell (v.name b) i).toNat = v.name (h.cell b i).toNat :=
    g.refers s.original there
  have inside : i < h.room a := s.room ▸ hi
  refine g.edits_write (P := (· = a)) s.blocks rfl (fun room => ?_) fun _ zero => ?_
  · cases layout : (h.tagAt b).layout with
    | fields positions =>
      refine g.put_field s.blocks room s.tag layout (fun out => alike.number i hi ((numberAt_fields rfl layout).mpr out))
        (fun there => refers ((refersAt_fields rfl layout).mpr there)) (fun u leads => g.typed b s.original i u leads) ?_ ?_
      · rintro node rfl
        rw [s.rank]
        exact (g.ordered b s.original).before node
      · rintro node rfl
        rw [s.rank]
        exact (g.ordered b s.original).after node
    | counted =>
      have laid := g.laidOut s.original
      rcases Nat.eq_zero_or_pos i with rfl | pos
      · -- the count comes first, while there are no items
        rw [alike.number 0 hi ((numberAt_counted rfl layout).mpr rfl)]
        rw [laidOut_iff, layout] at laid
        have fits : h.ref b 0 < h.room a := by
          rw [s.room]
          exact laid
        exact g.put_count s.blocks s.tag layout fits rfl (fun j hj => (s.blank rfl _ (by omega)).1) fun j hj => (s.blank rfl _ (by omega)).2
      · obtain ⟨i, rfl⟩ := Nat.exists_eq_add_of_le pos
        refine g.put_item s.blocks s.tag layout room fun item => refers ((refersAt_counted rfl layout).mpr ⟨by omega, ?_⟩)
        rw [s.count pos layout] at item
        omega
  · subst zero
    rw [(s.blank rfl 0 inside).1]
    exact Nat.zero_le _

/-- The words of the original are copied, up to the last one. -/
theorem edits_copyWords (g : Twins v h k) (s : Likens v h k a b i) (within : i + n ≤ h.room b) :
    Edits (· = a) v h k (copyWords a b i n) (copyWords (v.name a) (v.name b) i n) fun _ _ _ => True := by
  induction n generalizing h k i with
  | zero => exact .answer g trivial
  | succ n ih =>
    have hi : i < h.room b := by omega
    obtain ⟨run, run'⟩ := g.read_both s.original hi
    have word : Mirrors h k (read b i) (read (v.name b) i) fun w w' => w = h.cell b i ∧ w' = k.cell (v.name b) i := by
      intro w done
      cases run.symm.trans done
      exact ⟨_, run', rfl, rfl⟩
    refine .read word fun _ _ _ => ?_
    rintro ⟨rfl, rfl⟩
    refine (g.edits_word s hi).bind fun _ _ h' k' g' e refs => ?_
    have kept : Kept h h' b := e.kept b s.original fun same => s.apart same.symm
    refine ih (i := i + 1) g' ⟨s.blocks, s.original, s.apart, ?_, ?_, s.rank, fun no => by omega, fun _ layout => ?_⟩ ?_
    · rw [e.tag a s.blocks, e.tag b s.original, s.tag]
    · rw [e.room a s.blocks, e.room b s.original, s.room]
    · rw [e.tag b s.original] at layout
      rw [refs 0, kept.ref (by omega)]
      split
      next same => rw [← same]
      next ne => exact s.count (by omega) layout
    · rw [e.room b s.original]
      omega

/-- The payload of the original is copied. -/
theorem edits_copy (g : Twins v h k) (s : Likens v h k a b 0) :
    Edits (· = a) v h k (copy a b) (copy (v.name a) (v.name b)) fun _ _ _ => True := by
  have apart' : v.name a ≠ v.name b := fun same => s.apart (g.injective a b s.blocks s.original same)
  have size {c : Nat} (hc : v.blocks c) : Mirrors h k (payloadWords c) (payloadWords (v.name c)) fun x y => y = x ∧ x = h.room c := by
    intro x run
    rw [payloadWords_eq (g.lt_capacity hc)] at run
    cases run
    refine ⟨_, payloadWords_eq (g.tidy'.sound.lt_capacity (g.allocated' c hc)), ?_, rfl⟩
    exact (g.alike c hc).room
  unfold copy
  rw [if_pos s.apart, if_pos apart']
  refine .read (size s.blocks) fun _ _ _ => ?_
  rintro ⟨rfl, rfl⟩
  refine .read (size s.original) fun _ _ _ => ?_
  rintro ⟨rfl, rfl⟩
  exact g.edits_copyWords s (by rw [Nat.zero_add]; exact Nat.min_le_right _ _)

end Twins

/-- A block of any kind is duplicated. -/
theorem Echoes.duplicate (g : Twins v h k) (q : Answers t v h a b) :
    Echoes v h k (Heap.duplicate a) (Heap.duplicate b) fun v' h' c d => Answers t v' h' c d ∧ Adds [a] v h v' h' c := by
  obtain ⟨ha, rfl, tag⟩ := q
  have alike := g.alike a ha
  have fits : t.Fits (h.room a) := by
    have laid := g.laidOut ha
    rw [laidOut_iff, tag] at laid
    unfold Tag.Fits
    cases layout : t.layout with
    | fields positions => simpa [layout] using laid
    | counted =>
      rw [layout] at laid
      exact (Nat.succ_pos _).trans_le laid
  have has : ∀ x ∈ [a], v.blocks x := by simpa using ha
  have is : h.Is a t (h.room a) := ⟨g.allocated a ha, tag, le_rfl⟩
  have is' : k.Is (v.name a) t (h.room a) := ⟨g.allocated' a ha, alike.tag.trans tag, alike.room.ge⟩
  intro c h₂ run
  rcases g.tidy'.allocateLike is' (by rwa [alike.room]) with full | ⟨d, k₁, start', f', room'⟩
  · exact .inl full
  rcases g.tidy.allocateLike is fits with ⟨_, _, full⟩ | ⟨c', h₁, start, f, room⟩
  · cases run.symm.trans full
  rw [alike.room] at f' room'
  have zero : ∀ i < h₁.room c', h₁.cell c' i = 0 := fun i hi => f.cells i (room ▸ hi)
  have zero' : ∀ i < k₁.room d, k₁.cell d i = 0 := fun i hi => f'.cells i (room' ▸ hi)
  obtain ⟨v', g', turns, rfl, adds, blank⟩ := g.join has f f' (room'.trans room.symm) zero zero' (v.rank a)
  have la : h.Live [a] a := .extra (by simp)
  have kept := adds.kept a la
  have likens : Likens v' h₁ k₁ c' a 0 := {
    blocks := adds.new
    original := adds.old la
    apart := fun same => adds.fresh (same ▸ la)
    tag := by rw [blank.is.tag, kept.tagAt, tag]
    room := by rw [room, kept.room]
    rank := by rw [blank.rank, adds.rank a la]
    blank := fun _ j hj => by
      rw [ref, zero j hj, ref, zero' j (by rwa [room', ← room])]
      exact ⟨rfl, rfl⟩
    count := fun no => absurd no (Nat.lt_irrefl 0) }
  have fill := (g'.edits_copy likens).bind (p := fun _ => Pure.pure c') (q := fun _ => Pure.pure (v'.name c'))
    (S := fun _ x y => x = c' ∧ y = v'.name c') fun _ _ _ _ g'' _ _ => .answer g'' ⟨rfl, rfl⟩
  rw [adds.name a la] at fill
  obtain ⟨_, k₂, run', g'', edited, rfl, rfl⟩ := fill c h₂ (start ▸ run)
  have shelters := g'.shelters_edited g'.root edited fun x hx _ same => adds.fresh (same ▸ .root (turns.roots ▸ hx))
  exact .inr ⟨_, k₂, v', start'.trans run', g'', g.turns_trans turns ⟨shelters, rfl, edited.contexts, edited.temporaries⟩,
    ⟨adds.new, rfl, (edited.tag _ adds.new).trans blank.is.tag⟩, adds.edited edited⟩

/-! ### Copies of values -/

/-- Whatever could be reached with `as` protected is as it was. -/
def Spans (as : List Addr) (v : View) (h : Heap) (v' : View) (h' : Heap) : Prop :=
  ∀ x, h.Live as x → v'.blocks x ∧ v'.name x = v.name x ∧ Kept h h' x

namespace Spans

variable {v'' : View} {h'' : Heap} {bs : List Addr}

theorem of_adds (adds : Adds as v h v' h' a) : Spans as v h v' h' := fun x hx => ⟨adds.old hx, adds.name x hx, adds.kept x hx⟩

theorem refl (g : Twins v h k) (has : ∀ x ∈ as, v.blocks x) : Spans as v h v h := fun x hx =>
  ⟨(g.live has hx).1, rfl, .refl (g.allocated x (g.live has hx).1)⟩

/-- What could be reached can still be reached. -/
theorem live (g : Twins v h k) (has : ∀ x ∈ as, v.blocks x) (s : Spans as v h v' h') (tidy : h'.Tidy) (roots : ∀ x ∈ h.roots ++ as, x ∈ h'.roots ++ bs)
    (hx : h.Live as x) : h'.Live bs x := by
  refine (Reaches.of_closed (M := fun x => h.Live as x ∧ h'.Live bs x) hx (fun y hy => ⟨.start hy, .start (roots y hy)⟩) ?_).2
  rintro y z ⟨hy, live⟩ hz
  refine ⟨hy.child hz, live.child ?_⟩
  obtain ⟨blocks, -, kept⟩ := s y hy
  have laid := g.laidOut (g.live has hy).1
  obtain ⟨i, refers, rfl⟩ := (g.tidy.child_iff_refers (g.allocated y (g.live has hy).1)).mp hz
  exact (tidy.child_iff_refers kept.allocated).mpr ⟨i, (kept.refersAt laid).mpr refers, kept.ref (laid.lt_room refers)⟩

theorem trans (g : Twins v h k) (has : ∀ x ∈ as, v.blocks x) (s : Spans as v h v' h') (tidy : h'.Tidy) (roots : ∀ x ∈ h.roots ++ as, x ∈ h'.roots ++ bs)
    (s' : Spans bs v' h' v'' h'') : Spans as v h v'' h'' := fun x hx => by
  obtain ⟨-, name, kept⟩ := s x hx
  obtain ⟨blocks, name', kept'⟩ := s' x (s.live g has tidy roots hx)
  exact ⟨blocks, name'.trans name, kept.trans kept'⟩

theorem arena {j : Heap} (s : Spans as v h v' h') (same : h'.SameArena j) : Spans as v h v' j := fun x hx =>
  ⟨(s x hx).1, (s x hx).2.1, (s x hx).2.2.trans (same.kept (s x hx).2.2.allocated)⟩

/-- Words of a block are replaced that could not be reached before. -/
theorem edited (s : Spans as v h v' h') (out : ¬h.Live as a) (e : Edited (· = a) v' h' h'') : Spans as v h v' h'' := fun x hx =>
  ⟨(s x hx).1, (s x hx).2.1, (s x hx).2.2.trans (e.kept x (s x hx).1 fun same => out (same ▸ hx))⟩

end Spans

namespace Echoes

/-- The elements of an array are copied into a new one, which is protected. -/
theorem fillSlots {f f' : Addr → HeapM Addr} {h₀ : Heap} {v₀ : View} {xs : List Addr} (g₀ : Twins v₀ h₀ k') (has : ∀ x ∈ as, v₀.blocks x)
    (each : ∀ {v h k x}, Twins v h k → (∀ c ∈ π, c ∈ h.roots) → v.extent = v₀.extent → v.blocks x →
      Echoes v h k (f x) (f' (v.name x)) fun v' h' c d => (v'.blocks c ∧ d = v'.name c) ∧ Spans [] v h v' h')
    (fresh : ¬h₀.Live as a) (hxs : ∀ x ∈ xs, h₀.Live as x) (g : Twins v h k) (spans : Spans as v₀ h₀ v h) (roots : ∀ x ∈ h₀.roots ++ as, x ∈ h.roots)
    (extent : v.extent = v₀.extent) (nested : ∀ c ∈ π, c ∈ h.roots) (root : a ∈ h.roots) (tag : h.tagAt a = .array) :
    Echoes v h k (Value.fillSlots f a i xs) (Value.fillSlots f' (v.name a) i (xs.map v₀.name)) fun v' h' _ _ =>
      Spans as v₀ h₀ v' h' ∧ v'.blocks a ∧ v'.name a = v.name a := by
  induction xs generalizing v h k i with
  | nil => exact .answer g ⟨spans, g.root a root, rfl⟩
  | cons x xs ih =>
    have here : ∀ y ∈ h.roots ++ as, y ∈ h.roots ++ as := fun _ hy => hy
    obtain ⟨hx, name, -⟩ := spans x (hxs x List.mem_cons_self)
    rw [List.map_cons, ← name]
    refine (each g nested extent hx).bind g fun c _ v₁ h₁ k₁ g₁ e => ?_
    rintro ⟨⟨hc, rfl⟩, kept⟩
    obtain ⟨ha₁, name₁, same⟩ := kept a (.root root)
    have tag₁ := same.tagAt.trans tag
    rw [← name₁]
    have spans₁ : Spans as v₀ h₀ v₁ h₁ := spans.trans g₀ has g.tidy (by simpa using roots) kept
    refine (edits g₁ (g₁.edits_item (P := (· = a)) (i := i) ha₁ rfl (tag₁ ▸ rfl) hc) fun r _ request same' => ?_).bind g₁
      fun _ _ v₂ h₂ k₂ g₂ e₂ => ?_
    · rw [same', tag₁] at request
      cases request
    rintro ⟨rfl, edited, -⟩
    have roots₂ : h₂.roots = h.roots := e₂.roots.trans e.roots
    exact ih (fun y hy => hxs y (List.mem_cons_of_mem x hy)) g₂ (spans₁.edited fresh edited) (fun y hy => roots₂ ▸ roots y hy)
      (e.extent.trans extent) (fun c hc => roots₂ ▸ nested c hc) (roots₂ ▸ root) ((edited.tag a ha₁).trans tag₁)

/-- A value is copied, below the arrays that are being copied. -/
theorem copyWithin (g : Twins v h k) (ha : v.blocks a) (nodup : π.Nodup) (nested : ∀ c ∈ π, c ∈ h.roots) (fuel : π.length + m = v.extent + 1) :
    Echoes v h k (Value.copyWithin n a) (Value.copyWithin m (v.name a)) fun v' h' c d => (v'.blocks c ∧ d = v'.name c) ∧ Spans [] v h v' h' := by
  induction n generalizing v h k a π m with
  | zero => exact .fails rfl
  | succ n ih =>
    have few := (g.fewer (fun c hc => g.root c (nested c hc)) nodup).2
    obtain ⟨m, rfl⟩ : ∃ m', m = m' + 1 := ⟨m - 1, by omega⟩
    have none : ∀ x ∈ ([] : List Addr), v.blocks x := fun _ no => absurd no List.not_mem_nil
    have box : Echoes v h k (Heap.duplicate a) (Heap.duplicate (v.name a)) fun v' h' c d => (v'.blocks c ∧ d = v'.name c) ∧ Spans [] v h v' h' :=
      (duplicate g ⟨ha, rfl, rfl⟩).weaken fun v' h' c d done => ⟨⟨done.1.blocks, done.1.name⟩, fun x hx =>
        Spans.of_adds done.2 x (hx.mono fun y hy => .start (by simpa using Or.inl hy))⟩
    have shared : Echoes v h k (Pure.pure a) (Pure.pure (v.name a)) fun v' h' c d => (v'.blocks c ∧ d = v'.name c) ∧ Spans [] v h v' h' :=
      .answer g ⟨⟨ha, rfl⟩, .refl g none⟩
    unfold Value.copyWithin
    refine read (g.tag_same ha) fun _ t _ => ?_
    rintro ⟨rfl, tag⟩
    cases t with
    | int | float | bool => exact box
    | array =>
      have has : ∀ x ∈ [a], v.blocks x := by simpa using ha
      have la : h.Live [a] a := .extra (by simp)
      refine read (g.items_same ha (tag ▸ rfl)) fun xs _ _ => ?_
      rintro ⟨rfl, children⟩
      rw [List.length_map]
      refine bind g (createRooted (t := .array) g has rfl xs.length) fun out _ v₁ h₁ k₁ g₁ e => ?_
      rintro ⟨rfl, adds, is, -⟩
      have has₁ : ∀ x ∈ [a, out], v₁.blocks x := by simp [adds.old la, adds.new]
      have inner : ∀ x ∈ h₁.roots ++ [a, out], x ∈ (h₁.rooting [a, out]).roots := fun x hx => roots_rooting ▸ hx
      have nested₁ (c : Nat) (hc : c ∈ out :: π) : c ∈ (h₁.rooting [a, out]).roots := by
        refine inner c ?_
        rcases List.mem_cons.mp hc with rfl | hc
        · simp
        · exact List.mem_append_left _ (e.roots ▸ nested c hc)
      have nodup₁ : (out :: π).Nodup := List.nodup_cons.mpr ⟨fun no => adds.fresh (.root (nested out no)), nodup⟩
      rw [← adds.name a la]
      refine bind g₁ (withRoots (ρ := [a, out]) (R := fun v' h' _ _ => Spans [a] v h v' h' ∧ v'.blocks out ∧ v'.name out = v₁.name out)
        (S := fun v' h' _ _ => Spans [a] v h v' h' ∧ v'.blocks out ∧ v'.name out = v₁.name out) g₁ has₁ (fun g₂ => ?_)
        fun _ _ _ _ _ same done => ⟨done.1.arena same, done.2⟩) fun _ _ v₂ h₂ k₂ g₂ _ => ?_
      · refine fillSlots (π := out :: π) g has (fun {_ _ _ _} g' nested' extent hx => ih g' hx nodup₁ nested' ?_) adds.fresh
          (fun x hx => la.child (children x hx)) g₂ ((Spans.of_adds adds).arena sameArena_rooting) ?_ e.extent nested₁ (nested₁ out (by simp)) is
        · rw [extent, List.length_cons]
          omega
        · intro x hx
          refine inner x ?_
          rw [e.roots]
          rcases List.mem_append.mp hx with hx | hx
          · exact List.mem_append_left _ hx
          · exact List.mem_append_right _ (by simp [List.mem_singleton.mp hx])
      · rintro ⟨-, spans, blocks, name⟩
        rw [← name]
        exact .answer g₂ ⟨⟨blocks, rfl⟩, fun x hx => spans x (hx.mono fun y hy => .start (by simpa using Or.inl hy))⟩
    | _ => exact shared

theorem copy (g : Twins v h k) (ha : v.blocks a) :
    Echoes v h k (Value.copy a) (Value.copy (v.name a)) fun v' _ c d => v'.blocks c ∧ d = v'.name c := by
  have within := copyWithin (n := h.capacity + 1) (m := k.capacity + 1) (π := []) g ha List.nodup_nil (fun _ no => absurd no List.not_mem_nil)
    (by simp [g.extent])
  exact (within.congr rfl rfl).weaken fun _ _ _ _ done => done.1

end Echoes

end Heap

end FiberMachine
