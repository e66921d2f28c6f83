import FiberMachine.Object.Sequence
import FiberMachine.Proofs.Graph.Changes

/-!
# Doing the same in two heaps

An action echoes another one if, whenever it succeeds in one of two twins, the other succeeds in the other
one with what corresponds to its answer and leaves twins again, unless the memory there is used
up. The blocks that are protected, and what protected requests refer to, stay in the graph under
their names.
-/

namespace FiberMachine

namespace Heap

variable {α β γ δ : Type} {v v' v'' : View} {h h' h'' k k' : Heap} {a b c i j n x : Nat} {t u : Tag} {w : Word} {π : List Nat}
  {as bs : List Addr} {P Q : Addr → Prop}

/-! ### What stays -/

/-- An address is protected, or a protected request refers to it. -/
def Secure (h : Heap) (as : List Addr) (a : Addr) : Prop :=
  a ∈ as ∨ ∃ r ∈ as, h.tagAt r = .channelRequest ∧ ∃ i, h.RefersAt r i ∧ h.ref r i = a

/-- What is secure keeps its name and its tag, and requests stay as they are. -/
structure Shelters (as : List Addr) (v : View) (h : Heap) (v' : View) (h' : Heap) : Prop where
  blocks : ∀ a, h.Secure as a → v'.blocks a
  name : ∀ a, h.Secure as a → v'.name a = v.name a
  tag : ∀ a, h.Secure as a → h'.tagAt a = h.tagAt a
  request : ∀ r ∈ as, h.tagAt r = .channelRequest → Kept h h' r

/-- What an action leaves of a graph and of the roots. -/
structure Turns (v : View) (h : Heap) (v' : View) (h' : Heap) : Prop where
  shelters : Shelters h.roots v h v' h'
  extent : v'.extent = v.extent
  contexts : h'.contexts = h.contexts
  temporaries : h'.temporaries = h.temporaries

/-- Words of blocks in `P` have been replaced. -/
structure Edited (P : Addr → Prop) (v : View) (h h' : Heap) : Prop where
  tag : ∀ b, v.blocks b → h'.tagAt b = h.tagAt b
  room : ∀ b, v.blocks b → h'.room b = h.room b
  count : ∀ b, v.blocks b → (h.tagAt b).layout = .counted → h.ref b 0 ≤ h'.ref b 0
  kept : ∀ b, v.blocks b → ¬P b → Kept h h' b
  contexts : h'.contexts = h.contexts
  temporaries : h'.temporaries = h.temporaries

theorem Secure.mono (secure : h.Secure as a) (sub : ∀ a ∈ as, a ∈ bs) : h.Secure bs a := by
  rcases secure with ha | ⟨r, hr, request⟩
  · exact .inl (sub a ha)
  · exact .inr ⟨r, sub r hr, request⟩

/-- What a protected request refers to is secure. -/
theorem secure_field {r : Addr} (root : r ∈ as) (tag : h.tagAt r = .channelRequest) (hi : i ∈ [0, 1, 4, 5, 6]) : h.Secure as (h.ref r i) :=
  .inr ⟨r, root, tag, i, (refersAt_fields tag rfl).mpr hi, rfl⟩

theorem Shelters.mono (s : Shelters bs v h v' h') (sub : ∀ a ∈ as, a ∈ bs) : Shelters as v h v' h' :=
  ⟨fun a ha => s.blocks a (ha.mono sub), fun a ha => s.name a (ha.mono sub), fun a ha => s.tag a (ha.mono sub),
    fun r hr => s.request r (sub r hr)⟩

/-- What stays depends on the arenas alone. -/
theorem Shelters.arena {j j' : Heap} (s : Shelters as v j v' j') (same : h.SameArena j) (same' : j'.SameArena h') : Shelters as v h v' h' := by
  have tag {a : Nat} : j.tagAt a = h.tagAt a := by rw [tagAt, same.wordAt, tagAt]
  have secure {a : Nat} (ha : h.Secure as a) : j.Secure as a := by
    rcases ha with ha | ⟨r, hr, request, i, refers, rfl⟩
    · exact .inl ha
    · refine .inr ⟨r, hr, tag.trans request, i, ?_, by rw [same.ref]⟩
      exact (refersAt_fields (tag.trans request) rfl).mpr ((refersAt_fields request rfl).mp refers)
  refine ⟨fun a ha => s.blocks a (secure ha), fun a ha => s.name a (secure ha), fun a ha => ?_, fun r hr request => ?_⟩
  · rw [tagAt, same'.wordAt, ← tag]
    exact s.tag a (secure ha)
  · have kept := s.request r hr (tag.trans request)
    refine ⟨same'.allocated.mpr kept.allocated, fun x hx hxb => ?_⟩
    rw [same'.wordAt, ← same.wordAt]
    exact kept.words x hx (by rwa [levelAt, same.wordAt])

theorem Turns.roots (s : Turns v h v' h') : h'.roots = h.roots := by
  rw [Heap.roots, s.contexts, s.temporaries, Heap.roots]

namespace Twins

variable (g : Twins v h k)
include g

theorem secure (has : ∀ a ∈ as, v.blocks a) (secure : h.Secure as a) : v.blocks a := by
  rcases secure with ha | ⟨r, hr, _, i, refers, rfl⟩
  · exact has a ha
  · exact (g.refers (has r hr) refers).1

theorem shelters (has : ∀ a ∈ as, v.blocks a) : Shelters as v h v h :=
  ⟨fun _ ha => g.secure has ha, fun _ _ => rfl, fun _ _ => rfl, fun r hr _ => .refl (g.allocated r (has r hr))⟩

theorem turns : Turns v h v h := ⟨g.shelters g.root, rfl, rfl, rfl⟩

theorem edited : Edited P v h h := ⟨fun _ _ => rfl, fun _ _ => rfl, fun _ _ _ => le_rfl, fun b hb _ => .refl (g.allocated b hb), rfl, rfl⟩

theorem secure_shelters (has : ∀ a ∈ as, v.blocks a) (s : Shelters as v h v' h') (secure : h.Secure as a) : h'.Secure as a := by
  rcases secure with ha | ⟨r, hr, request, i, refers, rfl⟩
  · exact .inl ha
  · have kept := s.request r hr request
    have laid := g.laidOut (has r hr)
    exact .inr ⟨r, hr, kept.tagAt.trans request, i, (kept.refersAt laid).mpr refers, kept.ref (laid.lt_room refers)⟩

theorem shelters_trans (has : ∀ a ∈ as, v.blocks a) (s : Shelters as v h v' h') (s' : Shelters as v' h' v'' h'') : Shelters as v h v'' h'' :=
  ⟨fun a ha => s'.blocks a (g.secure_shelters has s ha), fun a ha => (s'.name a (g.secure_shelters has s ha)).trans (s.name a ha),
    fun a ha => (s'.tag a (g.secure_shelters has s ha)).trans (s.tag a ha),
    fun r hr request => (s.request r hr request).trans (s'.request r hr ((s.tag r (.inl hr)).trans request))⟩

theorem turns_trans (s : Turns v h v' h') (s' : Turns v' h' v'' h'') : Turns v h v'' h'' :=
  ⟨g.shelters_trans g.root s.shelters (s.roots ▸ s'.shelters), s'.extent.trans s.extent, s'.contexts.trans s.contexts, s'.temporaries.trans s.temporaries⟩

/-- Edits keep requests as they are unless they are among the blocks that may change. -/
theorem shelters_edited (has : ∀ a ∈ as, v.blocks a) (e : Edited P v h h') (free : ∀ r ∈ as, h.tagAt r = .channelRequest → ¬P r) :
    Shelters as v h v h' :=
  ⟨fun _ ha => g.secure has ha, fun _ _ => rfl, fun a ha => e.tag a (g.secure has ha), fun r hr request => e.kept r (has r hr) (free r hr request)⟩

/-- An allocation keeps what can be reached. -/
theorem shelters_adds (has : ∀ a ∈ as, v.blocks a) (sub : ∀ a ∈ as, a ∈ h.roots ++ bs) (e : Adds bs v h v' h' a) :
    Shelters as v h v' h' := by
  have live {x : Nat} (secure : h.Secure as x) : h.Live bs x := by
    rcases secure with hx | ⟨r, hr, _, i, refers, rfl⟩
    · exact .start (sub x hx)
    · exact Live.child (.start (sub r hr)) ((g.tidy.child_iff_refers (g.allocated r (has r hr))).mpr ⟨i, refers, rfl⟩)
  exact ⟨fun a ha => (e.blocks a).mpr (.inl (live ha)), fun a ha => e.name a (live ha), fun a ha => (e.kept a (live ha)).tagAt,
    fun r hr _ => e.kept r (.start (sub r hr))⟩

end Twins

theorem Edited.trans (e : Edited P v h h') (f : Edited P v h' h'') : Edited P v h h'' where
  tag b hb := (f.tag b hb).trans (e.tag b hb)
  room b hb := (f.room b hb).trans (e.room b hb)
  count b hb layout := (e.count b hb layout).trans (f.count b hb (e.tag b hb ▸ layout))
  kept b hb out := (e.kept b hb out).trans (f.kept b hb out)
  contexts := f.contexts.trans e.contexts
  temporaries := f.temporaries.trans e.temporaries

/-! ### Observations -/

/-- If the one observation succeeds in `h`, the other answers in `k` what corresponds. -/
def Mirrors (h k : Heap) (look : HeapReader α) (look' : HeapReader β) (R : α → β → Prop) : Prop :=
  ∀ x, look h = .ok x → ∃ y, look' k = .ok y ∧ R x y

namespace Mirrors

variable {look : HeapReader α} {look' : HeapReader β} {R : α → β → Prop}

theorem answer {x : α} {y : β} (q : R x y) : Mirrors h k (pure x) (pure y) R := by
  intro _ run
  cases run
  exact ⟨y, rfl, q⟩

theorem bind {p : α → HeapReader γ} {q : β → HeapReader δ} {S : γ → δ → Prop} (f : Mirrors h k look look' R)
    (next : ∀ x y, look h = .ok x → R x y → Mirrors h k (p x) (q y) S) : Mirrors h k (look >>= p) (look' >>= q) S := by
  intro z run
  rw [HeapReader.run_bind] at run
  cases first : look h with
  | error e => simp [first] at run
  | ok x =>
    rw [first] at run
    obtain ⟨y, run', related⟩ := f x first
    obtain ⟨z', run'', related'⟩ := next x y first related z run
    exact ⟨z', by rw [HeapReader.run_bind, run']; exact run'', related'⟩

theorem weaken {S : α → β → Prop} (f : Mirrors h k look look' R) (more : ∀ x y, look h = .ok x → R x y → S x y) : Mirrors h k look look' S := by
  intro x run
  obtain ⟨y, run', related⟩ := f x run
  exact ⟨y, run', more x y run related⟩

/-- An observation that fails. -/
theorem fails {e : HeapFailure} (failed : look h = .error e) : Mirrors h k look look' R := by
  intro x run
  rw [failed] at run
  cases run

/-- An observation that does not depend on the heap. -/
theorem same {look : HeapReader α} (constant : look h = look k) : Mirrors h k look look fun x y => y = x :=
  fun x run => ⟨x, constant ▸ run, rfl⟩

theorem room : Mirrors h k (expectRoom i j) (expectRoom i j) fun _ _ => True := by
  refine (same ?_).weaken fun _ _ _ _ => trivial
  unfold expectRoom
  split <;> rfl

theorem difference : Mirrors h k (difference i j) (difference i j) fun x y => y = x ∧ j + x = i := by
  unfold Heap.difference
  split
  next le => exact answer ⟨rfl, by omega⟩
  next => exact fails rfl

theorem remainder : Mirrors h k (remainder i j) (remainder i j) fun x y => y = x ∧ x < j := by
  unfold Heap.remainder
  split
  next => exact fails rfl
  next pos => exact answer ⟨rfl, Nat.mod_lt i (Nat.pos_of_ne_zero pos)⟩

end Mirrors

theorem read_ok (ha : a < h.capacity) {w : Word} (run : read a i h = .ok w) : i < h.room a := by
  rw [read, HeapReader.run_bind, blockWords_eq ha] at run
  dsimp only at run
  split at run
  next hi => exact hi
  next => cases run

theorem readNat_ok (ha : a < h.capacity) (run : readNat a i h = .ok x) : i < h.room a := by
  rw [readNat, HeapReader.run_bind] at run
  cases first : read a i h with
  | error e => simp [first] at run
  | ok w => exact read_ok ha first

namespace Twins

variable (g : Twins v h k)
include g

theorem lt_capacity (ha : v.blocks a) : a < h.capacity := g.tidy.sound.lt_capacity (g.allocated a ha)

/-- A word that is in the payload can be read on both sides. -/
theorem read_both (ha : v.blocks a) (hi : i < h.room a) : read a i h = .ok (h.cell a i) ∧ read (v.name a) i k = .ok (k.cell (v.name a) i) := by
  have is : h.Is a (h.tagAt a) (h.room a) := ⟨g.allocated a ha, rfl, le_rfl⟩
  have is' : k.Is (v.name a) (k.tagAt (v.name a)) (k.room (v.name a)) := ⟨g.allocated' a ha, rfl, le_rfl⟩
  exact ⟨g.tidy.sound.read_eq is hi, g.tidy'.sound.read_eq is' (g.room' ha hi)⟩

theorem read_number (ha : v.blocks a) (plain : h.NumberAt a i) :
    Mirrors h k (read a i) (read (v.name a) i) fun w w' => w' = w ∧ w = h.cell a i := by
  intro w run
  have hi := read_ok (g.lt_capacity ha) run
  obtain ⟨run₁, run₂⟩ := g.read_both ha hi
  cases run.symm.trans run₁
  exact ⟨_, run₂, (g.alike a ha).number i hi plain, rfl⟩

/-- A number is read. -/
theorem readNat_number (ha : v.blocks a) (plain : h.NumberAt a i) :
    Mirrors h k (readNat a i) (readNat (v.name a) i) fun x y => y = x ∧ x = h.ref a i := by
  refine (g.read_number ha plain).bind fun w w' _ => ?_
  rintro ⟨rfl, rfl⟩
  exact .answer ⟨rfl, rfl⟩

/-- A reference is read. -/
theorem readNat_reference (ha : v.blocks a) (refers : h.RefersAt a i) :
    Mirrors h k (readNat a i) (readNat (v.name a) i) fun x y => y = v.name x ∧ v.blocks x ∧ x = h.ref a i := by
  intro x run
  have hi := readNat_ok (g.lt_capacity ha) run
  obtain ⟨run₁, run₂⟩ := g.read_both ha hi
  rw [readNat, HeapReader.run_bind, run₁] at run
  cases run
  obtain ⟨blocks, name⟩ := g.refers ha refers
  refine ⟨k.ref (v.name a) i, ?_, name, blocks, rfl⟩
  rw [readNat, HeapReader.run_bind, run₂]
  rfl

/-- A reference that leads to blocks of one kind is read; what is read of the unassigned object is not of interest. -/
theorem readNat_leads (ha : v.blocks a) (tag : h.tagAt a = t) (leads : t.leadsTo i = some u) :
    Mirrors h k (readNat a i) (readNat (v.name a) i) fun x y => y = v.name x ∧ v.blocks x ∧ x = h.ref a i ∧ (x ≠ unassigned → h.tagAt x = u) := by
  have leads : (h.tagAt a).leadsTo i = some u := tag ▸ leads
  refine (g.readNat_reference ha (leadsTo_refers leads)).weaken fun x y _ => ?_
  rintro ⟨same, blocks, rfl⟩
  exact ⟨same, blocks, rfl, (g.typed a ha i u leads).resolve_left⟩

/-- The unassigned object has no payload. -/
theorem read_nil {w : Word} (run : read a i h = .ok w) : a ≠ unassigned := by
  rintro rfl
  have := read_ok (g.lt_capacity g.zero) run
  rw [g.empty] at this
  omega

theorem readNat_nil (run : readNat a i h = .ok x) : a ≠ unassigned := by
  rintro rfl
  have := readNat_ok (g.lt_capacity g.zero) run
  rw [g.empty] at this
  omega

/-- If a word of it can be read, an object that may be missing is there. -/
theorem known {look : HeapReader α} {R : Nat → α → Prop} (is : a ≠ unassigned → h.tagAt a = t)
    (f : h.tagAt a = t → Mirrors h k (readNat a i) look R) : Mirrors h k (readNat a i) look fun x y => R x y ∧ h.tagAt a = t := by
  intro x run
  have tag := is (g.readNat_nil run)
  obtain ⟨y, run', related⟩ := f tag x run
  exact ⟨y, run', related, tag⟩

theorem tag_same (ha : v.blocks a) : Mirrors h k (tag a) (tag (v.name a)) fun x y => y = x ∧ x = h.tagAt a := by
  intro x run
  rw [Heap.tag_eq (g.lt_capacity ha)] at run
  cases run
  exact ⟨_, Heap.tag_eq (g.tidy'.sound.lt_capacity (g.allocated' a ha)), (g.alike a ha).tag, rfl⟩

end Twins

/-! ### Edits -/

/-- If the one action succeeds in `h`, the other does the same in `k`; both only replace words. -/
def Edits (P : Addr → Prop) (v : View) (h k : Heap) (m : HeapM α) (n : HeapM β) (R : Heap → α → β → Prop) : Prop :=
  ∀ x h', m h = .ok x h' → ∃ y k', n k = .ok y k' ∧ Twins v h' k' ∧ Edited P v h h' ∧ R h' x y

namespace Edits

variable {m : HeapM α} {m' : HeapM β} {R : Heap → α → β → Prop}

theorem answer (g : Twins v h k) {x : α} {y : β} (q : R h x y) : Edits P v h k (pure x) (pure y) R := by
  intro _ _ run
  cases run
  exact ⟨y, k, rfl, g, g.edited, q⟩

theorem bind {p : α → HeapM γ} {q : β → HeapM δ} {S : Heap → γ → δ → Prop} (f : Edits P v h k m m' R)
    (next : ∀ x y h' k', Twins v h' k' → Edited P v h h' → R h' x y → Edits P v h' k' (p x) (q y) S) :
    Edits P v h k (m >>= p) (m' >>= q) S := by
  intro z h'' run
  rw [HeapM.run_bind] at run
  cases first : m h with
  | error e => simp [first] at run
  | ok x h' =>
    rw [first] at run
    obtain ⟨y, k', run', g, e, related⟩ := f x h' first
    obtain ⟨z', k'', run'', g', e', related'⟩ := next x y h' k' g e related z h'' run
    exact ⟨z', k'', by rw [HeapM.run_bind, run']; exact run'', g', e.trans e', related'⟩

theorem weaken {S : Heap → α → β → Prop} (f : Edits P v h k m m' R) (more : ∀ h' x y, R h' x y → S h' x y) : Edits P v h k m m' S := by
  intro x h' run
  obtain ⟨y, k', run', g, e, related⟩ := f x h' run
  exact ⟨y, k', run', g, e, more h' x y related⟩

/-- More blocks may change. -/
theorem mono (f : Edits P v h k m m' R) (sub : ∀ b, v.blocks b → P b → Q b) : Edits Q v h k m m' R := by
  intro x h' run
  obtain ⟨y, k', run', g, e, related⟩ := f x h' run
  exact ⟨y, k', run', g, ⟨e.tag, e.room, e.count, fun b hb out => e.kept b hb (mt (sub b hb) out), e.contexts, e.temporaries⟩, related⟩

/-- An observation comes first. -/
theorem read {R : α → β → Prop} {look : HeapReader α} {look' : HeapReader β} {p : α → HeapM γ} {q : β → HeapM δ} {S : Heap → γ → δ → Prop}
    (f : Mirrors h k look look' R) (next : ∀ x y, look h = .ok x → R x y → Edits P v h k (p x) (q y) S) :
    Edits P v h k (liftM look >>= p) (liftM look' >>= q) S := by
  intro z h' run
  obtain ⟨x, h₁, looked, run⟩ := HeapM.bind_ok run
  obtain ⟨first, rfl⟩ := HeapM.lift_ok looked
  obtain ⟨y, run', related⟩ := f x first
  obtain ⟨z', k', run'', rest⟩ := next x y first related z h' run
  exact ⟨z', k', by rw [HeapM.run_bind, HeapM.run_lift, run']; exact run'', rest⟩

end Edits

theorem write_ok (ha : a < h.capacity) {u : Unit} (run : Heap.write a i w h = .ok u h') : i < h.room a := by
  rw [Heap.write, HeapM.run_bind, HeapM.run_lift, blockWords_eq ha] at run
  dsimp only at run
  split at run
  next hi => exact hi
  next => cases run

namespace Twins

variable (g : Twins v h k) (ha : v.blocks a) (self : P a)
include g ha self

/-- A word is replaced on both sides, and twins are left. -/
theorem edits_write {z : Word} (put : i < h.room a → Twins v (h.put a i w) (k.put (v.name a) i z))
    (count : (h.tagAt a).layout = .counted → i = 0 → h.ref a 0 ≤ w.toNat) :
    Edits P v h k (Heap.write a i w) (Heap.write (v.name a) i z) fun h' _ _ => ∀ j, h'.ref a j = if j = i then w.toNat else h.ref a j := by
  intro _ h' run
  have hi := write_ok (g.lt_capacity ha) run
  have is : h.Is a (h.tagAt a) (h.room a) := ⟨g.allocated a ha, rfl, le_rfl⟩
  have is' : k.Is (v.name a) (k.tagAt (v.name a)) (k.room (v.name a)) := ⟨g.allocated' a ha, rfl, le_rfl⟩
  cases run.symm.trans (g.tidy.sound.write_eq is hi)
  have stays {b : Nat} (hb : v.blocks b) (out : ¬P b) : Kept h (h.put a i w) b := g.kept_put ha hi hb fun e => out (e ▸ self)
  refine ⟨(), _, g.tidy'.sound.write_eq is' (g.room' ha hi), put hi,
    ⟨fun b hb => g.tagAt_put ha hi hb, fun b hb => g.room_put ha hi hb, fun b hb layout => ?_, fun b hb => stays hb, rfl, rfl⟩, ?_⟩
  · by_cases e : b = a
    · subst e
      rw [g.ref_put ha hi]
      split
      next same => exact count layout same.symm
      next => exact le_rfl
    · exact ((g.kept_put ha hi hb e).ref ((g.laidOut hb).count_lt_room layout)).ge
  · exact fun j => g.ref_put ha hi

/-- A number is stored in a field. -/
theorem edits_number (tag : h.tagAt a = t) (layout : t.layout = .fields π) (out : i ∉ π) :
    Edits P v h k (Heap.write a i w) (Heap.write (v.name a) i w) fun _ _ _ => True := by
  have none (u : Tag) (leads : t.leadsTo i = some u) : False := by
    subst tag
    exact out ((refersAt_fields rfl layout).mp (leadsTo_refers leads))
  refine (g.edits_write ha self (fun hi => ?_) fun counted => ?_).weaken fun _ _ _ _ => trivial
  · refine g.put_field ha hi tag layout (fun _ => rfl) (fun hi => absurd hi out) (fun u leads => (none u leads).elim) ?_ ?_
    · rintro rfl rfl
      exact (none .listNode rfl).elim
    · rintro rfl rfl
      exact (none .listNode rfl).elim
  · rw [tag, layout] at counted
    cases counted

/-- A reference is stored in a field. -/
theorem edits_reference (tag : h.tagAt a = t) (layout : t.layout = .fields π) (hi : i ∈ π) (hb : v.blocks b)
    (typed : ∀ u, t.leadsTo i = some u → b = unassigned ∨ h.tagAt b = u)
    (before : t = .listNode → i = 1 → b = unassigned ∨ v.rank b < v.rank a)
    (after : t = .listNode → i = 2 → b = unassigned ∨ v.rank a < v.rank b) :
    Edits P v h k (writeNat a i b) (writeNat (v.name a) i (v.name b)) fun _ _ _ => True := by
  have small : (UInt64.ofNat b).toNat = b := g.tidy.sound.toNat_ofNat (g.allocated b hb)
  have small' : (UInt64.ofNat (v.name b)).toNat = v.name b := g.tidy'.sound.toNat_ofNat (g.allocated' b hb)
  refine (g.edits_write ha self (fun room => ?_) fun counted => ?_).weaken fun _ _ _ _ => trivial
  · exact g.put_field ha room tag layout (fun out => absurd hi out) (fun _ => by rw [small, small']; exact ⟨hb, rfl⟩)
      (by rwa [small]) (by rwa [small]) (by rwa [small])
  · rw [tag, layout] at counted
    cases counted

/-- A reference is stored in a slot of a counted block. -/
theorem edits_item (counted : (h.tagAt a).layout = .counted) (hb : v.blocks b) :
    Edits P v h k (Sequence.setSlot a i b) (Sequence.setSlot (v.name a) i (v.name b)) fun _ _ _ => True := by
  have small : (UInt64.ofNat b).toNat = b := g.tidy.sound.toNat_ofNat (g.allocated b hb)
  have small' : (UInt64.ofNat (v.name b)).toNat = v.name b := g.tidy'.sound.toNat_ofNat (g.allocated' b hb)
  refine (g.edits_write ha self (fun room => ?_) fun _ no => by omega).weaken fun _ _ _ _ => trivial
  exact g.put_item ha rfl counted room fun _ => ⟨small.symm ▸ hb, by rw [small, small']⟩

end Twins

/-! ### Actions -/

/-- If the one action succeeds in `h`, the other does the same in `k`, unless the memory there is used up. -/
def Echoes (v : View) (h k : Heap) (m : HeapM α) (n : HeapM β) (R : View → Heap → α → β → Prop) : Prop :=
  ∀ x h', m h = .ok x h' → NoMemory n k ∨ ∃ y k' v', n k = .ok y k' ∧ Twins v' h' k' ∧ Turns v h v' h' ∧ R v' h' x y

namespace Echoes

variable {m : HeapM α} {m' : HeapM β} {R : View → Heap → α → β → Prop}

theorem answer (g : Twins v h k) {x : α} {y : β} (q : R v h x y) : Echoes v h k (pure x) (pure y) R := by
  intro _ _ run
  cases run
  exact .inr ⟨y, k, v, rfl, g, g.turns, q⟩

theorem bind (g : Twins v h k) {p : α → HeapM γ} {q : β → HeapM δ} {S : View → Heap → γ → δ → Prop} (f : Echoes v h k m m' R)
    (next : ∀ x y v' h' k', Twins v' h' k' → Turns v h v' h' → R v' h' x y → Echoes v' h' k' (p x) (q y) S) :
    Echoes v h k (m >>= p) (m' >>= q) S := by
  intro z h'' run
  rw [HeapM.run_bind] at run
  cases first : m h with
  | error e => simp [first] at run
  | ok x h' =>
    rw [first] at run
    rcases f x h' first with full | ⟨y, k', v', run', g', e, related⟩
    · exact .inl (full.bind q)
    · rcases next x y v' h' k' g' e related z h'' run with full | ⟨z', k'', v'', run'', g'', e', related'⟩
      · exact .inl (.after run' full)
      · exact .inr ⟨z', k'', v'', by rw [HeapM.run_bind, run']; exact run'', g'', g.turns_trans e e', related'⟩

theorem weaken {S : View → Heap → α → β → Prop} (f : Echoes v h k m m' R) (more : ∀ v' h' x y, R v' h' x y → S v' h' x y) :
    Echoes v h k m m' S := by
  intro x h' run
  rcases f x h' run with full | ⟨y, k', v', run', g, e, related⟩
  · exact .inl full
  · exact .inr ⟨y, k', v', run', g, e, more v' h' x y related⟩

theorem congr {m₁ : HeapM α} {m₁' : HeapM β} (f : Echoes v h k m₁ m₁' R) (same : m h = m₁ h) (same' : m' k = m₁' k) : Echoes v h k m m' R := by
  intro x h' run
  rcases f x h' (same ▸ run) with ⟨n, k', full⟩ | ⟨y, k', v', run', rest⟩
  · exact .inl ⟨n, k', same'.trans full⟩
  · exact .inr ⟨y, k', v', same'.trans run', rest⟩

/-- The action fails. -/
theorem fails {e : HeapFailure} (failed : m h = .error e h') : Echoes v h k m m' R := by
  intro x h'' run
  rw [failed] at run
  cases run

/-- An observation comes first. -/
theorem read {look : HeapReader α} {look' : HeapReader β} {p : α → HeapM γ} {q : β → HeapM δ} {S : View → Heap → γ → δ → Prop}
    {R : α → β → Prop} (f : Mirrors h k look look' R) (next : ∀ x y, look h = .ok x → R x y → Echoes v h k (p x) (q y) S) :
    Echoes v h k (liftM look >>= p) (liftM look' >>= q) S := by
  intro z h' run
  obtain ⟨x, h₁, looked, run⟩ := HeapM.bind_ok run
  obtain ⟨first, rfl⟩ := HeapM.lift_ok looked
  obtain ⟨y, run', related⟩ := f x first
  have there : (liftM look' >>= q) k = q y k := by rw [HeapM.run_bind, HeapM.run_lift, run']
  rcases next x y first related z h' run with full | ⟨z', k', v', run'', rest⟩
  · obtain ⟨n, k', failed⟩ := full
    exact .inl ⟨n, k', there.trans failed⟩
  · exact .inr ⟨z', k', v', there.trans run'', rest⟩

/-- Edits of blocks that are not protected requests. -/
theorem edits {R : Heap → α → β → Prop} (g : Twins v h k) (f : Edits P v h k m m' R)
    (free : ∀ r ∈ h.roots, h.tagAt r = .channelRequest → ¬P r) :
    Echoes v h k m m' fun v' h' x y => v' = v ∧ Edited P v h h' ∧ R h' x y := by
  intro x h' run
  obtain ⟨y, k', run', g', e, related⟩ := f x h' run
  exact .inr ⟨y, k', v, run', g', ⟨g.shelters_edited g.root e free, rfl, e.contexts, e.temporaries⟩, rfl, e, related⟩

end Echoes

/-- The action echoes the other one, and what would be secure with `as` protected stays. -/
def Spares (as : List Addr) (v : View) (h k : Heap) (m : HeapM α) (n : HeapM β) (R : View → Heap → α → β → Prop) : Prop :=
  Echoes v h k m n fun v' h' x y => Shelters (h.roots ++ as) v h v' h' ∧ R v' h' x y

namespace Spares

variable {m : HeapM α} {m' : HeapM β} {R : View → Heap → α → β → Prop}

theorem echoes (f : Spares as v h k m m' R) : Echoes v h k m m' R := Echoes.weaken f fun _ _ _ _ => And.right

theorem weaken {S : View → Heap → α → β → Prop} (f : Spares as v h k m m' R)
    (more : ∀ v' h' x y, Shelters (h.roots ++ as) v h v' h' → R v' h' x y → S v' h' x y) : Spares as v h k m m' S :=
  Echoes.weaken f fun v' h' x y done => ⟨done.1, more v' h' x y done.1 done.2⟩

theorem mono (f : Spares bs v h k m m' R) (sub : ∀ a ∈ as, a ∈ h.roots ++ bs) : Spares as v h k m m' R :=
  Echoes.weaken f fun _ _ _ _ done => ⟨done.1.mono fun a ha => (List.mem_append.mp ha).elim (List.mem_append_left bs) (sub a), done.2⟩

section

variable (g : Twins v h k) (has : ∀ a ∈ as, v.blocks a)
include g has

theorem all : ∀ a ∈ h.roots ++ as, v.blocks a := fun a ha => (List.mem_append.mp ha).elim (g.root a) (has a)

theorem answer {x : α} {y : β} (q : R v h x y) : Spares as v h k (Pure.pure x) (Pure.pure y) R :=
  Echoes.answer g ⟨g.shelters (all g has), q⟩

theorem bind {p : α → HeapM γ} {q : β → HeapM δ} {S : View → Heap → γ → δ → Prop} (f : Spares as v h k m m' R)
    (next : ∀ x y v' h' k', Twins v' h' k' → h'.roots = h.roots → Shelters (h.roots ++ as) v h v' h' → (∀ a ∈ as, v'.blocks a) → R v' h' x y →
      Spares as v' h' k' (p x) (q y) S) : Spares as v h k (m >>= p) (m' >>= q) S := by
  refine Echoes.bind g f fun x y v' h' k' g' e => ?_
  rintro ⟨kept, related⟩
  refine Echoes.weaken (next x y v' h' k' g' e.roots kept (fun a ha => kept.blocks a (.inl (List.mem_append_right _ ha))) related) ?_
  rintro v'' h'' _ _ ⟨kept', related'⟩
  rw [e.roots] at kept'
  exact ⟨g.shelters_trans (all g has) kept kept', related'⟩

/-- Blocks are edited that are not requests. -/
theorem edits {R : Heap → α → β → Prop} (f : Edits (fun b => h.tagAt b ≠ .channelRequest) v h k m m' R) :
    Spares as v h k m m' fun v' h' x y => v' = v ∧ (∀ b, v.blocks b → h'.tagAt b = h.tagAt b) ∧ R h' x y := by
  intro x h' run
  obtain ⟨y, k', run', g', e, related⟩ := f x h' run
  have free (bs : List Addr) (hbs : ∀ a ∈ bs, v.blocks a) : Shelters bs v h v h' := g.shelters_edited hbs e fun _ _ request out => out request
  exact .inr ⟨y, k', v, run', g', ⟨free _ g.root, rfl, e.contexts, e.temporaries⟩, free _ (all g has), rfl, e.tag, related⟩

theorem alters (f : Edits (fun b => h.tagAt b ≠ .channelRequest) v h k m m' fun _ _ _ => True) : Spares as v h k m m' fun _ _ _ _ => True :=
  (edits g has f).weaken fun _ _ _ _ _ _ => trivial

end

/-- An observation comes first. -/
theorem read {look : HeapReader α} {look' : HeapReader β} {p : α → HeapM γ} {q : β → HeapM δ} {S : View → Heap → γ → δ → Prop}
    {R : α → β → Prop} (f : Mirrors h k look look' R) (next : ∀ x y, look h = .ok x → R x y → Spares as v h k (p x) (q y) S) :
    Spares as v h k (liftM look >>= p) (liftM look' >>= q) S :=
  Echoes.read f next

end Spares

namespace Echoes

variable {m : HeapM α} {m' : HeapM β} {R : View → Heap → α → β → Prop}

/-- An action with more addresses protected. What was found afterwards may only depend on the arena. -/
theorem withRoots {ρ : List Addr} (g : Twins v h k) (has : ∀ a ∈ ρ, v.blocks a) {S : View → Heap → α → β → Prop}
    (inner : Twins v (h.rooting ρ) (k.rooting (ρ.map v.name)) → Echoes v (h.rooting ρ) (k.rooting (ρ.map v.name)) m m' R)
    (outer : ∀ v' h' h'' x y, h'.SameArena h'' → R v' h' x y → S v' h'' x y) :
    Spares ρ v h k (Heap.withRoots ρ m) (Heap.withRoots (ρ.map v.name) m') S := by
  intro x h' run
  have g₀ := g.rooting has
  have run₀ : ∃ h₁, m (h.rooting ρ) = .ok x h₁ ∧ h' = { h₁ with temporaries := h₁.temporaries.shrink h.temporaries.size } := by
    unfold Heap.withRoots at run
    rw [Heap.rooting]
    cases inside : m { h with temporaries := h.temporaries ++ ρ } with
    | ok y h₁ =>
      simp only [inside] at run
      cases run
      exact ⟨h₁, rfl, rfl⟩
    | error e h₁ => simp [inside] at run
  obtain ⟨h₁, run₁, rfl⟩ := run₀
  rcases inner g₀ x h₁ run₁ with full | ⟨y, k₁, v', run₂, g₁, e, related⟩
  · exact .inl (withRoots_noMemory full)
  right
  have same : h₁.SameArena { h₁ with temporaries := h₁.temporaries.shrink h.temporaries.size } := ⟨rfl, rfl, rfl⟩
  have back : h₁.temporaries.shrink h.temporaries.size = h.temporaries := by
    rw [e.temporaries]
    exact shrink_append h.temporaries ρ
  have size : k.temporaries.size = h.temporaries.size := by
    rw [← Array.length_toList, g.temporaries, List.length_map, Array.length_toList]
  have back' : (k₁.temporaries.shrink k.temporaries.size).toList = h.temporaries.toList.map v'.name := by
    have : k₁.temporaries.toList = h.temporaries.toList.map v'.name ++ ρ.map v'.name := by
      rw [g₁.temporaries, e.temporaries, Heap.rooting]
      simp
    rw [Array.toList_shrink, this, size]
    simp
  have shelters : Shelters (h.roots ++ ρ) v h v' { h₁ with temporaries := h₁.temporaries.shrink h.temporaries.size } := by
    have inside := e.shelters
    rw [roots_rooting] at inside
    exact inside.arena sameArena_rooting same
  refine ⟨y, { k₁ with temporaries := k₁.temporaries.shrink k.temporaries.size }, v', ?_, ?_,
    ⟨shelters.mono fun a ha => List.mem_append_left ρ ha, e.extent, e.contexts, back⟩, shelters, outer v' h₁ _ x y same related⟩
  · unfold Heap.withRoots
    rw [Heap.rooting] at run₂
    simp only [run₂]
  · refine g₁.reroot same ⟨rfl, rfl, rfl⟩ (fun a ha => g₁.root a ?_) g₁.contexts (back'.trans (by rw [back]))
    have outside : ({ h₁ with temporaries := h₁.temporaries.shrink h.temporaries.size } : Heap).roots = h.roots := by
      rw [roots, roots, back]
      exact congrArg (fun cs => unassigned :: cs ++ h.temporaries.toList) e.contexts
    rw [e.roots, roots_rooting]
    exact List.mem_append_left ρ (outside ▸ ha)

end Echoes

end Heap

end FiberMachine
