import FiberMachine.Proofs.FreeLists
import FiberMachine.Proofs.Tiling

/-!
# The arena and its plan

While blocks are split and merged, the headers in memory do not tell the whole partition: a block that
has left its free list, and is not allocated yet, still has an old header. A plan says what the
arena is divided into at such a moment. `Arena h P R` states that the heap `h` agrees with the plan `P`
and that the free list of each level `l` is the ring `R l`; blocks in hand are in the plan and on no
list. Appending to a free list and taking out of one lead from arenas to arenas and leave all words of
the taken blocks as they are.
-/

namespace FiberMachine

/-- What a block of the arena is used for. -/
inductive Use where
  | free
  | taken
  /-- In hand: on no free list and not allocated. -/
  | held
  deriving DecidableEq

/-- A block of the arena. -/
structure Slot where
  level : Nat
  use : Use
  deriving DecidableEq

/-- The blocks of the arena by the address at which they start. -/
abbrev Plan := Nat → Option Slot

namespace Plan

/-- The plan with the block at `a` replaced. -/
def set (P : Plan) (a : Nat) (s : Slot) : Plan := Function.update P a (some s)

/-- The plan as a tiling. -/
def levels (P : Plan) : Nat → Option Nat := fun a => (P a).map Slot.level

/-- The same blocks are taken. -/
def SameTaken (P Q : Plan) : Prop := ∀ a l, Q a = some ⟨l, .taken⟩ ↔ P a = some ⟨l, .taken⟩

variable {P Q : Plan} {a b l : Nat} {s t : Slot} {u : Use}

@[simp] theorem set_self : P.set a s a = some s := by simp [set]

theorem set_of_ne (ne : b ≠ a) : P.set a s b = P b := by simp [set, ne]

theorem levels_eq (h : P a = some s) : P.levels a = some s.level := by simp [levels, h]

theorem eq_of_levels (h : P.levels a = some l) : ∃ u, P a = some ⟨l, u⟩ := by
  unfold levels at h
  cases hs : P a with
  | none => simp [hs] at h
  | some s =>
    rw [hs] at h
    cases s
    simp only [Option.map_some, Option.some.injEq] at h
    exact ⟨_, by rw [h]⟩

/-- Another use of a block does not change the tiling. -/
theorem levels_set (h : P a = some ⟨l, u⟩) (v : Use) : (P.set a ⟨l, v⟩).levels = P.levels := by
  funext b
  by_cases e : b = a
  · subst e
    simp [levels, h]
  · simp [levels, set_of_ne e]

theorem SameTaken.refl (P : Plan) : P.SameTaken P := fun _ _ => Iff.rfl

theorem SameTaken.trans {O : Plan} (h : O.SameTaken P) (k : P.SameTaken Q) : O.SameTaken Q :=
  fun a l => (k a l).trans (h a l)

/-- Changing a block that is not taken, to one that is not. -/
theorem sameTaken_set (h : P a = some s) (hs : s.use ≠ .taken) (ht : t.use ≠ .taken) :
    P.SameTaken (P.set a t) := by
  intro b l
  by_cases e : b = a
  · subst e
    rw [set_self, h]
    constructor <;> rintro e <;> cases e <;> contradiction
  · rw [set_of_ne e]

end Plan

/-- The heap agrees with a plan, and its free lists are the given rings. -/
structure Arena (h : Heap) (P : Plan) (R : Nat → List Nat) : Prop where
  capacity : h.capacity = 2 ^ h.levels
  levels_le : h.levels ≤ maxLevel
  lists : h.freeLists.size = h.levels + 1
  tiling : Tiling h.levels P.levels
  free : ∀ {a l}, P a = some ⟨l, .free⟩ → h.freeAt a = true ∧ h.levelAt a = l
  taken : ∀ {a l}, P a = some ⟨l, .taken⟩ → h.freeAt a = false ∧ h.levelAt a = l
  first : ∀ {l}, l ≤ h.levels → h.freeLists[l]? = some (R l).head?
  ring : ∀ {l}, l ≤ h.levels → Ring h.nextAt h.previousAt (R l)
  members : ∀ {l a}, l ≤ h.levels → (a ∈ R l ↔ P a = some ⟨l, .free⟩)

/-- A change of headers and free lists that leaves every word of the taken blocks. -/
structure Frame (P : Plan) (h h' : Heap) : Prop where
  rest : h.Rest h'
  words : ∀ {a l}, P a = some ⟨l, .taken⟩ → ∀ x, a ≤ x → x < a + 2 ^ l → h'.wordAt x = h.wordAt x

namespace Frame

theorem refl (P : Plan) (h : Heap) : Frame P h h := ⟨rfl, fun _ _ _ _ => rfl⟩

theorem trans {P Q : Plan} {h h' h'' : Heap} (f : Frame P h h') (g : Frame Q h' h'')
    (same : P.SameTaken Q) : Frame P h h'' := by
  refine ⟨f.rest.trans g.rest, fun ha x hx hx' => ?_⟩
  rw [g.words ((same _ _).mpr ha) x hx hx', f.words ha x hx hx']

end Frame

namespace Arena

variable {h : Heap} {P : Plan} {R : Nat → List Nat} {a b l m : Nat} {u : Use} {s t : Slot}

theorem lt_capacity (A : Arena h P R) (ha : P a = some s) : a < h.capacity := by
  rw [A.capacity]
  exact A.tiling.lt_capacity (Plan.levels_eq ha)

theorem level_le (A : Arena h P R) (ha : P a = some s) : s.level ≤ h.levels :=
  A.tiling.level_le (Plan.levels_eq ha)

theorem capacity_le (A : Arena h P R) : h.capacity ≤ Heap.linkLimit := by
  rw [A.capacity]
  exact Nat.pow_le_pow_right (by decide) A.levels_le

theorem lt_linkLimit (A : Arena h P R) (ha : P a = some s) : a < Heap.linkLimit :=
  Nat.lt_of_lt_of_le (A.lt_capacity ha) A.capacity_le

/-- The words inside a block are in no other block. -/
theorem eq_of_mem {x : Nat} (A : Arena h P R) (ha : P a = some s) (hb : P b = some t)
    (hax : a ≤ x) (hxa : x < a + 2 ^ s.level) (hbx : b ≤ x) (hxb : x < b + 2 ^ t.level) : a = b :=
  A.tiling.eq_of_mem (Plan.levels_eq ha) (Plan.levels_eq hb) hax hxa hbx hxb

/-- The start of a block is inside no other block. -/
theorem eq_of_start (A : Arena h P R) (ha : P a = some s) (hb : P b = some t)
    (hab : a ≤ b) (hba : b < a + 2 ^ s.level) : a = b :=
  A.eq_of_mem ha hb hab hba le_rfl (Nat.lt_add_of_pos_right (Nat.two_pow_pos _))

/-- Writes at the starts of blocks that are not taken form a frame. -/
theorem frame_of_starts (A : Arena h P R) {h' : Heap}
    (rest : h.Rest h')
    (words : ∀ x, (∀ s, P x = some s → s.use = .taken) → h'.wordAt x = h.wordAt x) :
    Frame P h h' := by
  refine ⟨rest, fun {a l} ha x hx hx' => words x fun s hs => ?_⟩
  obtain rfl := A.eq_of_start ha hs hx hx'
  rw [ha] at hs
  cases hs
  rfl

/-! ### Appending to and taking out of a free list -/

/-- The rings of an arena are its free lists. -/
theorem sequences (A : Arena h P R) : h.Lists R where
  capacity_le := A.capacity_le
  levels_le := A.levels_le
  size := A.lists
  first := A.first
  ring := A.ring
  members hl ha := ⟨A.lt_capacity ((A.members hl).mp ha), A.free ((A.members hl).mp ha)⟩

/-- A block that is not taken changes its use, and the list of its level becomes `xs`. -/
theorem relist (A : Arena h P R) (ha : P a = some ⟨l, u⟩) {h' : Heap} {v : Use} {xs near : List Nat}
    (hu : u ≠ .taken) (hv : v ≠ .taken) (spliced : h.Spliced h' a near) (within : ∀ x ∈ near, x ∈ R l)
    (sequences : h'.Lists (Function.update R l xs)) (members : ∀ b, b ∈ xs ↔ P.set a ⟨l, v⟩ b = some ⟨l, .free⟩) :
    Arena h' (P.set a ⟨l, v⟩) (Function.update R l xs) ∧ Frame P h h' := by
  have levels := spliced.rest.levels
  have hl : l ≤ h.levels := A.level_le ha
  refine ⟨⟨?_, levels ▸ A.levels_le, sequences.size, ?_, ?_, ?_, sequences.first, sequences.ring, ?_⟩,
    A.frame_of_starts spliced.rest fun x hx => ?_⟩
  · rw [spliced.capacity, levels, A.capacity]
  · rw [Plan.levels_set ha v, levels]
    exact A.tiling
  · intro b m hb
    by_cases e : b = a
    · subst e
      rw [Plan.set_self] at hb
      cases hb
      refine (sequences.members (levels.symm ▸ hl) ?_).2
      rw [Function.update_self]
      exact (members b).mpr Plan.set_self
    · rw [Plan.set_of_ne e] at hb
      rw [(spliced.header b e).1, (spliced.header b e).2]
      exact A.free hb
  · intro b m hb
    by_cases e : b = a
    · subst e
      rw [Plan.set_self] at hb
      cases hb
      exact absurd rfl hv
    · rw [Plan.set_of_ne e] at hb
      rw [(spliced.header b e).1, (spliced.header b e).2]
      exact A.taken hb
  · intro m b hm
    by_cases e : m = l
    · subst e
      rw [Function.update_self]
      exact members b
    · rw [Function.update_of_ne e, A.members (levels ▸ hm)]
      by_cases eb : b = a
      · subst eb
        rw [Plan.set_self, ha]
        constructor <;> rintro ⟨⟩ <;> exact absurd rfl e
      · rw [Plan.set_of_ne eb]
  · refine spliced.words x (fun e => ?_) fun near => ?_
    · subst e
      exact hu (hx _ ha)
    · have := hx _ ((A.members hl).mp (within x near))
      cases this

/-- A block in hand becomes the last member of its free list. -/
theorem push (A : Arena h P R) (ha : P a = some ⟨l, .held⟩) :
    ∃ h', Heap.pushFree a l h = .ok () h' ∧
      Arena h' (P.set a ⟨l, .free⟩) (Function.update R l (R l ++ [a])) ∧ Frame P h h' := by
  have hl : l ≤ h.levels := A.level_le ha
  have unlisted (m : Nat) (hm : m ≤ h.levels) : a ∉ R m := by
    rw [A.members hm, ha]
    rintro ⟨⟩
  obtain ⟨h', run, sequences, spliced⟩ := A.sequences.push hl (A.lt_capacity ha) unlisted
  refine ⟨h', run, A.relist ha (by decide) (by decide) spliced (fun x hx => ?_) sequences fun b => ?_⟩
  · rcases List.mem_append.mp hx with hx | hx
    · exact List.mem_of_mem_head? (Option.mem_toList.mp hx)
    · exact List.mem_of_mem_getLast? (Option.mem_toList.mp hx)
  · rw [List.mem_append, List.mem_singleton, A.members hl]
    by_cases e : b = a
    · subst e
      simp
    · simp [Plan.set_of_ne e, e]

/-- A free block leaves its list and is in hand. -/
theorem unlink (A : Arena h P R) (ha : P a = some ⟨l, .free⟩) :
    ∃ h', Heap.unlinkFree a l h = .ok () h' ∧
      Arena h' (P.set a ⟨l, .held⟩) (Function.update R l ((R l).erase a)) ∧ Frame P h h' := by
  have hl : l ≤ h.levels := A.level_le ha
  have haR : a ∈ R l := (A.members hl).mpr ha
  have ring := A.ring hl
  obtain ⟨h', run, sequences, spliced⟩ := A.sequences.unlink hl haR
  refine ⟨h', run, A.relist ha (by decide) (by decide) spliced ?_ sequences fun b => ?_⟩
  · simp [ring.next_mem haR, ring.previous_mem haR]
  · rw [ring.nodup.mem_erase_iff, A.members hl]
    by_cases e : b = a
    · subst e
      simp
    · simp [Plan.set_of_ne e, e]

end Arena

end FiberMachine
