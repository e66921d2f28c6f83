import FiberMachine.Proofs.Making

/-!
# Two heaps with the same objects

A graph of objects is a set of blocks that are closed under references. Two heaps hold the same graph if its
blocks have the same tags, sizes and numbers in both and refer to each other in the same way, whatever
their addresses are and whatever else is in the heaps. One of the heaps may be roomy and the other full of
garbage, so an operation that leaves the same graphs does not depend on the collections in it.
-/

namespace FiberMachine

/-- The tag of the blocks that a reference leads to, where operations read on from there. -/
def Tag.leadsTo : Tag → Nat → Option Tag
  | .string, 1 => some .bytes
  | .slice, 0 => some .array
  | .stack, 1 => some .array
  | .queue, 2 => some .array
  | .list, 1 => some .listNode
  | .list, 2 => some .listNode
  | .listNode, 1 => some .listNode
  | .listNode, 2 => some .listNode
  | .context, 1 => some .stack
  | .context, 2 => some .stack
  | .context, 5 => some .list
  | .channel, 1 => some .queue
  | .channel, 2 => some .list
  | .channelRequest, 0 => some .context
  | .channelRequest, 1 => some .channel
  | .channelRequest, 5 => some .frame
  | .waitGroup, 1 => some .queue
  | _, _ => none

namespace Heap

/-- Payload word `i` of the block at `a` is a reference. -/
def RefersAt (h : Heap) (a i : Nat) : Prop :=
  match (h.tagAt a).layout with
  | .fields positions => i ∈ positions
  | .counted => 1 ≤ i ∧ i ≤ h.ref a 0

/-- Payload word `i` of the block at `a` is a number. What is behind the items of a counted block is neither. -/
def NumberAt (h : Heap) (a i : Nat) : Prop :=
  match (h.tagAt a).layout with
  | .fields positions => i ∉ positions
  | .counted => i = 0

/-- The block at `a` holds the same in the other heap, where it has another name. -/
structure Alike (name : Addr → Addr) (h k : Heap) (a : Addr) : Prop where
  tag : k.tagAt (name a) = h.tagAt a
  room : k.room (name a) = h.room a
  number : ∀ i < h.room a, h.NumberAt a i → k.cell (name a) i = h.cell a i
  reference : ∀ i < h.room a, h.RefersAt a i → k.ref (name a) i = name (h.ref a i)

/-- The references of the block at `a` lead to blocks of the right kind. -/
def Typed (h : Heap) (a : Addr) : Prop :=
  ∀ i t, (h.tagAt a).leadsTo i = some t → h.ref a i = unassigned ∨ h.tagAt (h.ref a i) = t

/-- The links of a list node lead up and down in the order of the nodes, so that no chain runs in a circle. -/
structure Ordered (rank : Addr → Nat) (h : Heap) (a : Addr) : Prop where
  before : h.tagAt a = .listNode → h.ref a 1 = unassigned ∨ rank (h.ref a 1) < rank a
  after : h.tagAt a = .listNode → h.ref a 2 = unassigned ∨ rank a < rank (h.ref a 2)

/-- The blocks of a graph, their names in another heap of a given size, and an order of the list nodes among them. -/
structure View where
  blocks : Addr → Prop
  name : Addr → Addr
  rank : Addr → Nat
  extent : Nat

/-- The heaps are well-formed and hold the same graph of objects, which the roots belong to. -/
structure Twins (v : View) (h k : Heap) : Prop where
  tidy : h.Tidy
  tidy' : k.Tidy
  root : ∀ a ∈ h.roots, v.blocks a
  extent : k.capacity = v.extent
  nil : v.name unassigned = unassigned
  empty : h.room unassigned = 0
  contexts : k.contexts = h.contexts.map v.name
  temporaries : k.temporaries.toList = h.temporaries.toList.map v.name
  allocated : ∀ a, v.blocks a → h.Allocated a
  allocated' : ∀ a, v.blocks a → k.Allocated (v.name a)
  injective : ∀ a b, v.blocks a → v.blocks b → v.name a = v.name b → a = b
  closed : ∀ a b, v.blocks a → h.Child a b → v.blocks b
  alike : ∀ a, v.blocks a → Alike v.name h k a
  typed : ∀ a, v.blocks a → h.Typed a
  ordered : ∀ a, v.blocks a → Ordered v.rank h a

variable {v v' : View} {h h' k k' : Heap} {name : Addr → Addr} {a b c i j n : Nat} {t u : Tag} {w w' : Word} {π : List Nat}

/-! ### Positions -/

theorem refersAt_fields (tag : h.tagAt a = t) (layout : t.layout = .fields π) : h.RefersAt a i ↔ i ∈ π := by
  rw [RefersAt, tag, layout]

theorem numberAt_fields (tag : h.tagAt a = t) (layout : t.layout = .fields π) : h.NumberAt a i ↔ i ∉ π := by
  rw [NumberAt, tag, layout]

theorem refersAt_counted (tag : h.tagAt a = t) (layout : t.layout = .counted) : h.RefersAt a i ↔ 1 ≤ i ∧ i ≤ h.ref a 0 := by
  rw [RefersAt, tag, layout]

theorem numberAt_counted (tag : h.tagAt a = t) (layout : t.layout = .counted) : h.NumberAt a i ↔ i = 0 := by
  rw [NumberAt, tag, layout]

/-- The positions of a laid-out block are in its payload. -/
theorem LaidOut.lt_room (laid : h.LaidOut a) (refers : h.RefersAt a i) : i < h.room a := by
  rw [laidOut_iff] at laid
  unfold RefersAt at refers
  split at refers
  next layout =>
    rw [layout] at laid
    exact laid i refers
  next layout =>
    rw [layout] at laid
    simp only at laid
    omega

theorem LaidOut.count_lt_room (laid : h.LaidOut a) (layout : (h.tagAt a).layout = .counted) : 0 < h.room a := by
  rw [laidOut_iff, layout] at laid
  simp only at laid
  omega

theorem mem_childrenAt : b ∈ h.childrenAt a ↔ ∃ i, h.RefersAt a i ∧ h.ref a i = b := by
  rw [childrenAt_eq]
  unfold RefersAt
  cases (h.tagAt a).layout with
  | fields positions => simp only [List.mem_map]
  | counted =>
    simp only [List.mem_map, List.mem_range]
    constructor
    · rintro ⟨j, hj, rfl⟩
      exact ⟨1 + j, ⟨by omega, by omega⟩, rfl⟩
    · rintro ⟨i, ⟨pos, le⟩, rfl⟩
      exact ⟨i - 1, by omega, by rw [Nat.add_sub_cancel' pos]⟩

theorem Tidy.child_iff_refers (tidy : h.Tidy) (ha : h.Allocated a) : h.Child a b ↔ ∃ i, h.RefersAt a i ∧ h.ref a i = b :=
  (tidy.child_iff ha).trans mem_childrenAt

/-- Where an operation reads on, there is a reference. -/
theorem leadsTo_refers (leads : (h.tagAt a).leadsTo i = some t) : h.RefersAt a i := by
  generalize tag : h.tagAt a = u at leads
  unfold Tag.leadsTo at leads
  split at leads
  all_goals
    first
    | exact (refersAt_fields tag rfl).mpr (by decide)
    | cases leads

/-! ### Blocks that are kept -/

theorem Kept.refersAt (kept : Kept h h' a) (laid : h.LaidOut a) : h'.RefersAt a i ↔ h.RefersAt a i := by
  unfold RefersAt
  rw [kept.tagAt]
  split
  next => rfl
  next layout => rw [kept.ref (laid.count_lt_room layout)]

theorem Kept.numberAt (kept : Kept h h' a) : h'.NumberAt a i ↔ h.NumberAt a i := by
  unfold NumberAt
  rw [kept.tagAt]

theorem Alike.kept (alike : Alike name h k a) (laid : h.LaidOut a) (kept : Kept h h' a) (kept' : Kept k k' (name a)) : Alike name h' k' a where
  tag := by rw [kept'.tagAt, alike.tag, kept.tagAt]
  room := by rw [kept'.room, alike.room, kept.room]
  number := by
    intro i hi number
    rw [kept.room] at hi
    rw [kept'.cell (by rwa [alike.room]), kept.cell hi, alike.number i hi (kept.numberAt.mp number)]
  reference := by
    intro i hi refers
    rw [kept.room] at hi
    rw [kept'.ref (by rwa [alike.room]), kept.ref hi, alike.reference i hi ((kept.refersAt laid).mp refers)]

theorem Typed.kept (typed : h.Typed a) (laid : h.LaidOut a) (kept : Kept h h' a)
    (tags : ∀ i, h.RefersAt a i → h'.tagAt (h.ref a i) = h.tagAt (h.ref a i)) : h'.Typed a := by
  intro i t leads
  rw [kept.tagAt] at leads
  have refers := leadsTo_refers leads
  rw [kept.ref (laid.lt_room refers), tags i refers]
  exact typed i t leads

theorem Ordered.kept {rank rank' : Addr → Nat} (ordered : Ordered rank h a) (laid : h.LaidOut a) (kept : Kept h h' a) (self : rank' a = rank a)
    (ranks : ∀ i, h.RefersAt a i → rank' (h.ref a i) = rank (h.ref a i)) : Ordered rank' h' a := by
  have same {i : Nat} (node : h.tagAt a = .listNode) (hi : i ∈ [0, 1, 2]) :
      h'.ref a i = h.ref a i ∧ rank' (h.ref a i) = rank (h.ref a i) := by
    have refers : h.RefersAt a i := (refersAt_fields node rfl).mpr hi
    exact ⟨kept.ref (laid.lt_room refers), ranks i refers⟩
  refine ⟨fun node => ?_, fun node => ?_⟩
  · rw [kept.tagAt] at node
    obtain ⟨ref, rank⟩ := same node (i := 1) (by decide)
    rw [ref, rank, self]
    exact ordered.before node
  · rw [kept.tagAt] at node
    obtain ⟨ref, rank⟩ := same node (i := 2) (by decide)
    rw [ref, rank, self]
    exact ordered.after node

namespace Twins

/-! ### The graph -/

section

variable (g : Twins v h k)
include g

theorem laidOut (ha : v.blocks a) : h.LaidOut a := g.tidy.laidOut (g.allocated a ha)

theorem child_of_refers (ha : v.blocks a) (refers : h.RefersAt a i) : h.Child a (h.ref a i) :=
  (g.tidy.child_iff_refers (g.allocated a ha)).mpr ⟨i, refers, rfl⟩

theorem refers (ha : v.blocks a) (hi : h.RefersAt a i) :
    v.blocks (h.ref a i) ∧ k.ref (v.name a) i = v.name (h.ref a i) :=
  ⟨g.closed a _ ha (g.child_of_refers ha hi), (g.alike a ha).reference i ((g.laidOut ha).lt_room hi) hi⟩

theorem refersAt (ha : v.blocks a) : k.RefersAt (v.name a) i ↔ h.RefersAt a i := by
  have alike := g.alike a ha
  unfold RefersAt
  rw [alike.tag]
  split
  next => rfl
  next layout =>
    have number : h.NumberAt a 0 := (numberAt_counted rfl layout).mpr rfl
    rw [ref, alike.number 0 ((g.laidOut ha).count_lt_room layout) number, ref]

/-- What can be reached belongs to the graph, and its name can be reached. -/
theorem live {as : List Addr} (has : ∀ a ∈ as, v.blocks a) (ha : h.Live as a) : v.blocks a ∧ k.Live (as.map v.name) (v.name a) := by
  refine Reaches.of_closed (M := fun a => v.blocks a ∧ k.Live (as.map v.name) (v.name a)) ha (fun b hb => ?_) ?_
  · rcases List.mem_append.mp hb with hb | hb
    · refine ⟨g.root b hb, .root ?_⟩
      simp only [roots, List.mem_append, List.mem_cons] at hb ⊢
      rw [g.contexts, g.temporaries]
      rcases hb with (rfl | hb) | hb
      · exact .inl (.inl g.nil)
      · exact .inl (.inr (List.mem_map_of_mem hb))
      · exact .inr (List.mem_map_of_mem hb)
    · exact ⟨has b hb, .extra (List.mem_map_of_mem hb)⟩
  · rintro b c ⟨hb, live⟩ hc
    obtain ⟨i, refers, rfl⟩ := (g.tidy.child_iff_refers (g.allocated b hb)).mp hc
    obtain ⟨blocks, same⟩ := g.refers hb refers
    refine ⟨blocks, live.child ?_⟩
    exact (g.tidy'.child_iff_refers (g.allocated' b hb)).mpr ⟨i, (g.refersAt hb).mpr refers, same⟩

theorem inj (ha : v.blocks a) (hb : v.blocks b) : v.name a = v.name b ↔ a = b :=
  ⟨g.injective a b ha hb, congrArg v.name⟩

theorem zero : v.blocks unassigned := g.root _ (by simp [roots])

theorem name_nil (ha : v.blocks a) : v.name a = unassigned ↔ a = unassigned := by
  conv_lhs => rw [← g.nil]
  exact g.inj ha g.zero

/-- Other roots on the same arenas. -/
theorem reroot (same : h.SameArena h') (same' : k.SameArena k') (root : ∀ a ∈ h'.roots, v.blocks a)
    (contexts : k'.contexts = h'.contexts.map v.name) (temporaries : k'.temporaries.toList = h'.temporaries.toList.map v.name) :
    Twins v h' k' := by
  have tidy := g.tidy.sameArena same fun a ha => g.allocated a (root a ha)
  refine {
    tidy := tidy
    tidy' := g.tidy'.sameArena same' fun b hb => ?_
    root := root
    extent := (congrArg Memory.size same'.memory).trans g.extent
    nil := g.nil
    empty := (same.kept (g.allocated _ g.zero)).room.trans g.empty
    contexts := contexts
    temporaries := temporaries
    allocated := fun a ha => same.allocated.mpr (g.allocated a ha)
    allocated' := fun a ha => same'.allocated.mpr (g.allocated' a ha)
    injective := g.injective
    closed := fun a b ha hb => g.closed a b ha ((g.tidy.child_sameArena tidy same (g.allocated a ha)).mp hb)
    alike := fun a ha => (g.alike a ha).kept (g.laidOut ha) (same.kept (g.allocated a ha)) (same'.kept (g.allocated' a ha))
    typed := fun a ha => (g.typed a ha).kept (g.laidOut ha) (same.kept (g.allocated a ha)) fun i refers =>
      (same.kept (g.allocated _ (g.refers ha refers).1)).tagAt
    ordered := fun a ha => (g.ordered a ha).kept (g.laidOut ha) (same.kept (g.allocated a ha)) rfl fun _ _ => rfl }
  simp only [roots, List.mem_append, List.mem_cons] at hb root
  rw [contexts, temporaries] at hb
  rcases hb with (rfl | hb) | hb
  · rw [← g.nil]
    exact g.allocated' _ g.zero
  · obtain ⟨a, ha, rfl⟩ := List.mem_map.mp hb
    exact g.allocated' a (root a (.inl (.inr ha)))
  · obtain ⟨a, ha, rfl⟩ := List.mem_map.mp hb
    exact g.allocated' a (root a (.inr ha))

/-- More addresses of the graph are protected. -/
theorem rooting {as : List Addr} (has : ∀ a ∈ as, v.blocks a) : Twins v (h.rooting as) (k.rooting (as.map v.name)) := by
  refine g.reroot sameArena_rooting sameArena_rooting (fun a ha => ?_) g.contexts ?_
  · rw [roots_rooting] at ha
    rcases List.mem_append.mp ha with ha | ha
    · exact g.root a ha
    · exact has a ha
  · simp [Heap.rooting, g.temporaries]

end

/-- Different blocks of the graph are fewer than the words of either heap. -/
theorem fewer {seen : List Addr} (g : Twins v h k) (blocks : ∀ b ∈ seen, v.blocks b) (nodup : seen.Nodup) : seen.length ≤ h.capacity ∧ seen.length ≤ v.extent := by
  constructor
  · have part : seen ⊆ List.range h.capacity := fun b hb => List.mem_range.mpr (g.tidy.sound.lt_capacity (g.allocated b (blocks b hb)))
    simpa using (nodup.subperm part).length_le
  · have part : seen.map v.name ⊆ List.range v.extent := by
      intro _ hb
      obtain ⟨b, hc, rfl⟩ := List.mem_map.mp hb
      rw [← g.extent]
      exact List.mem_range.mpr (g.tidy'.sound.lt_capacity (g.allocated' b (blocks b hc)))
    have nodup : (seen.map v.name).Nodup := nodup.map_on fun b hb c hc => g.injective b c (blocks b hb) (blocks c hc)
    simpa using (nodup.subperm part).length_le

end Twins

/-- Only the unassigned object is in the graph. -/
def View.blank (extent : Nat) : View := ⟨(· = unassigned), id, fun _ => 0, extent⟩

/-- New heaps hold the same objects, whatever their sizes. -/
theorem Blank.twins (blank : h.Blank) (blank' : k.Blank) : Twins (.blank k.capacity) h k := by
  have tag := blank.tagAt
  have empty {j : Heap} (blank : j.Blank) : j.room unassigned = 0 := by
    rw [room, levelAt, blank.header]
    decide
  have nothing {i : Nat} : ¬h.RefersAt unassigned i := fun refers => List.not_mem_nil ((refersAt_fields tag rfl).mp refers)
  have roots : h.roots = [unassigned] := by rw [Heap.roots, blank.contexts, blank.temporaries]; rfl
  exact {
    tidy := blank.tidy
    tidy' := blank'.tidy
    root := fun a ha => List.mem_singleton.mp (roots ▸ ha)
    extent := rfl
    nil := rfl
    empty := empty blank
    contexts := by rw [blank.contexts, blank'.contexts]; rfl
    temporaries := by rw [blank.temporaries, blank'.temporaries]; rfl
    allocated := fun a ha => (blank.allocated a).mpr ha
    allocated' := fun a ha => (blank'.allocated a).mpr ha
    injective := fun _ _ _ _ same => same
    closed := by
      rintro a b rfl hb
      obtain ⟨i, refers, -⟩ := (blank.tidy.child_iff_refers ((blank.allocated _).mpr rfl)).mp hb
      exact (nothing refers).elim
    alike := by
      rintro a rfl
      exact ⟨blank'.tagAt.trans tag.symm, (empty blank').trans (empty blank).symm, fun i hi => by rw [empty blank] at hi; omega,
        fun i hi => by rw [empty blank] at hi; omega⟩
    typed := by
      rintro a rfl i t leads
      exact (nothing (leadsTo_refers leads)).elim
    ordered := by
      rintro a rfl
      have other : h.tagAt unassigned ≠ .listNode := by
        rw [tag]
        decide
      exact ⟨fun no => absurd no other, fun no => absurd no other⟩ }

/-- The same heap on both sides. -/
theorem Twins.self (g : Twins v h k) : Twins { v with name := id, extent := h.capacity } h h where
  tidy := g.tidy
  tidy' := g.tidy
  root := g.root
  extent := rfl
  nil := rfl
  empty := g.empty
  contexts := (List.map_id _).symm
  temporaries := (List.map_id _).symm
  allocated := g.allocated
  allocated' := g.allocated
  injective _ _ _ _ same := same
  closed := g.closed
  alike _ _ := ⟨rfl, rfl, fun _ _ _ => rfl, fun _ _ _ => rfl⟩
  typed := g.typed
  ordered := g.ordered

end Heap

end FiberMachine
