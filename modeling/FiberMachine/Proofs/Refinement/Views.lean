import FiberMachine.Proofs.Refinement.Steps

/-!
# Views of live objects

Every block that a collection would keep is the main block of an object, or part of one. What the readers of the heap
answer about the main block is what the store says about the object.
-/

namespace FiberMachine

open Ideal Heap

/-! ### What is observed -/

/-- What a context waits for: requests, or a wait group. -/
def Context.waits (addr : Addr) : HeapReader (List Addr) := do
  LinkedList.values (← Context.waitList addr)

/-- The saved environments and return markers, the oldest first. -/
def Context.returns (addr : Addr) : HeapReader (List Addr) := do
  Stack.items (← Context.returnStack addr)

/-- The buffered values of a channel, the oldest first. -/
def Channel.buffered (addr : Addr) : HeapReader (List Addr) := do
  Queue.items (← Channel.buffer addr)

/-- There is a live object of that kind at the address: one that a collection would keep. -/
structure Heap.Holds (h : Heap) (a : Addr) (t : Tag) : Prop where
  reachable : h.Reachable a
  tag : h.tagAt a = t

/-- Where a path of references leads: at each block it takes the one at the given position. -/
def Heap.along (h : Heap) (a : Addr) : List Nat → Option Addr
  | [] => some a
  | i :: path =>
    match children a h with
    | .ok found => found[i]?.bind fun b => h.along b path
    | .error _ => none

theorem Heap.Reachable.along {h : Heap} {a b : Addr} {path : List Nat} (reachable : h.Reachable a) (found : h.along a path = some b) :
    h.Reachable b := by
  induction path generalizing a with
  | nil => exact Option.some.inj found ▸ reachable
  | cons i path ih =>
    rw [Heap.along] at found
    split at found
    next as all =>
      obtain ⟨c, hc, found⟩ := Option.bind_eq_some_iff.mp found
      exact ih (.child reachable ⟨as, all, List.mem_of_getElem? hc⟩) found
    next => cases found

/-- Whether a path from a root leads to a block of the given kind. -/
def Heap.finds (h : Heap) (a : Addr) (path : List Nat) (t : Tag) : Bool :=
  h.roots.contains a && (h.along a path).any fun b => h.tagAt b == t

theorem Heap.finds_holds {h : Heap} {a : Addr} {path : List Nat} {t : Tag} (found : h.finds a path t = true) :
    ∃ b, h.along a path = some b ∧ h.Holds b t := by
  obtain ⟨root, found⟩ := Bool.and_eq_true_iff.mp found
  obtain ⟨b, hb, tag⟩ : ∃ b, h.along a path = some b ∧ (h.tagAt b == t) = true := by simpa [Option.any_eq_true] using found
  exact ⟨b, hb, .along (.start (List.contains_iff_mem.mp root)) hb, eq_of_beq tag⟩

/-! ### Corresponding lists -/

section

variable {α β : Type} {P : α → β → Prop} {xs ys : List α} {l : List β} {x : α} {y : β}

theorem related_right (related : List.Forall₂ P xs l) (hx : x ∈ xs) : ∃ y ∈ l, P x y := by
  obtain ⟨i, hi, rfl⟩ := List.mem_iff_getElem.mp hx
  have inside : i < l.length := related.length_eq ▸ hi
  exact ⟨l[i], List.getElem_mem inside, related.get hi inside⟩

theorem related_left (related : List.Forall₂ P xs l) (hy : y ∈ l) : ∃ x ∈ xs, P x y :=
  related_right related.flip hy

/-- What corresponds to two lists together. -/
theorem related_append (related : List.Forall₂ P (xs ++ ys) l) :
    ∃ as bs, l = as ++ bs ∧ List.Forall₂ P xs as ∧ List.Forall₂ P ys bs := by
  refine ⟨l.take xs.length, l.drop xs.length, (List.take_append_drop _ l).symm, ?_, ?_⟩
  · have front := List.forall₂_take xs.length related
    rwa [List.take_left] at front
  · have back := List.forall₂_drop xs.length related
    rwa [List.drop_left] at back

/-- What corresponds by way of a third list. -/
theorem related_trans {γ : Type} {Q : β → γ → Prop} {zs : List γ} (first : List.Forall₂ P xs l) (second : List.Forall₂ Q l zs) :
    List.Forall₂ (fun x z => ∃ y, P x y ∧ Q y z) xs zs := by
  induction first generalizing zs with
  | nil =>
    cases second
    exact .nil
  | cons p _ ih =>
    cases second with
    | cons q rest => exact .cons ⟨_, p, q⟩ (ih rest)

end

/-- What is read when the ideal observation succeeds. -/
theorem Reads.answer {α β : Type} {s : Store} {h : Heap} {look : HeapReader α} {n : StoreM β} {Q : β → α → Prop} {b : β}
    (f : Reads s h look n Q) (run : n s = .ok b s) : ∃ a, look h = .ok a ∧ Q b a := by
  unfold Reads at f
  rw [run] at f
  generalize look h = y at f ⊢
  cases f with
  | ok q => exact ⟨_, rfl, q⟩

variable {w : World} {s : Store} {h : Heap} {r c d q g : Ref} {a b n i : Nat} {t : Tag} {o : Obj}

/-! ### Parts of objects -/

namespace World

/-- A block of an object. The array that holds the items of a stack or a queue is not an object itself. -/
inductive Piece (w : World) (h : Heap) (b : Addr) : Prop
  | main {r : Ref} (home : w.home r b)
  | stack {d : Nat} {as : List Nat} (is : h.IsStack b d as) (homes : ∀ x ∈ as, ∃ r, w.home r x) (apart : ∀ r, ¬w.home r d)
  | queue {d n : Nat} {as : List Nat} (is : h.IsQueue b d n as) (homes : ∀ x ∈ as, ∃ r, w.home r x) (apart : ∀ r, ¬w.home r d)
  | items {as : List Nat} (is : h.IsSeq b .array as) (homes : ∀ x ∈ as, ∃ r, w.home r x)
  | list {ns as : List Nat} (is : h.IsList b ns as) (homes : ∀ x ∈ as, ∃ r, w.home r x)
  | node {a i : Nat} {ns as : List Nat} (is : h.IsList a ns as) (hi : i < ns.length) (here : b = nth ns i)
      (homes : ∀ x ∈ as, ∃ r, w.home r x)
  | bytes {n : Nat} (is : h.Is b .bytes n)

/-- The tags of blocks that are only parts of objects. -/
def inner : List Tag := [.stack, .queue, .array, .list, .listNode, .bytes]

/-- A block that is no part of another is an object. -/
theorem Piece.home (piece : w.Piece h b) (outer : h.tagAt b ∉ inner) : ∃ r, w.home r b := by
  cases piece with
  | main home => exact ⟨_, home⟩
  | stack is => exact absurd (is.is.tag ▸ by decide) outer
  | queue is => exact absurd (is.is.tag ▸ by decide) outer
  | items is => exact absurd (is.is.tag ▸ by decide) outer
  | list is => exact absurd (is.is.tag ▸ by decide) outer
  | node is hi here => exact absurd (here ▸ (is.is_nth hi).tag ▸ by decide) outer
  | bytes is => exact absurd (is.tag ▸ by decide) outer

theorem homes_of_forall₂ {xs : List Ref} {as : List Nat} (homes : List.Forall₂ w.home xs as) : ∀ x ∈ as, ∃ r, w.home r x :=
  fun _ hx => (related_left homes hx).imp fun _ both => both.2

/-- A block of an object that does not just hold the items of a stack or a queue: if it is an array, then it is an object itself. -/
structure Outer (w : World) (h : Heap) (b : Addr) : Prop where
  piece : w.Piece h b
  home : h.tagAt b = .array → ∃ r, w.home r b

theorem Outer.main (home : w.home r b) : w.Outer h b := ⟨.main home, fun _ => ⟨r, home⟩⟩

theorem Piece.outer (piece : w.Piece h b) (is : h.Is b t n) (other : t ≠ .array) : w.Outer h b :=
  ⟨piece, fun array => absurd (is.tag.symm.trans array) other⟩

end World

namespace Rep

/-- A part of an object that is an array is not an object itself. -/
theorem not_home {k : Nat} (rep : Rep w s h) (owns : w.owns r k b) (sub : k ≠ 0) (q : Ref) : ¬w.home q b :=
  fun home => sub (rep.owner r k q 0 b owns home).2

theorem stack_piece {k : Nat} {xs : List Ref} (rep : Rep w s h) (has : w.HasStack h r k a xs) (sub : k ≠ 0) : w.Outer h a := by
  obtain ⟨d, as, is, _, inside, homes, _⟩ := has
  exact (World.Piece.stack is (World.homes_of_forall₂ homes) (rep.not_home inside sub)).outer is.is (by decide)

theorem queue_piece {k : Nat} {xs : List Ref} (rep : Rep w s h) (has : w.HasQueue h r k a n xs) (sub : k ≠ 0) : w.Outer h a := by
  obtain ⟨d, as, is, _, inside, homes, _⟩ := has
  exact (World.Piece.queue is (World.homes_of_forall₂ homes) (rep.not_home inside sub)).outer is.is (by decide)

end Rep

theorem World.HasList.piece {k : Nat} {xs : List Ref} (has : w.HasList h r k a xs) : w.Outer h a := by
  obtain ⟨ns, as, is, _, _, homes, _⟩ := has
  exact (Piece.list is (homes_of_forall₂ homes)).outer is.is (by decide)

/-- What a block with fixed fields refers to. -/
theorem Heap.Tidy.child_of_fields (tidy : h.Tidy) (is : h.Is a t n) {π : List Nat} (layout : t.layout = .fields π)
    (child : h.Child a b) : ∃ i ∈ π, b = h.ref a i := by
  rw [tidy.child_iff is.allocated, childrenAt_eq, is.tag, layout] at child
  obtain ⟨i, hi, rfl⟩ := List.mem_map.mp child
  exact ⟨i, hi, rfl⟩

theorem Heap.IsStack.child_eq {xs : List Nat} (is : h.IsStack a d xs) (tidy : h.Tidy) (child : h.Child a b) : b = d := by
  obtain ⟨i, hi, rfl⟩ := tidy.child_of_fields is.is (π := [1]) rfl child
  exact List.mem_singleton.mp hi ▸ is.storage

theorem Heap.IsQueue.child_eq {xs : List Nat} (is : h.IsQueue a d n xs) (tidy : h.Tidy) (child : h.Child a b) : b = d := by
  obtain ⟨i, hi, rfl⟩ := tidy.child_of_fields is.is (π := [2]) rfl child
  exact List.mem_singleton.mp hi ▸ is.storage

/-- No object is a stack or a queue. -/
theorem World.Has.not_holder (has : w.Has h r a o) : o.tag ∉ [.stack, .queue] := by
  intro holder
  simp only [List.mem_cons, List.not_mem_nil, or_false] at holder
  cases o with
  | number t v =>
    have layout : t.layout = .fields [] := has.1
    rw [Obj.tag] at holder
    rcases holder with rfl | rfl <;> cases layout
  | sequence t xs =>
    obtain ⟨as, is, _⟩ := has
    have layout := is.counted
    rw [Obj.tag] at holder
    rcases holder with rfl | rfl <;> cases layout
  | _ => simp [Obj.tag] at holder

namespace Rep

/-- What an object refers to is a part of it, or another object. -/
theorem child_piece (rep : Rep w s h) (ha : w.home r a) (child : h.Child a b) : w.Outer h b := by
  obtain ⟨o, _, has⟩ := rep.object r a ha
  have tidy := rep.tidy
  cases o with
  | unassigned =>
    obtain ⟨i, hi, _⟩ := tidy.child_of_fields has rfl child
    cases hi
  | number t v =>
    obtain ⟨i, hi, _⟩ := tidy.child_of_fields has.2.1 has.1 child
    cases hi
  | text bs =>
    obtain ⟨d, is, _⟩ := has
    obtain ⟨i, hi, rfl⟩ := tidy.child_of_fields is.is (π := [1]) rfl child
    rw [List.mem_singleton] at hi
    subst hi
    by_cases empty : bs = []
    · exact .main (is.stored.trans (is.empty empty) ▸ rep.nil)
    · have block := is.stored ▸ is.block empty
      exact (World.Piece.bytes block).outer block (by decide)
  | sequence t xs =>
    obtain ⟨as, is, homes⟩ := has
    obtain ⟨r, home⟩ := World.homes_of_forall₂ homes b (is.child_mem tidy child)
    exact .main home
  | slice array first stop =>
    obtain ⟨i, hi, rfl⟩ := tidy.child_of_fields has.1 (π := [0]) rfl child
    rw [List.mem_singleton] at hi
    subst hi
    exact .main has.2.1
  | context f =>
    obtain ⟨i, hi, rfl⟩ := tidy.child_of_fields has.is (π := [1, 2, 3, 5]) rfl child
    simp only [List.mem_cons, List.not_mem_nil, or_false] at hi
    rcases hi with rfl | rfl | rfl | rfl
    · exact rep.stack_piece has.operands (by decide)
    · exact rep.stack_piece has.returns (by decide)
    · exact .main has.environment
    · exact has.waits.piece
  | channel d =>
    obtain ⟨i, hi, rfl⟩ := tidy.child_of_fields has.is (π := [1, 2]) rfl child
    simp only [List.mem_cons, List.not_mem_nil, or_false] at hi
    rcases hi with rfl | rfl
    · exact rep.queue_piece has.buffer (by decide)
    · exact has.waiters.piece
  | request q =>
    obtain ⟨i, hi, rfl⟩ := tidy.child_of_fields has.is (π := [0, 1, 4, 5, 6]) rfl child
    simp only [List.mem_cons, List.not_mem_nil, or_false] at hi
    rcases hi with rfl | rfl | rfl | rfl | rfl
    · exact .main has.context
    · exact .main has.channel
    · exact .main has.value
    · exact .main has.frame
    · exact .main has.environment
  | func c =>
    obtain ⟨i, hi, rfl⟩ := tidy.child_of_fields has.is (π := [2]) rfl child
    rw [List.mem_singleton] at hi
    subst hi
    exact .main has.environment
  | method receiver name =>
    obtain ⟨i, hi, rfl⟩ := tidy.child_of_fields has.1 (π := [0, 1]) rfl child
    simp only [List.mem_cons, List.not_mem_nil, or_false] at hi
    rcases hi with rfl | rfl
    · exact .main has.2.1
    · exact .main has.2.2
  | waitGroup counter waiters =>
    obtain ⟨i, hi, rfl⟩ := tidy.child_of_fields has.1 (π := [1]) rfl child
    rw [List.mem_singleton] at hi
    subst hi
    obtain ⟨n, queue⟩ := has.2.2
    exact rep.queue_piece queue (by decide)

theorem node_piece (rep : Rep w s h) {ns as : List Nat} (is : h.IsList a ns as) (homes : ∀ x ∈ as, ∃ r, w.home r x) (i : Nat) :
    w.Outer h (nth ns i) := by
  by_cases inside : i < ns.length
  · exact (World.Piece.node is inside rfl homes).outer (is.is_nth inside) (by decide)
  · rw [nth_of_le (Nat.le_of_not_lt inside)]
    exact .main rep.nil

theorem before_piece (rep : Rep w s h) {ns as : List Nat} (is : h.IsList a ns as) (homes : ∀ x ∈ as, ∃ r, w.home r x) (i : Nat) :
    w.Outer h (nthBefore ns i) := by
  unfold nthBefore
  split
  · exact .main rep.nil
  · exact rep.node_piece is homes _

/-- What a part of an object refers to, other than the items of a stack or a queue. -/
theorem outer_child (rep : Rep w s h) (piece : w.Piece h a) (child : h.Child a b) (other : h.tagAt a ∉ [.stack, .queue]) : w.Outer h b := by
  have tidy := rep.tidy
  cases piece with
  | main home => exact rep.child_piece home child
  | stack is => exact absurd (by simp [is.is.tag]) other
  | queue is => exact absurd (by simp [is.is.tag]) other
  | items is homes =>
    obtain ⟨r, home⟩ := homes b (is.child_mem tidy child)
    exact .main home
  | list is homes =>
    obtain ⟨i, hi, rfl⟩ := tidy.child_of_fields is.is (π := [1, 2]) rfl child
    simp only [List.mem_cons, List.not_mem_nil, or_false] at hi
    rcases hi with rfl | rfl
    · exact is.first.symm ▸ rep.node_piece is homes 0
    · exact is.last.symm ▸ rep.before_piece is homes _
  | node is hi here homes =>
    subst here
    obtain ⟨j, hj, rfl⟩ := tidy.child_of_fields (is.is_nth hi) (π := [0, 1, 2]) rfl child
    simp only [List.mem_cons, List.not_mem_nil, or_false] at hj
    rcases hj with rfl | rfl | rfl
    · obtain ⟨r, home⟩ := homes _ (is.mem_iff.mpr ⟨_, hi, rfl⟩)
      exact .main ((is.value _ hi).symm ▸ home)
    · exact (is.before _ hi).symm ▸ rep.before_piece is homes _
    · exact (is.after _ hi).symm ▸ rep.node_piece is homes _
  | bytes is =>
    obtain ⟨i, hi, _⟩ := tidy.child_of_fields is (π := []) rfl child
    cases hi

/-- What a part of an object refers to is a part of an object. -/
theorem piece_child (rep : Rep w s h) (piece : w.Piece h a) (child : h.Child a b) : w.Piece h b := by
  have tidy := rep.tidy
  -- the slots of a stack or a ring that hold no item
  have padded {as : List Nat} {k : Nat} (homes : ∀ x ∈ as, ∃ r, w.home r x) : ∀ x ∈ as ++ List.replicate k 0, ∃ r, w.home r x := by
    intro x hx
    rcases List.mem_append.mp hx with hx | hx
    · exact homes x hx
    · rw [List.eq_of_mem_replicate hx]
      exact ⟨_, rep.nil⟩
  by_cases other : h.tagAt a ∉ [.stack, .queue]
  · exact (rep.outer_child piece child other).piece
  cases piece with
  | stack is homes =>
    obtain ⟨k, _, items⟩ := is.items
    exact .items (is.child_eq tidy child ▸ items) (padded homes)
  | queue is homes =>
    obtain ⟨slots, k, _, _, items, turned⟩ := is.ring
    refine .items (is.child_eq tidy child ▸ items) fun x hx => padded (k := k) homes x ?_
    rw [← turned]
    exact List.mem_rotate.mpr hx
  | main home => exact (rep.child_piece home child).piece
  | items is => exact absurd (by simp [is.is.tag]) other
  | list is => exact absurd (by simp [is.is.tag]) other
  | node is hi here => exact absurd (by simp [here, (is.is_nth hi).tag]) other
  | bytes is => exact absurd (by simp [is.tag]) other

/-- Where the items of a stack or a queue are is no object. -/
theorem not_home_of_child (rep : Rep w s h) (piece : w.Piece h a) (child : h.Child a b) (holder : h.tagAt a ∈ [.stack, .queue]) (r : Ref) :
    ¬w.home r b := by
  have tidy := rep.tidy
  cases piece with
  | stack is _ apart => exact is.child_eq tidy child ▸ apart r
  | queue is _ apart => exact is.child_eq tidy child ▸ apart r
  | main home =>
    obtain ⟨o, _, has⟩ := rep.object _ a home
    obtain ⟨n, is⟩ := has.tag
    exact absurd (is.tag ▸ holder) has.not_holder
  | items is => exact absurd (is.is.tag ▸ holder) (by decide)
  | list is => exact absurd (is.is.tag ▸ holder) (by decide)
  | node is hi here => exact absurd ((is.is_nth hi).tag ▸ here ▸ holder) (by decide)
  | bytes is => exact absurd (is.tag ▸ holder) (by decide)

/-- A root is an object. -/
theorem root_home (rep : Rep w s h) (root : a ∈ h.roots) : ∃ r, w.home r a := by
  rcases List.mem_append.mp root with root | root
  · rcases List.mem_cons.mp root with rfl | root
    · exact ⟨_, rep.nil⟩
    · exact World.homes_of_forall₂ rep.contexts _ root
  · exact World.homes_of_forall₂ rep.temporaries _ root

/-- Everything that a collection would keep is a part of an object. -/
theorem reachable_piece (rep : Rep w s h) (reachable : h.Reachable a) : w.Piece h a := by
  induction reachable with
  | start root =>
    obtain ⟨r, home⟩ := rep.root_home root
    exact .main home
  | child _ child ih => exact rep.piece_child ih child

/-- A live block that is no part of another is an object of its kind. -/
theorem object_at (rep : Rep w s h) (holds : h.Holds a t) (outer : t ∉ World.inner) :
    ∃ r o, w.home r a ∧ s.objects[r]? = some o ∧ o.tag = t ∧ w.Has h r a o := by
  obtain ⟨r, home⟩ := (rep.reachable_piece holds.reachable).home (holds.tag.symm ▸ outer)
  obtain ⟨o, ho, has⟩ := rep.object r a home
  obtain ⟨n, is⟩ := has.tag
  exact ⟨r, o, home, ho, is.tag.symm.trans holds.tag, has⟩

theorem tag_eq (rep : Rep w s h) (ha : w.home r a) (ho : s.objects[r]? = some o) : Heap.tag a h = .ok o.tag := by
  obtain ⟨n, is⟩ := (rep.has ha ho).tag
  exact rep.tidy.sound.tag_eq is

end Rep

/-- The kind of an object with plain content is not one of the compound kinds. -/
theorem World.Has.not_compound (has : w.Has h r a o) (compound : o.tag ∈ [.context, .channel, .channelRequest, .waitGroup]) :
    (∃ f, o = .context f) ∨ (∃ d, o = .channel d) ∨ (∃ q, o = .request q) ∨ ∃ x xs, o = .waitGroup x xs := by
  cases o with
  | number t v =>
    have layout : t.layout = .fields [] := has.1
    rw [Obj.tag] at compound
    simp only [List.mem_cons, List.not_mem_nil, or_false] at compound
    rcases compound with rfl | rfl | rfl | rfl <;> cases layout
  | sequence t xs =>
    obtain ⟨as, is, _⟩ := has
    have layout := is.counted
    rw [Obj.tag] at compound
    simp only [List.mem_cons, List.not_mem_nil, or_false] at compound
    rcases compound with rfl | rfl | rfl | rfl <;> cases layout
  | context f => exact .inl ⟨f, rfl⟩
  | channel d => exact .inr (.inl ⟨d, rfl⟩)
  | request q => exact .inr (.inr (.inl ⟨q, rfl⟩))
  | waitGroup x xs => exact .inr (.inr (.inr ⟨x, xs, rfl⟩))
  | _ => simp [Obj.tag] at compound

namespace Rep

/-! ### Contexts -/

section

variable {f : Fiber}

theorem context_at (rep : Rep w s h) (holds : h.Holds a .context) :
    ∃ c f, w.home c a ∧ s.objects[c]? = some (.context f) := by
  obtain ⟨c, o, home, ho, tag, has⟩ := rep.object_at holds (by decide)
  rcases has.not_compound (by simp [tag]) with ⟨f, rfl⟩ | ⟨d, rfl⟩ | ⟨q, rfl⟩ | ⟨x, xs, rfl⟩
  · exact ⟨c, f, home, ho⟩
  all_goals cases tag

variable (rep : Rep w s h) (ha : w.home c a) (hf : s.objects[c]? = some (.context f))
include rep ha hf

theorem pc_eq : Context.pc a h = .ok f.pc := by
  have has : w.HasFiber h c a f := rep.has ha hf
  exact (rep.tidy.sound.readNat_eq has.is (by decide)).trans (congrArg _ has.pc)

theorem id_eq : Context.id a h = .ok f.id := by
  have has : w.HasFiber h c a f := rep.has ha hf
  exact (rep.tidy.sound.readNat_eq has.is (by decide)).trans (congrArg _ has.id)

theorem environment_eq : ∃ b, Context.environment a h = .ok b ∧ w.home f.environment b := by
  have has : w.HasFiber h c a f := rep.has ha hf
  exact ⟨_, rep.tidy.sound.readNat_eq has.is (by decide), has.environment⟩

theorem isBlocked_eq : Context.isBlocked a h = .ok f.blocked := by
  have has : w.HasFiber h c a f := rep.has ha hf
  have word : (f.blocked.toUInt64 != 0) = f.blocked := by cases f.blocked <;> rfl
  have read := rep.tidy.sound.read_eq has.is (i := Context.blockedField) (by decide)
  simp only [Context.isBlocked, HeapReader.run_bind, read, HeapReader.run_pure, has.blocked, word]

theorem operands_eq : ∃ as, Context.operands a h = .ok as ∧ List.Forall₂ w.home f.operands as := by
  have has : w.HasFiber h c a f := rep.has ha hf
  obtain ⟨d, as, is, _, _, homes, _⟩ := has.operands
  refine ⟨as, ?_, homes⟩
  simp only [Context.operands, HeapReader.run_bind, rep.operandStack has, is.items_eq rep.tidy]

theorem returns_eq : ∃ as, Context.returns a h = .ok as ∧ List.Forall₂ w.home f.returns as := by
  have has : w.HasFiber h c a f := rep.has ha hf
  obtain ⟨d, as, is, _, _, homes, _⟩ := has.returns
  refine ⟨as, ?_, homes⟩
  simp only [Context.returns, HeapReader.run_bind, rep.returnStack has, is.items_eq rep.tidy]

theorem waits_eq : ∃ as, Context.waits a h = .ok as ∧ List.Forall₂ w.home f.waits as := by
  have has : w.HasFiber h c a f := rep.has ha hf
  obtain ⟨ns, as, is, _, _, homes, _⟩ := has.waits
  refine ⟨as, ?_, homes⟩
  simp only [Context.waits, HeapReader.run_bind, rep.waitList has, is.values_eq rep.tidy]

end

/-- The kind of an object is read off its block. -/
theorem isTag_of_tag (rep : Rep w s h) (ha : w.home r a) (read : Heap.tag a h = .ok t) : s.IsTag r t := by
  obtain ⟨o, ho, _⟩ := rep.object r a ha
  rw [rep.tag_eq ha ho] at read
  exact ⟨o, ho, Except.ok.inj read⟩

/-- The top operands, and those below. -/
theorem operands_append {f : Fiber} {below above : List Nat} (rep : Rep w s h) (ha : w.home c a) (hf : s.objects[c]? = some (.context f))
    (read : Context.operands a h = .ok (below ++ above)) :
    ∃ low high, f.operands = low ++ high ∧ List.Forall₂ w.home low below ∧ List.Forall₂ w.home high above := by
  obtain ⟨as, answer, homes⟩ := rep.operands_eq ha hf
  rw [read] at answer
  cases answer
  obtain ⟨low, high, same, lower, upper⟩ := related_append homes.flip
  exact ⟨low, high, same, lower.flip, upper.flip⟩

/-- An operand, and those below and above it. -/
theorem operands_split {f : Fiber} {below above : List Nat} (rep : Rep w s h) (ha : w.home c a) (hf : s.objects[c]? = some (.context f))
    (read : Context.operands a h = .ok (below ++ b :: above)) : ∃ low x high, f.operands = low ++ x :: high ∧
      List.Forall₂ w.home low below ∧ w.home x b ∧ List.Forall₂ w.home high above := by
  obtain ⟨low, _, same, lower, upper⟩ := rep.operands_append ha hf read
  cases upper with
  | cons home upper => exact ⟨low, _, _, same, lower, home, upper⟩

/-! ### Requests, channels and wait groups -/

theorem request_at (rep : Rep w s h) (holds : h.Holds a .channelRequest) :
    ∃ q x, w.home q a ∧ s.objects[q]? = some (.request x) := by
  obtain ⟨q, o, home, ho, tag, has⟩ := rep.object_at holds (by decide)
  rcases has.not_compound (by simp [tag]) with ⟨f, rfl⟩ | ⟨d, rfl⟩ | ⟨x, rfl⟩ | ⟨x, xs, rfl⟩
  · cases tag
  · cases tag
  · exact ⟨q, x, home, ho⟩
  · cases tag

theorem channel_at (rep : Rep w s h) (holds : h.Holds a .channel) :
    ∃ d x, w.home d a ∧ s.objects[d]? = some (.channel x) := by
  obtain ⟨d, o, home, ho, tag, has⟩ := rep.object_at holds (by decide)
  rcases has.not_compound (by simp [tag]) with ⟨f, rfl⟩ | ⟨x, rfl⟩ | ⟨q, rfl⟩ | ⟨x, xs, rfl⟩
  · cases tag
  · exact ⟨d, x, home, ho⟩
  · cases tag
  · cases tag

theorem group_at (rep : Rep w s h) (holds : h.Holds a .waitGroup) :
    ∃ g x xs, w.home g a ∧ s.objects[g]? = some (.waitGroup x xs) := by
  obtain ⟨g, o, home, ho, tag, has⟩ := rep.object_at holds (by decide)
  rcases has.not_compound (by simp [tag]) with ⟨f, rfl⟩ | ⟨x, rfl⟩ | ⟨q, rfl⟩ | ⟨x, xs, rfl⟩
  · cases tag
  · cases tag
  · cases tag
  · exact ⟨g, x, xs, home, ho⟩

section

variable {x : Request} (rep : Rep w s h) (ha : w.home q a) (hx : s.objects[q]? = some (.request x))
include rep ha hx

theorem contextOf_eq : ∃ b, Request.contextOf a h = .ok b ∧ w.home x.context b := by
  have has : w.HasRequest h a x := rep.has ha hx
  exact ⟨_, rep.tidy.sound.readNat_eq has.is (by decide), has.context⟩

theorem channelOf_eq : ∃ b, Request.channelOf a h = .ok b ∧ w.home x.channel b := by
  have has : w.HasRequest h a x := rep.has ha hx
  exact ⟨_, rep.tidy.sound.readNat_eq has.is (by decide), has.channel⟩

theorem valueOf_eq : ∃ b, Request.valueOf a h = .ok b ∧ w.home x.value b := by
  have has : w.HasRequest h a x := rep.has ha hx
  exact ⟨_, rep.tidy.sound.readNat_eq has.is (by decide), has.value⟩

theorem frameOf_eq : ∃ b, Request.frameOf a h = .ok b ∧ w.home x.frame b := by
  have has : w.HasRequest h a x := rep.has ha hx
  exact ⟨_, rep.tidy.sound.readNat_eq has.is (by decide), has.frame⟩

theorem environmentOf_eq : ∃ b, Request.environmentOf a h = .ok b ∧ w.home x.environment b := by
  have has : w.HasRequest h a x := rep.has ha hx
  exact ⟨_, rep.tidy.sound.readNat_eq has.is (by decide), has.environment⟩

theorem resumeOf_eq : Request.resumeOf a h = .ok x.resume := by
  have has : w.HasRequest h a x := rep.has ha hx
  exact (rep.tidy.sound.readNat_eq has.is (by decide)).trans (congrArg _ has.resume)

theorem directionOf_eq : Request.directionOf a h = .ok x.direction := rep.directionOf (rep.has ha hx)

end

section

variable {x : Duct} (rep : Rep w s h) (ha : w.home d a) (hx : s.objects[d]? = some (.channel x))
include rep ha hx

theorem capacity_eq : Channel.capacity a h = .ok x.capacity := by
  have has : w.HasDuct h d a x := rep.has ha hx
  exact (rep.tidy.sound.readNat_eq has.is (by decide)).trans (congrArg _ has.capacity)

theorem buffered_eq : ∃ as, Channel.buffered a h = .ok as ∧ List.Forall₂ w.home x.buffer as := by
  have has : w.HasDuct h d a x := rep.has ha hx
  obtain ⟨_, as, is, _, _, homes, _⟩ := has.buffer
  have field : Channel.buffer a h = .ok _ := rep.tidy.sound.readNat_eq has.is (by decide)
  exact ⟨as, by simp only [Channel.buffered, HeapReader.run_bind, field, is.items_eq rep.tidy], homes⟩

theorem waiting_eq : ∃ as, Channel.waiting a h = .ok as ∧ List.Forall₂ w.home x.waiters as := by
  have has : w.HasDuct h d a x := rep.has ha hx
  obtain ⟨_, as, is, _, _, homes, _⟩ := has.waiters
  have field : Channel.waiters a h = .ok _ := rep.tidy.sound.readNat_eq has.is (by decide)
  exact ⟨as, by simp only [Channel.waiting, HeapReader.run_bind, field, is.values_eq rep.tidy], homes⟩

end

theorem members_eq {x : Word} {xs : List Ref} (rep : Rep w s h) (ha : w.home g a)
    (hx : s.objects[g]? = some (.waitGroup x xs)) : ∃ as, WaitGroup.waiting a h = .ok as ∧ List.Forall₂ w.home xs as := by
  obtain ⟨is, _, n, _, as, queue, _, _, homes, _⟩ : w.Has h g a (.waitGroup x xs) := rep.has ha hx
  have field : WaitGroup.waiters a h = .ok _ := rep.tidy.sound.readNat_eq is (by decide)
  exact ⟨as, by simp only [WaitGroup.waiting, HeapReader.run_bind, field, queue.items_eq rep.tidy], homes⟩

end Rep

end FiberMachine
