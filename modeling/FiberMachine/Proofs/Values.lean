import FiberMachine.Proofs.Copies
import FiberMachine.Proofs.Ideal.Unshared
import FiberMachine.Proofs.Refinement.Slices
import FiberMachine.Proofs.Runs

/-!
# Arrays are values

A program can make a slice that contains itself, but not an array: whatever is stored in an array is a copy, which the array cannot be
part of. Nothing checks this while the program runs, and copying an array relies on it, since it goes from each array to the arrays among
its elements.

Since a copy is made of whatever is stored, a live array is in one slot of a frame, one element or one buffer at most. There are two
exceptions: a slice that grows moves its elements to the new array without a copy, so that the old array has them too, and a request to
send an array can be selected again while the array is in a buffer.
-/

namespace FiberMachine

open Ideal Heap

variable {w w' : World} {t t' : Course} {s : Store} {h : Heap} {x : Execution} {r c d : Ref} {a b v i j n k : Nat} {o : Obj} {H : List Ideal.Use}
  {log : List Event} {code : Array Instruction} {config : Config} {journal : Journal} {history : List Entry}

/-! ### Arrays do not hold themselves -/

/-- The array at `a` holds the array at `b` as an element. -/
structure Heap.Nests (h : Heap) (a b : Addr) : Prop where
  outer : h.tagAt a = .array
  inner : h.tagAt b = .array
  child : h.Child a b

theorem Heap.Nests.reachable (nests : h.Nests a b) (ha : h.Reachable a) : h.Reachable b := ha.child nests.child

namespace Rep

/-- An array in the heap is one in the store. -/
theorem array_of_home (rep : Rep w s h) (typed : s.Typed) (home : w.home r a) (tag : h.tagAt a = .array) :
    ∃ xs as, s.objects[r]? = some (.sequence .array xs) ∧ h.IsSeq a .array as ∧ List.Forall₂ w.home xs as := by
  obtain ⟨o, ho, has⟩ := rep.object r a home
  obtain ⟨n, is⟩ := has.tag
  obtain ⟨xs, hxs⟩ := typed.sequence ⟨o, ho, is.tag.symm.trans tag⟩ (.inl rfl)
  cases ho.symm.trans hxs
  obtain ⟨as, seq, homes⟩ := has
  exact ⟨xs, as, hxs, seq, homes⟩

/-- The elements of a live array are objects, whether the array is one itself or is behind a stack or a queue. -/
theorem array_at (rep : Rep w s h) (typed : s.Typed) (holds : h.Holds a .array) : ∃ as, h.IsSeq a .array as ∧ ∀ b ∈ as, ∃ r, w.home r b := by
  cases rep.reachable_piece holds.reachable with
  | main home =>
    obtain ⟨xs, as, -, seq, homes⟩ := rep.array_of_home typed home holds.tag
    exact ⟨as, seq, World.homes_of_forall₂ homes⟩
  | items is homes => exact ⟨_, is, homes⟩
  | stack is _ => cases holds.tag.symm.trans is.is.tag
  | queue is _ => cases holds.tag.symm.trans is.is.tag
  | list is _ => cases holds.tag.symm.trans is.is.tag
  | node is hi here _ =>
    subst here
    cases holds.tag.symm.trans (is.is_nth hi).tag
  | bytes is => cases holds.tag.symm.trans is.tag

/-- What a live array holds is an object. -/
theorem nested_home (rep : Rep w s h) (typed : s.Typed) (ha : h.Reachable a) (nests : h.Nests a b) : ∃ r, w.home r b := by
  obtain ⟨as, seq, homes⟩ := rep.array_at typed ⟨ha, nests.outer⟩
  exact homes b (seq.child_mem rep.tidy nests.child)

/-- What an array holds in the heap it holds in the store. -/
theorem nests (rep : Rep w s h) (typed : s.Typed) (home : w.home r a) (nests : h.Nests a b) : ∃ x, w.home x b ∧ s.Nests x r := by
  obtain ⟨xs, as, hxs, seq, homes⟩ := rep.array_of_home typed home nests.outer
  obtain ⟨x, hx, hb⟩ := related_left homes (seq.child_mem rep.tidy nests.child)
  exact ⟨x, hb, xs, hxs, hx⟩

/-- From an object, the arrays inside arrays come to an end. -/
theorem accessible (rep : Rep w s h) (typed : s.Typed) (home : w.home r a) : Acc (fun x y => h.Nests y x) a := by
  induction typed.nested r generalizing a with
  | intro r _ ih =>
    refine .intro a fun b nests => ?_
    obtain ⟨x, hb, inside⟩ := rep.nests typed home nests
    exact ih x inside hb

/-- From any live block, the arrays inside arrays come to an end. -/
theorem accessible_reachable (rep : Rep w s h) (typed : s.Typed) (ha : h.Reachable a) : Acc (fun x y => h.Nests y x) a := by
  refine .intro a fun b nests => ?_
  obtain ⟨r, home⟩ := rep.nested_home typed ha nests
  exact rep.accessible typed home

end Rep

/-- What comes to an end is not part of itself. -/
theorem not_cycle_of_acc {α : Type} {R : α → α → Prop} {x : α} (acc : Acc (fun y z => R z y) x) : ¬Relation.TransGen R x x := by
  intro cycle
  replace cycle := Relation.transGen_swap.mpr cycle
  replace acc := acc.transGen
  induction acc with
  | intro x _ ih => exact ih x cycle cycle

/-- In no state of a run does a live array hold itself, directly or through other arrays. So the arrays below any live value come to an
end, and copying the value succeeds if there is memory for it. -/
theorem Run.arrays_acyclic (run : Run code config journal history x) :
    (∀ a, x.machine.heap.Reachable a → ¬Relation.TransGen x.machine.heap.Nests a a) ∧
      (∀ a, x.machine.heap.Reachable a → Acc (fun b c => x.machine.heap.Nests c b) a) ∧
      ∀ v, x.machine.heap.Reachable v → NoMemory (Value.copy v) x.machine.heap ∨ ∃ c h', Value.copy v x.machine.heap = .ok c h' := by
  obtain ⟨w, t, log, followed⟩ := run.followed
  have rep := followed.sim.machine.rep
  have typed := followed.steady.linked.typed
  have ends (a : Addr) (ha : x.machine.heap.Reachable a) := rep.accessible_reachable typed ha
  refine ⟨fun a ha => not_cycle_of_acc (ends a ha), ends, fun v hv => ?_⟩
  rcases rep.tidy.copied (rep.tidy.allocated_of_reachable hv) with full | ⟨c, h', _, run, _⟩
  · exact .inl full
  · exact .inr ⟨c, h', run⟩

/-- An array that is stored in itself holds a copy of itself. -/
theorem Run.arrays_acyclic_stored : ∃ history x a b, Run #[.enterScope ["a"], .loadInt 7, .makeArray 1, .storeVar 0 0, .loadVar 0 0, .loadInt 0,
      .loadVar 0 0, .storeIndex, .done] { heapWords := 256 } (.start none) history x ∧ x.machine.heap.Reachable a ∧ x.machine.heap.Nests a b ∧
    ¬Relation.TransGen x.machine.heap.Nests a a := by
  obtain ⟨history, x, run, found⟩ := Run.of_follow (P := fun _ x => x.machine.heap.finds x.main [2, 0, 0] .array &&
      (x.machine.heap.along x.main [2, 0, 0]).any fun a => x.machine.heap.finds x.main [2, 0, 0, 0] .array &&
        (x.machine.heap.along x.main [2, 0, 0, 0]).any fun b => decide (b ∈ ((children a x.machine.heap).toOption.getD [])))
    #[.enterScope ["a"], .loadInt 7, .makeArray 1, .storeVar 0 0, .loadVar 0 0, .loadInt 0, .loadVar 0 0, .storeIndex, .done]
    { heapWords := 256 } (.start none) 8 (by decide +kernel)
  rw [Bool.and_eq_true, Option.any_eq_true] at found
  obtain ⟨outer, a, here, found⟩ := found
  rw [Bool.and_eq_true, Option.any_eq_true] at found
  obtain ⟨inner, b, there, child⟩ := found
  obtain ⟨_, same, holds⟩ := finds_holds outer
  cases here.symm.trans same
  obtain ⟨_, same, holds'⟩ := finds_holds inner
  cases there.symm.trans same
  have child : x.machine.heap.Child a b := by
    cases found : children a x.machine.heap with
    | error e => simp [found, Except.toOption] at child
    | ok bs => exact ⟨bs, found, by simpa [found, Except.toOption] using child⟩
  exact ⟨history, x, a, b, run, holds.reachable, ⟨holds.tag, holds'.tag, child⟩, run.arrays_acyclic.1 a holds.reachable⟩

/-! ### Stored values -/

theorem Tag.counted {t : Tag} (counted : t.layout = .counted) : t = .frame ∨ t = .environment ∨ t = .array := by
  cases t <;> first | exact absurd counted (by decide) | simp

namespace Heap

/-- The live block is more than the array that holds the items of a stack or a queue. -/
def Valued (h : Heap) (a : Addr) : Prop := a ∈ h.roots ∨ ∃ b, h.Reachable b ∧ h.Child b a ∧ h.tagAt b ∉ [.stack, .queue]

/-- The slots of a frame, the elements of an array, or what a channel buffers. -/
def stored (h : Heap) (a : Addr) : List Addr :=
  match h.tagAt a with
  | .frame | .array => (Sequence.toList a h).toOption.getD []
  | .channel => (Channel.buffered a h).toOption.getD []
  | _ => []

/-- The value `v` is in slot `i` of the frame `a`, is element `i` of the array `a`, or the channel `a` buffers it at position `i`. -/
structure StoresAt (h : Heap) (a : Addr) (i : Nat) (v : Addr) : Prop where
  valued : h.Valued a
  found : (h.stored a)[i]? = some v

/-- The array `v` is the block `a`, or is stored in it, or in an array inside it. -/
def Inside (h : Heap) : Addr → Addr → Prop := Relation.ReflTransGen fun v a => h.tagAt v = .array ∧ ∃ i, h.StoresAt a i v

theorem Valued.reachable (valued : h.Valued a) : h.Reachable a := by
  rcases valued with root | ⟨b, reachable, child, -⟩
  · exact .start root
  · exact reachable.child child

theorem stored_eq_nil (other : h.tagAt a ∉ [.frame, .array, .channel]) : h.stored a = [] := by
  unfold stored
  split
  next frame => exact absurd (by simp [frame]) other
  next array => exact absurd (by simp [array]) other
  next channel => exact absurd (by simp [channel]) other
  next => rfl

theorem StoresAt.tag (stores : h.StoresAt a i v) : h.tagAt a ∈ [.frame, .array, .channel] := by
  by_contra other
  have found := stores.found
  rw [stored_eq_nil other] at found
  cases found

end Heap

namespace Rep

/-- A live frame, array or channel with more to it than the items of a stack or a queue is an object. -/
theorem valued_home (rep : Rep w s h) (valued : h.Valued a) (tag : h.tagAt a ∈ [.frame, .array, .channel]) : ∃ r, w.home r a := by
  rcases valued with root | ⟨b, reachable, child, other⟩
  · exact rep.root_home root
  · have outer := rep.outer_child (rep.reachable_piece reachable) child other
    simp only [List.mem_cons, List.not_mem_nil, or_false] at tag
    rcases tag with tag | tag | tag
    · exact outer.piece.home (tag ▸ by decide)
    · exact outer.home tag
    · exact outer.piece.home (tag ▸ by decide)

theorem valued_of_home (rep : Rep w s h) (home : w.home r a) (reachable : h.Reachable a) : h.Valued a := by
  cases reachable with
  | start root => exact .inl root
  | child reachable child =>
    refine .inr ⟨_, reachable, child, fun holder => ?_⟩
    exact rep.not_home_of_child (rep.reachable_piece reachable) child holder r home

theorem tag_at (rep : Rep w s h) (home : w.home r a) (ho : s.objects[r]? = some o) : h.tagAt a = o.tag := by
  obtain ⟨n, is⟩ := (rep.has home ho).tag
  exact is.tag

/-- What an object stores in the heap it stores in the store. -/
theorem stored_homes (rep : Rep w s h) (home : w.home r a) (ho : s.objects[r]? = some o) : List.Forall₂ w.home o.stored (h.stored a) := by
  have tag := rep.tag_at home ho
  have has := rep.has home ho
  cases o with
  | sequence t xs =>
    obtain ⟨as, is, homes⟩ := has
    have all := is.toList_eq rep.tidy
    rcases Tag.counted is.counted with rfl | rfl | rfl
    · simpa [Obj.stored, Heap.stored, is.is.tag, all, Except.toOption] using homes
    · simp [Obj.stored, Heap.stored, is.is.tag]
    · simpa [Obj.stored, Heap.stored, is.is.tag, all, Except.toOption] using homes
  | channel k =>
    obtain ⟨as, all, homes⟩ := rep.buffered_eq home ho
    simpa [Obj.stored, Heap.stored, tag, Obj.tag, all, Except.toOption] using homes
  | number t v =>
    have layout : t.layout = .fields [] := has.1
    have none : h.stored a = [] := stored_eq_nil fun some => by
      rw [tag, Obj.tag] at some
      simp only [List.mem_cons, List.not_mem_nil, or_false] at some
      rcases some with rfl | rfl | rfl <;> cases layout
    exact none ▸ .nil
  | _ =>
    have none : h.stored a = [] := stored_eq_nil (by rw [tag, Obj.tag]; decide)
    exact none ▸ .nil

theorem stores (rep : Rep w s h) (stores : h.StoresAt a i v) :
    ∃ r o x, w.home r a ∧ s.objects[r]? = some o ∧ o.stored[i]? = some x ∧ w.home x v := by
  obtain ⟨r, home⟩ := rep.valued_home stores.valued stores.tag
  obtain ⟨o, ho, -⟩ := rep.object r a home
  have homes := rep.stored_homes home ho
  obtain ⟨inside, rfl⟩ := List.getElem?_eq_some_iff.mp stores.found
  have inside' : i < o.stored.length := homes.length_eq ▸ inside
  exact ⟨r, o, o.stored[i], home, ho, List.getElem?_eq_getElem inside', homes.get inside' inside⟩

theorem stores_of_home {x : Ref} (rep : Rep w s h) (home : w.home r a) (reachable : h.Reachable a) (ho : s.objects[r]? = some o)
    (hx : x ∈ o.stored) : ∃ i v, w.home x v ∧ h.StoresAt a i v := by
  obtain ⟨i, inside, rfl⟩ := List.mem_iff_getElem.mp hx
  have homes := rep.stored_homes home ho
  have inside' : i < (h.stored a).length := homes.length_eq ▸ inside
  exact ⟨i, (h.stored a)[i], homes.get inside inside', rep.valued_of_home home reachable, List.getElem?_eq_getElem inside'⟩

end Rep

/-! ### What is gone -/

/-- The object was there, but its blocks are not needed any more. -/
def World.Gone (w : World) (r : Ref) : Prop := r < w.size ∧ ∀ a, ¬w.home r a

theorem Abides.gone {s' : Store} {h' : Heap} (abides : Abides w s w' s') (rep : Rep w s h) (rep' : Rep w' s' h') (gone : w.Gone r) : w'.Gone r := by
  have known : r < s.objects.length := rep.size ▸ gone.1
  exact ⟨rep'.size ▸ Nat.lt_of_lt_of_le known abides.length, fun a home => gone.2 a (abides.old r a home known)⟩

theorem World.not_gone (home : w.home r a) : ¬w.Gone r := fun gone => gone.2 a home

namespace Rep

/-- No array is stored in two places. -/
theorem stored_once (rep : Rep w s h) (sole : s.Sole w.Gone H) (array : h.tagAt v = .array) (first : h.StoresAt a i v) (second : h.StoresAt b j v) :
    a = b ∧ i = j := by
  obtain ⟨r, o, x, ha, ho, hi, hv⟩ := rep.stores first
  obtain ⟨q, p, y, hb, hp, hj, hv'⟩ := rep.stores second
  cases rep.unique hv hv'
  obtain ⟨k, hk, -⟩ := rep.object x v hv
  have isArray : s.IsTag x .array := ⟨k, hk, (rep.tag_at hv hk).symm.trans array⟩
  obtain ⟨rfl, rfl⟩ := sole.stored_once isArray ho hp (World.not_gone ha) (World.not_gone hb) hi hj
  exact ⟨rep.single r a b ha hb, rfl⟩

end Rep

/-- The same, except that objects that nothing refers to are gone. -/
def World.pruned (w : World) (h : Heap) : World := w.evolve (h.Live []) unassigned [] (w.part unassigned)

namespace World

theorem home_pruned : (w.pruned h).home r a ↔ w.home r a ∧ h.Reachable a := by
  have live : h.Live [] a ↔ h.Reachable a := by rw [Live, List.append_nil]; rfl
  constructor
  · rintro (⟨home, la, -⟩ | ⟨-, no⟩)
    · exact ⟨home, live.mp la⟩
    · cases no
  · rintro ⟨home, reachable⟩
    exact home_evolve home (live.mpr reachable)

theorem part_pruned : (w.pruned h).part r = w.part r := by
  change (if r = unassigned then w.part unassigned else w.part r) = w.part r
  split
  next same => rw [same]
  next => rfl

end World

theorem Rep.pruned (rep : Rep w s h) : Rep (w.pruned h) s h := by
  have survives : h.Survives (h.Live []) := .live rep.tidy fun _ no => absurd no List.not_mem_nil
  obtain ⟨o, ho, has⟩ := rep.object _ _ rep.nil
  have nil : h.Live [] unassigned := .root (by simp [Heap.roots])
  have carries : World.Carries w h (h.Live []) (w.pruned h) := .evolve rep.tidy survives fun _ _ => rfl
  have kept : (w.pruned h).Has h unassigned unassigned o :=
    carries.has has rep.nil nil fun k b owns live => (Heap.Evolves.refl rep.tidy survives).kept b live fun no => no
  have changed := rep.change (k := 0) survives (.refl rep.tidy survives) rep.nil nil (fun _ _ no => no.elim) (.inr rfl) kept
  obtain ⟨inside, rfl⟩ := List.getElem?_eq_some_iff.mp ho
  rwa [Store.set, List.set_getElem_self inside] at changed

theorem Rep.keeps_pruned (rep : Rep w s h) : Keeps w s (w.pruned h) s where
  __ := Keeps.refl
  old := fun _ _ home _ => (World.home_pruned.mp home).1
  spot := fun _ _ => congrFun World.part_pruned 0
  placed := fun _ root _ home => World.home_pruned.mpr ⟨home, .start (rep.root home root)⟩

theorem Sim.pruned (sim : Sim w t x) : Sim (w.pruned x.machine.heap) t x := by
  have rep := sim.machine.rep
  refine { sim with machine := sim.machine.evolve rep.pruned rep.keeps_pruned, main := fun going => ?_ }
  obtain ⟨home, registered⟩ := sim.main going
  exact ⟨rep.keeps_pruned.placed _ (List.mem_append_left _ registered) _ home, registered⟩

theorem Followed.pruned (followed : Followed w t x log history) : Followed (w.pruned x.machine.heap) t x log history :=
  have rep := followed.sim.machine.rep
  ⟨followed.sim.pruned, followed.steady, followed.notes.keep rep rep.pruned rep.keeps_pruned.abides⟩

/-! ### Second places -/

/-- Appending `k` values to the slice moves arrays to a larger array. -/
def Heap.Moves (h : Heap) (target : Addr) (k : Nat) : Prop :=
  ∃ length capacity elements, Slice.length target h = .ok length ∧ Slice.capacity target h = .ok capacity ∧ capacity < length + k ∧
    Slice.elements target h = .ok elements ∧ ∃ v ∈ elements, h.tagAt v = .array

/-- The request is to send an array that is stored already. -/
def Heap.Resends (h : Heap) (q : Addr) : Prop :=
  h.tagAt q = .channelRequest ∧ Request.directionOf q h = .ok .send ∧
    ∃ v, Request.valueOf q h = .ok v ∧ h.tagAt v = .array ∧ ∃ a i, h.StoresAt a i v

/-- The next step gives an array a second place: an append moves arrays to a larger array, or a select is given a request to send an
array that is stored already. -/
inductive Execution.Shares (x : Execution) : Prop
  | append {c : Addr} {n k : Nat} {rest values : List Addr} {target : Addr} (faces : x.Faces c n (.append k))
      (operands : Context.operands c x.machine.heap = .ok (rest ++ target :: values)) (taken : values.length = k)
      (moves : x.machine.heap.Moves target k)
  | select {c : Addr} {n k : Nat} {default? : Option Nat} {rest qs : List Addr} {q : Addr} (faces : x.Faces c n (.select k default?))
      (operands : Context.operands c x.machine.heap = .ok (rest ++ qs)) (taken : qs.length = k) (among : q ∈ qs)
      (resends : x.machine.heap.Resends q)

namespace Rep

theorem moves {target : Ref} (rep : Rep w s h) (home : w.home target a) (moves : s.Moves target k) : h.Moves a k := by
  obtain ⟨array, first, stop, ys, window, full, v, hv, isArray⟩ := moves
  obtain ⟨_, length, rfl⟩ := (Reads.sliceLength rep home).answer window.sliceLength
  obtain ⟨_, capacity, rfl⟩ := (Reads.sliceCapacity rep home).answer window.sliceCapacity
  obtain ⟨as, elements, homes⟩ := (Reads.elements rep home).answer window.elements
  obtain ⟨b, hb, home⟩ := related_right homes hv
  obtain ⟨o, ho, tag⟩ := isArray
  exact ⟨_, _, as, length, capacity, full, elements, b, hb, (rep.tag_at home ho).trans tag⟩

theorem resends {q : Ref} (rep : Rep w s h) (reachable : ∀ r a, w.home r a → h.Reachable a) (home : w.home q a)
    (resends : Engine.Resends w.Gone s q) : h.Resends a := by
  obtain ⟨p, hp, send, ⟨o, ho, tag⟩, stored⟩ := resends
  obtain ⟨v, value, hv⟩ := rep.valueOf_eq home hp
  obtain ⟨r, p, hr, kept, hx⟩ := Store.stored_of_mem_uses stored
  obtain ⟨b, hb⟩ : ∃ b, w.home r b := by
    by_contra none
    exact kept ⟨rep.size ▸ (List.getElem?_eq_some_iff.mp hr).1, fun b hb => none ⟨b, hb⟩⟩
  obtain ⟨i, v', hv', stores⟩ := rep.stores_of_home hb (reachable r b hb) hr hx
  cases rep.single _ _ _ hv hv'
  exact ⟨rep.tag_at home hp, send ▸ rep.directionOf_eq home hp, v, value, (rep.tag_at hv ho).trans tag, b, i, stores⟩

end Rep

/-- What gives an array a second place in the course does so in the execution. -/
theorem Sim.shares {instruction : Instruction} (sim : Sim w t x) (reachable : ∀ r a, w.home r a → x.machine.heap.Reachable a)
    (turn : t.engine.scheduler.dispatch.current = some c) (pc : t.engine.store.PcAt c n) (fetched : t.code[n]? = some instruction)
    (shares : Engine.Shares w.Gone t.engine.store c instruction) : x.Shares := by
  have rep := sim.machine.rep
  obtain ⟨a, home, faces⟩ := sim.faces turn pc fetched
  cases instruction with
  | append k =>
    obtain ⟨rest, target, values, length, operands, moves⟩ := shares
    obtain ⟨low, high, read, taken⟩ := rep.taken home operands
    cases taken with
    | cons target values => exact .append faces read (values.length_eq.symm.trans length) (rep.moves target moves)
  | select k default? =>
    obtain ⟨rest, qs, length, operands, q, hq, resends⟩ := shares
    obtain ⟨low, high, read, taken⟩ := rep.taken home operands
    obtain ⟨b, hb, home⟩ := related_right taken hq
    exact .select faces read (taken.length_eq.symm.trans length) hb (rep.resends reachable home resends)
  | _ => exact shares.elim

/-- What a context mentions is there. -/
theorem Rep.not_gone_of_mentions (rep : Rep w s h) (home : w.home c a) (mentions : s.Mentions c d) : ¬w.Gone d := by
  obtain ⟨xs, ⟨f, hf, rfl⟩, mentioned⟩ := mentions
  obtain ⟨as, -, homes⟩ := rep.operands_eq home hf
  rcases mentioned with hd | ⟨q, hq, p, hp, rfl⟩
  · obtain ⟨b, -, home⟩ := related_right homes hd
    exact World.not_gone home
  · obtain ⟨b, -, home⟩ := related_right homes hq
    obtain ⟨e, -, home⟩ := rep.channelOf_eq home hp
    exact World.not_gone home

/-- A step that gives no array a second place. -/
theorem Stepped.unshared {outcome done : StepOutcome} {events : List Event} {x' : Execution} (stepped : Stepped w t x log outcome w' t' x' done events)
    (sim : Sim w t x) (steady : Steady log t) (own : x.SelectsOwn) (reachable : ∀ r a, w.home r a → x.machine.heap.Reachable a)
    (unshared : t.engine.store.Unshared w.Gone) (apart : ¬x.Shares) : t'.engine.store.Unshared w'.Gone := by
  have rep := sim.machine.rep
  have after := Course.step_unshared steady (own.sane sim _) stepped.run unshared ?_ fun c n i turn pc fetched shares =>
    apart (sim.shares reachable turn pc fetched shares)
  · exact after.forget fun r gone => stepped.abides.gone rep stepped.sim.machine.rep gone
  · intro c turn d mentions
    obtain ⟨a, -, home⟩ := related_right rep.contexts (sim.machine.dispatch.registered c (by simp [turn]))
    exact rep.not_gone_of_mentions home mentions

/-- Every state of a run in which no step gives an array a second place is described by a course in which none has one. -/
theorem Run.unshared (run : Run code config journal history x) (apart : ∀ entry ∈ history, ¬entry.before.Shares) :
    ∃ w t log, Followed w t x log history ∧ t.engine.store.Unshared w.Gone := by
  induction run with
  | start run =>
    obtain ⟨w, sim⟩ := Sim.start run
    exact ⟨w, _, [], ⟨sim, Course.start_steady code config, .nil⟩, Course.initial_unshared⟩
  | @step history x x' outcome _ own run ih =>
    obtain ⟨w, t, log, followed, unshared⟩ := ih fun entry earlier => apart entry (List.mem_append_left _ earlier)
    -- what nothing refers to before the step is gone
    have pruned := followed.pruned
    obtain ⟨w', t', done, events, stepped⟩ := pruned.sim.stepped pruned.steady own run
    refine ⟨w', t', log ++ events, pruned.step stepped, stepped.unshared pruned.sim pruned.steady own ?_ (unshared.forget ?_) ?_⟩
    · exact fun r a home => (World.home_pruned.mp home).2
    · rintro r ⟨known, none⟩
      exact ⟨Nat.lt_of_lt_of_le known (Nat.le_max_left _ _), fun a home => none a (World.home_pruned.mp home).1⟩
    · exact apart ⟨x, outcome⟩ (by simp)

/-- Provided that no step has given an array a second place, no array is stored in two places in any state of a run. So of two
blocks that an array is inside, one is inside the other. -/
theorem Run.arrays_unshared (run : Run code config journal history x) (apart : ∀ entry ∈ history, ¬entry.before.Shares) :
    (∀ a b i j v, x.machine.heap.tagAt v = .array → x.machine.heap.StoresAt a i v → x.machine.heap.StoresAt b j v → a = b ∧ i = j) ∧
      ∀ a b v, x.machine.heap.Inside v a → x.machine.heap.Inside v b → x.machine.heap.Inside a b ∨ x.machine.heap.Inside b a := by
  obtain ⟨w, t, log, followed, unshared⟩ := run.unshared apart
  have once {a b i j v : Nat} (array : x.machine.heap.tagAt v = .array) := followed.sim.machine.rep.stored_once (a := a) (b := b) (i := i) (j := j)
    unshared.sole array
  refine ⟨fun a b i j v => once, fun a b v => Relation.ReflTransGen.total_of_right_unique ?_⟩
  rintro v a b ⟨array, i, first⟩ ⟨-, j, second⟩
  exact (once array first second).1

/-! ### Computing places -/

/-- A path leads to a block whose reference `k` leads to another one: that one, and what is stored at position `i` of it. -/
def Heap.place (h : Heap) (a : Addr) (path : List Nat) (k i : Nat) : Option (Addr × Addr) := do
  let b ← (h.along a path).filter fun b => h.tagAt b ∉ [.stack, .queue]
  let c ← h.along b [k]
  let v ← (h.stored c)[i]?
  return (c, v)

theorem Heap.stores_of_place {path : List Nat} {c v : Addr} (root : a ∈ h.roots) (found : h.place a path k i = some (c, v)) : h.StoresAt c i v := by
  obtain ⟨b, hb, found⟩ := Option.bind_eq_some_iff.mp found
  obtain ⟨d, hd, found⟩ := Option.bind_eq_some_iff.mp found
  obtain ⟨u, hu, found⟩ := Option.bind_eq_some_iff.mp found
  cases found
  obtain ⟨hb, other⟩ := Option.filter_eq_some_iff.mp hb
  refine ⟨.inr ⟨b, .along (.start root) hb, ?_, of_decide_eq_true other⟩, hu⟩
  rw [Heap.along] at hd
  split at hd
  next bs all =>
    obtain ⟨e, he, hd⟩ := Option.bind_eq_some_iff.mp hd
    cases hd
    exact ⟨bs, all, List.mem_of_getElem? he⟩
  next => cases hd

/-- Whether appending `k` values to the slice moves arrays to a larger array. -/
def Heap.moves (h : Heap) (target : Addr) (k : Nat) : Bool :=
  match Slice.length target h, Slice.capacity target h, Slice.elements target h with
  | .ok length, .ok capacity, .ok elements => decide (capacity < length + k) && elements.any fun v => h.tagAt v == .array
  | _, _, _ => false

theorem Heap.Moves.computed {target : Addr} (moves : h.Moves target k) : h.moves target k = true := by
  obtain ⟨length, capacity, elements, hl, hc, full, he, v, hv, array⟩ := moves
  simp only [Heap.moves, hl, hc, he, Bool.and_eq_true, decide_eq_true_eq, full, true_and, List.any_eq_true, beq_iff_eq]
  exact ⟨v, hv, array⟩

/-- Whether the next step is no select, and moves no arrays if it is an append. -/
def Execution.keepsApart (x : Execution) : Bool :=
  x.machine.scheduler.dispatch.current.all fun c =>
    match Context.pc c x.machine.heap, Context.operands c x.machine.heap with
    | .ok n, .ok xs =>
      match x.code[n]? with
      | some (.append k) => (xs.drop (xs.length - (k + 1))).head?.all fun target => !x.machine.heap.moves target k
      | some (.select _ _) => false
      | _ => true
    | _, _ => true

theorem Execution.not_shares (apart : x.keepsApart = true) : ¬x.Shares := by
  intro shares
  cases shares with
  | append faces operands taken moves =>
    rw [keepsApart, faces.turn, Option.all_some, faces.pc, operands] at apart
    dsimp only at apart
    rw [faces.instruction] at apart
    dsimp only at apart
    rw [← taken, List.length_append, List.length_cons, Nat.add_sub_cancel, List.drop_left] at apart
    rw [List.head?_cons, Option.all_some, taken, moves.computed] at apart
    cases apart
  | select faces operands =>
    rw [keepsApart, faces.turn, Option.all_some, faces.pc, operands] at apart
    dsimp only at apart
    rw [faces.instruction] at apart
    cases apart

/-- An array is appended to a slice of arrays that has room for it. -/
def rowsCode : Array Instruction :=
  #[.enterScope ["s", "t"], .loadDefault .slice, .loadInt 7, .makeArray 1, .append 1, .storeVar 0 0, .loadVar 0 0, .loadInt 8, .makeArray 1,
    .append 1, .storeVar 0 1, .done]

/-- The first array is in one place, although two slices show it. -/
theorem Run.arrays_unshared_rows : ∃ history x a v, Run rowsCode { heapWords := 128 } (.start none) history x ∧
    (∀ entry ∈ history, ¬entry.before.Shares) ∧ x.machine.heap.tagAt v = .array ∧ x.machine.heap.StoresAt a 0 v ∧
    ∀ b j, x.machine.heap.StoresAt b j v → b = a ∧ j = 0 := by
  obtain ⟨history, x, run, found⟩ := Run.of_follow (P := fun history x => history.all (fun entry => entry.before.keepsApart) &&
      x.machine.heap.roots.contains x.main && (x.machine.heap.place x.main [2, 0, 0] 0 0).any fun p => x.machine.heap.tagAt p.2 == .array)
    rowsCode { heapWords := 128 } (.start none) 11 (by decide +kernel)
  simp only [Bool.and_eq_true, List.all_eq_true, List.contains_iff_mem, Option.any_eq_true, beq_iff_eq] at found
  obtain ⟨⟨apart, root⟩, ⟨a, v⟩, place, array⟩ := found
  have stores := stores_of_place root place
  have apart (entry : Entry) (he : entry ∈ history) := Execution.not_shares (apart entry he)
  exact ⟨history, x, a, v, run, apart, array, stores, fun b j other => (run.arrays_unshared apart).1 b a j 0 v array other stores⟩

/-- An array is appended to a slice of arrays that has no room for it. -/
def grownCode : Array Instruction :=
  #[.enterScope ["s", "t"], .loadInt 7, .makeArray 1, .makeArray 1, .slice false false, .storeVar 0 0, .loadVar 0 0, .loadInt 8, .makeArray 1,
    .append 1, .storeVar 0 1, .done]

/-- The first array is an element of the old array of the slice and of the new one. -/
theorem Run.array_shared_grown : ∃ history x a b v, Run grownCode { heapWords := 128 } (.start none) history x ∧
    x.machine.heap.tagAt v = .array ∧ x.machine.heap.StoresAt a 0 v ∧ x.machine.heap.StoresAt b 0 v ∧ a ≠ b := by
  obtain ⟨history, x, run, found⟩ := Run.of_follow (P := fun _ x => x.machine.heap.roots.contains x.main &&
      (x.machine.heap.place x.main [2, 0, 0] 0 0).any fun p => x.machine.heap.tagAt p.2 == .array &&
        (x.machine.heap.place x.main [2, 0, 1] 0 0).any fun q => q.2 == p.2 && p.1 != q.1)
    grownCode { heapWords := 128 } (.start none) 11 (by decide +kernel)
  simp only [Bool.and_eq_true, List.contains_iff_mem, Option.any_eq_true, beq_iff_eq, bne_iff_ne] at found
  obtain ⟨root, ⟨a, v⟩, first, array, ⟨b, u⟩, second, same, other⟩ := found
  cases same
  exact ⟨history, x, a, b, v, run, array, stores_of_place root first, stores_of_place root second, other⟩

end FiberMachine
