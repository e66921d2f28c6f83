import Mathlib.Data.List.Forall2
import FiberMachine.Proofs.Ideal.Store
import FiberMachine.Proofs.Lists
import FiberMachine.Proofs.Queues
import FiberMachine.Proofs.Stacks
import FiberMachine.Proofs.Texts

/-!
# Objects of the store in the heap

A world says which blocks an object has in the heap. The main block has role 0 and is what other objects
refer to; the blocks of a stack, a ring or a list behind an object have a role of their own, so
that a change to one part of an object leaves the others alone. No block belongs to two objects.
-/

namespace FiberMachine

open Ideal

/-- Which blocks belong to which object, in which role, where the main block, stack, ring or list in a role is or was
last, the size of the arena and the number of objects, and the heap that the world is looked at from. -/
structure World where
  owns : Ref → Nat → Nat → Prop
  part : Ref → Nat → Nat
  capacity : Nat
  size : Nat
  origin : Heap

namespace World

variable (w : World) (h : Heap)

/-- The main block of the object `r` is at `a`. -/
def home (r : Ref) (a : Nat) : Prop := w.owns r 0 a

/-- A stack in role `k` of the object `r`. -/
def HasStack (r : Ref) (k a : Nat) (xs : List Ref) : Prop :=
  ∃ d as, h.IsStack a d as ∧ w.owns r k a ∧ w.owns r k d ∧ List.Forall₂ w.home xs as ∧ a = w.part r k

/-- A queue in role `k` of the object `r`, with `n` slots. -/
def HasQueue (r : Ref) (k a n : Nat) (xs : List Ref) : Prop :=
  ∃ d as, h.IsQueue a d n as ∧ w.owns r k a ∧ w.owns r k d ∧ List.Forall₂ w.home xs as ∧ a = w.part r k

/-- A linked list in role `k` of the object `r`. -/
def HasList (r : Ref) (k a : Nat) (xs : List Ref) : Prop :=
  ∃ ns as, h.IsList a ns as ∧ w.owns r k a ∧ (∀ n ∈ ns, w.owns r k n) ∧ List.Forall₂ w.home xs as ∧ a = w.part r k

/-- The registers of the context `r` at `a`. -/
structure HasFiber (r : Ref) (a : Nat) (f : Fiber) : Prop where
  is : h.Is a .context 7
  pc : h.ref a Context.pcField = f.pc
  operands : w.HasStack h r 1 (h.ref a Context.operandsField) f.operands
  returns : w.HasStack h r 2 (h.ref a Context.returnsField) f.returns
  environment : w.home f.environment (h.ref a Context.environmentField)
  blocked : h.cell a Context.blockedField = f.blocked.toUInt64
  waits : w.HasList h r 3 (h.ref a Context.waitsField) f.waits
  id : h.ref a Context.idField = f.id

/-- The channel `r` at `a`. -/
structure HasDuct (r : Ref) (a : Nat) (d : Duct) : Prop where
  is : h.Is a .channel 3
  capacity : h.ref a Channel.capacityField = d.capacity
  buffer : w.HasQueue h r 1 (h.ref a Channel.bufferField) d.capacity d.buffer
  waiters : w.HasList h r 2 (h.ref a Channel.waitersField) d.waiters

/-- The request at `a`. -/
structure HasRequest (a : Nat) (q : Request) : Prop where
  is : h.Is a .channelRequest 7
  context : w.home q.context (h.ref a Request.contextField)
  channel : w.home q.channel (h.ref a Request.channelField)
  resume : h.ref a Request.resumeField = q.resume
  direction : h.cell a Request.directionField = q.direction.word
  value : w.home q.value (h.ref a Request.valueField)
  frame : w.home q.frame (h.ref a Request.frameField)
  environment : w.home q.environment (h.ref a Request.environmentField)

/-- The closure at `a`. -/
structure HasCode (a : Nat) (c : Code) : Prop where
  is : h.Is a .func 4
  entry : h.ref a Closure.entryField = c.entry
  arity : h.ref a Closure.arityField = c.arity
  environment : w.home c.environment (h.ref a Closure.environmentField)
  declaration : h.ref a Closure.declarationField = c.declaration

/-- The object `r` is at `a`. -/
def Has (r : Ref) (a : Nat) : Obj → Prop
  | .unassigned => h.Is a .unassigned 0
  | .number t v => t.layout = .fields [] ∧ h.Is a t 1 ∧ h.cell a 0 = v
  | .text bs => ∃ d, h.IsText a d bs ∧ (bs ≠ [] → w.owns r 1 d)
  | .sequence t xs => ∃ as, h.IsSeq a t as ∧ List.Forall₂ w.home xs as
  | .slice array first stop => h.Is a .slice 3 ∧ w.home array (h.ref a Slice.arrayField) ∧
      h.ref a Slice.firstField = first ∧ h.ref a Slice.stopField = stop
  | .context f => w.HasFiber h r a f
  | .channel d => w.HasDuct h r a d
  | .request q => w.HasRequest h a q
  | .func c => w.HasCode h a c
  | .method receiver name => h.Is a .method 2 ∧ w.home receiver (h.ref a Method.receiverField) ∧
      w.home name (h.ref a Method.nameField)
  | .waitGroup counter waiters => h.Is a .waitGroup 2 ∧ h.cell a WaitGroup.counterField = counter ∧
      ∃ n, w.HasQueue h r 1 (h.ref a WaitGroup.waitersField) n waiters

end World

/-- The store `s` is in the heap `h`. -/
structure Rep (w : World) (s : Store) (h : Heap) : Prop where
  tidy : h.Tidy
  capacity : h.capacity = w.capacity
  owner : ∀ r k r' k' b, w.owns r k b → w.owns r' k' b → r = r' ∧ k = k'
  allocated : ∀ r k b, w.owns r k b → h.Allocated b
  main : ∀ r k b, w.owns r k b → ∃ a, w.home r a
  single : ∀ r a a', w.home r a → w.home r a' → a = a'
  start : ∀ r a, w.home r a → w.part r 0 = a
  size : w.size = s.objects.length
  object : ∀ r a, w.home r a → ∃ o, s.objects[r]? = some o ∧ w.Has h r a o
  nil : w.home unassigned unassigned
  contexts : List.Forall₂ w.home s.contexts h.contexts
  temporaries : List.Forall₂ w.home s.temporaries h.temporaries.toList
  lasts : Heap.Lasts w.origin.Allocated w.origin h

namespace World

variable {w w' : World} {h h' : Heap} {r : Ref} {k a n : Nat} {xs : List Ref} {o : Obj} {L : Nat → Prop}

theorem Has.tag (has : w.Has h r a o) : ∃ n, h.Is a o.tag n := by
  cases o with
  | unassigned => exact ⟨0, has⟩
  | number t v => exact ⟨1, has.2.1⟩
  | text bs =>
    obtain ⟨d, s, _⟩ := has
    exact ⟨2, s.is⟩
  | sequence t xs =>
    obtain ⟨as, s, _⟩ := has
    exact ⟨_, s.is⟩
  | slice array first stop => exact ⟨3, has.1⟩
  | context f => exact ⟨7, has.is⟩
  | channel d => exact ⟨3, has.is⟩
  | request q => exact ⟨7, has.is⟩
  | func c => exact ⟨4, has.is⟩
  | method receiver name => exact ⟨2, has.1⟩
  | waitGroup counter waiters => exact ⟨2, has.1⟩

/-- What survives of a world, and where it is then. -/
structure Carries (w : World) (h : Heap) (L : Nat → Prop) (w' : World) : Prop where
  tidy : h.Tidy
  survives : h.Survives L
  home : ∀ r a, w.home r a → L a → w'.home r a
  part : ∀ r a, w.home r a → w'.part r = w.part r
  owns : ∀ r k a b, w.owns r k b → L b → w.home r a → L a → w'.owns r k b

namespace Carries

variable (c : Carries w h L w')
include c

theorem homes {as : List Nat} (hxs : List.Forall₂ w.home xs as) (live : ∀ a ∈ as, L a) :
    List.Forall₂ w'.home xs as := by
  induction hxs with
  | nil => exact .nil
  | cons hx _ ih =>
    refine .cons (c.home _ _ hx (live _ List.mem_cons_self)) (ih fun a ha => live a (List.mem_cons_of_mem _ ha))

/-- A part of an object whose blocks are kept. -/
theorem stack {m : Nat} (s : w.HasStack h r k a xs) (hm : w.home r m) (lm : L m) (la : L a)
    (kept : ∀ b, w.owns r k b → L b → Heap.Kept h h' b) : w'.HasStack h' r k a xs := by
  obtain ⟨d, as, is, own, own', homes, start⟩ := s
  have ld := c.survives.child _ _ la (is.child c.tidy)
  refine ⟨d, as, is.kept (kept a own la) (kept d own' ld), c.owns r k m a own la hm lm, c.owns r k m d own' ld hm lm,
    c.homes homes fun x hx => c.survives.child _ _ ld (is.item_child c.tidy hx), (c.part r m hm).symm ▸ start⟩

theorem queue {m : Nat} (s : w.HasQueue h r k a n xs) (hm : w.home r m) (lm : L m) (la : L a)
    (kept : ∀ b, w.owns r k b → L b → Heap.Kept h h' b) : w'.HasQueue h' r k a n xs := by
  obtain ⟨d, as, is, own, own', homes, start⟩ := s
  have ld := c.survives.child _ _ la (is.child c.tidy)
  refine ⟨d, as, is.kept (kept a own la) (kept d own' ld), c.owns r k m a own la hm lm, c.owns r k m d own' ld hm lm,
    c.homes homes fun x hx => c.survives.child _ _ ld (is.item_child c.tidy hx), (c.part r m hm).symm ▸ start⟩

theorem list {m : Nat} (s : w.HasList h r k a xs) (hm : w.home r m) (lm : L m) (la : L a)
    (kept : ∀ b, w.owns r k b → L b → Heap.Kept h h' b) : w'.HasList h' r k a xs := by
  obtain ⟨ns, as, is, own, own', homes, start⟩ := s
  have ln := is.survives c.tidy c.survives la
  refine ⟨ns, as, is.kept (kept a own la) fun n hn => kept n (own' n hn) (ln n hn), c.owns r k m a own la hm lm,
    fun n hn => c.owns r k m n (own' n hn) (ln n hn) hm lm,
    c.homes homes fun x hx => is.item_survives c.tidy c.survives la hx, (c.part r m hm).symm ▸ start⟩

/-- A reference of a surviving block survives. -/
theorem field {t : Tag} {m i : Nat} {π : List Nat} (b : h.Is a t m) (layout : t.layout = .fields π)
    (hi : i ∈ π) (la : L a) : L (h.ref a i) :=
  c.survives.child _ _ la (c.tidy.child_field b layout hi)

/-- The parts of a context other than the one in role `j`. -/
theorem fiberParts {f : Fiber} {j : Nat} (has : w.HasFiber h r a f) (hm : w.home r a) (la : L a)
    (kept : ∀ k b, k ≠ j → w.owns r k b → L b → Heap.Kept h h' b) :
    (j ≠ 1 → w'.HasStack h' r 1 (h.ref a Context.operandsField) f.operands) ∧
      (j ≠ 2 → w'.HasStack h' r 2 (h.ref a Context.returnsField) f.returns) ∧
      (j ≠ 3 → w'.HasList h' r 3 (h.ref a Context.waitsField) f.waits) ∧
      w'.home f.environment (h.ref a Context.environmentField) := by
  have live {i : Nat} (hi : i ∈ [1, 2, 3, 5]) : L (h.ref a i) := c.field has.is rfl hi la
  refine ⟨fun ne => ?_, fun ne => ?_, fun ne => ?_, ?_⟩
  · exact c.stack has.operands hm la (live (by decide)) fun b => kept 1 b ne.symm
  · exact c.stack has.returns hm la (live (by decide)) fun b => kept 2 b ne.symm
  · exact c.list has.waits hm la (live (by decide)) fun b => kept 3 b ne.symm
  · exact c.home _ _ has.environment (live (by decide))

/-- The parts of a channel other than the one in role `j`. -/
theorem ductParts {d : Duct} {j : Nat} (has : w.HasDuct h r a d) (hm : w.home r a) (la : L a)
    (kept : ∀ k b, k ≠ j → w.owns r k b → L b → Heap.Kept h h' b) :
    (j ≠ 1 → w'.HasQueue h' r 1 (h.ref a Channel.bufferField) d.capacity d.buffer) ∧
      (j ≠ 2 → w'.HasList h' r 2 (h.ref a Channel.waitersField) d.waiters) := by
  have live {i : Nat} (hi : i ∈ [1, 2]) : L (h.ref a i) := c.field has.is rfl hi la
  refine ⟨fun ne => ?_, fun ne => ?_⟩
  · exact c.queue has.buffer hm la (live (by decide)) fun b => kept 1 b ne.symm
  · exact c.list has.waiters hm la (live (by decide)) fun b => kept 2 b ne.symm

/-- An object none of whose blocks changes. -/
theorem has (has : w.Has h r a o) (hm : w.home r a) (la : L a)
    (kept : ∀ k b, w.owns r k b → L b → Heap.Kept h h' b) : w'.Has h' r a o := by
  have main : Heap.Kept h h' a := kept 0 a hm la
  have each (j k b : Nat) (_ : k ≠ j) (own : w.owns r k b) (lb : L b) : Heap.Kept h h' b := kept k b own lb
  cases o with
  | unassigned => exact main.is has
  | number t v =>
    obtain ⟨layout, is, cell⟩ := has
    exact ⟨layout, main.is is, (main.cell (Nat.lt_of_lt_of_le Nat.one_pos is.room)).trans cell⟩
  | text bs =>
    obtain ⟨d, is, own⟩ := has
    have ld : L d := c.survives.child _ _ la (is.child c.tidy)
    by_cases e : bs = []
    · subst e
      refine ⟨d, ?_, fun no => absurd rfl no⟩
      have same (i : Nat) (hi : i < 2) : h'.ref a i = h.ref a i := main.ref (Nat.lt_of_lt_of_le hi is.is.room)
      exact ⟨main.is is.is, (same _ (by decide)).trans is.length, (same _ (by decide)).trans is.stored, is.empty,
        fun no => absurd rfl no, fun i hi => absurd hi (Nat.not_lt_zero i)⟩
    · exact ⟨d, is.kept main (kept 1 d (own e) ld), fun some => c.owns r 1 a d (own some) ld hm la⟩
  | sequence t xs =>
    obtain ⟨as, is, homes⟩ := has
    exact ⟨as, is.kept main, c.homes homes fun x hx => c.survives.child _ _ la (is.child c.tidy hx)⟩
  | slice array first stop =>
    obtain ⟨is, home, hfirst, hstop⟩ := has
    have same (i : Nat) (hi : i < 3) : h'.ref a i = h.ref a i := main.ref (Nat.lt_of_lt_of_le hi is.room)
    refine ⟨main.is is, ?_, (same _ (by decide)).trans hfirst, (same _ (by decide)).trans hstop⟩
    rw [same _ (by decide)]
    exact c.home _ _ home (c.field is (π := [0]) rfl (by decide) la)
  | context f =>
    have same (i : Nat) (hi : i < 7) : h'.ref a i = h.ref a i := main.ref (Nat.lt_of_lt_of_le hi has.is.room)
    obtain ⟨operands, returns, waits, env⟩ := c.fiberParts (j := 4) has hm la (each 4)
    refine ⟨main.is has.is, (same _ (by decide)).trans has.pc, ?_, ?_, ?_, ?_, ?_, (same _ (by decide)).trans has.id⟩
    · rw [same _ (by decide)]
      exact operands (by decide)
    · rw [same _ (by decide)]
      exact returns (by decide)
    · rwa [same _ (by decide)]
    · exact (main.cell (Nat.lt_of_lt_of_le (by decide) has.is.room)).trans has.blocked
    · rw [same _ (by decide)]
      exact waits (by decide)
  | channel d =>
    have same (i : Nat) (hi : i < 3) : h'.ref a i = h.ref a i := main.ref (Nat.lt_of_lt_of_le hi has.is.room)
    obtain ⟨buffer, waiters⟩ := c.ductParts (j := 3) has hm la (each 3)
    refine ⟨main.is has.is, (same _ (by decide)).trans has.capacity, ?_, ?_⟩
    · rw [same _ (by decide)]
      exact buffer (by decide)
    · rw [same _ (by decide)]
      exact waiters (by decide)
  | request q =>
    have same (i : Nat) (hi : i < 7) : h'.ref a i = h.ref a i := main.ref (Nat.lt_of_lt_of_le hi has.is.room)
    have refs (q : Ref) {i : Nat} (hi : i ∈ [0, 1, 4, 5, 6]) (small : i < 7) (home : w.home q (h.ref a i)) :
        w'.home q (h'.ref a i) := by
      rw [same i small]
      exact c.home _ _ home (c.field has.is rfl hi la)
    exact ⟨main.is has.is, refs _ (by decide) (by decide) has.context, refs _ (by decide) (by decide) has.channel,
      (same _ (by decide)).trans has.resume,
      (main.cell (Nat.lt_of_lt_of_le (by decide) has.is.room)).trans has.direction,
      refs _ (by decide) (by decide) has.value, refs _ (by decide) (by decide) has.frame,
      refs _ (by decide) (by decide) has.environment⟩
  | func f =>
    have same (i : Nat) (hi : i < 4) : h'.ref a i = h.ref a i := main.ref (Nat.lt_of_lt_of_le hi has.is.room)
    refine ⟨main.is has.is, (same _ (by decide)).trans has.entry, (same _ (by decide)).trans has.arity, ?_,
      (same _ (by decide)).trans has.declaration⟩
    rw [same _ (by decide)]
    exact c.home _ _ has.environment (c.field has.is (π := [2]) rfl (by decide) la)
  | method receiver name =>
    obtain ⟨is, hreceiver, hname⟩ := has
    have same (i : Nat) (hi : i < 2) : h'.ref a i = h.ref a i := main.ref (Nat.lt_of_lt_of_le hi is.room)
    refine ⟨main.is is, ?_, ?_⟩
    · rw [same _ (by decide)]
      exact c.home _ _ hreceiver (c.field is (π := [0, 1]) rfl (by decide) la)
    · rw [same _ (by decide)]
      exact c.home _ _ hname (c.field is (π := [0, 1]) rfl (by decide) la)
  | waitGroup counter waiters =>
    obtain ⟨is, hcounter, n, queue⟩ := has
    have same (i : Nat) (hi : i < 2) : h'.ref a i = h.ref a i := main.ref (Nat.lt_of_lt_of_le hi is.room)
    refine ⟨main.is is, (main.cell (Nat.lt_of_lt_of_le (by decide) is.room)).trans hcounter, n, ?_⟩
    rw [same _ (by decide)]
    exact c.queue queue hm la (c.field is (π := [1]) rfl (by decide) la) fun b => kept 1 b

end Carries

end World

end FiberMachine
