import FiberMachine.Machine.Dispatch
import FiberMachine.Proofs.Comparison

/-!
# Operands of a context

An instruction takes operands off the stack of its context and puts a result there. The operands that it took are protected while it
runs, so nothing that they lead to is reclaimed, and of the blocks that are in use it changes stacks and arrays only. So what holds of
the objects that a program keeps is not lost on the way from one instruction to the next.
-/

namespace FiberMachine

open Heap

variable {h h' h'' : Heap} {m m' : Machine} {a b c d i j n r v x : Nat} {t : Tag} {w : Word} {xs ys rs : List Nat} {α : Type}

namespace Heap

/-- The context at `c` is registered, and its operands are `xs`, the bottom one first. -/
structure Works (h : Heap) (c : Nat) (xs : List Nat) : Prop where
  tidy : h.Tidy
  registered : c ∈ h.contexts
  is : h.Is c .context 7
  operands : ∃ d, h.IsStack (h.ref c Context.operandsField) d xs

/-- Of the blocks that can be reached, only stacks and arrays change. -/
structure Retains (h : Heap) (rs : List Nat) (h' : Heap) : Prop where
  contexts : h'.contexts = h.contexts
  kept : ∀ a, h.Live rs a → h.tagAt a ≠ .stack → h.tagAt a ≠ .array → Kept h h' a

/-- One after the other, only stacks and arrays change, and the context keeps the operands `xs`. -/
def Proceeds (c : Nat) (xs : List Nat) : Heap → Heap → Prop :=
  Relation.ReflTransGen fun h h' => (∃ ys, h.Works c (xs ++ ys)) ∧ Retains h [] h'

theorem Retains.proceeds (retains : Retains h rs h') (works : h.Works c (xs ++ ys)) : Proceeds c xs h h' :=
  .single ⟨⟨ys, works⟩, retains.contexts, fun a ha => retains.kept a (live_nil.mp ha).live⟩

theorem Proceeds.below (proceeds : Proceeds c xs h h') (below : ys <+: xs) : Proceeds c ys h h' := by
  obtain ⟨zs, rfl⟩ := below
  refine Relation.ReflTransGen.mono ?_ h h' proceeds
  rintro h h' ⟨⟨above, works⟩, retains⟩
  exact ⟨⟨zs ++ above, by rwa [← List.append_assoc]⟩, retains⟩

theorem Evolves.retains {L P : Nat → Prop} {N : List Nat} (e : Evolves h L h' P N) (live : ∀ a, h.Live rs a → L a)
    (changed : ∀ a, P a → h.tagAt a = .stack ∨ h.tagAt a = .array) : Retains h rs h' where
  contexts := e.contexts
  kept a ha stack array := e.kept a (live a ha) fun hp => (changed a hp).elim stack array

theorem SameArena.retains (same : h.SameArena h') (contexts : h'.contexts = h.contexts) (tidy : h.Tidy) (good : ∀ r ∈ rs, h.Allocated r) :
    Retains h rs h' where
  contexts := contexts
  kept _ ha _ _ := same.kept (tidy.allocated_of_live good ha)

/-! ### The operand stack -/

namespace Works

theorem live (works : h.Works c xs) : h.Live rs c := .root (List.mem_cons_of_mem _ (List.mem_append_left _ works.registered))

theorem stack_live (works : h.Works c xs) : h.Live rs (h.ref c Context.operandsField) :=
  works.live.child (works.tidy.child_field works.is (π := [1, 2, 3, 5]) rfl (by decide))

/-- An operand can be reached. -/
theorem operand (works : h.Works c xs) (hx : x ∈ xs) : h.Live rs x := by
  obtain ⟨d, stack⟩ := works.operands
  exact (works.stack_live.child (stack.child works.tidy)).child (stack.item_child works.tidy hx)

theorem sameArena (works : h.Works c xs) (same : h.SameArena h') (contexts : h'.contexts = h.contexts)
    (root : ∀ a ∈ h'.roots, h.Allocated a) : h'.Works c xs where
  tidy := works.tidy.sameArena same root
  registered := contexts ▸ works.registered
  is := same.is.mpr works.is
  operands := by
    obtain ⟨d, stack⟩ := works.operands
    rw [same.ref]
    exact ⟨d, stack.sameArena same⟩

/-- After a change that leaves the context alone and gives its stack other items. -/
theorem restack {L : Nat → Prop} {N : List Nat} {d d' : Nat} (works : h.Works c xs)
    (stack : h.IsStack (h.ref c Context.operandsField) d xs) (e : Evolves h L h' (fun b => b = h.ref c Context.operandsField ∨ b = d) N)
    (lc : L c) (stack' : h'.IsStack (h.ref c Context.operandsField) d' ys) : h'.Works c ys := by
  obtain ⟨_, _, items⟩ := stack.items
  have kept : Kept h h' c := e.kept c lc fun changed => by
    rcases changed with eq | eq
    · exact works.is.ne stack.is (by decide) eq
    · exact works.is.ne items.is (by decide) eq
  refine ⟨e.tidy, e.contexts ▸ works.registered, kept.is works.is, d', ?_⟩
  rwa [kept.ref (Nat.lt_of_lt_of_le (by decide) works.is.room)]

end Works

theorem IsStack.changed (stack : h.IsStack a d xs) (ha : b = a ∨ b = d) : h.tagAt b = .stack ∨ h.tagAt b = .array := by
  obtain ⟨_, _, items⟩ := stack.items
  rcases ha with rfl | rfl
  · exact .inl stack.is.tag
  · exact .inr items.is.tag

/-- The operand on top is taken off and protected. -/
theorem Works.popOperand (works : h.Works c (xs ++ [x])) : ∃ h', Context.popOperand c h = .ok x h' ∧ (h'.rooting [x]).Works c xs ∧
    Retains h [] (h'.rooting [x]) ∧ h'.roots = h.roots := by
  obtain ⟨d, stack⟩ := works.operands
  obtain ⟨h', run, e, stack'⟩ := stack.pop works.tidy
  have field : readNat c Context.operandsField h = .ok (h.ref c Context.operandsField) := works.tidy.sound.readNat_eq works.is (by decide)
  have lc : h.Live [] c := works.live
  have before : h'.Works c xs := works.restack stack e works.is.allocated stack'
  have hx : h'.Allocated x := (e.stays x (stack.item_allocated works.tidy (by simp))).1
  have retains : Retains h [] h' := e.retains (fun a ha => works.tidy.allocated_of_live (by simp) ha) fun _ => stack.changed
  refine ⟨h', ?_, before.sameArena sameArena_rooting rfl ?_, ⟨retains.contexts, fun a ha s t => ?_⟩, e.roots⟩
  · simp only [Context.popOperand, Context.operandStack, HeapM.run_bind, HeapM.run_lift, field, run]
  · rw [roots_rooting]
    intro a ha
    rcases List.mem_append.mp ha with ha | ha
    · exact e.tidy.root ha
    · exact List.mem_singleton.mp ha ▸ hx
  · have kept := retains.kept a ha s t
    exact kept.trans (sameArena_rooting.kept kept.allocated)

/-- An object is put on the operand stack. -/
theorem Works.pushOperand (works : h.Works c xs) (hx : h.Allocated x) : NoMemory (Context.pushOperand c x) h ∨
    ∃ h', Context.pushOperand c x h = .ok () h' ∧ h'.Works c (xs ++ [x]) ∧ Retains h [x] h' := by
  obtain ⟨d, stack⟩ := works.operands
  have field : readNat c Context.operandsField h = .ok (h.ref c Context.operandsField) := works.tidy.sound.readNat_eq works.is (by decide)
  have eq : Context.pushOperand c x h = Stack.push (h.ref c Context.operandsField) x h := by
    simp only [Context.pushOperand, Context.operandStack, HeapM.run_bind, HeapM.run_lift, field]
  rcases stack.push works.tidy hx with ⟨n, h', run⟩ | ⟨h', d', N, run, e, stack', -⟩
  · exact .inl ⟨n, h', eq.trans run⟩
  · refine .inr ⟨h', eq.trans run, works.restack stack e works.live stack', e.retains (fun a ha => ?_) fun _ => stack.changed⟩
    exact ha.mono fun r hr => (List.mem_append.mp hr).elim Live.root fun hr => Live.extra (List.mem_cons_of_mem _ hr)

/-! ### What holds of an object -/

/-- What is said of an object depends only on blocks that it leads to and that are neither stacks nor arrays. -/
def Portable (P : Heap → Nat → Prop) : Prop := ∀ ⦃h h' rs a⦄, h.Tidy → Retains h rs h' → h.Live rs a → P h a → P h' a

section
variable {P : Heap → Nat → Prop} (portable : Portable P)
include portable

/-- It stays true of what can be reached because of it. -/
theorem Portable.proceeds (reached : ∀ h : Heap, h.Tidy → P h a → h.Reachable a) (proceeds : Proceeds c xs h h') (here : P h a) :
    P h' a := by
  induction proceeds with
  | refl => exact here
  | tail _ step ih =>
    obtain ⟨⟨_, works⟩, retains⟩ := step
    exact portable works.tidy retains (live_nil.mpr (reached _ works.tidy ih)) ih

/-- It stays true of an operand. -/
theorem Portable.operand (hx : x ∈ xs) (proceeds : Proceeds c xs h h') (here : P h x) : P h' x := by
  induction proceeds with
  | refl => exact here
  | tail _ step ih =>
    obtain ⟨⟨_, works⟩, retains⟩ := step
    exact portable works.tidy retains (works.operand (List.mem_append_left _ hx)) ih

end

theorem Portable.and {P Q : Heap → Nat → Prop} (first : Portable P) (second : Portable Q) : Portable fun h a => P h a ∧ Q h a :=
  fun _ _ _ _ tidy retains live here => ⟨first tidy retains live here.1, second tidy retains live here.2⟩

/-- The string at `a` has the bytes `bs`. -/
def HasBytes (bs : List UInt8) (h : Heap) (a : Nat) : Prop := ∃ d, h.IsText a d bs

theorem portable_hasBytes {bs : List UInt8} : Portable (HasBytes bs) := by
  rintro h h' rs a tidy retains live ⟨d, text⟩
  have main : Kept h h' a := retains.kept a live (by simp [text.is.tag]) (by simp [text.is.tag])
  by_cases e : bs = []
  · subst e
    refine ⟨d, main.is text.is, (main.ref ?_).trans text.length, (main.ref ?_).trans text.stored, text.empty, fun no => absurd rfl no, ?_⟩
    · exact Nat.lt_of_lt_of_le (by decide) text.is.room
    · exact Nat.lt_of_lt_of_le (by decide) text.is.room
    · exact fun i hi => absurd hi (Nat.not_lt_zero i)
  · have block := text.block e
    exact ⟨d, text.kept main (retains.kept d (live.child (text.child tidy)) (by simp [block.tag]) (by simp [block.tag]))⟩

theorem portable_isBox (scalar : t.isScalar = true) : Portable fun h a => h.IsBox a t w := by
  intro h h' rs a tidy retains live box
  have tag := box.is.tag
  have kept : Kept h h' a := retains.kept a live (by rw [tag]; rintro rfl; cases scalar) (by rw [tag]; rintro rfl; cases scalar)
  exact ⟨kept.is box.is, (kept.cell (Nat.lt_of_lt_of_le Nat.one_pos box.is.room)).trans box.word⟩

end Heap

namespace Machine

/-- The action uses the memory up. -/
def RunsOut (m : Machine) (action : MachineM α) : Prop := ∃ n m', action m = .error (.error (.heap (.outOfMemory n))) m'

/-- The action fails with that error. -/
def Refuses (m : Machine) (action : MachineM α) (cause : HeapError) : Prop := ∃ m', action m = .error (.error (.heap cause)) m'

/-- The action uses the memory up, or it answers `y` and leaves the operands `xs` and an object above them with the property. -/
def Yields (m : Machine) (c : Nat) (xs : List Nat) (action : MachineM α) (y : α) (P : Heap → Nat → Prop) : Prop :=
  m.RunsOut action ∨
    ∃ r m', action m = .ok y m' ∧ m'.heap.Works c (xs ++ [r]) ∧ P m'.heap r ∧ Proceeds c xs m.heap m'.heap

variable {P Q : Heap → Nat → Prop}

namespace Yields

variable {α β : Type} {action : MachineM α} {k : α → MachineM β} {y : α} {z : β}

theorem bind (first : m.Yields c xs action y P) (below : ys <+: xs)
    (next : ∀ r (m' : Machine), m'.heap.Works c (xs ++ [r]) → P m'.heap r → Proceeds c xs m.heap m'.heap → m'.Yields c ys (k y) z Q) :
    m.Yields c ys (action >>= k) z Q := by
  rcases first with ⟨n, m', full⟩ | ⟨r, m', run, works, p, proceeds⟩
  · exact .inl ⟨n, m', by rw [run_bind, full]⟩
  · rcases next r m' works p proceeds with ⟨n, m'', full⟩ | ⟨r', m'', run', works', q, proceeds'⟩
    · exact .inl ⟨n, m'', by rw [run_bind, run]; exact full⟩
    · exact .inr ⟨r', m'', by rw [run_bind, run]; exact run', works', q, (proceeds.below below).trans proceeds'⟩

theorem done (works : m.heap.Works c (xs ++ [r])) (p : P m.heap r) : m.Yields c xs (pure y) y P := .inr ⟨r, m, rfl, works, p, .refl⟩

/-- An action does what another does later on. -/
theorem of_eq {next : MachineM α} (run : action m = next m') (proceeds : Proceeds c xs m.heap m'.heap) (rest : m'.Yields c xs next y P) :
    m.Yields c xs action y P := by
  rcases rest with ⟨n, m'', full⟩ | ⟨r, m'', run', works, p, proceeds'⟩
  · exact .inl ⟨n, m'', run.trans full⟩
  · exact .inr ⟨r, m'', run.trans run', works, p, proceeds.trans proceeds'⟩

/-- A new object is put on the operand stack. -/
theorem load {make : HeapM Nat} (works : m.heap.Works c xs) (portable : Portable P)
    (made : Delivers make m.heap [] P) : m.Yields c xs (load c make) () P := by
  rcases made with ⟨n, h', full⟩ | ⟨r, h', N, run, e, hr, p⟩
  · exact .inl ⟨n, { m with heap := h' }, by rw [Machine.load, run_bind, run_heap, full]; rfl⟩
  have eq : Machine.load c make m = push c r { m with heap := h' } := by rw [Machine.load, run_bind, run_heap, run]
  have works' : h'.Works c xs := by
    obtain ⟨d, stack⟩ := works.operands
    have kept : Heap.Kept m.heap h' c := e.kept c works.live id
    have keptStack := e.kept _ works.stack_live id
    have field : h'.ref c Context.operandsField = m.heap.ref c Context.operandsField :=
      kept.ref (Nat.lt_of_lt_of_le (by decide) works.is.room)
    have keptItems := e.kept d (works.stack_live.child (stack.child works.tidy)) id
    exact ⟨e.tidy, e.contexts ▸ works.registered, kept.is works.is, d, field ▸ stack.kept keptStack keptItems⟩
  rcases works'.pushOperand hr with ⟨n, h'', full⟩ | ⟨h'', run', works'', retains⟩
  · exact .inl ⟨n, { m with heap := h'' }, by rw [eq, push, run_heap, full]; rfl⟩
  · have first : Retains m.heap [] h' := e.retains (fun _ ha => ha) fun _ no => no.elim
    refine .inr ⟨r, { m with heap := h'' }, by rw [eq, push, run_heap, run'], works'', ?_, ?_⟩
    · exact portable works'.tidy retains (.extra (List.mem_singleton_self r)) p
    · have before : m.heap.Works c (xs ++ []) := by rwa [List.append_nil]
      have between : h'.Works c (xs ++ []) := by rwa [List.append_nil]
      exact (first.proceeds before).trans (retains.proceeds between)

/-- An object is put on the operand stack that can be reached. -/
theorem push (works : m.heap.Works c xs) (portable : Portable P) (hr : m.heap.Allocated r) (p : P m.heap r) :
    m.Yields c xs (push c r) () P := by
  rcases works.pushOperand hr with ⟨n, h', full⟩ | ⟨h', run, works', retains⟩
  · exact .inl ⟨n, { m with heap := h' }, by rw [Machine.push, run_heap, full]; rfl⟩
  · have before : m.heap.Works c (xs ++ []) := by rwa [List.append_nil]
    refine .inr ⟨r, { m with heap := h' }, by rw [Machine.push, run_heap, run], works', ?_, retains.proceeds before⟩
    exact portable works.tidy retains (.extra (List.mem_singleton_self r)) p

theorem proceeding {action : MachineM Unit} (yields : m.Yields c xs action () P) : m.Yields c xs (proceeding action) .proceed P := by
  rcases yields with ⟨n, m', full⟩ | ⟨r, m', run, rest⟩
  · exact .inl ⟨n, m', by rw [Machine.proceeding, run_bind, full]⟩
  · exact .inr ⟨r, m', by rw [Machine.proceeding, run_bind, run]; rfl, rest⟩

/-- The protection of the operands ends with the instruction. -/
theorem execute {pc : Nat} {i : Instruction} {o : Outcome} (portable : Portable P) (yields : m.Yields c xs (dispatch c pc i) o P) :
    m.Yields c xs (execute c pc i) o P := by
  rcases yields with ⟨n, m', full⟩ | ⟨r, m', run, works, p, proceeds⟩
  · exact .inl ⟨n, m'.releaseRoots m.heap.temporaries.size, by simp only [Machine.execute, full]⟩
  · have same : m'.heap.SameArena (m'.releaseRoots m.heap.temporaries.size).heap := ⟨rfl, rfl, rfl⟩
    have root : ∀ a ∈ (m'.releaseRoots m.heap.temporaries.size).heap.roots, m'.heap.Allocated a := by
      intro a ha
      refine works.tidy.root ?_
      simp only [releaseRoots, roots, List.mem_cons, List.mem_append] at ha ⊢
      refine ha.imp_right fun ha => ?_
      rw [Array.toList_shrink] at ha
      exact List.mem_of_mem_take ha
    have retains (rs : List Nat) (good : ∀ r ∈ rs, m'.heap.Allocated r) := same.retains rfl works.tidy good
    have hr : m'.heap.Allocated r := works.tidy.allocated_of_live (by simp) (show m'.heap.Live [] r from works.operand (by simp))
    refine .inr ⟨r, m'.releaseRoots m.heap.temporaries.size, by simp only [Machine.execute, run], works.sameArena same rfl root, ?_, ?_⟩
    · exact portable works.tidy (retains [] (by simp)) (works.operand (by simp)) p
    · exact proceeds.trans ((retains [] (by simp)).proceeds works)

end Yields

theorem Refuses.of_eq {action next : MachineM α} {cause : HeapError} (run : action m = next m') (refuses : m'.Refuses next cause) :
    m.Refuses action cause := by
  obtain ⟨m'', rejected⟩ := refuses
  exact ⟨m'', run.trans rejected⟩

theorem Refuses.proceeding {action : MachineM Unit} {cause : HeapError} (refuses : m.Refuses action cause) :
    m.Refuses (Machine.proceeding action) cause := by
  obtain ⟨m', run⟩ := refuses
  exact ⟨m', by rw [Machine.proceeding, run_bind, run]⟩

theorem Refuses.execute {pc : Nat} {i : Instruction} {cause : HeapError} (refuses : m.Refuses (dispatch c pc i) cause) :
    m.Refuses (Machine.execute c pc i) cause := by
  obtain ⟨m', run⟩ := refuses
  exact ⟨m'.releaseRoots m.heap.temporaries.size, by simp only [Machine.execute, run]⟩

/-- The operand on top is taken and protected. -/
theorem pop_eq (works : m.heap.Works c (xs ++ [x])) : ∃ h', pop c m = .ok x { m with heap := h' } ∧ h'.Works c xs ∧
    Retains m.heap [] h' ∧ x ∈ h'.roots ∧ ∀ a ∈ m.heap.roots, a ∈ h'.roots := by
  obtain ⟨h', run, works', retains, roots⟩ := works.popOperand
  refine ⟨h'.rooting [x], ?_, works', retains, ?_, fun a ha => ?_⟩
  · have pushed : Heap.pushRoot x h' = .ok () (h'.rooting [x]) := by
      rw [Heap.pushRoot, HeapM.run_modify, rooting, show h'.temporaries ++ [x] = h'.temporaries.push x from Array.ext' (by simp)]
    simp only [pop, run_bind, run_heap, run, pushed, run_pure]
  · simp [roots_rooting]
  · rw [roots_rooting, roots]
    exact List.mem_append_left _ ha

/-- An int is taken off the stack. -/
theorem popInt_eq (works : m.heap.Works c (xs ++ [x])) {n : Int64} (box : m.heap.IsBox x .int n.toUInt64) :
    ∃ h', popInt c m = .ok n { m with heap := h' } ∧ h'.Works c xs ∧ Retains m.heap [] h' ∧ ∀ a ∈ m.heap.roots, a ∈ h'.roots := by
  obtain ⟨h', run, works', retains, -, roots⟩ := pop_eq works
  have box' : h'.IsBox x .int n.toUInt64 := portable_isBox rfl works.tidy retains (works.operand (by simp)) box
  have sound := works'.tidy.sound
  have found : Scalar.expectInt x h' = .ok n := by
    simp only [Scalar.expectInt, expect, Scalar.int, HeapReader.run_bind, sound.tag_eq box'.is, sound.read_eq box'.is Nat.one_pos,
      box'.word, HeapReader.run_pure]
    rfl
  refine ⟨h', ?_, works', retains, roots⟩
  simp only [popInt, run_bind, run, run_reader, found]

end Machine

end FiberMachine
