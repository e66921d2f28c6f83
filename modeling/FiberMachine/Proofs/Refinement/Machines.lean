import FiberMachine.Proofs.Ideal.Engine
import FiberMachine.Proofs.Ideal.Logic
import FiberMachine.Proofs.Refinement.Copies
import FiberMachine.Proofs.Refinement.Display

/-!
# Machines and engines

An engine describes a machine if its store is in the heap, the same contexts are ready, and what is known of the
output has been printed. What the machine does to its heap follows the engine; the operands that an instruction
has taken, and the objects it has made, are protected from then on.
-/

namespace FiberMachine

open Ideal

/-- The engine `e` describes the machine `m`. -/
structure Describes (w : World) (e : Engine) (m : Machine) : Prop where
  rep : Rep w e.store m.heap
  ready : List.Forall₂ w.home e.scheduler.ready m.scheduler.ready
  current : Option.Rel w.home e.scheduler.current m.scheduler.current
  sliceUsed : m.scheduler.sliceUsed = e.scheduler.sliceUsed
  timeSlice : m.scheduler.timeSlice = e.scheduler.timeSlice
  registered : ∀ c ∈ e.scheduler.ready ++ e.scheduler.current.toList, c ∈ e.store.contexts
  output : Shown e.output m.output
  generator : m.generator = e.generator
  nextId : m.nextId = e.nextId
  origins : ∀ p ∈ m.origins, p.1 < m.heap.capacity

/-- Machines and engines. -/
def machineLevel : Level Engine Machine MachineError where
  rel := Describes
  store := Engine.store
  cause := id
  failed e m := Shown e.output m.output

variable {α β γ δ : Type} {w w' : World} {e : Engine} {m : Machine} {r v c : Ref} {a b n : Nat} {xs : List Ref}
  {as : List Nat}

/-- The action on the machine follows the action on the engine. -/
abbrev Drives {α β : Type} := @Follows Engine Machine MachineError α β machineLevel

theorem Describes.evolve {s : Store} {h : Heap} (d : Describes w e m) (rep : Rep w' s h) (keeps : Keeps w e.store w' s) :
    Describes w' { e with store := s } { m with heap := h } := by
  have placed {c : Ref} {a : Nat} (hc : c ∈ e.scheduler.ready ++ e.scheduler.current.toList) (ha : w.home c a) :
      w'.home c a := keeps.placed c (List.mem_append_left _ (d.registered c hc)) a ha
  have queue {xs : List Ref} {as : List Nat} (homes : List.Forall₂ w.home xs as)
      (known : ∀ c ∈ xs, c ∈ e.scheduler.ready ++ e.scheduler.current.toList) : List.Forall₂ w'.home xs as := by
    induction homes with
    | nil => exact .nil
    | cons hx _ ih => exact .cons (placed (known _ List.mem_cons_self) hx) (ih fun c hc => known c (List.mem_cons_of_mem _ hc))
  refine { d with rep := rep, ready := ?_, current := ?_, registered := ?_, origins := ?_ }
  · exact queue d.ready fun c hc => List.mem_append_left _ hc
  · have current := d.current
    have known (c : Ref) (hc : e.scheduler.current = some c) : c ∈ e.scheduler.ready ++ e.scheduler.current.toList := by
      simp [hc]
    cases hx : e.scheduler.current with
    | none =>
      rw [hx] at current
      cases hy : m.scheduler.current with
      | none => exact .none
      | some a =>
        rw [hy] at current
        cases current
    | some c =>
      rw [hx] at current
      cases hy : m.scheduler.current with
      | none =>
        rw [hy] at current
        cases current
      | some a =>
        rw [hy] at current
        cases current with
        | some ha => exact .some (placed (known c hx) ha)
  · exact fun c hc => keeps.contexts.subset (d.registered c hc)
  · intro p hp
    have same : h.capacity = m.heap.capacity := by rw [rep.capacity, keeps.capacity, d.rep.capacity]
    rw [same]
    exact d.origins p hp

/-! ### Actions on the heap -/

theorem Machine.run_reader (look : HeapReader α) (m : Machine) : (liftM look : MachineM α) m = match look m.heap with
    | .ok a => .ok a m
    | .error e => .error (e.map .heap) m := by
  change (liftM (liftM look : HeapM α) : MachineM α) m = _
  rw [run_heap, HeapM.run_lift]
  cases look m.heap <;> rfl

namespace Drives

/-- An action on the heap follows one on the store. -/
theorem heap {action : HeapM α} {n : StoreM β} {Q : World → β → α → Prop} (d : Describes w e m)
    (f : Tracks w e.store m.heap action n Q) : Drives w e m (liftM action) (liftM n) Q := by
  unfold Tracks Follows at f
  unfold Drives Follows
  rw [Machine.run_heap, Engine.run_store]
  generalize action m.heap = x, n e.store = y at f ⊢
  cases f with
  | full full => exact .full full
  | ok w' rel keeps q => exact .ok w' (d.evolve rel keeps) keeps q
  | error same failed => exact .error same d.output
  | fault => exact .fault
  | wild => exact .wild

theorem heap_bind {action : HeapM α} {n : StoreM β} {Q : World → β → α → Prop} {k : α → MachineM γ} {l : β → EngineM δ}
    {R : World → δ → γ → Prop} (d : Describes w e m) (f : Tracks w e.store m.heap action n Q)
    (next : ∀ b e' a m' w', Describes w' e' m' → Keeps w e.store w' e'.store → Q w' b a → Drives w' e' m' (k a) (l b) R) :
    Drives w e m (liftM action >>= k) (liftM n >>= l) R :=
  Follows.bind (heap d f) next

/-- An observation of the heap follows one of the store. -/
theorem read {look : HeapReader α} {n : StoreM β} {Q : β → α → Prop} (d : Describes w e m)
    (f : Reads e.store m.heap look n Q) : Drives w e m (liftM look) (liftM n) fun w' b a => w' = w ∧ Q b a :=
  heap d (Tracks.read d.rep f)

/-- An observation comes first. -/
theorem read_bind {look : HeapReader α} {n : StoreM β} {Q : β → α → Prop} {k : α → MachineM γ} {l : β → EngineM δ}
    {R : World → δ → γ → Prop} (d : Describes w e m) (f : Reads e.store m.heap look n Q)
    (next : ∀ b a, Q b a → Drives w e m (k a) (l b) R) : Drives w e m (liftM look >>= k) (liftM n >>= l) R := by
  unfold Reads at f
  unfold Drives Follows at next ⊢
  rw [run_bind, run_bind, Machine.run_reader, Engine.run_store]
  generalize look m.heap = x, n e.store = y at f ⊢
  cases f with
  | ok q => exact next _ _ q
  | error same => exact .error same d.output
  | fault => exact .fault
  | wild => exact .wild

theorem answer {x : α} {y : β} {Q : World → β → α → Prop} (d : Describes w e m) (q : Q w y x) :
    Drives w e m (pure x) (pure y) Q := Follows.pure d q

/-- Both abort for the same cause. -/
theorem aborts {k k' : MachineError} {Q : World → β → α → Prop} (d : Describes w e m) (same : k.erase = k') :
    Drives w e m (Machine.abort k) (Engine.abort k') Q := Matches.error same d.output

/-- Both abort for the same cause. -/
theorem aborts_bind {k k' : MachineError} {f : γ → MachineM α} {g : δ → EngineM β} {Q : World → β → α → Prop}
    (d : Describes w e m) (same : k.erase = k') :
    Drives w e m (Machine.abort k >>= f) (Engine.abort k' >>= g) Q := Matches.error same d.output

end Drives

namespace Drives

/-! ### Operands -/

/-- An object that is protected from now on. -/
theorem protect {k : Unit → MachineM α} {l : Unit → EngineM β} {R : World → β → α → Prop} (d : Describes w e m)
    (ha : w.home r a)
    (next : ∀ e' m', Describes w e' m' → Keeps w e.store w e'.store → Held w e'.store r a → Drives w e' m' (k ()) (l ()) R) :
    Drives w e m (liftM (Heap.pushRoot a) >>= k) (liftM (Ideal.pushRoot r) >>= l) R := by
  have pushed : Safe Any (liftM (Ideal.pushRoot r) : EngineM Unit) e fun _ e' => r ∈ e'.store.temporaries :=
    Engine.safe_store (by exact List.mem_append_right _ (List.mem_singleton_self r))
  refine (heap d (Tracks.pushRoot d.rep ha)).bind_run pushed ?_
  rintro _ e' _ m' _ d' keeps rfl known
  exact next e' m' d' keeps (.temporaries ha known)

/-- The machine changes in a way that does not matter. -/
theorem aside {f : Machine → Machine} {k : PUnit → MachineM α} {l : EngineM β} {R : World → β → α → Prop}
    (next : Drives w e (f m) (k ⟨⟩) l R) : Drives w e m (modify f >>= k) l R := next

/-- Something is added that is protected from now on. -/
theorem protecting {make : HeapM Nat} {n : StoreM Ref} {k : Nat → MachineM α} {l : Ref → EngineM β}
    {R : World → β → α → Prop} (d : Describes w e m) (f : Tracks w e.store m.heap make n fun w' r a => w'.home r a)
    (next : ∀ r e' a m' w', Describes w' e' m' → Keeps w e.store w' e'.store → Held w' e'.store r a →
      Drives w' e' m' (k a) (l r) R) :
    Drives w e m (Machine.protecting make >>= k) (Engine.protecting n >>= l) R := by
  refine Follows.congr (k := liftM make >>= fun b => liftM (Heap.pushRoot b) >>= fun _ => k b)
    (l := liftM n >>= fun v => liftM (pushRoot v) >>= fun _ => l v) ?_ ?_ ?_
  · refine heap_bind d f fun v e₁ b m₁ w₁ d₁ keeps hv => ?_
    exact protect d₁ hv fun e₂ m₂ d₂ keeps' held => next v e₂ b m₂ w₁ d₂ (keeps.trans keeps') held
  · simp only [Machine.protecting, bind_assoc, pure_bind]
  · simp only [Engine.protecting, bind_assoc, pure_bind]

theorem pop {k : Nat → MachineM α} {l : Ref → EngineM β} {R : World → β → α → Prop} (d : Describes w e m)
    (hc : Held w e.store c n)
    (next : ∀ v e' b m' w', Describes w' e' m' → Keeps w e.store w' e'.store → Held w' e'.store v b →
      Drives w' e' m' (k b) (l v) R) :
    Drives w e m (Machine.pop n >>= k) (Engine.pop c >>= l) R :=
  protecting d (Tracks.weaken (.popOperand d.rep hc.home) fun _ _ _ q => q.1 ▸ q.2 :
    Tracks w e.store m.heap (Context.popOperand n) (popOperand c) fun w' r a => w'.home r a) next

theorem popOnto {above : List Ref} {above' : List Nat} {k : List Nat → MachineM α} {l : List Ref → EngineM β}
    {R : World → β → α → Prop} (j : Nat) (d : Describes w e m) (hc : Held w e.store c n)
    (held : List.Forall₂ (Held w e.store) above above')
    (next : ∀ xs e' as m' w', Describes w' e' m' → Keeps w e.store w' e'.store → List.Forall₂ (Held w' e'.store) xs as →
      Drives w' e' m' (k as) (l xs) R) :
    Drives w e m (Machine.popOnto n above' j >>= k) (Engine.popOnto c above j >>= l) R := by
  induction j generalizing w e m above above' with
  | zero => exact next above e above' m w d .refl held
  | succ j ih =>
    refine Follows.congr (k := Machine.pop n >>= fun b => Machine.popOnto n (b :: above') j >>= k)
      (l := Engine.pop c >>= fun v => Engine.popOnto c (v :: above) j >>= l) ?_ ?_ ?_
    · refine pop d hc fun v e₁ b m₁ w₁ d₁ keeps hv => ?_
      refine ih d₁ (hc.keep keeps) (.cons hv (held.imp fun _ _ held => held.keep keeps)) ?_
      exact fun xs e' as m' w' d' keeps' held' => next xs e' as m' w' d' (keeps.trans keeps') held'
    · rw [Machine.popOnto, bind_assoc]
    · rw [Engine.popOnto, bind_assoc]

theorem expectListable (d : Describes w e m) {k : Unit → MachineM α} {l : Unit → EngineM β} {R : World → β → α → Prop}
    (next : Drives w e m (k ()) (l ()) R) :
    Drives w e m (liftM (Heap.expectListable n) >>= k) (liftM (Ideal.expectListable n) >>= l) R := by
  refine read_bind (Q := fun _ _ => True) d ?_ fun _ _ _ => next
  unfold Heap.expectListable Heap.expectRoom Ideal.expectListable
  split
  · exact .pure trivial
  · exact .fault

theorem popMany {k : List Nat → MachineM α} {l : List Ref → EngineM β} {R : World → β → α → Prop} (j : Nat)
    (d : Describes w e m) (hc : Held w e.store c n)
    (next : ∀ xs e' as m' w', Describes w' e' m' → Keeps w e.store w' e'.store → List.Forall₂ (Held w' e'.store) xs as →
      Drives w' e' m' (k as) (l xs) R) :
    Drives w e m (Machine.popMany n j >>= k) (Engine.popMany c j >>= l) R := by
  rw [Machine.popMany, Engine.popMany, bind_assoc, bind_assoc]
  exact expectListable d (popOnto j d hc .nil next)

theorem popInt {k : Int64 → MachineM α} {l : Int64 → EngineM β} {R : World → β → α → Prop} (d : Describes w e m)
    (hc : Held w e.store c n)
    (next : ∀ x e' m' w', Describes w' e' m' → Keeps w e.store w' e'.store → Drives w' e' m' (k x) (l x) R) :
    Drives w e m (Machine.popInt n >>= k) (Engine.popInt c >>= l) R := by
  rw [Machine.popInt, Engine.popInt, bind_assoc, bind_assoc]
  refine pop d hc fun v e₁ b m₁ w₁ d₁ keeps hv => read_bind d₁ (.expectInt d₁.rep hv.home) ?_
  rintro x _ rfl
  exact next x e₁ m₁ w₁ d₁ keeps

theorem popBool {k : Bool → MachineM α} {l : Bool → EngineM β} {R : World → β → α → Prop} (d : Describes w e m)
    (hc : Held w e.store c n)
    (next : ∀ x e' m' w', Describes w' e' m' → Keeps w e.store w' e'.store → Drives w' e' m' (k x) (l x) R) :
    Drives w e m (Machine.popBool n >>= k) (Engine.popBool c >>= l) R := by
  rw [Machine.popBool, Engine.popBool, bind_assoc, bind_assoc]
  refine pop d hc fun v e₁ b m₁ w₁ d₁ keeps hv => read_bind d₁ (.expectBool d₁.rep hv.home) ?_
  rintro x _ rfl
  exact next x e₁ m₁ w₁ d₁ keeps

/-- An optional int operand. -/
theorem popOption {given : Bool} {k : Option Int64 → MachineM α} {l : Option Int64 → EngineM β} {R : World → β → α → Prop}
    (d : Describes w e m) (hc : Held w e.store c n)
    (next : ∀ x e' m' w', Describes w' e' m' → Keeps w e.store w' e'.store → Drives w' e' m' (k x) (l x) R) :
    Drives w e m (if given then some <$> Machine.popInt n >>= k else pure none >>= k)
      (if given then some <$> Engine.popInt c >>= l else pure none >>= l) R := by
  cases given with
  | true =>
    simp only [if_true, map_eq_pure_bind, bind_assoc, pure_bind]
    exact popInt d hc fun x => next (some x)
  | false => exact next none e m w d .refl

theorem push (d : Describes w e m) (hc : w.home c n) (hv : w.home v b) :
    Drives w e m (Machine.push n b) (Engine.push c v) fun _ _ _ => True :=
  heap d (.pushOperand d.rep hc hv)

/-- A new object is put on the operand stack. -/
theorem load {make : HeapM Nat} {n' : StoreM Ref} (d : Describes w e m) (hc : Held w e.store c n)
    (f : Tracks w e.store m.heap make n' fun w' r a => w'.home r a) :
    Drives w e m (Machine.load n make) (Engine.load c n') fun _ _ _ => True :=
  heap_bind d f fun _ _ _ _ _ d' keeps hr => push d' (hc.keep keeps).home hr

theorem makes {make : HeapM Nat} {n' : StoreM Ref} {h : Heap} {ρ : List Nat} {s : Store}
    (f : Tracks w s h make n' (Makes w h ρ)) : Tracks w s h make n' fun w' r a => w'.home r a :=
  f.weaken fun _ _ _ made => made.1

theorem copies {k : List Nat → MachineM α} {l : List Ref → EngineM β} {R : World → β → α → Prop}
    (d : Describes w e m) (held : List.Forall₂ (Held w e.store) xs as)
    (next : ∀ ys e' bs m' w', Describes w' e' m' → Keeps w e.store w' e'.store → List.Forall₂ (Held w' e'.store) ys bs →
      Drives w' e' m' (k bs) (l ys) R) :
    Drives w e m (Machine.copies as >>= k) (Engine.copies xs >>= l) R := by
  induction xs generalizing w e m as k l with
  | nil =>
    cases held
    exact next [] e [] m w d .refl .nil
  | cons v xs ih =>
    obtain ⟨b, bs, hv, rest, rfl⟩ := List.forall₂_cons_left_iff.mp held
    refine Follows.congr (k := Machine.protecting (Value.copy b) >>= fun x => Machine.copies bs >>= fun ys => k (x :: ys))
      (l := Engine.protecting (copy v) >>= fun x => Engine.copies xs >>= fun ys => l (x :: ys)) ?_ ?_ ?_
    · refine protecting d (.copy d.rep hv.home) fun x e₁ y m₁ w₁ d₁ keeps hx => ?_
      refine ih d₁ (rest.imp fun _ _ held => held.keep keeps) fun ys e₂ zs m₂ w₂ d₂ keeps' held' => ?_
      exact next (x :: ys) e₂ (y :: zs) m₂ w₂ d₂ (keeps.trans keeps') (.cons (hx.keep keeps') held')
    · simp only [Machine.copies, bind_assoc, pure_bind]
    · simp only [Engine.copies, bind_assoc, pure_bind]

end Drives

/-! ### Notes for a debugger -/

theorem Describes.record (d : Describes w e m) (severity : Severity) (text : Unit → String) :
    Describes w e (m.record severity text) :=
  { d with rep := d.rep.reroot ⟨rfl, rfl, rfl⟩ rfl d.rep.contexts d.rep.temporaries }

theorem Describes.dirty (d : Describes w e m) (written : List Nat) : Describes w e { m with dirty := written } := { d with }

theorem Describes.originated (d : Describes w e m) (ha : w.home r a) (pc : Nat) :
    Describes w e { m with origins := (a, pc) :: m.origins } := by
  refine { d with origins := fun p hp => ?_ }
  rcases List.mem_cons.mp hp with rfl | hp
  · exact d.rep.tidy.sound.lt_capacity (d.rep.home_allocated ha)
  · exact d.origins p hp

namespace Drives

theorem note {severity : Severity} {text : Unit → String} {k : Unit → MachineM α} {l : EngineM β}
    {R : World → β → α → Prop} (d : Describes w e m) (next : ∀ m', Describes w e m' → Drives w e m' (k ()) l R) :
    Drives w e m (Machine.note severity text >>= k) l R :=
  aside (next _ (d.record severity text))

theorem noteOrigin {pc : Nat} {k : Unit → MachineM α} {l : EngineM β} {R : World → β → α → Prop} (d : Describes w e m)
    (ha : w.home r a) (next : ∀ m', Describes w e m' → Drives w e m' (k ()) l R) :
    Drives w e m (Machine.noteOrigin a pc >>= k) l R :=
  aside (next _ (d.originated ha pc))

/-- A context becomes ready. -/
theorem enqueue {v : String} {k : Unit → MachineM α} {l : Unit → EngineM β} {R : World → β → α → Prop}
    (d : Describes w e m) (ha : w.home c a)
    (next : ∀ e' m', Describes w e' m' → Keeps w e.store w e'.store → Drives w e' m' (k ()) (l ()) R) :
    Drives w e m (modify (·.enqueue v a) >>= k) (Engine.enqueue c >>= l) R := by
  by_cases known : c ∈ e.store.contexts
  · have run : Engine.enqueue c e = .ok () { e with scheduler := e.scheduler.enqueue c } := by
      simp only [Engine.enqueue, run_bind, Engine.run_store, expectRegistered, known, if_true]
      rfl
    have d' := d.record .trace fun _ => s!"{v} context @{a}"
    have queued : Describes w { e with scheduler := e.scheduler.enqueue c } (m.enqueue v a) := by
      refine { d' with ready := List.rel_append d'.ready (.cons ha .nil), registered := fun x hx => ?_ }
      rcases List.mem_append.mp hx with hx | hx
      · rcases List.mem_append.mp hx with hx | hx
        · exact d.registered x (List.mem_append_left _ hx)
        · exact List.mem_singleton.mp hx ▸ known
      · exact d.registered x (List.mem_append_right _ hx)
    refine Follows.congr (k := fun _ => k () (m.enqueue v a))
      (l := fun _ => l () { e with scheduler := e.scheduler.enqueue c }) ?_ rfl (by rw [run_bind, run])
    exact next _ _ queued .refl
  · refine .wild (u := e) ?_
    simp only [Engine.enqueue, run_bind, Engine.run_store, expectRegistered, known, if_false]

theorem wake (d : Describes w e m) {k : Unit → MachineM α} {l : Unit → EngineM β} {R : World → β → α → Prop}
    (ha : w.home c a) (next : ∀ e' m', Describes w e' m' → Keeps w e.store w e'.store → Drives w e' m' (k ()) (l ()) R) :
    Drives w e m (Machine.wake a >>= k) (Engine.enqueue c >>= l) R := enqueue d ha next

end Drives

end FiberMachine
