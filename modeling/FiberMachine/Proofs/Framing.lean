import FiberMachine.Proofs.Ideal.Ending
import FiberMachine.Proofs.Ideal.Framing
import FiberMachine.Proofs.Openings
import FiberMachine.Proofs.Origins
import FiberMachine.Proofs.Printed
import FiberMachine.Proofs.Selection

/-!
# What a step opens

The origin of a frame is noted when the frame is opened, once, in front of all others, and no other instruction notes one. So a step that
opens a frame notes the origin of that frame and of no other. Where the frame is can be read off the heap afterwards: it is
the innermost frame of a context, or the frame of the case on top of the operand stack.
-/

namespace FiberMachine.Machine

variable {α β : Type} {m m' : Machine} {c callee f pc slots argc target : Nat} {xs : List Addr} {i : Instruction} {o : Outcome}

/-- The origins of frames are the same. -/
def SameOrigins (m m' : Machine) : Prop := m'.origins = m.origins

instance : Tolerant SameOrigins where
  same _ _ origins _ := origins
  queue _ _ _ := rfl
  trans first next := Eq.trans next first

/-- An instruction that opens no frame notes no origin. -/
theorem sameOrigins_execute (plain : i.makesFrame = false) (run : Machine.execute c pc i m = .ok o m') : m'.origins = m.origins := by
  have same : m.SameOrigins (finalState (Machine.execute c pc i m)) :=
    Leaving.execute (fun _ _ => rfl) (fun makes => absurd (plain.symm.trans makes) Bool.false_ne_true) m
  rwa [run] at same

/-- If the action succeeds, it has noted origins as `Q` says of its answer. -/
def Noting (Q : α → FrameOrigins → Prop) (action : MachineM α) : Prop :=
  ∀ m a m', action m = .ok a m' → ∃ more, m'.origins = more ++ m.origins ∧ Q a more

namespace Noting

variable {P : β → FrameOrigins → Prop} {Q : α → FrameOrigins → Prop} {first : MachineM β} {k : β → MachineM α}

theorem pure {a : α} (q : Q a []) : Noting Q (pure a) := fun m _ _ run => by
  cases run
  exact ⟨[], rfl, q⟩

theorem abort {cause : MachineError} : Noting Q (Machine.abort cause : MachineM α) := fun _ _ _ run => by cases run

theorem bind (before : Noting P first) (next : ∀ b noted, P b noted → Noting (fun a more => Q a (more ++ noted)) (k b)) :
    Noting Q (first >>= k) := by
  intro m a m' run
  rw [run_bind] at run
  cases ran : first m with
  | error e m₁ => simp [ran] at run
  | ok b m₁ =>
    rw [ran] at run
    obtain ⟨noted, same, p⟩ := before _ _ _ ran
    obtain ⟨more, same', q⟩ := next b noted p _ _ _ run
    exact ⟨more ++ noted, by rw [same', same, List.append_assoc], q⟩

/-- Nothing is noted first. -/
theorem after (quiet : Leaving SameOrigins first) (next : ∀ b, Noting Q (k b)) : Noting Q (first >>= k) := by
  refine bind (P := fun _ noted => noted = []) (fun m b m' run => ⟨[], ?_, rfl⟩) fun b noted none => ?_
  · have same := quiet m
    rw [run] at same
    exact same
  · subst none
    simpa only [List.append_nil] using next b

theorem note {k : Unit → MachineM α} (next : Noting (fun a more => Q a (more ++ [(f, pc)])) (k ())) : Noting Q (noteOrigin f pc >>= k) :=
  bind (P := fun _ noted => noted = [(f, pc)]) (fun _ _ _ run => by cases run; exact ⟨_, rfl, rfl⟩) fun _ _ same => same ▸ next

/-! ### Opening frames -/

theorem openScope : Noting (fun frame noted => noted = [(frame, pc)]) (Machine.openScope c pc slots) :=
  after .protecting fun _ => after .onReader fun _ => after .onHeap fun _ => after .onHeap fun _ => note (pure rfl)

theorem openCase : Noting (fun frame noted => noted = [(frame, pc)]) (Machine.openCase c pc target) :=
  after .pop fun _ => after .onReader fun _ => after .protecting fun _ => after .onReader fun _ => after .protecting fun _ =>
    note (after .onHeap fun _ => after .push fun _ => pure rfl)

theorem layOut : Noting (fun p noted => noted = [p.2]) (Machine.layOut callee xs) := by
  refine after .onReader fun arity => ?_
  dsimp only
  split
  · exact bind (P := fun _ _ => False) abort fun _ _ no => no.elim
  · exact after .protecting fun _ => after .bindParameters fun _ => after .onReader fun _ => after .protecting fun _ =>
      after .onReader fun _ => note (pure rfl)

theorem enter : Noting (fun p noted => noted = [p]) (Machine.enter c pc callee xs) :=
  after .onReader fun _ => bind layOut fun _ _ noted => after .onHeap fun _ => after .onHeap fun _ => after .onHeap fun _ =>
    after .onReader fun _ => after .onHeap fun _ => pure noted

theorem openCall : Noting (fun p noted => noted = p.2.toList) (Machine.openCall c pc argc) := by
  refine after .popMany fun xs => after .pop fun callee => after .onReader fun t => ?_
  split
  · exact after .onReader fun _ => after .onReader fun _ => after .onReader fun _ => after .callMethod fun _ => pure rfl
  · exact bind enter fun _ _ noted => pure noted

theorem openContext : Noting (fun p noted => noted = [p]) (Machine.openContext c argc) :=
  after .popMany fun _ => after .pop fun _ => after .onReader fun _ => bind layOut fun _ _ noted => after .freshId fun _ =>
    after .onReader fun _ => after .onHeap fun _ => after .onHeap fun _ => after .onHeap fun _ => after .onHeap fun _ =>
    after .spawn fun _ => after .note fun _ => pure noted

end Noting

end FiberMachine.Machine

namespace FiberMachine

open Ideal

variable {α β : Type} {w w' w₁ w₂ : World} {s s' s₁ s₂ : Store} {h h' h₁ h₂ k : Heap} {c r q : Ref} {a b b' n pc depth : Nat} {e e' : Engine} {m m' : Machine}
  {i : Instruction} {o : Outcome}

/-- What corresponds to the last member. -/
theorem related_last {P : α → β → Prop} {xs : List α} {x : α} {l : List β} (related : List.Forall₂ P (xs ++ [x]) l) :
    ∃ ys y, l = ys ++ [y] ∧ P x y := by
  obtain ⟨ys, zs, rfl, _, last⟩ := related_append related
  obtain ⟨y, _, hy, rest, rfl⟩ := List.forall₂_cons_left_iff.mp last
  cases rest
  exact ⟨ys, y, rfl, hy⟩

/-! ### Reading the same heap -/

namespace Rep

/-- Without roots. -/
theorem bare (rep : Rep w s h) (same : h.SameArena k) (stats : k.stats = h.stats) (objects : s'.objects = s.objects) :
    Rep w { s' with contexts := [], temporaries := [] } { k with contexts := [], temporaries := #[] } :=
  rep.reroot ⟨same.memory, same.levels, same.freeLists⟩ objects .nil .nil stats

/-- The frames in the environment of a context. -/
theorem frames_eq {f : Fiber} {xs : List Ref} (rep : Rep w s h) (hc : w.home c a) (hf : s.objects[c]? = some (.context f))
    (env : s.objects[f.environment]? = some (.sequence .environment xs)) :
    ∃ b fs, Context.environment a h = .ok b ∧ Scope.frames b h = .ok fs ∧ List.Forall₂ w.home xs fs := by
  obtain ⟨b, read, hb⟩ := rep.environment_eq hc hf
  obtain ⟨fs, is, homes⟩ : ∃ fs, h.IsSeq b .environment fs ∧ List.Forall₂ w.home xs fs := rep.has hb env
  exact ⟨b, fs, read, is.toList_eq rep.tidy, homes⟩

end Rep

/-- The innermost frame of the context at `c` is at `f`. -/
def Heap.Innermost (h : Heap) (c f : Addr) : Prop :=
  ∃ env outer, Context.environment c h = .ok env ∧ Scope.frames env h = .ok (outer ++ [f])

/-- The operand on top of the stack of the context at `c` is at `g`. -/
def Heap.Tops (h : Heap) (c g : Addr) : Prop := ∃ below, Context.operands c h = .ok (below ++ [g])

theorem Heap.Innermost.unique {f f' : Addr} (first : h.Innermost a f) (second : h.Innermost a f') : f = f' := by
  obtain ⟨env, outer, read, frames⟩ := first
  obtain ⟨env', outer', read', frames'⟩ := second
  cases read.symm.trans read'
  exact List.singleton_inj.mp (List.append_inj' (Except.ok.inj (frames.symm.trans frames')) rfl).2

theorem Heap.Tops.unique {f f' : Addr} (first : h.Tops a f) (second : h.Tops a f') : f = f' := by
  obtain ⟨below, read⟩ := first
  obtain ⟨below', read'⟩ := second
  exact List.singleton_inj.mp (List.append_inj' (Except.ok.inj (read.symm.trans read')) rfl).2

/-- The operand on top of the stack of the context at `c` is a request whose frame is at `f`. -/
def Heap.Offers (h : Heap) (c f : Addr) : Prop := ∃ q, h.Tops c q ∧ Request.frameOf q h = .ok f

theorem Heap.Offers.unique {f f' : Addr} (first : h.Offers a f) (second : h.Offers a f') : f = f' := by
  obtain ⟨q, top, read⟩ := first
  obtain ⟨q', top', read'⟩ := second
  cases top.unique top'
  exact Except.ok.inj (read.symm.trans read')

namespace Rep

theorem innermost (rep : Rep w s h) (hc : w.home c a) (innermost : s.Innermost c r) : ∃ b, w.home r b ∧ h.Innermost a b := by
  obtain ⟨f, hf, xs, env⟩ := innermost
  obtain ⟨v, fs, read, frames, homes⟩ := rep.frames_eq hc hf env
  obtain ⟨outer, b, rfl, hb⟩ := related_last homes
  exact ⟨b, hb, v, outer, read, frames⟩

theorem tops (rep : Rep w s h) (hc : w.home c a) {below : List Ref} (operands : s.Operands c (below ++ [r])) : ∃ b, w.home r b ∧ h.Tops a b := by
  obtain ⟨f, hf, operands⟩ := operands
  obtain ⟨as, read, homes⟩ := rep.operands_eq hc hf
  rw [operands] at homes
  obtain ⟨low, b, rfl, hb⟩ := related_last homes
  exact ⟨b, hb, low, read⟩

theorem offers {p : Request} (rep : Rep w s h) (hc : w.home c a) {below : List Ref} (operands : s.Operands c (below ++ [q])) (hp : s.IsRequest q p) :
    ∃ b, w.home p.frame b ∧ h.Offers a b := by
  obtain ⟨v, hv, tops⟩ := rep.tops hc operands
  obtain ⟨b, read, hb⟩ := rep.frameOf_eq hv hp
  exact ⟨b, hb, v, tops, read⟩

/-- What is read off the same arena in two worlds is the same. -/
theorem meets {I : Store → Prop} {At : Heap → Addr → Prop} (rep₁ : Rep w₁ s₁ h₁) (rep₂ : Rep w₂ s₂ h₂) (same : h₁.SameArena h₂)
    (stats : h₂.stats = h₁.stats) (objects : s₂.objects = s₁.objects) (hc₁ : w₁.home c a) (hc₂ : w₂.home c a)
    (reads : ∀ {w s h}, Rep w s h → w.home c a → I s → ∃ b, w.home r b ∧ At h b)
    (unique : ∀ {h b b'}, At h b → At h b' → b = b') (given : ∀ {s}, s.objects = s₂.objects → I s) (hb : w₁.home r b) :
    w₂.home r b ∧ At h₂ b := by
  -- the roots of the two heaps may differ, but nothing that is read depends on them
  have bare₁ : Rep w₁ { s₂ with contexts := [], temporaries := [] } _ := rep₁.bare same stats objects
  have bare₂ : Rep w₂ { s₂ with contexts := [], temporaries := [] } _ := rep₂.bare (k := h₂) ⟨rfl, rfl, rfl⟩ rfl rfl
  obtain ⟨b₁, home₁, at₁⟩ := reads bare₁ hc₁ (given rfl)
  obtain ⟨b₂, home₂, at₂⟩ := reads bare₂ hc₂ (given rfl)
  obtain ⟨b₃, home₃, at₃⟩ := reads rep₂ hc₂ (given rfl)
  cases rep₁.single _ _ _ hb home₁
  cases rep₂.single _ _ _ home₃ home₂
  cases unique at₁ at₂
  exact ⟨home₂, at₃⟩

end Rep

/-! ### Running an action -/

/-- The instruction runs an action, and its outcome is that of the action. -/
theorem Machine.execute_ok {action : MachineM α} {g : α → Outcome} (runs : Machine.dispatch a pc i = action >>= fun x => pure (g x))
    (ran : Machine.execute a pc i m = .ok o m') :
    ∃ x m₁, action m = .ok x m₁ ∧ o = g x ∧ m' = m₁.releaseRoots m.heap.temporaries.size := by
  unfold Machine.execute at ran
  rw [runs, run_bind] at ran
  cases first : action m with
  | error failure m₁ => simp [first] at ran
  | ok x m₁ =>
    simp only [first, run_pure] at ran
    cases ran
    exact ⟨x, m₁, rfl, rfl, rfl⟩

theorem Ideal.Engine.execute_ok {z : Outcome × List Event} {action : EngineM β} {g : β → Outcome × List Event}
    (runs : Engine.dispatch depth c pc i = action >>= fun y => pure (g y)) (ran : Engine.execute depth c pc i e = .ok z e') :
    ∃ y e₁, action e = .ok y e₁ ∧ z = g y ∧ e' = e₁.releaseRoots e.store.temporaries.length := by
  unfold Engine.execute at ran
  rw [runs, run_bind] at ran
  cases first : action e with
  | error failure e₁ => simp [first] at ran
  | ok y e₁ =>
    simp only [first, run_pure] at ran
    cases ran
    exact ⟨y, e₁, rfl, rfl, rfl⟩

/-- Both have succeeded. -/
theorem Drives.succeeds {action : MachineM α} {action' : EngineM β} {Q : World → β → α → Prop} {x : α} {y : β}
    (f : Drives w e m action action' Q) (ran : action m = .ok x m') (run : action' e = .ok y e') :
    ∃ w', Describes w' e' m' ∧ Keeps w e.store w' e'.store ∧ Q w' y x := by
  unfold Drives Follows at f
  rw [ran, run] at f
  cases f with
  | ok w' rel keeps q => exact ⟨w', rel, keeps, q⟩


/-- What an action of an instruction has done: it has succeeded on both sides, and what is left of it is that. -/
structure Ran (w : World) (e : Engine) (m : Machine) (e' : Engine) (m' : Machine) (w₁ : World) (e₁ : Engine) (m₁ : Machine) : Prop where
  described : Describes w₁ e₁ m₁
  keeps : Keeps w e.store w₁ e₁.store
  origins : m'.origins = m₁.origins
  arena : m₁.heap.SameArena m'.heap
  stats : m'.heap.stats = m₁.heap.stats
  contexts : m'.heap.contexts = m₁.heap.contexts
  objects : e'.store.objects = e₁.store.objects
  registered : e'.store.contexts = e₁.store.contexts

/-- An instruction that runs one action and nothing else. -/
theorem Drives.runs {action : MachineM α} {action' : EngineM β} {Q : World → β → α → Prop} {R : β → Engine → Prop}
    {N : α → FrameOrigins → Prop} {g : α → Outcome} {l : β → Outcome × List Event} {z : Outcome × List Event}
    (f : Drives w e m action action' Q) (safe : Safe Any action' e R) (noting : Machine.Noting N action)
    (does : Machine.dispatch a pc i = action >>= fun x => pure (g x)) (does' : Engine.dispatch depth c pc i = action' >>= fun y => pure (l y))
    (ran : Machine.execute a pc i m = .ok o m') (run : Engine.execute depth c pc i e = .ok z e') :
    ∃ w₁ e₁ m₁ x y more, Ran w e m e' m' w₁ e₁ m₁ ∧ z = l y ∧ Q w₁ y x ∧ R y e₁ ∧ m'.origins = more ++ m.origins ∧ N x more := by
  obtain ⟨x, m₁, first, _, rfl⟩ := Machine.execute_ok does ran
  obtain ⟨y, e₁, first', same, rfl⟩ := Engine.execute_ok does' run
  obtain ⟨w₁, described, keeps, q⟩ := f.succeeds first first'
  obtain ⟨more, origins, noted⟩ := noting _ _ _ first
  exact ⟨w₁, e₁, m₁, x, y, more, ⟨described, keeps, rfl, ⟨rfl, rfl, rfl⟩, rfl, rfl, rfl, rfl⟩, same, q, safe.ok first', origins, noted⟩

/-! ### What is not forgotten -/

theorem Heap.Is.looksFramed (is : h.Is a .frame n) : h.looksFramed a = true := by
  obtain ⟨b, hb, rfl, free⟩ := is.allocated
  rw [Heap.ofHeader_of_mem_blocks hb] at free
  exact Heap.looksFramed_iff.mpr ⟨free, is.tag⟩

theorem lookup_filter {origins : FrameOrigins} {keeps : Addr → Bool} (kept : keeps a = true) :
    (origins.filter fun p => keeps p.1).lookup a = origins.lookup a := by
  induction origins with
  | nil => rfl
  | cons p rest ih =>
    obtain ⟨b, d⟩ := p
    by_cases same : a = b
    · subst same
      simp [kept]
    · have other : (a == b) = false := beq_false_of_ne same
      rw [List.lookup_cons, other, List.filter_cons]
      split
      · rw [List.lookup_cons, other]
        exact ih
      · exact ih

/-- The entry of a frame that is there is not forgotten. -/
theorem Machine.lookup_pruned (framed : m.heap.looksFramed a = true) : m.pruned.origins.lookup a = m.origins.lookup a := by
  unfold pruned
  split
  · rfl
  · exact lookup_filter framed

/-! ### Steps -/

/-- A step that executes an instruction, and what its course does. -/
structure Enacts (w : World) (t : Course) (x : Execution) (w' : World) (t' : Course) (x' : Execution) (c : Ref) (a : Addr) (f : Fiber)
    (i : Instruction) (m₁ m : Machine) (e : Engine) : Prop where
  sim : Sim w' t' x'
  abides : Abides w t.engine.store w' t'.engine.store
  home : w.home c a
  faces : x.Faces a f.pc i
  described : Describes w (t.fetchedEngine c f) m₁
  ran : ∃ o, Machine.execute a f.pc i m₁ = .ok o m
  executed : ∃ o events, Course.Executed (w.capacity + 1) t c f i o events e t'
  origins : m₁.origins = x.machine.origins
  spares : Execution.Spares { x.counted with machine := m.pruned } x'

variable {t t' : Course} {x x' : Execution} {m₁ : Machine} {f : Fiber} {log events : List Event} {done : StepOutcome}

/-- A step that executes an instruction. -/
theorem Stepped.enacts (stepped : Stepped w t x log (.executed a n) w' t' x' done events) (sim : Sim w t x) (steady : Steady log t)
    (own : x.SelectsOwn) : ∃ c f i m₁ m e, n = f.pc ∧ Enacts w t x w' t' x' c a f i m₁ m e := by
  have same := stepped.same
  obtain ⟨i, y, o, m, acted⟩ := Execution.step_acted stepped.ran
  rcases Course.step_executed steady (own.sane sim (w.capacity + 1)) stepped.run with ⟨rfl, _, _⟩ | ⟨c, f, j, o', e, rfl, executed⟩
  · cases same
  cases same with
  | executed home =>
    obtain ⟨b, hb, faces⟩ := sim.faces executed.turn ⟨f, executed.fiber, rfl⟩ executed.instruction
    cases sim.machine.rep.single _ _ _ home hb
    obtain ⟨m₁, fetched, described⟩ := sim.fetches home executed.fiber faces
    cases acted.fetched.symm.trans fetched
    exact ⟨c, f, i, m₁, m, e, rfl, stepped.sim, stepped.abides, home, faces, described, ⟨o, acted.executed⟩, ⟨_, _, executed⟩,
      (Execution.fetch_origins acted.fetched).1, acted.spares⟩

/-- Fetching an instruction changes no object but the context. -/
theorem Ideal.Course.fetched_others (t : Course) (c : Ref) (f : Fiber) : t.engine.store.OnlyAt c (t.fetchedStore c f) :=
  fun _ ne => List.getElem?_set_ne ne.symm

/-- The closure at `g` is below `argc` arguments on top of the operand stack of the context at `c`. -/
def Heap.Applies (h : Heap) (c g : Addr) (argc : Nat) : Prop :=
  ∃ below arguments, Context.operands c h = .ok (below ++ g :: arguments) ∧ arguments.length = argc ∧ Heap.tag g h = .ok .func

theorem Heap.Applies.unique {g g' argc : Nat} (first : h.Applies a g argc) (second : h.Applies a g' argc) : g = g' := by
  obtain ⟨below, arguments, read, length, -⟩ := first
  obtain ⟨below', arguments', read', length', -⟩ := second
  have same := (List.append_inj' (Except.ok.inj (read.symm.trans read')) (by simp [length, length'])).2
  exact (List.cons.inj same).1

/-- The frame `r` at `b` with `slots` slots has been opened, and it has been noted that its names come from the instruction at `d`. -/
structure Opened (t : Course) (x : Execution) (w' : World) (t' : Course) (m : Machine) (r : Ref) (b slots d : Nat) : Prop where
  opens : t.engine.store.Opens r slots t'.engine.store
  home : w'.home r b
  origins : m.origins = (b, d) :: x.machine.origins

/-- A context that goes on is still registered. -/
theorem Ran.registered_after {o : Outcome} (ran : Ran w (t.fetchedEngine c f) m₁ e m w₁ e' m') (executed : Course.Executed (w.capacity + 1) t c f i o events e t')
    (going : o ≠ .finish) : t'.engine.store.contexts = e'.store.contexts := by
  rw [executed.contexts, if_neg going]
  exact ran.registered

namespace Enacts

variable (en : Enacts w t x w' t' x' c a f i m₁ m e)
include en

theorem arena : m.heap.SameArena x'.machine.heap := by
  have same := en.spares.arena
  rwa [show ({ x.counted with machine := m.pruned } : Execution).machine.heap = m.heap from m.pruned_heap] at same

theorem stats : x'.machine.heap.stats = m.heap.stats := by
  have same := en.spares.stats
  rwa [show ({ x.counted with machine := m.pruned } : Execution).machine.heap = m.heap from m.pruned_heap] at same

theorem objects : t'.engine.store.objects = e.store.objects := by
  obtain ⟨_, _, executed⟩ := en.executed
  exact executed.objects

/-- The context whose instruction it is stays where it is unless it ends. -/
theorem stays (sim : Sim w t x) {o : Outcome} (executed : Course.Executed (w.capacity + 1) t c f i o events e t') (going : o ≠ .finish) :
    w'.home c a :=
  en.sim.home_of_marks (executed.stays executed.running.registered fun _ => going)
    ((sim.machine.rep.marks en.home).keep sim.machine.rep en.sim.machine.rep en.abides)

theorem fetched : (t.fetchedStore c f).objects[c]? = some (.context { f with pc := wrap (f.pc + 1) }) := by
  obtain ⟨_, _, executed⟩ := en.executed
  exact Store.context_set executed.fiber _

theorem opens {slots : Nat} (opens : (t.fetchedStore c f).Opens r slots e.store) : t.engine.store.Opens r slots t'.engine.store :=
  (opens.before (fun _ => (t.fetched_others c f).isNamed ⟨_, en.fetched, rfl⟩) (Nat.le_of_eq List.length_set.symm)).reroot en.objects

theorem operands {xs : List Ref} (operands : (t.fetchedStore c f).Operands c xs) : t.engine.store.Operands c xs := by
  obtain ⟨_, _, executed⟩ := en.executed
  obtain ⟨g, hg, rfl⟩ := operands
  cases hg.symm.trans en.fetched
  exact ⟨f, executed.fiber, rfl⟩

/-- A program counter fits into a word. -/
theorem wrap_pc (sim : Sim w t x) : wrap f.pc = f.pc := by
  obtain ⟨_, _, executed⟩ := en.executed
  have has : w.HasFiber x.machine.heap c a f := sim.machine.rep.has en.home executed.fiber
  exact Nat.mod_eq_of_lt (has.pc ▸ UInt64.toNat_lt _)

theorem held : Held w (t.fetchedEngine c f).store c a := by
  obtain ⟨_, _, executed⟩ := en.executed
  exact .contexts en.home executed.running.registered

/-- What is read off the heap afterwards is what the action has made. -/
theorem finds {I : Store → Prop} {At : Heap → Addr → Prop} {d : Ref} (ran : Ran w (t.fetchedEngine c f) m₁ e m w₁ e' m') (hd : w₁.home d n)
    (hd' : w'.home d n) (reads : ∀ {w s h}, Rep w s h → w.home d n → I s → ∃ b, w.home r b ∧ At h b)
    (unique : ∀ {h b b'}, At h b → At h b' → b = b') (given : ∀ {s}, s.objects = e'.store.objects → I s) (hb : w₁.home r b) :
    w'.home r b ∧ At x'.machine.heap b := by
  have objects := en.objects.trans ran.objects
  exact ran.described.rep.meets en.sim.machine.rep (ran.arena.trans en.arena) (en.stats.trans ran.stats) objects hd hd' reads unique
    (fun same => given (same.trans objects)) hb

/-- A scope is entered. -/
theorem scope {names : List String} (sim : Sim w t x) (is : i = .enterScope names) :
    ∃ r b, Opened t x w' t' m r b names.length f.pc ∧ x'.machine.heap.Innermost a b := by
  subst is
  obtain ⟨o, machine⟩ := en.ran
  obtain ⟨o', events, executed⟩ := en.executed
  obtain ⟨w₁, e₁, m₂, b, r, more, ran, same, hb, ⟨opens, innermost⟩, origins, rfl⟩ :=
    Drives.runs (g := fun _ => .proceed) (l := fun _ => (.proceed, [])) (.openScope en.described en.held f.pc names.length)
      Engine.openScope_opens Machine.Noting.openScope (by simp [Machine.dispatch, Machine.proceeding, Machine.execEnterScope_eq])
      (by simp [Engine.dispatch, Engine.proceeding, Engine.quietly, Engine.execEnterScope_eq]) machine executed.run
  cases same
  have hc := (en.held.keep ran.keeps).home
  have hc' := en.stays sim executed (by decide : Outcome.proceed ≠ .finish)
  obtain ⟨home, at_⟩ := en.finds ran hc hc' (fun rep hc => rep.innermost hc) Heap.Innermost.unique (fun same => innermost.reroot same) hb
  exact ⟨r, b, ⟨en.opens (opens.reroot ran.objects), home, origins.trans (en.origins ▸ rfl)⟩, at_⟩

/-- A case of a select is made that receives. -/
theorem offer {target : Nat} {name : String} (sim : Sim w t x) (is : i = .selectRecv target name) :
    ∃ r b, Opened t x w' t' m r b 1 f.pc ∧ x'.machine.heap.Offers a b := by
  subst is
  obtain ⟨o, machine⟩ := en.ran
  obtain ⟨o', events, executed⟩ := en.executed
  obtain ⟨w₁, e₁, m₂, b, r, more, ran, same, hb, ⟨opens, below, q, p, operands, hp, frame⟩, origins, rfl⟩ :=
    Drives.runs (g := fun _ => .proceed) (l := fun _ => (.proceed, [])) (.openCase en.described en.held f.pc target)
      Engine.openCase_opens Machine.Noting.openCase (by simp [Machine.dispatch, Machine.proceeding, Machine.execSelectRecv_eq])
      (by simp [Engine.dispatch, Engine.proceeding, Engine.quietly, Engine.execSelectRecv_eq]) machine executed.run
  cases same
  subst frame
  have hc := (en.held.keep ran.keeps).home
  have hc' := en.stays sim executed (by decide : Outcome.proceed ≠ .finish)
  obtain ⟨home, at_⟩ := en.finds ran hc hc' (I := fun s => s.Operands c (below ++ [q]) ∧ s.IsRequest q p)
    (fun rep hc found => rep.offers hc found.1 found.2) Heap.Offers.unique
    (fun same => ⟨by rwa [Store.Operands, same], by rwa [Store.IsRequest, same]⟩) hb
  exact ⟨p.frame, b, ⟨en.opens (opens.reroot ran.objects), home, origins.trans (en.origins ▸ rfl)⟩, at_⟩

/-- Fetching leaves alone what is not a context. -/
theorem unfetched {v : Obj} (hv : (t.fetchedStore c f).objects[r]? = some v) (other : v.tag ≠ .context) : t.engine.store.objects[r]? = some v := by
  refine (t.fetched_others c f r ?_).symm.trans hv
  rintro rfl
  cases hv.symm.trans en.fetched
  exact other rfl

/-- What is called, below its arguments. -/
theorem below {rest xs : List Ref} (sim : Sim w t x) (operands : (t.fetchedStore c f).Operands c (rest ++ r :: xs)) :
    ∃ low g arguments, Context.operands a x.machine.heap = .ok (low ++ g :: arguments) ∧ arguments.length = xs.length ∧ w.home r g := by
  obtain ⟨low, high, read, taken⟩ := sim.machine.rep.taken en.home (en.operands operands)
  obtain ⟨g, arguments, hg, homes, rfl⟩ := List.forall₂_cons_left_iff.mp taken
  exact ⟨low, g, arguments, read, homes.length_eq.symm, hg⟩

/-- The closure that is called has been there before. -/
theorem callee {argc : Nat} {p : Ref × Nat} (sim : Sim w t x) (calls : Engine.Calls (t.fetchedStore c f) c argc p s') :
    ∃ r g k, w.home r g ∧ t.engine.store.objects[r]? = some (.func k) ∧ k.arity = argc ∧ p.2 = k.declaration ∧
      x.machine.heap.Applies a g argc := by
  obtain ⟨rest, r, xs, operands, length, laid⟩ := calls
  obtain ⟨k, hk, arity, declaration⟩ := laid.callee
  have before := en.unfetched hk (by simp [Obj.tag])
  obtain ⟨low, g, arguments, read, same, hg⟩ := en.below sim operands
  exact ⟨r, g, k, hg, before, arity, declaration, low, arguments, read, same.trans length, sim.machine.rep.tag_eq hg before⟩

/-- No function is called when a method is. -/
theorem uncalled {rest xs : List Ref} (sim : Sim w t x) (operands : (t.fetchedStore c f).Operands c (rest ++ r :: xs))
    (method : (t.fetchedStore c f).IsTag r .method) (g : Addr) : ¬x.machine.heap.Applies a g xs.length := by
  rintro ⟨low, arguments, read, length, func⟩
  obtain ⟨v, hv, tagged⟩ := method
  obtain ⟨low', g', arguments', read', length', hg⟩ := en.below sim operands
  have split := (List.append_inj' (Except.ok.inj (read.symm.trans read')) (by simp [length, length'])).2
  cases split
  have tag := sim.machine.rep.tag_eq hg (en.unfetched hv (tagged ▸ by decide))
  rw [tagged, func] at tag
  cases tag

/-- The context that is registered last is where the action has put it. -/
theorem last_context {cs : List Ref} {d : Ref} (ran : Ran w (t.fetchedEngine c f) m₁ e m w₁ e' m') (split : e'.store.contexts = cs ++ [d])
    (going : t'.engine.store.contexts = e'.store.contexts) :
    ∃ ds v, x'.machine.heap.contexts = ds ++ [v] ∧ w₁.home d v ∧ w'.home d v := by
  have homes := ran.described.rep.contexts
  have homes' := en.sim.machine.rep.contexts
  -- settling the turn can only take contexts away, and their number has not changed
  have all : x'.machine.heap.contexts = m'.heap.contexts := by
    have fewer := en.spares.contexts
    rw [show ({ x.counted with machine := m.pruned } : Execution).machine.heap = m.heap from m.pruned_heap, ran.contexts] at fewer
    exact fewer.eq_of_length (by rw [← homes'.length_eq, going, homes.length_eq])
  rw [split] at homes
  rw [going, split, all] at homes'
  obtain ⟨ds, v, same, hv⟩ := related_last homes
  obtain ⟨ds', v', same', hv'⟩ := related_last homes'
  cases (List.append_inj' (same.symm.trans same') rfl).2
  exact ⟨ds, v, all.trans same, hv, hv'⟩

/-- A function is called, or a method, for which no frame is opened. -/
theorem call {argc : Nat} (sim : Sim w t x) (is : i = .call argc) :
    (∃ r b q g k, Opened t x w' t' m r b argc k.declaration ∧ x'.machine.heap.Innermost a b ∧ w.home q g ∧
      t.engine.store.objects[q]? = some (.func k) ∧ k.arity = argc ∧ x.machine.heap.Applies a g argc) ∨
    m.origins = x.machine.origins ∧ (∀ r, t'.engine.store.IsNamed r → r < t.engine.store.objects.length) ∧
      ∀ g, ¬x.machine.heap.Applies a g argc := by
  subst is
  obtain ⟨o, machine⟩ := en.ran
  obtain ⟨o', events, executed⟩ := en.executed
  obtain ⟨w₁, e₁, m₂, ⟨o₁, p⟩, ⟨o₂, p'⟩, more, ran, same, ⟨_, hp⟩, opens, origins, rfl⟩ :=
    Drives.runs (g := Prod.fst) (l := fun p => (p.1, [])) (.openCall en.described en.held (f.pc + 1) argc)
      (Engine.openCall_opens executed.turning) Machine.Noting.openCall (by simp [Machine.dispatch, Machine.execCall_eq])
      (by simp [Engine.dispatch, Engine.quietly, Engine.execCall_eq]) machine executed.run
  cases same
  obtain ⟨none, ⟨rest, r, xs, operands, length, method⟩, fewer⟩ | ⟨⟨r, d⟩, begun, calls, innermost⟩ := opens
  · refine .inr ⟨?_, fun r named => ?_, fun g => ?_⟩
    · cases none
      cases hp with
      | none => exact origins.trans en.origins
    · refine Nat.lt_of_lt_of_le named.lt ?_
      rw [en.objects, ran.objects]
      exact fewer.trans (Nat.le_of_eq List.length_set)
    · exact length ▸ en.uncalled sim operands method g
  · cases begun
    cases hp with
    | @some _ p hp =>
      obtain ⟨b, d'⟩ := p
      obtain ⟨hb, same⟩ : w₁.home r b ∧ d = d' := hp
      subst same
      obtain ⟨q, g, k, hg, hk, arity, declaration, applies⟩ := en.callee sim calls
      cases declaration
      have hc := (en.held.keep ran.keeps).home
      have hc' := en.stays sim executed (by decide : Outcome.proceed ≠ .finish)
      obtain ⟨home, at_⟩ := en.finds ran hc hc' (fun rep hc => rep.innermost hc) Heap.Innermost.unique (fun same => innermost.reroot same) hb
      obtain ⟨_, _, _, _, _, laid⟩ := calls
      exact .inl ⟨r, b, q, g, k, ⟨en.opens (laid.opens.reroot ran.objects), home, origins.trans (en.origins ▸ rfl)⟩, at_, hg, hk, arity, applies⟩

/-- A function is called in a context of its own. -/
theorem go {argc : Nat} (sim : Sim w t x) (is : i = .go argc) :
    ∃ r b q g k, Opened t x w' t' m r b argc k.declaration ∧
      (∃ d ds, x'.machine.heap.contexts = ds ++ [d] ∧ x'.machine.heap.Innermost d b) ∧ w.home q g ∧
      t.engine.store.objects[q]? = some (.func k) ∧ k.arity = argc ∧ x.machine.heap.Applies a g argc := by
  subst is
  obtain ⟨o, machine⟩ := en.ran
  obtain ⟨o', events, executed⟩ := en.executed
  obtain ⟨w₁, e₁, m₂, ⟨b, d'⟩, ⟨r, d⟩, more, ran, same, ⟨hb, same'⟩, ⟨calls, child, cs, registered, innermost⟩, origins, rfl⟩ :=
    Drives.runs (g := fun _ => .proceed) (l := fun _ => (.proceed, [])) (.openContext en.described en.held argc)
      (Engine.openContext_opens executed.turning) Machine.Noting.openContext (by simp [Machine.dispatch, Machine.proceeding, Machine.execGo_eq])
      (by simp [Engine.dispatch, Engine.proceeding, Engine.quietly, Engine.execGo_eq]) machine executed.run
  cases same
  obtain rfl : d = d' := same'
  obtain ⟨q, g, k, hg, hk, arity, declaration, applies⟩ := en.callee sim calls
  cases declaration
  obtain ⟨ds, v, last, hd, hd'⟩ := en.last_context ran registered (ran.registered_after executed (by decide : Outcome.proceed ≠ .finish))
  obtain ⟨home, at_⟩ := en.finds ran hd hd' (fun rep hd => rep.innermost hd) Heap.Innermost.unique (fun same => innermost.reroot same) hb
  obtain ⟨_, _, _, _, _, laid⟩ := calls
  exact ⟨r, b, q, g, k, ⟨en.opens (laid.opens.reroot ran.objects), home, origins.trans (en.origins ▸ rfl)⟩, ⟨v, ds, last, at_⟩, hg, hk, arity,
    applies⟩

/-- A closure is built. -/
theorem build {entry : Nat} {params : List String} (sim : Sim w t x) (is : i = .loadFunc entry params) :
    ∃ r b k, t.engine.store.Brings r t'.engine.store ∧ w'.home r b ∧ x'.machine.heap.Tops a b ∧ t'.engine.store.objects[r]? = some (.func k) ∧
      k.declaration = wrap f.pc ∧ k.arity = wrap params.length := by
  subst is
  obtain ⟨o, machine⟩ := en.ran
  obtain ⟨o', events, executed⟩ := en.executed
  obtain ⟨_, e₁, first, same, rfl⟩ := Engine.execute_ok (g := fun _ => (.proceed, []))
    (by simp [Engine.dispatch, Engine.proceeding, Engine.quietly] : Engine.dispatch _ c f.pc (.loadFunc entry params) =
      Engine.execLoadFunc c f.pc entry params.length >>= fun _ => pure (.proceed, [])) executed.run
  cases same
  obtain ⟨r, k, below, brings, operands, hk, declaration, arity⟩ := Engine.execLoadFunc_brings.ok first
  have objects : t'.engine.store.objects = e₁.store.objects := en.objects
  have operands' : t'.engine.store.Operands c (below ++ [r]) := by rwa [Store.Operands, objects]
  obtain ⟨b, hb, tops⟩ := en.sim.machine.rep.tops (en.stays sim executed (by decide : Outcome.proceed ≠ .finish)) operands'
  refine ⟨r, b, k, ⟨?_, fun q named => ?_⟩, hb, tops, objects ▸ hk, declaration, arity⟩
  · exact Nat.le_trans (Nat.le_of_eq List.length_set.symm) brings.new
  · refine (brings.only q (named.reroot objects.symm)).imp_left ((t.fetched_others c f).isNamed ⟨_, en.fetched, rfl⟩)

/-- Other instructions make neither frames nor closures. -/
theorem old (plain : i.makesNamed = false) (named : t'.engine.store.IsNamed r) : r < t.engine.store.objects.length := by
  obtain ⟨o', events, executed⟩ := en.executed
  have made := (Engine.execute_safe (Q := fun _ e' => ∀ x, e'.store.IsNamed x → x < (t.fetchedStore c f).objects.length)
    ((Engine.dispatch_named executed.turning plain).weaken fun _ _ named x made => named x (made.reroot rfl))).ok executed.run
  exact Nat.lt_of_lt_of_eq (made r (named.reroot en.objects.symm)) List.length_set

/-- Nothing is noted when no frame is opened. -/
theorem unnoted (plain : i.makesFrame = false) : m.origins = x.machine.origins := by
  obtain ⟨o, machine⟩ := en.ran
  exact (Machine.sameOrigins_execute plain machine).trans en.origins

/-- What is known of a frame is not forgotten. -/
theorem lookup {slots : Nat} (home : w'.home r b) (frame : t'.engine.store.Sized r .frame slots) :
    x'.machine.origins.lookup b = m.origins.lookup b := by
  obtain ⟨xs, ho, _⟩ := frame
  obtain ⟨k, is⟩ := (en.sim.machine.rep.has home ho).tag
  have framed : m.heap.looksFramed b = true := en.arena.looksFramed.symm.trans is.looksFramed
  rw [en.spares.origins]
  exact Machine.lookup_pruned framed

end Enacts

end FiberMachine
