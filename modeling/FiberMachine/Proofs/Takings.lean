import FiberMachine.Proofs.Limits
import FiberMachine.Proofs.Methods

/-!
# Taking operands

Before a method is called the program counter moves on, and the arguments and the receiver are taken off the operand stack. None of
this needs memory, so it succeeds, and it changes nothing but the context.
-/

namespace FiberMachine

open Ideal Heap

variable {w : World} {s : Store} {h : Heap} {c v : Ref} {a b : Addr} {m : Machine} {f : Fiber} {xs rest above : List Ref} {bs : List Addr}

/-- Both succeed, so what they come to is related. -/
theorem Follows.ran {τ σ ε α β : Type} {lv : Level τ σ ε} {t t' : τ} {c c' : σ} {m : EStateM (Failure ε) σ α} {n : EStateM Lapse τ β}
    {Q : World → β → α → Prop} {a : α} {b : β} (follows : Follows lv w t c m n Q) (run : m c = .ok a c') (run' : n t = .ok b t') :
    ∃ w', lv.rel w' t' c' ∧ Keeps w (lv.store t) w' (lv.store t') ∧ Q w' b a := by
  unfold Follows at follows
  rw [run, run'] at follows
  cases follows with
  | ok w' rel keeps q => exact ⟨w', rel, keeps, q⟩

theorem Heap.expectListable_run {n : Nat} (listable : n * 8 < hostLimit) : Heap.expectListable n h = .ok () := by
  rw [Heap.expectListable, Heap.expectRoom, if_pos listable]
  rfl

/-- The store when the context has only the operands `rest` left, and others are protected. -/
def Ideal.Store.taken (s : Store) (c : Ref) (f : Fiber) (rest vs : List Ref) : Store :=
  { s.set c (.context { f with operands := rest }) with temporaries := s.temporaries ++ vs }

theorem Ideal.Store.taken_fiber (hf : s.objects[c]? = some (.context f)) :
    (s.taken c f rest xs).objects[c]? = some (.context { f with operands := rest }) := Store.context_set hf _

/-- Everything else stays. -/
theorem Ideal.Store.taken_others {q : Ref} {o : Obj} (hf : s.objects[c]? = some (.context f)) (other : o.tag ≠ .context)
    (ho : s.objects[q]? = some o) : (s.taken c f rest xs).objects[q]? = some o := by
  refine (List.getElem?_set_ne ?_).trans ho
  rintro rfl
  cases hf.symm.trans ho
  exact other rfl

/-- Taking operands moves nothing. -/
theorem Keeps.taken : Keeps w s w (s.taken c f rest xs) :=
  ⟨rfl, rfl, Nat.le_of_eq List.length_set.symm, fun _ _ ha _ => ha, fun _ _ => rfl, List.prefix_rfl, List.prefix_append _ _, fun _ _ _ ha => ha⟩

/-- Taking operands is calm. -/
theorem Ideal.Calm.taken (typed : s.Typed) (running : s.Running c) (hf : s.objects[c]? = some (.context f)) (operands : f.operands = rest ++ xs)
    (above : List Ref) : Calm s (s.taken c f rest above) := by
  obtain ⟨g, hg, env, known, returns⟩ := typed.fiber (typed.contexts c running.registered)
  cases Option.some.inj (hg.symm.trans hf)
  have idle := running.idle.not_blocked hf
  have below : ∀ x ∈ rest, s.Known x := fun x hx => known x (operands ▸ List.mem_append_left _ hx)
  have updated : Quiet True (update c fun f => { f with operands := rest }) s fun _ s' => s' = s.set c (.context { f with operands := rest }) :=
    Quiet.update typed hf rfl ⟨env, below, returns⟩ (by simp only [Obj.wiring, idle])
  have calm := (Safe.ok updated (update_run hf)).1
  exact ⟨calm.typed.reroot rfl calm.typed.contexts, calm.grows, calm.wiring, calm.contexts⟩

namespace Rep

/-- The program counter of a context can be set. -/
theorem sets (rep : Rep w s h) (hc : w.home c a) (hf : s.objects[c]? = some (.context f)) (pc : Nat) :
    ∃ h', Context.setPc a pc h = .ok () h' ∧ Rep w (s.set c (.context { f with pc := wrap pc })) h' := by
  have has : w.HasFiber h c a f := rep.has hc hf
  obtain ⟨h', run, _⟩ := rep.tidy.write (w := UInt64.ofNat pc) has.is (π := [1, 2, 3, 5]) rfl (i := Context.pcField) (by decide)
    fun no => absurd no (by decide)
  have ideal : Ideal.setPc c pc s = .ok () (s.set c (.context { f with pc := wrap pc })) := by
    simp only [Ideal.setPc, Ideal.update, Ideal.fiber, run_bind, Ideal.look, hf]
    rfl
  obtain ⟨_, rep', _, rfl⟩ := (Tracks.setPc rep hc pc).ran run ideal
  exact ⟨h', run, rep'⟩

/-- The top operand of a context can be taken. -/
theorem pops (rep : Rep w s h) (hc : w.home c a) (hf : s.objects[c]? = some (.context f)) (operands : f.operands = rest ++ [v]) :
    ∃ b h', Context.popOperand a h = .ok b h' ∧ w.home v b ∧ Rep w (s.set c (.context { f with operands := rest })) h' := by
  have has : w.HasFiber h c a f := rep.has hc hf
  obtain ⟨d, as, is, _, _, homes, _⟩ := has.operands
  rw [operands] at homes
  obtain ⟨low, top, rfl, _, last⟩ := related_append homes
  obtain ⟨b, rfl⟩ : ∃ b, top = [b] := List.length_eq_one_iff.mp last.length_eq.symm
  obtain ⟨h', popped, _⟩ := is.pop rep.tidy
  have run : Context.popOperand a h = .ok b h' := by
    simp only [Context.popOperand, run_bind, HeapM.run_lift, rep.operandStack has]
    exact popped
  have ideal : Ideal.popOperand c s = .ok v (s.set c (.context { f with operands := rest })) := by
    simp only [Ideal.popOperand, Ideal.fiber, run_bind, Ideal.look, hf, Option.bind, Obj.fiber?, operands, List.getLast?_append,
      List.getLast?_singleton, Option.some_or, List.dropLast_concat]
    rfl
  obtain ⟨_, rep', _, rfl, hv⟩ := (Tracks.popOperand rep hc).ran run ideal
  exact ⟨b, h', run, hv, rep'⟩

/-- The top operand of a context is taken. -/
theorem takes (rep : Rep w s m.heap) (hc : w.home c a) (hf : s.objects[c]? = some (.context f)) (operands : f.operands = rest ++ [v]) :
    ∃ b h', Machine.pop a m = .ok b { m with heap := h' } ∧ w.home v b ∧ Rep w (s.taken c f rest [v]) h' := by
  obtain ⟨b, h₁, popped, hv, rep₁⟩ := rep.pops hc hf operands
  obtain ⟨_, rep₂, _, rfl⟩ := (Tracks.pushRoot rep₁ hv).ran rfl rfl
  refine ⟨b, _, ?_, hv, rep₂⟩
  simp only [Machine.pop, run_bind, Machine.run_heap, popped]
  rfl

/-- The top operands of a context are taken. -/
theorem takesOnto (rep : Rep w s m.heap) (hc : w.home c a) (hf : s.objects[c]? = some (.context f)) (operands : f.operands = rest ++ xs)
    (above : List Addr) : ∃ bs h', Machine.popOnto a above xs.length m = .ok (bs ++ above) { m with heap := h' } ∧
      List.Forall₂ w.home xs bs ∧ Rep w (s.taken c f rest xs.reverse) h' := by
  induction xs using List.reverseRecOn generalizing s f m above with
  | nil =>
    have same : s.taken c f rest [] = s := by
      rw [List.append_nil] at operands
      subst operands
      rw [Store.taken, Store.set_same hf, List.append_nil]
    exact ⟨[], m.heap, rfl, .nil, by rwa [List.reverse_nil, same]⟩
  | append_singleton xs v ih =>
    obtain ⟨b, h₁, first, hv, rep₁⟩ := rep.takes hc hf (operands.trans (List.append_assoc rest xs [v]).symm)
    obtain ⟨bs, h₂, others, homes, rep₂⟩ := ih (m := { m with heap := h₁ }) rep₁ (Store.taken_fiber hf) rfl (b :: above)
    refine ⟨bs ++ [b], h₂, ?_, List.rel_append homes (.cons hv .nil), ?_⟩
    · rw [List.length_append, List.length_singleton, Machine.popOnto, run_bind, first, List.append_assoc]
      exact others
    · rw [List.reverse_append]
      simpa [Store.taken, Store.set] using rep₂

/-- The arguments of an instruction are taken. -/
theorem takesMany (rep : Rep w s m.heap) (hc : w.home c a) (hf : s.objects[c]? = some (.context f)) (operands : f.operands = rest ++ xs) :
    ∃ bs h', Machine.popMany a xs.length m = .ok bs { m with heap := h' } ∧ List.Forall₂ w.home xs bs ∧
      Rep w (s.taken c f rest xs.reverse) h' := by
  have has : w.HasFiber m.heap c a f := rep.has hc hf
  obtain ⟨d, as, is, _, _, homes, _⟩ := has.operands
  have listable : xs.length * 8 < hostLimit := by
    have all := is.listable rep.tidy
    rw [← homes.length_eq, operands, List.length_append] at all
    omega
  obtain ⟨bs, h', taken, homes', rep'⟩ := rep.takesOnto hc hf operands []
  refine ⟨bs, h', ?_, homes', rep'⟩
  rw [Machine.popMany, run_bind, Machine.run_reader, Heap.expectListable_run listable]
  exact List.append_nil bs ▸ taken

end Rep

/-! ### A counter would fall below zero -/

variable {g : Ref} {i : Instruction} {method : String} {as : List Addr} {n delta : Int64} {k : Word} {l : List Ref}

/-- Nothing changes if a counter would fall below zero. -/
theorem Machine.callMethod_negative (isGroup : Heap.tag a m.heap = .ok .waitGroup) (asks : m.heap.Asks method as delta)
    (counter : WaitGroup.counter a m.heap = .ok n) (negative : n.toInt + delta.toInt < 0) :
    Machine.callMethod b a method as m = .error (.error (.heap .negativeCounter)) m := by
  have refused : WaitGroup.add a delta m.heap = .error (.error .negativeCounter) m.heap := by
    simp only [WaitGroup.add, run_bind, HeapM.run_lift, counter, if_pos negative]
    rfl
  have added : (liftM (WaitGroup.add a delta) : MachineM (List Addr)) m = .error (.error (.heap .negativeCounter)) m := by
    rw [Machine.run_heap, refused]
    rfl
  cases asks with
  | @add v _ isInt value =>
    have expected : Machine.expectArguments [v] 1 m = .ok () m := rfl
    have argument : Scalar.expectInt v m.heap = .ok delta := by
      simp only [Scalar.expectInt, Heap.expect, HeapReader.run_bind, isInt, HeapReader.run_ite, HeapReader.run_pure, value]
      rfl
    simp only [Machine.callMethod, run_bind, Machine.run_reader, isGroup, expected, List.headD_cons, argument, added]
  | done =>
    have expected : Machine.expectArguments [] 0 m = .ok () m := rfl
    simp only [Machine.callMethod, run_bind, Machine.run_reader, isGroup, expected, WaitGroup.done, added]

/-- What a method adds is known from what is not a context. -/
theorem Ideal.Store.Asks.mono {s' : Store} (stays : ∀ (r : Ref) (o : Obj), o.tag ≠ .context → s.objects[r]? = some o → s'.objects[r]? = some o)
    (asks : s.Asks method xs delta) : s'.Asks method xs delta := by
  cases asks with
  | add hv => exact .add (stays _ _ (by simp [Obj.tag]) hv)
  | done => exact .done

/-- A method that would take a counter below zero fails, and the wait group is what it was. -/
theorem Rep.refuses (rep : Rep w s m.heap) (hc : w.home c a) (hf : s.objects[c]? = some (.context f)) (invokes : s.Invokes c i g method xs)
    (asks : s.Asks method xs delta) (ho : s.objects[g]? = some (.waitGroup k l)) (negative : k.toInt64.toInt + delta.toInt < 0) (pc : Nat) :
    ∃ h' s', Machine.dispatch a pc i m = .error (.error (.heap .negativeCounter)) { m with heap := h' } ∧ Rep w s' h' ∧
      s'.objects[g]? = some (.waitGroup k l) := by
  have isContext : s.IsTag c .context := ⟨_, hf, rfl⟩
  -- the arguments and what is below them are taken off the stack
  have taken {r : Ref} {rest : List Ref} (operands : s.Operands c (rest ++ r :: xs)) : ∃ bs h₁ b h₂ s₂,
      Machine.popMany a xs.length m = .ok bs { m with heap := h₁ } ∧
      Machine.pop a { m with heap := h₁ } = .ok b { m with heap := h₂ } ∧ w.home r b ∧ List.Forall₂ w.home xs bs ∧
      Rep w s₂ h₂ ∧ ∀ (q : Ref) (o : Obj), o.tag ≠ .context → s.objects[q]? = some o → s₂.objects[q]? = some o := by
    obtain ⟨f', hf', same⟩ := operands
    cases hf.symm.trans hf'
    obtain ⟨bs, h₁, others, homes, rep₁⟩ := rep.takesMany hc hf (same.trans (List.append_cons rest r xs))
    obtain ⟨b, h₂, top, hr, rep₂⟩ := takes (m := { m with heap := h₁ }) rep₁ hc (Store.taken_fiber hf) rfl
    exact ⟨bs, h₁, b, h₂, _, others, top, hr, homes, rep₂, fun q o other hq =>
      Store.taken_others (Store.taken_fiber hf) other (Store.taken_others hf other hq)⟩
  -- the method looks at the counter
  have calls {m' : Machine} {s' : Store} {b : Addr} {bs : List Addr} (rep' : Rep w s' m'.heap) (hg : w.home g b)
      (homes : List.Forall₂ w.home xs bs)
      (stays : ∀ (q : Ref) (o : Obj), o.tag ≠ .context → s.objects[q]? = some o → s'.objects[q]? = some o) :
      Machine.callMethod a b method bs m' = .error (.error (.heap .negativeCounter)) m' := by
    have ho' := stays _ _ (by simp [Obj.tag]) ho
    obtain ⟨n, counter, rfl⟩ := (Reads.counter rep' hg).answer (b := (k, l)) (by simp only [Ideal.group, Ideal.look, ho']; rfl)
    exact Machine.callMethod_negative (rep'.tag_eq hg ho') (rep'.asks homes (asks.mono stays)) counter negative
  cases invokes with
  | direct operands =>
    obtain ⟨bs, h₁, b, h₂, s₂, arguments, receiver, hg, homes, rep₂, stays⟩ := taken operands
    refine ⟨h₂, s₂, ?_, rep₂, stays _ _ (by simp [Obj.tag]) ho⟩
    simp only [Machine.dispatch, Machine.execCallMethod, run_bind, arguments, receiver]
    exact calls rep₂ hg homes stays
  | bound operands binds =>
    obtain ⟨bs, h₁, b, h₂, s₂, arguments, callee, hm, homes, rep₂, stays⟩ := taken operands
    refine ⟨h₂, s₂, ?_, rep₂, stays _ _ (by simp [Obj.tag]) ho⟩
    obtain ⟨name, text, hm', hn, same⟩ := binds
    have binds₂ : s₂.Binds _ g method := ⟨name, text, stays _ _ (by simp [Obj.tag]) hm', stays _ _ (by simp [Obj.tag]) hn, same⟩
    obtain ⟨d, bound, hg⟩ := rep₂.binds hm binds₂
    obtain ⟨string, named, called⟩ := bound.called
    simp only [Machine.dispatch, Machine.execCall, run_bind, arguments, callee, Machine.run_reader, bound.isMethod, if_true, bound.receiver,
      named, called]
    exact calls rep₂ hg homes stays

/-- What is noted does not matter. -/
theorem Rep.record (rep : Rep w s m.heap) (severity : Severity) (text : Unit → String) : Rep w s (m.record severity text).heap :=
  rep.reroot ⟨rfl, rfl, rfl⟩ rfl rep.contexts rep.temporaries

/-- The protection of operands ends. -/
theorem Rep.releaseRoots (rep : Rep w s m.heap) (mark : Nat) :
    Rep w { s with temporaries := s.temporaries.take mark } (m.releaseRoots mark).heap := by
  refine rep.reroot ⟨rfl, rfl, rfl⟩ rfl rep.contexts ?_
  have front := List.forall₂_take mark rep.temporaries
  simpa [Machine.releaseRoots] using front

/-- The instruction that a step executes is fetched. -/
theorem Sim.fetches {t : Course} {x : Execution} {b : Addr} {p : Nat} (sim : Sim w t x) (hc : w.home c b)
    (hf : t.engine.store.objects[c]? = some (.context f)) (faces : x.Faces b p i) :
    ∃ m, Execution.fetch b x.counted = .ok (p, i) { x.counted with machine := m } ∧ Describes w (t.fetchedEngine c f) m := by
  have dispatched : Describes w { t.engine with scheduler := t.engine.scheduler.dispatch } x.counted.machine :=
    { sim.machine.dispatch with }
  cases Except.ok.inj ((sim.machine.rep.pc_eq hc hf).symm.trans faces.pc)
  obtain ⟨h₁, moved, rep₁⟩ := dispatched.rep.sets hc hf (f.pc + 1)
  have described := (dispatched.evolve rep₁ (.mutate rfl rfl List.length_set)).record .trace fun _ => s!"context @{b} pc {f.pc}: {i.text}"
  refine ⟨_, ?_, described⟩
  have pc : Context.pc b x.counted.machine.heap = .ok f.pc := faces.pc
  have code : x.counted.code[f.pc]? = some i := faces.instruction
  have written : (liftM (Context.setPc b (f.pc + 1)) : ExecutionM Unit) x.counted =
      .ok () { x.counted with machine := { x.counted.machine with heap := h₁ } } := by
    change (liftM (liftM (Context.setPc b (f.pc + 1)) : MachineM Unit) : ExecutionM Unit) x.counted = _
    rw [Execution.run_machine, Machine.run_heap, moved]
  simp only [Execution.fetch, run_bind, Execution.run_observation, pc, run_get, code, written]
  rfl

/-- A step that would take a counter below zero fails, and the wait group is what it was. -/
theorem Sim.refuses {t : Course} {x : Execution} {b : Addr} {p : Nat} (sim : Sim w t x) (hc : w.home c b)
    (hf : t.engine.store.objects[c]? = some (.context f)) (going : x.finished = false) (faces : x.Faces b p i)
    (invokes : t.engine.store.Invokes c i g method xs) (asks : t.engine.store.Asks method xs delta)
    (ho : t.engine.store.objects[g]? = some (.waitGroup k l)) (negative : k.toInt64.toInt + delta.toInt < 0) :
    ∃ cause x' s', Execution.step x = .error (.error cause) x' ∧
      (cause = .heap .negativeCounter ∨ cause = .timeLimitExceeded x.config.maxInstructions) ∧ Rep w s' x'.machine.heap ∧
        s'.objects[g]? = some (.waitGroup k l) := by
  have rep := sim.machine.rep
  have start : Rep w t.engine.store x.counted.machine.heap := rep
  rw [Execution.step_turn going faces.turn]
  split
  · exact ⟨_, _, t.engine.store, rfl, .inr rfl, start.record _ _, ho⟩
  cases Except.ok.inj ((rep.pc_eq hc hf).symm.trans faces.pc)
  obtain ⟨m₁, fetched, described⟩ := sim.fetches hc hf faces
  -- the method refuses
  have stays (q : Ref) (o : Obj) (other : o.tag ≠ .context) (hq : t.engine.store.objects[q]? = some o) :
      (t.fetchedStore c f).objects[q]? = some o := by
    refine (List.getElem?_set_ne ?_).trans hq
    rintro rfl
    cases hf.symm.trans hq
    exact other rfl
  obtain ⟨h₂, s₂, refused, rep₂, ho₂⟩ := Rep.refuses described.rep hc (Store.context_set hf _)
    ((Store.Invokes.fetched hf).mpr invokes) (asks.mono stays) (stays _ _ (by simp [Obj.tag]) ho) negative f.pc
  have executed : (liftM (Machine.execute b f.pc i) : ExecutionM Outcome) { x.counted with machine := m₁ } =
      .error (.error (.heap .negativeCounter))
        { x.counted with machine := { m₁ with heap := h₂ }.releaseRoots m₁.heap.temporaries.size } := by
    rw [Execution.run_machine, Machine.execute]
    dsimp only
    rw [refused]
  have turned : Execution.turn b x.counted = .error (.error (.heap .negativeCounter))
      { x.counted with machine := { m₁ with heap := h₂ }.releaseRoots m₁.heap.temporaries.size } := by
    rw [Execution.turn, run_bind, fetched]
    dsimp only
    rw [run_bind, executed]
  have rep₃ : Rep w s₂ ({ m₁ with heap := h₂ } : Machine).heap := rep₂
  rw [turned]
  exact ⟨_, _, { s₂ with temporaries := s₂.temporaries.take m₁.heap.temporaries.size }, rfl, .inl rfl,
    (rep₃.releaseRoots m₁.heap.temporaries.size).record _ _, ho₂⟩

end FiberMachine
