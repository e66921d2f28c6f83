import FiberMachine.Proofs.Ideal.Ending
import FiberMachine.Proofs.Ideal.Reaching
import FiberMachine.Proofs.Runs

/-!
# The isolation of contexts

A step leaves the registers of other contexts as they are, unless it wakes one that is blocked. What changes then depends on what the
context waited for: it goes on where its request says, with the value if it is one that receives, or it goes on where it
was.
-/

namespace FiberMachine

open Ideal Heap

/-- The registers of a context. -/
structure Registers where
  pc : Nat
  environment : Addr
  blocked : Bool
  operands : List Addr
  returns : List Addr
  deriving DecidableEq

def Context.registers (c : Addr) : HeapReader Registers := do
  return ⟨← Context.pc c, ← Context.environment c, ← Context.isBlocked c, ← Context.operands c, ← Context.returns c⟩

/-- The context `b` waits on the channel `d`, with the request `q` that resumes at `n`. -/
structure Heap.Awaits (h : Heap) (b q d : Addr) (u : Direction) (n : Nat) : Prop where
  entered : ∃ qs, Context.waits b h = .ok qs ∧ q ∈ qs
  context : Request.contextOf q h = .ok b
  channel : Request.channelOf q h = .ok d
  direction : Request.directionOf q h = .ok u
  resume : Request.resumeOf q h = .ok n

/-- What becomes of the registers `r` of the context `b` when a step from `x` to `x'` wakes it. -/
inductive Registers.Woken (x x' : Execution) (b : Addr) (r : Registers) : Registers → Prop
  /-- Its value has been taken. -/
  | sent {q d : Addr} {n : Nat} (awaits : x.machine.heap.Awaits b q d .send n) (noted : .completed d .send q ∈ x.notes) :
      Woken x x' b r { r with pc := n, blocked := false }
  /-- It has got the value `v` that the step has sent. -/
  | received {q d v : Addr} {n : Nat} (awaits : x.machine.heap.Awaits b q d .recv n)
      (noted : x.notes = [.completed d .recv q, .sent d v, .received d v]) (plain : Request.frameOf q x.machine.heap = .ok unassigned) :
      Woken x x' b r { r with pc := n, blocked := false, operands := r.operands ++ [v] }
  /-- The value is in the frame `m` of the case of a select, the scope of which it has entered. -/
  | selected {q d v m scope : Addr} {n : Nat} (awaits : x.machine.heap.Awaits b q d .recv n)
      (noted : x.notes = [.completed d .recv q, .sent d v, .received d v]) (framed : Request.frameOf q x.machine.heap = .ok m)
      (some : m ≠ unassigned) (inside : Request.environmentOf q x.machine.heap = .ok scope) (value : Sequence.get m 0 x'.machine.heap = .ok v) :
      Woken x x' b r { r with pc := n, blocked := false, environment := scope, returns := r.returns ++ [r.environment] }
  /-- The wait group `g` has released it. -/
  | released {g : Addr} (waits : Context.waits b x.machine.heap = .ok [g]) (isGroup : tag g x.machine.heap = .ok .waitGroup)
      (member : ∃ cs, WaitGroup.waiting g x.machine.heap = .ok cs ∧ b ∈ cs) : Woken x x' b r { r with blocked := false }

variable {w w' : World} {s s' : Store} {h : Heap} {t t' : Course} {x x' : Execution} {c : Ref} {a b n : Nat} {f : Fiber} {log events : List Event}
  {outcome done : StepOutcome} {code : Array Instruction} {config : Config} {journal : Journal} {history : List Entry} {r : Registers}

/-! ### Registers in the heap -/

/-- The registers of a context with names and with addresses. -/
structure Registers.Show (r : Registers) (R : Ref → Nat → Prop) (f : Fiber) : Prop where
  pc : r.pc = f.pc
  environment : R f.environment r.environment
  blocked : r.blocked = f.blocked
  operands : List.Forall₂ R f.operands r.operands
  returns : List.Forall₂ R f.returns r.returns

/-- Where the objects in registers were last is where they are. -/
theorem Registers.Show.same {r' : Registers} (marked : r.Show w.marks f) (shown : r'.Show w.home f) (rep : Rep w s h) : r' = r := by
  obtain ⟨pc, env, blocked, os, rs⟩ := r
  obtain ⟨pc', env', blocked', os', rs'⟩ := r'
  cases marked.pc.trans shown.pc.symm
  cases marked.blocked.trans shown.blocked.symm
  cases marked.environment.same rep shown.environment
  cases World.marks_same marked.operands rep shown.operands
  cases World.marks_same marked.returns rep shown.returns
  rfl

theorem Rep.registers_eq (rep : Rep w s h) (ha : w.home c a) (hf : s.objects[c]? = some (.context f)) :
    ∃ r, Context.registers a h = .ok r ∧ r.Show w.home f := by
  obtain ⟨env, environment, inside⟩ := rep.environment_eq ha hf
  obtain ⟨os, operands, above⟩ := rep.operands_eq ha hf
  obtain ⟨rs, returns, saved⟩ := rep.returns_eq ha hf
  refine ⟨⟨f.pc, env, f.blocked, os, rs⟩, ?_, rfl, inside, rfl, above, saved⟩
  simp only [Context.registers, HeapReader.run_bind, rep.pc_eq ha hf, environment, rep.isBlocked_eq ha hf, operands, returns,
    HeapReader.run_pure]

/-- What a request says where a context resumes is a position that can be stored. -/
theorem Rep.wrap_resume {q : Ref} {p : Request} (rep : Rep w s h) (ha : w.home q a) (hp : s.IsRequest q p) : wrap p.resume = p.resume := by
  have has : w.HasRequest h a p := rep.has ha hp
  rw [← has.resume]
  exact Nat.mod_eq_of_lt (UInt64.toNat_lt _)

/-- The request that a context waits with, in the heap. -/
theorem Rep.awaits {q : Ref} {p : Request} (rep : Rep w s h) (ha : w.home c a) (hf : s.objects[c]? = some (.context f)) (waits : q ∈ f.waits)
    (hp : s.IsRequest q p) (own : p.context = c) : ∃ k d, w.home q k ∧ w.home p.channel d ∧ h.Awaits a k d p.direction p.resume := by
  obtain ⟨qs, read, homes⟩ := rep.waits_eq ha hf
  obtain ⟨k, member, home⟩ := related_right homes waits
  obtain ⟨b, context, hb⟩ := rep.contextOf_eq home hp
  obtain ⟨d, channel, hd⟩ := rep.channelOf_eq home hp
  cases rep.single _ _ _ (own ▸ hb) ha
  exact ⟨k, d, home, hd, ⟨qs, read, member⟩, context, channel, rep.directionOf_eq home hp, rep.resumeOf_eq home hp⟩

/-- A value has been delivered, as noted. -/
theorem World.notes.delivered {d q v : Ref} {notes : List Event} (same : w.notes [.completed d .recv q, .sent d v, .received d v] notes) :
    ∃ a k b, w.marks d a ∧ w.marks q k ∧ w.marks v b ∧ notes = [.completed a .recv k, .sent a b, .received a b] := by
  cases same with
  | cons first rest =>
    cases rest with
    | cons second rest =>
      cases rest with
      | cons third none =>
        cases none
        cases first with
        | completed channel _ served =>
          cases second with
          | sent channel' value =>
            cases third with
            | received channel'' value' =>
              cases channel.2.symm.trans channel'.2
              cases channel.2.symm.trans channel''.2
              cases value.2.symm.trans value'.2
              exact ⟨_, _, _, channel, served, value, rfl⟩

/-- The first item of a sequence. -/
theorem Rep.first_eq {m v : Ref} {ts : Tag} {xs : List Ref} (rep : Rep w s h) (ha : w.home m a)
    (hm : s.objects[m]? = some (.sequence ts (v :: xs))) : ∃ b, w.home v b ∧ Sequence.get a 0 h = .ok b := by
  have inside : ¬((xs.length : Int) + 1 ≤ 0) := by omega
  obtain ⟨b, read, home⟩ := (Reads.getItem rep ha 0).answer (b := v) (by
    simp [getItem, items, look, hm, within, Obj.items?, inside, bind, EStateM.bind, pure, EStateM.pure])
  exact ⟨b, home, read⟩

/-- The first item of a frame that belongs to a live environment. -/
theorem Rep.first_item {env m v : Ref} {a : Nat} {ts : Tag} {xs : List Ref} (rep : Rep w s h) (he : w.home env a) (scopes : s.Scopes env m)
    (hm : s.objects[m]? = some (.sequence ts (v :: xs))) : ∃ k b, w.home m k ∧ w.home v b ∧ Sequence.get k 0 h = .ok b := by
  obtain ⟨ys, ho, member⟩ := scopes
  obtain ⟨_, as, _, homes⟩ := rep.sequence he ho rfl
  obtain ⟨k, _, hk⟩ := related_right homes member
  obtain ⟨b, home, read⟩ := rep.first_eq hk hm
  exact ⟨k, b, hk, home, read⟩

/-- Another context is as it was, or it was blocked and the step has woken it. -/
theorem Stepped.isolates (stepped : Stepped w t x log outcome w' t' x' done events) (sim : Sim w t x) (steady : Steady log t)
    (own : x.SelectsOwn) (ran : outcome = .executed a n) (registered : b ∈ x.machine.heap.contexts) (other : b ≠ a) :
    b ∈ x'.machine.heap.contexts ∧ ∃ r r', Context.registers b x.machine.heap = .ok r ∧ Context.registers b x'.machine.heap = .ok r' ∧
      (r' = r ∨ r.blocked = true ∧ r.Woken x x' b r') := by
  have rep := sim.machine.rep
  have rep' := stepped.sim.machine.rep
  have same := stepped.same
  obtain ⟨c, hc, hb⟩ := related_left rep.contexts registered
  subst ran
  rcases Course.step_executed steady (own.sane sim (w.capacity + 1)) stepped.run with ⟨rfl, _, _⟩ | ⟨d, f, i, o, e, rfl, executed⟩
  · cases same
  cases same with
  | executed home =>
    have ne : c ≠ d := by
      rintro rfl
      exact other (rep.single _ _ _ hb home)
    have keep {r : Ref} {a : Nat} (home : w.home r a) : w'.marks r a := (rep.marks home).keep rep rep' stepped.abides
    have kept := executed.stays hc fun same => absurd same ne
    have hb' := stepped.sim.home_of_marks kept (keep hb)
    obtain ⟨g, hg⟩ := steady.linked.typed.canonical (steady.linked.typed.contexts c hc)
    obtain ⟨g', hg', became⟩ := executed.isolates steady ne hg
    obtain ⟨r, read, shown⟩ := rep.registers_eq hb hg
    obtain ⟨r', read', shown'⟩ := rep'.registers_eq hb' hg'
    have marked : r.Show w'.marks g := ⟨shown.pc, keep shown.environment, shown.blocked, shown.operands.imp fun _ _ => keep,
      shown.returns.imp fun _ _ => keep⟩
    refine ⟨?_, r, r', read, read', ?_⟩
    · obtain ⟨b', member, home'⟩ := related_right rep'.contexts kept
      exact rep'.single _ _ _ home' hb' ▸ member
    rcases became with rfl | ⟨blocked, woken⟩
    · exact .inl (marked.same shown' rep')
    refine .inr ⟨shown.blocked.trans blocked, ?_⟩
    have only {y a₁ a₂ : Nat} (mark : w'.marks y a₁) (home : w.home y a₂) : a₁ = a₂ := mark.2.symm.trans (keep home).2
    cases woken with
    | @sent ch q p waits hp own channel direction noted =>
      obtain ⟨k, d', hk, hd, awaits⟩ := rep.awaits hb hg waits hp own
      have marked' : Registers.Show { r with pc := p.resume, blocked := false } w'.marks (g.served _ none) :=
        ⟨(rep.wrap_resume hk hp).symm, marked.environment, rfl, marked.operands, marked.returns⟩
      rw [marked'.same shown' rep']
      obtain ⟨y, member, same⟩ := related_right stepped.notes noted
      cases same with
      | completed onChannel _ served =>
        cases only onChannel (channel ▸ hd)
        cases only served hk
        exact .sent (direction ▸ awaits) member
    | @received ch q v p waits hp own channel direction noted framed =>
      obtain ⟨k, d', hk, hd, awaits⟩ := rep.awaits hb hg waits hp own
      obtain ⟨m, frameOf, hm⟩ := rep.frameOf_eq hk hp
      obtain ⟨scope, environmentOf, inside⟩ := rep.environmentOf_eq hk hp
      obtain ⟨d₁, k₁, b₁, onChannel, served, value, notes⟩ := World.notes.delivered (noted ▸ stepped.notes)
      cases only onChannel (channel ▸ hd)
      cases only served hk
      have awaits := direction ▸ awaits
      by_cases plain : p.frame = unassigned
      · have marked' : Registers.Show { r with pc := p.resume, blocked := false, operands := r.operands ++ [b₁] } w'.marks (g.served p (some v)) := by
          rw [Fiber.served, if_pos plain]
          exact ⟨(rep.wrap_resume hk hp).symm, marked.environment, rfl, List.rel_append marked.operands (.cons value .nil), marked.returns⟩
        rw [marked'.same shown' rep']
        exact .received awaits notes (frameOf.trans (congrArg _ (rep.single _ _ _ hm (plain ▸ rep.nil))))
      · have marked' : Registers.Show { r with pc := p.resume, blocked := false, environment := scope, returns := r.returns ++ [r.environment] }
            w'.marks (g.served p (some v)) := by
          rw [Fiber.served, if_neg plain]
          exact ⟨(rep.wrap_resume hk hp).symm, keep inside, rfl, marked.operands, List.rel_append marked.returns (.cons marked.environment .nil)⟩
        rw [marked'.same shown' rep']
        refine .selected awaits notes frameOf (fun none => plain ?_) environmentOf ?_
        · subst none
          exact (rep.owner _ _ _ _ _ hm rep.nil).1
        · obtain ⟨ts, xs, first⟩ := framed plain
          obtain ⟨_, _, _, framing⟩ := steady.linked.typed.good q _ hp
          have scopes := (framing.resolve_left plain).2.grow executed.grows
          have inside' : w'.home p.environment r'.environment := by
            have := shown'.environment
            rwa [Fiber.served, if_neg plain] at this
          obtain ⟨m', b', hm', hb'', read⟩ := rep'.first_item inside' scopes first
          cases (keep hm).same rep' hm'
          cases value.same rep' hb''
          exact read
    | @released y waits member =>
      obtain ⟨gs, readWaits, homes⟩ := rep.waits_eq hb hg
      rw [waits] at homes
      have marked' : Registers.Show { r with blocked := false } w'.marks g.released :=
        ⟨marked.pc, marked.environment, rfl, marked.operands, marked.returns⟩
      rw [marked'.same shown' rep']
      cases homes with
      | cons hy none =>
        cases none
        obtain ⟨counter, queue, group⟩ := steady.linked.typed.canonical (Store.group_of_member member)
        obtain ⟨cs, readQueue, queued⟩ := rep.members_eq hy group
        rw [Store.queue_of group] at member
        obtain ⟨b', inQueue, hb'⟩ := related_right queued member
        exact .released readWaits (rep.tag_eq hy group) ⟨cs, readQueue, rep.single _ _ _ hb' hb ▸ inQueue⟩

/-- A step of one context leaves the registers of all others as they are, except those that were blocked and that it wakes. -/
theorem Run.step_isolates (run : Run code config journal history x) (own : x.SelectsOwn) (step : Execution.step x = .ok (.executed a n) x')
    (registered : b ∈ x.machine.heap.contexts) (other : b ≠ a) :
    b ∈ x'.machine.heap.contexts ∧ ∃ r r', Context.registers b x.machine.heap = .ok r ∧ Context.registers b x'.machine.heap = .ok r' ∧
      (r' = r ∨ r.blocked = true ∧ r.Woken x x' b r') := by
  obtain ⟨w, t, log, followed⟩ := run.followed
  obtain ⟨w', t', done, events, stepped⟩ := followed.sim.stepped followed.steady own step
  exact stepped.isolates followed.sim followed.steady own rfl registered other

/-- Whether the next step is one of another context and wakes the context `b`. -/
def Execution.wakes (x : Execution) (b : Addr) : Bool :=
  match Execution.step x with
  | .ok (.executed a _) x' => x.selectsOwn && x.machine.heap.contexts.contains b && b != a &&
      (Context.registers b x.machine.heap).toOption.any (·.blocked) && (Context.registers b x'.machine.heap).toOption.any (!·.blocked)
  | _ => false

/-- A context that sends to one that receives. -/
theorem Run.step_isolates_rendezvous : ∃ history x a n x' b r r', Run #[.makeChan false, .enterScope ["c"], .storeVar 0 0, .loadFunc 8 [], .go 0,
      .loadVar 0 0, .recv, .done, .loadVar 0 0, .loadInt 7, .send, .done] (Config.withTimeSlice { heapWords := 256 } 1) (.start none) history x ∧
    Execution.step x = .ok (.executed a n) x' ∧ b ∈ x.machine.heap.contexts ∧ b ≠ a ∧ Context.registers b x.machine.heap = .ok r ∧
      Context.registers b x'.machine.heap = .ok r' ∧ r.blocked = true ∧ r.Woken x x' b r' := by
  obtain ⟨history, x, run, found⟩ := Run.of_follow (P := fun _ x => x.wakes x.main) #[.makeChan false, .enterScope ["c"], .storeVar 0 0,
      .loadFunc 8 [], .go 0, .loadVar 0 0, .recv, .done, .loadVar 0 0, .loadInt 7, .send, .done] (Config.withTimeSlice { heapWords := 256 } 1)
    (.start none) 9 (by decide +kernel)
  unfold Execution.wakes at found
  split at found
  next a n x' step =>
    simp only [Bool.and_eq_true, List.contains_iff_mem, bne_iff_ne] at found
    obtain ⟨⟨⟨⟨own, registered⟩, other⟩, before⟩, after⟩ := found
    obtain ⟨-, r, r', read, read', became⟩ := run.step_isolates (Execution.selectsOwn_sound own) step registered other
    rw [read] at before
    rw [read'] at after
    rcases became with rfl | ⟨blocked, woken⟩
    · simp only [Except.toOption, Option.any_some] at before after
      rw [before] at after
      cases after
    · exact ⟨history, x, a, n, x', x.main, r, r', run, step, registered, other, read, read', blocked, woken⟩
  next => cases found

end FiberMachine
