import FiberMachine.Proofs.Ideal.Dispatch
import FiberMachine.Proofs.Ideal.Leading
import FiberMachine.Proofs.Ideal.Stages

/-!
# What a step does to the contexts

A step that executes an instruction leads its own context where the instruction says, and may wake others; a
context that stays blocked is left as it was.
-/

/-! ## Blocking for good

A context blocks without waiting for anything when it sends to or receives from a channel that is not there, and when it
selects among such channels only.
-/

namespace FiberMachine.Ideal

variable {s s' : Store} {c d q r v : Ref} {n : Nat} {xs : List Ref} {i : Instruction} {events : List Event}

/-- The instruction blocks the context, and no channel is involved. -/
def Store.Strands (s : Store) (c : Ref) : Instruction → Prop
  | .send => ∃ rest v, s.Operands c (rest ++ [unassigned, v])
  | .recv => ∃ rest, s.Operands c (rest ++ [unassigned])
  | .select n none => ∃ rest qs, qs.length = n ∧ s.Operands c (rest ++ qs) ∧ ∀ q ∈ qs, ∃ r, s.IsRequest q r ∧ r.channel = unassigned
  | _ => False

/-- Nobody is noted to block for good. -/
def Moving (events : List Event) : Prop := ∀ x, .stranded x ∉ events

/-- A request that is parked is noted. -/
theorem park_noted : Safe Any (park q) s fun p _ => p.2 ≠ [] ∧ Moving p.2 := by
  refine Safe.any_bind fun r s => Safe.any_bind fun d s => Safe.any_bind fun opposed s => ?_
  cases opposed with
  | true => trivial
  | false => exact Safe.any_bind fun _ s => Safe.any_bind fun _ s => Safe.any_bind fun _ s => .pure ⟨nofun, by simp [Moving]⟩

/-- Nothing is noted if no request has a channel. -/
theorem parkAll_noted : Safe Any (Engine.parkAll xs) s fun p s' => Moving p.2 ∧
    (p.2 = [] → s' = s ∧ ∀ q ∈ xs, ∃ r, s.IsRequest q r ∧ r.channel = unassigned) := by
  induction xs generalizing s with
  | nil => exact .pure ⟨nofun, fun _ => ⟨rfl, nofun⟩⟩
  | cons q rest ih =>
    refine Safe.look_bind (fun r seen => ?_) fun _ => trivial
    obtain ⟨o, ho, eq⟩ := object_of_view seen
    cases o <;> cases eq
    split
    next some =>
      refine park_noted.bind fun p s₁ ⟨some, moving⟩ => ih.bind fun p' s₂ ⟨moving', _⟩ => .pure ⟨?_, fun none => ?_⟩
      · exact fun x hx => (List.mem_append.mp hx).elim (moving x) (moving' x)
      · exact absurd (List.append_eq_nil_iff.mp none).1 some
    next none =>
      refine ih.bind (n := Engine.parkAll rest) fun p s₂ ⟨moving, idle⟩ => .pure ⟨moving, fun nothing => ?_⟩
      obtain ⟨same, requests⟩ := idle nothing
      exact ⟨same, List.forall_mem_cons.mpr ⟨⟨r, ho, not_ne_iff.mp none⟩, requests⟩⟩

namespace Engine

variable {e e' : Engine} {depth pc : Nat} {o : Outcome}

/-- Whoever is noted to block for good is the context itself, and the instruction is the reason. -/
def Reasoned (i : Instruction) (c : Ref) (s : Store) (events : List Event) : Prop :=
  ∀ x, .stranded x ∈ events → x = c ∧ s.Strands c i

theorem Reasoned.of_moving {s : Store} (moving : Moving events) : Reasoned i c s events := fun x hx => absurd hx (moving x)

theorem quietly_reasoned {m : EngineM Outcome} : Safe Any (quietly m) e fun p _ => Reasoned i c e.store p.2 :=
  Safe.any_bind fun _ _ => .pure nofun

theorem parkRequest_moving {r : Request} : Safe Any (parkRequest r) e fun p _ => Moving p.2 :=
  Safe.any_bind fun _ _ => Safe.bind (safe_store (Q := fun p _ => Moving p.2) (park_noted.weaken fun _ _ noted => noted.2))
    fun _ _ moving => Safe.any_bind fun _ _ => .pure moving

/-- What a calm action does, however it may fail. -/
theorem Quiet.any {α : Type} {m : EngineM α} {P : α → Store → Prop} (f : Quiet True m e P) :
    Safe Any m e fun a e' => Calm e.store e'.store ∧ Beside e e' ∧ P a e'.store := f.relax fun _ _ => trivial

theorem expectChannel_given : Safe Any (liftM (expectChannel d) : EngineM Bool) e fun given _ => given = false → d = unassigned := by
  refine safe_store ?_
  unfold expectChannel
  split
  next none => exact .pure fun _ => none
  next => exact Safe.any_bind fun _ _ => .pure nofun

theorem execSend_reasoned (turn : Turn e c) : Safe Any (execSend c n) e fun p _ => Reasoned .send c e.store p.2 := by
  refine (Quiet.pop turn.active).any.bind ?_
  rintro value e₁ ⟨calm, _, _, ⟨rest, before, after⟩, _⟩
  refine (Quiet.pop (turn.keep calm).active).any.bind ?_
  rintro channel e₂ ⟨_, _, _, ⟨rest', before', _⟩, _⟩
  cases after.unique before'
  refine expectChannel_given.bind fun given e₃ none => ?_
  cases given with
  | false =>
    refine Safe.any_bind fun _ _ => .pure fun x hx => ?_
    cases List.mem_singleton.mp hx
    exact ⟨rfl, rest', value, by simpa [none rfl] using before⟩
  | true =>
    refine Safe.any_bind fun copy e₄ => store_bind (trySend_leads.relax fun _ _ => trivial) ?_
    rintro ⟨outcome, events⟩ s₅ ⟨_, _, moving⟩
    cases outcome with
    | delivered woken => exact Safe.any_bind fun _ _ => .pure (.of_moving moving)
    | buffered => exact .pure (.of_moving moving)
    | wouldBlock => exact parkRequest_moving.weaken fun _ _ => .of_moving

theorem execRecv_reasoned (turn : Turn e c) : Safe Any (execRecv c n) e fun p _ => Reasoned .recv c e.store p.2 := by
  refine (Quiet.pop turn.active).any.bind ?_
  rintro channel e₁ ⟨_, _, _, ⟨rest, before, _⟩, _⟩
  refine expectChannel_given.bind fun given e₂ none => ?_
  cases given with
  | false =>
    refine Safe.any_bind fun _ _ => .pure fun x hx => ?_
    cases List.mem_singleton.mp hx
    exact ⟨rfl, rest, none rfl ▸ before⟩
  | true =>
    refine store_bind (tryRecv_leads.relax fun _ _ => trivial) ?_
    rintro ⟨outcome, events⟩ s₃ ⟨_, _, moving⟩
    cases outcome with
    | received value woken => exact Safe.any_bind fun _ _ => Safe.any_bind fun _ _ => Safe.any_bind fun _ _ => .pure (.of_moving moving)
    | wouldBlock => exact parkRequest_moving.weaken fun _ _ => .of_moving

/-- What the requests of a select are is known once it is over, since requests never change. -/
theorem execSelect_reasoned {default? : Option Nat} (turn : Turn e c) : Safe Any (execSelect c n default?) e fun p e' =>
    e.store.Grows e'.store → Reasoned (.select n default?) c e.store p.2 := by
  refine (Quiet.popMany turn.active n (.inl trivial)).any.bind ?_
  rintro xs e₁ ⟨_, _, _, ⟨length, rest, before, _⟩, _⟩
  refine Safe.any_bind fun _ e₂ => ?_
  refine Safe.bind (Q := fun ys _ => ys.Perm xs) (.of_ok rfl (Generator.shuffle_perm _ _)) fun ys e₃ perm => ?_
  refine store_bind (takeReady_leads.relax fun _ _ => trivial) ?_
  rintro ⟨_ | woken, events⟩ s₄ ⟨_, _, moving⟩
  · cases default? with
    | some target => exact Safe.any_bind fun _ _ => .pure fun _ => .of_moving nofun
    | none =>
      refine store_bind parkAll_noted ?_
      rintro ⟨_, events⟩ s₅ ⟨moving, idle⟩
      refine store_bind (update_seen.relax fun _ _ => trivial) ?_
      rintro _ _ ⟨f, hf, rfl⟩
      refine .pure fun grows x hx => ?_
      rw [Event.blocking] at hx
      split at hx
      next none =>
        cases List.mem_singleton.mp hx
        refine ⟨rfl, rest, xs, length, before, fun q hq => ?_⟩
        obtain ⟨r, hr, nowhere⟩ := (idle none).2 q (perm.mem_iff.mpr hq)
        rw [← (idle none).1] at hr
        have apart : c ≠ q := by
          rintro rfl
          exact nomatch hf.symm.trans hr
        have known := before.known turn.linked.typed q (List.mem_append_right _ hq)
        have still : (s₅.set c (.context { f with blocked := true })).IsRequest q r := (List.getElem?_set_ne apart).trans hr
        exact ⟨r, still.shrink known grows, nowhere⟩
      next => exact absurd hx (moving x)
  · exact Safe.any_bind fun _ _ => .pure fun _ => .of_moving moving

theorem dispatch_reasoned (turn : Turn e c) : Safe Any (dispatch depth c pc i) e fun p e' =>
    e.store.Grows e'.store → Reasoned i c e.store p.2 := by
  cases i with
  | makeChan buffered =>
    refine Safe.bind (Quiet.execMakeChan turn.active buffered).any ?_
    rintro ⟨_, _⟩ e' ⟨_, _, d, rfl, _⟩
    exact .pure fun _ => .of_moving (by simp [Moving])
  | send => exact (execSend_reasoned turn).weaken fun _ _ reasoned _ => reasoned
  | recv => exact (execRecv_reasoned turn).weaken fun _ _ reasoned _ => reasoned
  | select cases default? => exact execSelect_reasoned turn
  | _ => exact quietly_reasoned.weaken fun _ _ reasoned _ => reasoned

theorem execute_reasoned (turn : Turn e c) : Safe Any (execute depth c pc i) e fun p e' =>
    e.store.Grows e'.store → Reasoned i c e.store p.2 := execute_safe (dispatch_reasoned turn)

end Engine

end FiberMachine.Ideal

/-! ## What a step does to the contexts -/

namespace FiberMachine.Ideal

variable {s s' : Store} {c d x : Ref} {log events : List Event} {i : Instruction} {depth : Nat} {t t' : Course} {o : Outcome} {f : Fiber}
  {e : Engine}

theorem update_run {h : Fiber → Fiber} (ho : s.objects[c]? = some (.context f)) : update c h s = .ok () (s.set c (.context (h f))) := by
  have look : fiber c s = .ok f s := by
    unfold fiber Ideal.look
    rw [ho]
    rfl
  change EStateM.bind (fiber c) _ s = _
  rw [EStateM.bind, look]
  rfl

namespace Course

/-- What a step has done that has executed an instruction in a steady course. -/
structure Executed (depth : Nat) (t : Course) (c : Ref) (f : Fiber) (i : Instruction) (o : Outcome) (events : List Event) (e : Engine)
    (t' : Course) : Prop extends Acted depth t c f i o events e t', Settled c o { t with engine := e, executed := t.executed + 1 } t' where
  running : t.engine.store.Running c
  /-- Fetching the instruction moves nothing but the program counter. -/
  calm : Calm t.engine.store (t.fetchedStore c f)
  turning : (t.fetchedEngine c f).Turn c
  permits : Engine.Permits True depth (t.fetchedStore c f) c i
  turned : Engine.Turned i c (t.fetchedEngine c f) (o, events) e
  led : Led i f.pc c (t.fetchedStore c f) (o, events) e.store
  /-- Who blocks for good has a reason. -/
  reasoned : ∀ x, .stranded x ∈ events → x = c ∧ t.engine.store.Strands c i

/-- Fetching an instruction does not change whether it blocks for good. -/
theorem strands_of_fetched (ho : t.engine.store.objects[c]? = some (.context f)) (strands : (t.fetchedStore c f).Strands c i) :
    t.engine.store.Strands c i := by
  have operands {xs : List Ref} (k : (t.fetchedStore c f).Operands c xs) : t.engine.store.Operands c xs := by
    obtain ⟨g, hg, rfl⟩ := k
    cases Option.some.inj (hg.symm.trans (Store.context_set ho _))
    exact ⟨f, ho, rfl⟩
  cases i with
  | send => exact strands.imp fun rest => .imp fun v => operands
  | recv => exact strands.imp fun rest => operands
  | select n default? =>
    cases default? with
    | some target => exact strands
    | none =>
      obtain ⟨rest, qs, length, k, requests⟩ := strands
      exact ⟨rest, qs, length, operands k, fun q hq => (requests q hq).imp fun r ⟨hr, nowhere⟩ => ⟨Store.unset hr nofun, nowhere⟩⟩
  | _ => exact strands

/-- The context that is dispatched has the turn, and fetching its instruction moves nothing but the program counter. -/
theorem fetched_turn (steady : Steady log t) (turn : t.engine.scheduler.dispatch.current = some c)
    (hf : t.engine.store.objects[c]? = some (.context f)) :
    Balanced t.engine.store [c] t.engine.scheduler.dispatch.ready ∧ Calm t.engine.store (t.fetchedStore c f) ∧ (t.fetchedEngine c f).Turn c := by
  have balanced : Balanced t.engine.store [c] t.engine.scheduler.dispatch.ready := by
    refine steady.balanced.requeue (.of_eq ?_)
    rw [← t.engine.scheduler.dispatch_queue, turn]
    rfl
  have typed := steady.linked.typed
  have running := balanced.running
  obtain ⟨g, hg, env, operands, returns⟩ := typed.fiber (typed.contexts c running.registered)
  cases Option.some.inj (hg.symm.trans hf)
  have idle := running.idle.not_blocked hg
  have moved : Quiet True (setPc c (f.pc + 1)) t.engine.store fun _ s' => s' = t.fetchedStore c f :=
    Quiet.update typed hg rfl ⟨env, operands, returns⟩ (by simp only [Obj.wiring, idle]; rfl)
  have calm : Calm t.engine.store (t.fetchedStore c f) := (Safe.ok moved (update_run hg)).1
  exact ⟨balanced, calm, steady.linked.calm calm, running.keep calm⟩

theorem Acted.executed (acted : Acted depth t c f i o events e t') (steady : Steady log t) (sane : Sane True depth t) :
    Executed depth t c f i o events e t' := by
  obtain ⟨balanced, calm, turn⟩ := fetched_turn steady acted.turn acted.fiber
  have running := balanced.running
  have here := Store.getElem?_set ⟨_, acted.fiber⟩ (.context { f with pc := wrap (f.pc + 1) })
  have isContext := steady.linked.typed.contexts c running.registered
  have others : t.engine.store.OnlyAt c (t.fetchedStore c f) := fun q ne => (here q).trans (if_neg ne)
  have permits := (sane c f.pc i acted.turn ⟨f, acted.fiber, rfl⟩ acted.instruction).onlyAt others isContext (isContext.grow calm.grows) (by
      rintro xs ⟨g, hg', rfl⟩
      rw [fetchedStore, here, if_pos rfl] at hg'
      cases hg'
      exact ⟨f, acted.fiber, rfl⟩)
  have turned := (Engine.execute_turned turn (balanced.congr calm.contexts calm.blockedAt) permits).ok acted.run
  have reasoned := (Engine.execute_reasoned turn).ok acted.run turned.grows
  exact ⟨acted, settle_settled.ok acted.settled, running, calm, turn, permits, turned, (Engine.execute_led (e := t.fetchedEngine c f)).ok acted.run,
    fun x hx => (reasoned x hx).imp_right (strands_of_fetched acted.fiber)⟩

/-- What a step has done in a steady course. -/
theorem step_executed (steady : Steady log t) (sane : Sane True depth t) {done : StepOutcome} (run : step depth t = .ok (done, events) t') :
    (done = .finished ∧ events = [] ∧ t.Rests t') ∨
      ∃ c f i o e, done = .executed c f.pc ∧ Executed depth t c f i o events e t' := by
  rcases step_stages run with rests | ⟨c, f, i, o, e, rfl, acted⟩
  · exact .inl rests
  · exact .inr ⟨c, f, i, o, e, rfl, acted.executed steady sane⟩

namespace Executed

variable (executed : Executed depth t c f i o events e t')
include executed

theorem object (r : Ref) : t'.engine.store.objects[r]? = e.store.objects[r]? := by rw [executed.objects]

/-- Where the context has gone that has executed the instruction. -/
theorem own : ∃ g : Fiber, t'.engine.store.objects[c]? = some (.context g) ∧
    Leads i f.pc (t.fetchedStore c f) e.store o { f.bearing with pc := wrap (f.pc + 1) } g.bearing := by
  obtain ⟨g, hg, leads⟩ := executed.led.own _ (Store.context_set executed.fiber _)
  exact ⟨g, (executed.object c).trans hg, leads⟩

/-- What has become of another context. -/
theorem others {g : Fiber} (ne : x ≠ c) (hg : t.engine.store.objects[x]? = some (.context g)) :
    ∃ h : Fiber, t'.engine.store.objects[x]? = some (.context h) ∧ Bearing.Deepens g.bearing h.bearing := by
  obtain ⟨h, hh, deepens⟩ := executed.led.others x g ne ((List.getElem?_set_ne ne.symm).trans hg)
  exact ⟨h, (executed.object x).trans hh, deepens⟩

theorem wiring (r : Ref) : t'.engine.store.wiring r = e.store.wiring r := by
  rw [Store.wiring, Store.wiring, executed.object]

theorem blockedAt (r : Ref) : t'.engine.store.blockedAt r = e.store.blockedAt r := congrArg Wiring.blockedAt (executed.wiring r)

theorem waits (r : Ref) : t'.engine.store.waits r = e.store.waits r := congrArg Wiring.waits (executed.wiring r)

/-- A context that is blocked after the step of another one has been blocked before. -/
theorem stays_blocked (ne : x ≠ c) (blocked : (t'.engine.store.blockedAt x).isSome) :
    t'.engine.store.blockedAt x = t.engine.store.blockedAt x ∧ t'.engine.store.waits x = t.engine.store.waits x := by
  rw [executed.blockedAt] at blocked ⊢
  rw [executed.waits]
  rcases executed.turned.others x ne with none | ⟨same, waits⟩
  · rw [none] at blocked
    cases blocked
  · exact ⟨same.trans (executed.calm.blockedAt x), waits.trans (executed.calm.waits x)⟩

/-- The context itself is blocked after the step only if it has blocked, and then it stands behind its instruction. -/
theorem blocks (blocked : (t'.engine.store.blockedAt c).isSome) : o = .block ∧ t'.engine.store.blockedAt c = some (wrap (f.pc + 1)) := by
  rw [executed.blockedAt] at blocked ⊢
  have block : o = .block := by
    by_contra going
    have balanced := executed.turned.balanced
    rw [if_neg going] at balanced
    have idle : e.store.blockedAt c = none := balanced.running.idle
    rw [idle] at blocked
    cases blocked
  subst block
  refine ⟨rfl, ?_⟩
  obtain ⟨g, hg, leads⟩ := executed.own
  rw [executed.object] at hg
  obtain ⟨p, at_⟩ := Option.isSome_iff_exists.mp blocked
  rw [at_, ← (Store.blocked_of hg at_).2]
  exact congrArg (fun b => some b.pc) leads.blocked

end Executed

end Course

end FiberMachine.Ideal
