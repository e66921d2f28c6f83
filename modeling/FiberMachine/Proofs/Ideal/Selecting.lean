import FiberMachine.Proofs.Ideal.Acting
import FiberMachine.Proofs.Ideal.Exchanging

/-!
# Selecting

A select serves the first of its cases that can be served, takes the default, or waits with every case that has a channel. It does
one of these three, and it cannot fail.
-/

namespace FiberMachine.Ideal

variable {s s' s'' s₁ : Store} {c d q : Ref} {r : Request} {k : Duct} {f : Fiber} {qs : List Ref} {fiber fiber' : Ref → Fiber → Fiber}
  {duct duct' : Ref → Duct → Duct} {filled : Ref → Prop}

/-- The channel of a request. -/
def Store.channelOf (s : Store) (q : Ref) : Ref := ((s.objects[q]?.bind Obj.request?).map Request.channel).getD unassigned

theorem Store.IsRequest.channelOf (hr : s.IsRequest q r) : s.channelOf q = r.channel := by
  rw [Store.channelOf, show s.objects[q]? = _ from hr]
  rfl

/-- What becomes of contexts when `c` waits with the requests, as far as they have a channel. -/
def entered (channel : Ref → Ref) (c : Ref) (qs : List Ref) (x : Ref) (f : Fiber) : Fiber :=
  if x = c then { f with waits := f.waits ++ qs.filter fun q => channel q ≠ unassigned } else f

/-- What becomes of a channel when the requests wait. -/
def joined (channel : Ref → Ref) (qs : List Ref) (d : Ref) (k : Duct) : Duct :=
  { k with waiters := k.waiters ++ qs.filter fun q => channel q = d }

namespace Store.Becomes

theorem refl : s.Becomes (fun _ f => f) (fun _ k => k) (fun _ => False) s :=
  ⟨rfl, .refl, fun _ _ hf => hf, fun _ _ hk => hk, fun _ => False.elim, fun _ _ _ _ _ ho => ho⟩

/-- Before or after something that fills no frame. -/
theorem trans (first : s.Becomes fiber duct (fun _ => False) s') (next : s'.Becomes fiber' duct' filled s'')
    (frames : ∀ x, filled x → ∃ t xs, s.objects[x]? = some (.sequence t xs)) :
    s.Becomes (fun x f => fiber' x (fiber x f)) (fun d k => duct' d (duct d k)) filled s'' where
  length := next.length.trans first.length
  grows := first.grows.trans next.grows
  contexts x f hf := next.contexts x _ (first.contexts x f hf)
  channels d k hk := next.channels d _ (first.channels d k hk)
  frames := frames
  others x o context channel unfilled ho := next.others x o context channel unfilled (first.others x o context channel id ho)

theorem congr (b : s.Becomes fiber duct filled s')
    (fibers : ∀ (x : Ref) (f : Fiber), s.objects[x]? = some (.context f) → fiber' x f = fiber x f)
    (ducts : ∀ (d : Ref) (k : Duct), s.objects[d]? = some (.channel k) → duct' d k = duct d k) : s.Becomes fiber' duct' filled s' :=
  { b with
    contexts x f hf := fibers x f hf ▸ b.contexts x f hf
    channels d k hk := ducts d k hk ▸ b.channels d k hk }

/-- Registers are replaced. -/
theorem setContext {g : Fiber} (hf : s.objects[c]? = some (.context f)) (id : g.id = f.id) :
    s.Becomes (fun x h => if x = c then g else h) (fun _ k => k) (fun _ => False) (s.set c (.context g)) where
  length := List.length_set
  grows := .set hf (by simp only [Obj.frozen, id])
  contexts x h hh := by
    split
    next same =>
      subst same
      exact Store.context_set hf g
    next other => exact (List.getElem?_set_ne fun same => other same.symm).trans hh
  channels d k hk := by
    refine (List.getElem?_set_ne ?_).trans hk
    rintro rfl
    cases hf.symm.trans hk
  frames _ := False.elim
  others x o context _ _ ho := by
    refine (List.getElem?_set_ne ?_).trans ho
    rintro rfl
    exact context f (Option.some.inj (ho.symm.trans hf))

end Store.Becomes

/-! ### Waiting -/

theorem Unrefusing.opposes {u : Direction} : Unrefusing (opposes c u qs) := by
  induction qs with
  | nil => exact .pure _
  | cons q rest ih =>
    refine .bind .look fun r => ?_
    split
    · exact .pure _
    · exact ih

theorem Unrefusing.park : Unrefusing (park q) := by
  refine .bind .look fun r => .bind .look fun k => .bind .opposes fun opposed => ?_
  have rest : Unrefusing (do
      Ideal.expectRegistered r.context
      Ideal.replace r.channel (.channel { k with waiters := k.waiters ++ [q] })
      Ideal.withRoots [q] (Ideal.update r.context fun f => { f with waits := f.waits ++ [q] })
      return ((), [Event.parked r.channel r.direction q])) :=
    .bind .expectRegistered fun _ => .bind .replace fun _ => .bind (.withRoots .update) fun _ => .pure _
  cases opposed with
  | false => exact rest
  | true => exact .bind (fun s cause same => by cases same; rfl) fun _ => rest

/-- What parking a request does to the registers of its context. -/
theorem park_fares (hr : s.IsRequest q r) (hf : s.objects[r.context]? = some (.context f)) :
    Safe Any (park q) s fun _ s' => Fares s r.context { f with waits := f.waits ++ [q] } s' := by
  refine request_bind hr (Safe.look_bind (fun k seen => ?_) fun _ => trivial)
  refine Safe.bind (Guiding.opposes_same.relax fun _ _ => trivial) ?_
  rintro opposed _ rfl
  cases opposed with
  | true => exact Safe.bind (Q := fun _ _ => False) trivial fun _ _ no => no.elim
  | false =>
    refine Safe.bind (Guiding.expectRegistered_same.relax fun _ _ => trivial) ?_
    rintro _ s rfl
    have isChannel := object_of_duct seen
    refine Safe.bind (Q := fun _ s' => s.Except (fun _ => False) s') (Safe.replace (.channel isChannel)) fun _ s₁ kept => ?_
    have updated : Safe Any (withRoots [q] (update r.context fun f => { f with waits := f.waits ++ [q] })) s₁ fun _ s' =>
        Fares s₁ r.context { f with waits := f.waits ++ [q] } s' :=
      Safe.withRoots ((Fares.update (s := { s₁ with temporaries := s₁.temporaries ++ [q] }) (kept.context hf id)).weaken fun _ _ fares =>
        ⟨fares.fiber, fares.others.length, fares.others.keeps⟩)
    exact updated.bind fun _ s' fares => .pure ⟨fares.fiber, (kept.mono fun _ => False.elim).trans fares.others⟩

/-- The request of `c` waits on its channel. -/
theorem Parked.becomes (parked : Parked s c r.channel q s') (fares : Fares s c { f with waits := f.waits ++ [q] } s')
    (hf : s.objects[c]? = some (.context f)) (hr : s.IsRequest q r) (some : r.channel ≠ unassigned) :
    s.Becomes (entered s.channelOf c [q]) (joined s.channelOf [q]) (fun _ => False) s' where
  length := fares.others.length
  grows := parked.proceeds.grows
  contexts x g hg := by
    unfold entered
    split
    next same =>
      subst same
      cases hf.symm.trans hg
      simpa [hr.channelOf, some] using fares.fiber
    next other => exact fares.others.context hg other
  channels d k hk := by
    rw [parked.proceeds.grows.channel hk, parked.buffer, parked.waiters, Store.buffer_of hk, Store.waiters_of hk]
    by_cases same : d = r.channel
    · simp [joined, hr.channelOf, same]
    · simp [joined, hr.channelOf, same, Ne.symm same]
  frames _ := False.elim
  others x o context channel _ ho := by
    refine fares.others.keeps x o ?_ channel ho
    rintro rfl
    exact context f (Option.some.inj (ho.symm.trans hf))

/-- What is said of the channels of requests does not depend on the order in which they are entered. -/
theorem entered_trans {channel channel' : Ref → Ref} {rest : List Ref} (same : ∀ q ∈ rest, channel' q = channel q) (x : Ref) (f : Fiber) :
    entered channel' c rest x (entered channel c [q] x f) = entered channel c (q :: rest) x f := by
  unfold entered
  split
  · have kept : (rest.filter fun q => channel' q ≠ unassigned) = rest.filter fun q => channel q ≠ unassigned :=
      List.filter_congr fun q hq => by rw [same q hq]
    rw [kept, List.append_assoc, ← List.filter_append, List.singleton_append]
  · rfl

theorem joined_trans {channel channel' : Ref → Ref} {rest : List Ref} (same : ∀ q ∈ rest, channel' q = channel q) (d : Ref) (k : Duct) :
    joined channel' rest d (joined channel [q] d k) = joined channel (q :: rest) d k := by
  have kept : (rest.filter fun q => channel' q = d) = rest.filter fun q => channel q = d := List.filter_congr fun q hq => by rw [same q hq]
  simp only [joined, kept, List.append_assoc, ← List.filter_append, List.singleton_append]

/-- The requests that have a channel wait. -/
theorem parkAll_parks (entering : Entering s c) (requests : ∀ q ∈ qs, ∃ r, s.IsRequest q r ∧ r.context = c ∧
    (r.channel ≠ unassigned → s.IsTag r.channel .channel ∧ Blockable s c r)) :
    Safe Never (Engine.parkAll qs) s fun _ s' => s.Becomes (entered s.channelOf c qs) (joined s.channelOf qs) (fun _ => False) s' := by
  induction qs generalizing s with
  | nil =>
    exact Safe.of_ok (a := ((), [])) rfl (Store.Becomes.refl.congr (fun _ _ _ => by simp [entered]) fun _ _ _ => by simp [joined])
  | cons q rest ih =>
    obtain ⟨r, hr, rfl, given⟩ := requests q List.mem_cons_self
    refine Safe.skip (a := r) (request_run hr) ?_
    have known : ∀ p ∈ rest, ∃ r, s.IsRequest p r := fun p hp => (requests p (List.mem_cons_of_mem _ hp)).imp fun _ => And.left
    split
    next some =>
      obtain ⟨isChannel, blockable⟩ := given some
      obtain ⟨f, hf⟩ := entering.typed.canonical (entering.typed.isContext hr)
      have parks : Safe Never (park q) s fun p s' => (p.2 = [.parked r.channel r.direction q] ∧ Parked s r.context r.channel q s' ∧
          Enters s r.context p.2 s') ∧ Fares s r.context { f with waits := f.waits ++ [q] } s' :=
        Safe.never ((park_enters entering hr rfl isChannel blockable).both (park_fares hr hf)) (Unrefusing.park s)
      refine parks.bind ?_
      rintro ⟨_, _⟩ s₁ ⟨⟨_, parked, enters⟩, fares⟩
      have grows := enters.proceeds.grows
      refine (ih enters.entering fun p hp => ?_).bind fun _ s' rest => .pure ?_
      · obtain ⟨r', hr', own, given'⟩ := requests p (List.mem_cons_of_mem _ hp)
        refine ⟨r', hr'.grow grows, own, fun some => ?_⟩
        obtain ⟨isChannel', blockable'⟩ := given' some
        exact ⟨isChannel'.grow grows, parked.blockable blockable' entering.typed hr rfl isChannel'.known⟩
      · have same : ∀ p ∈ _, s₁.channelOf p = s.channelOf p := fun p hp => by
          obtain ⟨r', hr'⟩ := known p hp
          rw [hr'.channelOf, (hr'.grow grows).channelOf]
        have both := (parked.becomes fares hf hr some).trans rest fun _ => False.elim
        simpa only [entered_trans same, joined_trans same] using both
    next none =>
      refine (ih entering fun p hp => requests p (List.mem_cons_of_mem _ hp)).bind fun _ s' rest => .pure ?_
      have none : r.channel = unassigned := not_not.mp none
      refine rest.congr (fun x f _ => by simp [entered, hr.channelOf, none]) fun d k hk => ?_
      have ne : unassigned ≠ d := by
        rintro rfl
        exact nomatch Store.IsTag.unique ⟨_, hk, rfl⟩ entering.typed.nil
      simp [joined, hr.channelOf, none, ne]

/-! ### Choosing -/

/-- None of the cases can be served. -/
def Store.Idles (s : Store) (qs : List Ref) : Prop := ∀ q ∈ qs, ∀ r, s.IsRequest q r → ¬s.Ready r

/-- What a select has done that tries the cases in the given order. -/
inductive Selected (e : Engine) (c : Ref) (qs : List Ref) : Option Nat → Outcome → Engine → Prop
  | serves {before after : List Ref} {q : Ref} {r : Request} {x : Exchange} {default? : Option Nat} {e' : Engine}
      (split : qs = before ++ q :: after) (idle : e.store.Idles before) (hr : e.store.IsRequest q r) (serves : e.store.Serves r x)
      (communicates : e.store.Communicates r x e'.store)
      (ready : e'.scheduler.ready = e.scheduler.ready ++ (x.partner.map (·.1.context)).toList) : Selected e c qs default? .proceed e'
  | defaults {target : Nat} {f : Fiber} {e' : Engine} (idle : e.store.Idles qs) (hf : e.store.objects[c]? = some (.context f))
      (same : e'.store = e.store.set c (.context { f with pc := wrap target })) (scheduler : e'.scheduler = e.scheduler) :
      Selected e c qs (some target) .proceed e'
  | waits {e' : Engine} (idle : e.store.Idles qs)
      (becomes : e.store.Becomes
        (fun x f => if x = c then { f with blocked := true, waits := qs.filter fun q => e.store.channelOf q ≠ unassigned } else f)
        (joined e.store.channelOf qs) (fun _ => False) e'.store)
      (scheduler : e'.scheduler = e.scheduler) : Selected e c qs none .block e'

/-- The woken context is queued. -/
theorem wakeOption_run {e : Engine} {woken : Option Ref} (registered : ∀ x ∈ woken.toList, x ∈ e.store.contexts) :
    Engine.wakeOption woken e =
      .ok .proceed { e with scheduler := { e.scheduler with ready := e.scheduler.ready ++ woken.toList } } := by
  cases woken with
  | none =>
    rw [Option.toList_none, List.append_nil]
    rfl
  | some x =>
    have known : expectRegistered x e.store = .ok () e.store := if_pos (registered x (List.mem_singleton_self x))
    simp only [Engine.wakeOption, Engine.enqueue, run_bind, Engine.run_store, known]
    rfl

/-- A case is served, the default is taken, or the context waits. -/
theorem selectAmong_selects {e : Engine} {default? : Option Nat} (turn : Engine.Turn e c)
    (requests : ∀ q ∈ qs, ∃ r, e.store.IsRequest q r ∧ r.context = c) :
    Safe Never (Engine.selectAmong c qs default?) e fun p e' => Selected e c qs default? p.1 e' := by
  obtain ⟨linked, running⟩ := turn
  obtain ⟨f, hf⟩ := linked.typed.canonical (linked.typed.contexts c running.registered)
  refine Engine.store_bind ((takeReady_settles linked running requests).both
    ((takeReady_safe (F := True) linked running requests).relax fun _ _ => trivial)) ?_
  rintro ⟨outcome, events⟩ s₁ ⟨found, safe⟩
  cases outcome with
  | some woken =>
    obtain ⟨before, q, after, r, x, split, hr, idle, serves, rfl, communicates⟩ := found
    obtain ⟨exchanged, _⟩ := safe
    refine Safe.bind (Q := fun o e' => o = .proceed ∧ Selected e c qs default? o e') (Safe.of_ok (wakeOption_run (exchanged.registered linked))
      ⟨rfl, .serves split idle hr serves communicates rfl⟩) ?_
    rintro _ e' ⟨rfl, selected⟩
    exact .pure selected
  | none =>
    obtain ⟨rfl, idle⟩ := found
    cases default? with
    | some target =>
      refine Engine.store_bind (R := fun _ s' => s' = e.store.set c (.context { f with pc := wrap target }))
        (Safe.of_ok (update_run hf) rfl) ?_
      rintro _ _ rfl
      exact .pure (.defaults idle hf rfl rfl)
    | none =>
      have nothing : f.waits = [] := Store.waits_of hf ▸ linked.wired.nothing running.idle
      refine Engine.store_bind (parkAll_parks (linked.entering running) fun q hq => ?_) ?_
      · obtain ⟨r, hr, own⟩ := requests q hq
        obtain ⟨_, channelled, _⟩ := linked.typed.good q _ hr
        exact ⟨r, hr, own, fun some => ⟨channelled.resolve_left some, safe.2 q hq r hr some⟩⟩
      intro _ s₂ parks
      have hg := parks.contexts c f hf
      have blocks := Store.Becomes.setContext (g := { entered e.store.channelOf c qs c f with blocked := true }) hg rfl
      refine Engine.store_bind (R := fun _ s' => s' = _) (Safe.of_ok (update_run hg) rfl) ?_
      rintro _ _ rfl
      refine .pure (.waits idle ((parks.trans blocks fun _ => False.elim).congr (fun x f' hf' => ?_) fun _ _ _ => rfl) rfl)
      dsimp only
      split
      next same =>
        subst same
        cases hf.symm.trans hf'
        simp [entered, nothing]
      next other => simp [entered, other]

end FiberMachine.Ideal
