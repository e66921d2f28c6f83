import FiberMachine.Proofs.Ideal.Steering
import FiberMachine.Proofs.Ideal.Typing

/-!
# Where instructions lead

A context is led elsewhere by jumps, scopes, calls and returns, and when one of its requests is served. Whatever happens to a
context in one step of another, its saved environments and return markers stay, and at most one environment is saved.
-/

namespace FiberMachine.Ideal

variable {τ α β : Type} {view : τ → Store} {R : Bearing → Bearing → Prop} {s s' s'' : Store} {c d q r v env : Ref} {n : Nat}
  {xs : List Ref} {p : Request} {value : Option Ref} {events : List Event}

namespace Bearing

/-- The context has the same environment and will return to the same places. -/
structure Stays (x y : Bearing) : Prop where
  returns : y.returns = x.returns
  environment : y.environment = x.environment
  id : y.id = x.id

/-- The context may have entered another environment, and then the old one has been saved. -/
structure Deepens (x y : Bearing) : Prop where
  returns : y.returns = x.returns ∧ y.environment = x.environment ∨ y.returns = x.returns ++ [x.environment]
  id : y.id = x.id

variable {x y z : Bearing}

theorem Stays.refl (x : Bearing) : Stays x x := ⟨rfl, rfl, rfl⟩

theorem Stays.of_eq (e : x = y) : Stays x y := e ▸ .refl x

theorem Stays.trans (a : Stays x y) (b : Stays y z) : Stays x z :=
  ⟨b.returns.trans a.returns, b.environment.trans a.environment, b.id.trans a.id⟩

theorem Stays.deepens (a : Stays x y) : Deepens x y := ⟨.inl ⟨a.returns, a.environment⟩, a.id⟩

theorem Deepens.refl (x : Bearing) : Deepens x x := (Stays.refl x).deepens

theorem Deepens.stays (a : Deepens x y) (b : Stays y z) : Deepens x z := by
  refine ⟨?_, b.id.trans a.id⟩
  rw [b.returns, b.environment]
  exact a.returns

theorem Stays.deeper (a : Stays x y) (b : Deepens y z) : Deepens x z := by
  refine ⟨?_, b.id.trans a.id⟩
  have returns := b.returns
  rwa [a.returns, a.environment] at returns

end Bearing

open Bearing

namespace Store.Guides

theorem stays (a : s.Steers s') : s.Guides Stays s' := a.weaken fun _ _ => .of_eq

theorem deepens (a : s.Guides Stays s') : s.Guides Deepens s' := a.weaken fun _ _ => Stays.deepens

theorem staying (a : s.Guides Deepens s') (b : s'.Guides Stays s'') : s.Guides Deepens s'' :=
  trans (P := Deepens) (Q := Stays) (fun _ _ _ => Deepens.stays) a b

theorem deepening (a : s.Guides Stays s') (b : s'.Guides Deepens s'') : s.Guides Deepens s'' :=
  trans (P := Stays) (Q := Deepens) (fun _ _ _ => Stays.deeper) a b

end Store.Guides

/-! ### Registers -/

section

variable {f : Fiber} {h h' : Fiber → Fiber}

/-- The last of several changes of the registers counts. -/
theorem Store.set_context (f g : Fiber) : (s.set c (.context f)).set c (.context g) = s.set c (.context g) :=
  congrArg (Store.mk · s.contexts s.temporaries) (List.set_set ..)

theorem Store.context_set (ho : s.objects[c]? = some (.context f)) (g : Fiber) :
    (s.set c (.context g)).objects[c]? = some (.context g) := List.getElem?_set_self (List.getElem?_eq_some_iff.mp ho).1

theorem update_set (ho : s.objects[c]? = some (.context f)) :
    Safe Lapse.Ordinary (update c h) s fun _ s' => s' = s.set c (.context (h f)) :=
  Safe.look_bind (fun g seen => by
    rw [object_of_fiber seen] at ho
    cases ho
    exact Safe.replace rfl) fun _ => trivial

theorem pushReturn_set (ho : s.objects[c]? = some (.context f)) :
    Safe Lapse.Ordinary (pushReturn c v) s fun _ s' => s' = s.set c (.context { f with returns := f.returns ++ [v] }) := by
  refine Safe.bind Guiding.expectRegistered_same ?_
  rintro _ _ rfl
  exact update_set ho

theorem enterEnvironment_set (ho : s.objects[c]? = some (.context f)) : Safe Lapse.Ordinary (enterEnvironment c env) s fun _ s' =>
    s' = s.set c (.context { f with returns := f.returns ++ [f.environment], environment := env }) :=
  Safe.look_bind (fun g seen => by
    have same := object_of_fiber seen
    rw [ho] at same
    cases same
    refine Safe.bind (Q := fun _ s' => s' = s.set c (.context { f with returns := f.returns ++ [f.environment] })) ?_ ?_
    · refine Safe.withRoots ((pushReturn_set (s := { s with temporaries := s.temporaries ++ [env] }) ho).weaken ?_)
      rintro _ _ rfl
      exact congrArg (Store.mk _ _) List.take_left
    · rintro _ _ rfl
      refine (update_set (Store.context_set ho _)).weaken ?_
      rintro _ _ rfl
      exact Store.set_context _ _) fun _ => trivial

end

namespace Guiding

theorem join {P Q : Bearing → Bearing → Prop} {m : EStateM Lapse τ β} {k : β → EStateM Lapse τ α} (first : Guiding P view m)
    (next : ∀ b, Guiding Q view (k b)) (join : ∀ x y z, P x y → Q y z → R x z) : Guiding R view (m >>= k) := fun t =>
  (first t).bind fun b t' s => (next b t').weaken fun _ _ s' => s.trans join s'

theorem setPc : Guiding Stays id (Ideal.setPc c n) := update (fun _ => ⟨rfl, rfl, rfl⟩) fun _ => .refl _

/-- The old environment is saved, and another takes its place. -/
theorem enterEnvironment : Guiding Deepens id (Ideal.enterEnvironment c env) := by
  intro s
  cases seen : s.objects[c]?.bind Obj.fiber? with
  | none =>
    refine Safe.look_bind (fun f some => ?_) fun _ => trivial
    rw [seen] at some
    cases some
  | some f =>
    have ho := object_of_fiber seen
    refine (enterEnvironment_set ho).weaken ?_
    rintro _ _ rfl
    exact .set ho (fun _ same => by cases same; exact ⟨_, rfl, .inr rfl, rfl⟩) (fun _ => .refl _) nofun

/-! ### Serving requests -/

theorem deliver : Guiding Deepens id (Ideal.deliver q c v) := by
  refine after request fun p => ?_
  split
  · exact pushOperand.weaken fun _ _ e => (Stays.of_eq e).deepens
  · exact after setItem fun _ => after request fun _ => enterEnvironment

/-- A sender goes on where it was. -/
theorem completeSend : Guiding Stays id (complete q none) :=
  withRoots (after request fun _ => after expectRegistered fun _ => after request fun _ =>
    before setPc fun _ => .bind cancelWaits fun _ => .bind setBlocked fun _ => .pure _)

theorem complete : Guiding Deepens id (Ideal.complete q value) := by
  cases value with
  | none => exact completeSend.weaken fun _ _ => Stays.deepens
  | some v =>
    refine withRoots (after request fun p => after expectRegistered fun _ => join deliver (fun _ => ?_) fun _ _ _ => Deepens.stays)
    exact after request fun _ => before setPc fun _ => .bind cancelWaits fun _ => .bind setBlocked fun _ => .pure _

end Guiding


section

variable {t : Direction}

theorem trySend_leads : Safe Lapse.Ordinary (trySend d v) s fun p s' =>
    s.Guides Deepens s' ∧ (p.1 = .wouldBlock → s.Steers s') ∧ ∀ x, .stranded x ∉ p.2 := by
  refine Safe.bind (Guiding.takeWaiter s) fun found s₁ first => ?_
  cases found with
  | some q =>
    refine (Guiding.complete s₁).bind fun woken s₂ second => ?_
    exact .pure ⟨first.after second, nofun, by simp⟩
  | none =>
    refine (Guiding.tryPush s₁).bind fun added s₂ second => ?_
    have both := first.after second
    cases added with
    | true => exact .pure ⟨both.stays.deepens, nofun, by simp⟩
    | false => exact .pure ⟨both.stays.deepens, fun _ => both, by simp⟩

theorem tryRecv_leads : Safe Lapse.Ordinary (tryRecv d) s fun p s' =>
    s.Guides Stays s' ∧ (p.1 = .wouldBlock → s.Steers s') ∧ ∀ x, .stranded x ∉ p.2 := by
  refine (Guiding.popBuffer s).bind fun popped s₁ first => ?_
  cases popped with
  | some value =>
    refine (Guiding.takeWaiter s₁).bind fun found s₂ second => ?_
    have both := first.after second
    cases found with
    | none => exact .pure ⟨both.stays, nofun, by simp⟩
    | some q =>
      refine (Guiding.request s₂).bind fun p s₃ third => ?_
      refine (Guiding.tryPush s₃).bind fun _ s₄ fourth => ?_
      refine (Guiding.withRoots Guiding.completeSend s₄).bind fun woken s₅ fifth => ?_
      exact .pure ⟨((both.after third).after fourth).after fifth, nofun, by simp⟩
  | none =>
    refine (Guiding.takeWaiter s₁).bind fun found s₂ second => ?_
    have both := first.after second
    cases found with
    | none => exact .pure ⟨both.stays, fun _ => both, by simp⟩
    | some q =>
      refine (Guiding.request s₂).bind fun p s₃ third => ?_
      refine (Guiding.withRoots Guiding.completeSend s₃).bind fun woken s₄ fourth => ?_
      exact .pure ⟨(both.after third).after fourth, nofun, by simp⟩

/-- A case is chosen, or nothing happens to the contexts. -/
def Chosen (s : Store) (p : Option (Option Ref) × List Event) (s' : Store) : Prop :=
  s.Guides Deepens s' ∧ (p.1 = none → s.Steers s') ∧ ∀ x, .stranded x ∉ p.2

theorem tryCase_leads : Safe Lapse.Ordinary (Engine.tryCase q) s (Chosen s) := by
  refine (Guiding.request s).bind fun p s₁ first => ?_
  dsimp only
  split
  · exact .pure ⟨first.stays.deepens, fun _ => first, nofun⟩
  refine (Guiding.request s₁).bind fun p s₂ second => ?_
  have before := first.after second
  cases p.direction with
  | send =>
    refine (Guiding.request s₂).bind fun p s₃ third => ?_
    have before := before.after third
    refine trySend_leads.bind fun r s₄ sent => ?_
    obtain ⟨sent, blocked, plain⟩ := sent
    obtain ⟨outcome, events⟩ := r
    have sent := before.after sent
    cases outcome with
    | delivered woken =>
      refine (Guiding.expectWoken s₄).bind fun _ s₅ fifth => ?_
      refine (Guiding.completeSend s₅).bind fun _ s₆ sixth => ?_
      exact .pure ⟨(sent.before fifth).staying sixth, nofun, plain⟩
    | buffered =>
      refine (Guiding.completeSend s₄).bind fun _ s₅ fifth => ?_
      exact .pure ⟨sent.staying fifth, nofun, plain⟩
    | wouldBlock => exact .pure ⟨sent, fun _ => before.after (blocked rfl), nofun⟩
  | recv =>
    refine tryRecv_leads.bind fun r s₃ received => ?_
    obtain ⟨received, blocked, plain⟩ := received
    obtain ⟨outcome, events⟩ := r
    have received := before.after received
    cases outcome with
    | received value woken =>
      refine (Guiding.expectWoken s₃).bind fun _ s₄ fourth => ?_
      refine (Guiding.complete s₄).bind fun _ s₅ fifth => ?_
      exact .pure ⟨(received.before fourth).deepening fifth, nofun, plain⟩
    | wouldBlock => exact .pure ⟨received.deepens, fun _ => before.after (blocked rfl), nofun⟩

theorem takeReady_leads : Safe Lapse.Ordinary (Engine.takeReady xs) s (Chosen s) := by
  induction xs generalizing s with
  | nil => exact .pure ⟨(Store.Guides.refl s).stays.deepens, fun _ => .refl s, nofun⟩
  | cons q rest ih =>
    refine tryCase_leads.bind fun p s₁ first => ?_
    obtain ⟨_ | woken, events⟩ := p
    · have first := first.2.1 rfl
      exact ih.weaken fun _ _ more => ⟨first.after more.1, fun none => first.after (more.2.1 none), more.2.2⟩
    · exact .pure first

end

/-! ### Objects besides the registers -/

/-- What was there is still there. -/
theorem Store.old_push {o o' : Obj} (ho : s.objects[r]? = some o) : (s.push o').objects[r]? = some o :=
  (List.getElem?_append_left (List.getElem?_eq_some_iff.mp ho).1).trans ho

/-! ### Observations -/

theorem popReturn_set : Safe Lapse.Ordinary (popReturn c) s fun v s' => ∃ f : Fiber, s.objects[c]? = some (.context f) ∧
    f.returns = f.returns.dropLast ++ [v] ∧ s' = s.set c (.context { f with returns := f.returns.dropLast }) :=
  Safe.look_bind (fun f seen => by
    cases last : f.returns.getLast? with
    | none => trivial
    | some v =>
      refine Safe.bind (Q := fun _ s' => s' = s.set c (.context { f with returns := f.returns.dropLast })) (Safe.replace rfl) ?_
      rintro _ _ rfl
      exact .pure ⟨f, object_of_fiber seen, (List.dropLast_append_getLast? v last).symm, rfl⟩) fun _ => trivial

theorem update_seen {h : Fiber → Fiber} : Safe Lapse.Ordinary (update c h) s fun _ s' => ∃ f : Fiber, s.objects[c]? = some (.context f) ∧
    s' = s.set c (.context (h f)) := Safe.look_bind (fun f seen => Safe.replace ⟨f, object_of_fiber seen, rfl⟩) fun _ => trivial

theorem pushReturn_seen : Safe Lapse.Ordinary (pushReturn c v) s fun _ s' => ∃ f : Fiber, s.objects[c]? = some (.context f) ∧
    s' = s.set c (.context { f with returns := f.returns ++ [v] }) := by
  refine Safe.bind Guiding.expectRegistered_same ?_
  rintro _ _ rfl
  exact update_seen

theorem pushOperand_set : Safe Lapse.Ordinary (pushOperand c v) s fun _ s' => ∃ f : Fiber, s.objects[c]? = some (.context f) ∧
    s' = s.set c (.context { f with operands := f.operands ++ [v] }) := by
  refine Safe.bind Guiding.expectRegistered_same ?_
  rintro _ _ rfl
  exact update_seen

theorem fiber_seen : Safe Lapse.Ordinary (fiber c) s fun f s' => s' = s ∧ s.objects[c]? = some (.context f) :=
  Safe.look (fun _ seen => ⟨rfl, object_of_fiber seen⟩) fun _ => trivial

theorem tag_seen : Safe Lapse.Ordinary (tag r) s fun t s' => s' = s ∧ s.IsTag r t :=
  Safe.look (fun u seen => by
    obtain ⟨o, ho, eq⟩ := object_of_view seen
    exact ⟨rfl, o, ho, Option.some.inj eq⟩) fun _ => trivial

theorem expect_seen {t : Tag} : Safe Lapse.Ordinary (expect r t) s fun _ s' => s' = s ∧ s.IsTag r t := by
  refine tag_seen.bind ?_
  rintro u _ ⟨rfl, found⟩
  split
  · trivial
  next same => exact .pure ⟨rfl, not_ne_iff.mp same ▸ found⟩

/-- Other objects are as they were. -/
theorem Store.unset {o : Obj} {g : Fiber} (ho : (s.set c (.context g)).objects[r]? = some o) (other : ∀ f, o ≠ .context f) :
    s.objects[r]? = some o := by
  by_cases same : c = r
  · subst same
    have inside := (List.getElem?_eq_some_iff.mp ho).1
    rw [Store.set, List.length_set] at inside
    rw [Store.set, List.getElem?_set_self inside] at ho
    exact absurd (Option.some.inj ho).symm (other g)
  · exact (List.getElem?_set_ne same).symm.trans ho

theorem Store.IsTag.unset {t : Tag} {g : Fiber} (is : (s.set c (.context g)).IsTag r t) (other : t ≠ .context) : s.IsTag r t := by
  obtain ⟨o, ho, rfl⟩ := is
  exact ⟨o, Store.unset ho (fun f same => other (same ▸ rfl)), rfl⟩

/-- The registers of a context change that is newer than all contexts of interest. -/
theorem Store.Guides.set_new {s₁ : Store} {g : Fiber} (steers : s.Steers s') (before : s.Steers s₁) (new : s₁.objects.length ≤ r) :
    s.Steers (s'.set r (.context g)) where
  fibers c f hf := by
    obtain ⟨f₁, hf₁, _⟩ := before.fibers c f hf
    obtain ⟨f', hf', same⟩ := steers.fibers c f hf
    have older : r ≠ c := fun e => absurd (List.getElem?_eq_some_iff.mp hf₁).1 (e ▸ Nat.not_lt.mpr new)
    exact ⟨f', (List.getElem?_set_ne older).trans hf', same⟩
  channels d k hk := steers.channels d k (Store.unset hk nofun)

/-- What a return marker says. -/
theorem target_seen {t : Tag} (is : s.IsTag r t) : Safe Lapse.Ordinary (target r) s fun p s' => s' = s ∧
    ∃ w, s.objects[r]? = some (.number t w) ∧ p = if w = ReturnMarker.ending then none else some w.toNat :=
  Safe.look_bind (fun w seen => by
    obtain ⟨o, ho, rfl⟩ := is
    obtain ⟨o', ho', eq⟩ := object_of_view seen
    rw [ho] at ho'
    cases ho'
    cases o <;> cases eq
    exact .pure ⟨rfl, w, ho, rfl⟩) fun _ => trivial

/-! ### Instructions -/

/-- Where the instruction `i`, fetched from `pc`, leads the context that executes it. -/
inductive Leads (i : Instruction) (pc : Nat) (s s' : Store) : Outcome → Bearing → Bearing → Prop
  | stays {o : Outcome} {x : Bearing} (inside : i ≠ .exitScope ∧ i ≠ .ret) (done : o = .finish → i = .done) : Leads i pc s s' o x x
  | deepens {x y : Bearing} (inside : i ≠ .exitScope ∧ i ≠ .ret) (deepens : Deepens x y) : Leads i pc s s' .proceed x y
  /-- A call leaves a return marker, and the environment of the caller above it. -/
  | calls {n : Nat} {m : Ref} {x y : Bearing} (call : i = .call n)
      (marker : s'.objects[m]? = some (.number .callRef (UInt64.ofNat (pc + 1)))) (returns : y.returns = x.returns ++ [m, x.environment])
      (id : y.id = x.id) : Leads i pc s s' .proceed x y
  | exits {x y : Bearing} (exit : i = .exitScope) (returns : x.returns = y.returns ++ [y.environment])
      (scope : s.IsTag y.environment .environment) (id : y.id = x.id) : Leads i pc s s' .proceed x y
  /-- A return goes back to the last return marker; the environment that was saved first above it is entered again. -/
  | returns {o : Outcome} {m : Ref} {w : Word} {es : List Ref} {x y : Bearing} (ret : i = .ret)
      (returns : x.returns = y.returns ++ m :: es) (marker : s.objects[m]? = some (.number .callRef w))
      (scopes : ∀ e ∈ es, s.IsTag e .environment) (environment : (es ++ [x.environment]).head? = some y.environment)
      (id : y.id = x.id) (goes : w ≠ ReturnMarker.ending → o = .proceed ∧ y.pc = wrap w.toNat)
      (ends : w = ReturnMarker.ending → o = .finish) : Leads i pc s s' o x y

/-- What the store was before matters only for those that leave a scope or a call. -/
theorem Leads.later {i : Instruction} {pc : Nat} {s₁ : Store} {o : Outcome} {x y : Bearing} (leads : Leads i pc s₁ s' o x y)
    (inside : i ≠ .exitScope ∧ i ≠ .ret) : Leads i pc s s' o x y := by
  cases leads with
  | stays inside done => exact .stays inside done
  | deepens inside deepens => exact .deepens inside deepens
  | calls call marker returns id => exact .calls call marker returns id
  | exits exit => exact absurd exit inside.1
  | returns ret => exact absurd ret inside.2

/-- A context that blocks has been led nowhere. -/
theorem Leads.blocked {i : Instruction} {pc : Nat} {x y : Bearing} (leads : Leads i pc s s' .block x y) : y = x := by
  cases leads with
  | stays => rfl
  | @returns _ _ w _ _ _ _ _ _ _ _ _ goes ends =>
    by_cases ending : w = ReturnMarker.ending
    · cases ends ending
    · cases (goes ending).1

/-- Protection does not matter. -/
theorem Leads.reroot {i : Instruction} {pc : Nat} {o : Outcome} {x y : Bearing} {ts : List Ref} (leads : Leads i pc s s' o x y) :
    Leads i pc s { s' with temporaries := ts } o x y := by
  cases leads with
  | stays inside done => exact .stays inside done
  | deepens inside deepens => exact .deepens inside deepens
  | calls call marker returns id => exact .calls call marker returns id
  | exits exit returns scope id => exact .exits exit returns scope id
  | returns ret returns marker scopes environment id goes ends => exact .returns ret returns marker scopes environment id goes ends

/-- Where an instruction that the context `c` executes leads the contexts. -/
structure Led (i : Instruction) (pc : Nat) (c : Ref) (s : Store) (p : Outcome × List Event) (s' : Store) : Prop where
  own : ∀ f : Fiber, s.objects[c]? = some (.context f) →
    ∃ g : Fiber, s'.objects[c]? = some (.context g) ∧ Leads i pc s s' p.1 f.bearing g.bearing
  others : ∀ (x : Ref) (f : Fiber), x ≠ c → s.objects[x]? = some (.context f) →
    ∃ g : Fiber, s'.objects[x]? = some (.context g) ∧ Deepens f.bearing g.bearing
  /-- New channels are noted. -/
  channels : ∀ (d : Ref) (k : Duct), s'.objects[d]? = some (.channel k) → (∃ k : Duct, s.objects[d]? = some (.channel k)) ∨ .made d ∈ p.2

namespace Led

variable {i : Instruction} {pc : Nat} {o : Outcome}

theorem of_guides (guides : s.Guides Deepens s') (inside : i ≠ .exitScope ∧ i ≠ .ret) : Led i pc c s (.proceed, events) s' where
  own f hf := by
    obtain ⟨g, hg, deepens⟩ := guides.fibers c f hf
    exact ⟨g, hg, .deepens inside deepens⟩
  others x f _ hf := guides.fibers x f hf
  channels d k hk := .inl (guides.channels d k hk)

theorem of_steers (steers : s.Steers s') (inside : i ≠ .exitScope ∧ i ≠ .ret) (done : o = .finish → i = .done) :
    Led i pc c s (o, events) s' where
  own f hf := by
    obtain ⟨g, hg, same⟩ := steers.fibers c f hf
    exact ⟨g, hg, same ▸ .stays inside done⟩
  others x f _ hf := by
    obtain ⟨g, hg, same⟩ := steers.fibers x f hf
    exact ⟨g, hg, same ▸ .refl _⟩
  channels d k hk := .inl (steers.channels d k hk)

/-- The rest of the store is as it was. -/
theorem of_set {f g : Fiber} {o : Outcome} (ho : s.objects[c]? = some (.context f)) (leads : Leads i pc s (s.set c (.context g)) o f.bearing g.bearing) :
    Led i pc c s (o, events) (s.set c (.context g)) where
  own f' hf' := by
    rw [ho] at hf'
    cases hf'
    exact ⟨g, Store.context_set ho g, leads⟩
  others x f' ne hf' := ⟨f', (List.getElem?_set_ne ne.symm).trans hf', .refl _⟩
  channels d k hk := by
    refine .inl ?_
    by_cases same : c = d
    · subst same
      rw [Store.context_set ho] at hk
      cases hk
    · exact ⟨k, (List.getElem?_set_ne same).symm.trans hk⟩

/-- Nothing has led elsewhere before. -/
theorem after {s₁ : Store} {p : Outcome × List Event} (steers : s.Steers s₁) (inside : i ≠ .exitScope ∧ i ≠ .ret)
    (led : Led i pc c s₁ p s') : Led i pc c s p s' where
  own f hf := by
    obtain ⟨f₁, hf₁, same⟩ := steers.fibers c f hf
    obtain ⟨g, hg, leads⟩ := led.own f₁ hf₁
    exact ⟨g, hg, same ▸ leads.later inside⟩
  others x f ne hf := by
    obtain ⟨f₁, hf₁, same⟩ := steers.fibers x f hf
    exact same ▸ led.others x f₁ ne hf₁
  channels d k hk := by
    rcases led.channels d k hk with ⟨k, hk⟩ | made
    · exact .inl (steers.channels d k hk)
    · exact .inr made

theorem reroot {p : Outcome × List Event} {ts : List Ref} (led : Led i pc c s p s') : Led i pc c s p { s' with temporaries := ts } where
  own f hf := by
    obtain ⟨g, hg, leads⟩ := led.own f hf
    exact ⟨g, hg, leads.reroot⟩
  others := led.others
  channels := led.channels

end Led

namespace Engine

variable {e : Engine} {i : Instruction} {pc depth argc : Nat} {o : Outcome}

/-- An instruction that leads nowhere. -/
theorem proceeding_steers {m : EngineM Unit} (steering : Steering Engine.store m) (inside : i ≠ .exitScope ∧ i ≠ .ret) :
    Safe Lapse.Ordinary (proceeding m) e fun p e' => Led i pc c e.store p e'.store := by
  refine Safe.bind (Q := fun o e' => o = .proceed ∧ e.store.Steers e'.store) ?_ ?_
  · exact (steering e).bind fun _ e' steers => .pure ⟨rfl, steers⟩
  · rintro _ e' ⟨rfl, steers⟩
    exact .pure (.of_steers steers inside nofun)

theorem proceeding_guides {m : EngineM Unit} (guiding : Guiding Deepens Engine.store m) (inside : i ≠ .exitScope ∧ i ≠ .ret) :
    Safe Lapse.Ordinary (proceeding m) e fun p e' => Led i pc c e.store p e'.store := by
  refine Safe.bind (Q := fun o e' => o = .proceed ∧ e.store.Guides Deepens e'.store) ?_ ?_
  · exact (guiding e).bind fun _ e' guides => .pure ⟨rfl, guides⟩
  · rintro _ e' ⟨rfl, guides⟩
    exact .pure (.of_guides guides inside)

theorem quietly_led {m : EngineM Outcome} (f : Safe Lapse.Ordinary m e fun o e' => Led i pc c e.store (o, []) e'.store) :
    Safe Lapse.Ordinary (quietly m) e fun p e' => Led i pc c e.store p e'.store :=
  f.bind fun _ _ led => .pure led

theorem setPc_guiding : Guiding Deepens Engine.store (liftM (setPc c n) : EngineM Unit) :=
  .onStore (Guiding.setPc.weaken fun _ _ => Stays.deepens)

theorem execEnterScope_guiding : Guiding Deepens Engine.store (execEnterScope c n) :=
  .after (.protecting .newFrame) fun _ => .after (.onStore .fiber) fun _ => .after (.onStore .extend) fun _ => .onStore .enterEnvironment

/-! ### Scopes -/

theorem execExitScope_led : Safe Lapse.Ordinary (execExitScope c) e fun _ e' => Led .exitScope pc c e.store (.proceed, []) e'.store := by
  refine store_bind popReturn_set ?_
  rintro v _ ⟨f, ho, split, rfl⟩
  refine store_bind expect_seen ?_
  rintro _ _ ⟨rfl, scope⟩
  refine safe_store ((update_set (Store.context_set ho _)).weaken ?_)
  rintro _ _ rfl
  rw [Store.set_context]
  exact .of_set ho (.exits rfl split (scope.unset (by decide)) rfl)

/-! ### Calls -/

/-- What a context returns to, and what it enters on the way. The registers have been changed before. -/
theorem unwind_led {f g : Fiber} (ho : s.objects[c]? = some (.context f)) (hs : e.store = s.set c (.context g))
    (unwound : ∃ es, f.returns = g.returns ++ es ∧ (∀ r ∈ es, s.IsTag r .environment) ∧ (es ++ [f.environment]).head? = some g.environment)
    (id : g.id = f.id) : Safe Lapse.Ordinary (unwind c n) e fun o e' => Led .ret pc c s (o, []) e'.store := by
  induction n generalizing e g with
  | zero => trivial
  | succ n ih =>
    obtain ⟨es, returns, scopes, entered⟩ := unwound
    refine store_bind fiber_seen ?_
    rintro _ _ ⟨rfl, _⟩
    split
    · trivial
    refine store_bind popReturn_set ?_
    rintro v _ ⟨g', hg, last, rfl⟩
    rw [hs, Store.context_set ho] at hg
    cases hg
    have more : f.returns = g.returns.dropLast ++ v :: es := by rw [returns, last]; simp
    rw [hs, Store.set_context]
    refine store_bind tag_seen ?_
    rintro t _ ⟨rfl, is⟩
    cases t with
    | environment =>
      refine store_bind (update_set (Store.context_set ho _)) ?_
      rintro _ _ rfl
      rw [Store.set_context]
      exact ih rfl ⟨v :: es, more, List.forall_mem_cons.mpr ⟨is.unset (by decide), scopes⟩, rfl⟩ id
    | callRef =>
      refine store_bind (target_seen is) ?_
      rintro p _ ⟨rfl, w, marker, rfl⟩
      have marker := Store.unset marker nofun
      by_cases ending : w = ReturnMarker.ending
      · rw [if_pos ending]
        exact .pure (.of_set ho (.returns rfl more marker scopes entered id (fun other => absurd ending other) fun _ => rfl))
      · rw [if_neg ending]
        refine store_bind (update_set (Store.context_set ho _)) ?_
        rintro _ _ rfl
        rw [Store.set_context]
        exact .pure (.of_set ho (.returns rfl more marker scopes entered id (fun _ => ⟨rfl, rfl⟩) fun same => absurd same ending))
    | _ => trivial

theorem execReturn_led : Safe Lapse.Ordinary (execReturn c) e fun o e' => Led .ret pc c e.store (o, []) e'.store := by
  refine store_bind fiber_seen ?_
  rintro f _ ⟨rfl, ho⟩
  exact unwind_led ho (Store.set_same ho).symm ⟨[], (List.append_nil _).symm, nofun, rfl⟩ rfl

theorem callMethod_steers {receiver : Ref} {method : String} :
    Safe Lapse.Ordinary (callMethod c receiver method xs) e fun o e' => e.store.Steers e'.store ∧ o ≠ .finish := by
  refine Safe.both (Guiding.callMethod e) ?_
  refine Safe.any_bind fun t e => ?_
  split
  · refine Safe.any_bind fun _ e => Safe.any_bind fun _ e => Safe.any_bind fun _ e => Safe.any_bind fun _ e => ?_
    exact .pure nofun
  · refine Safe.any_bind fun _ e => Safe.any_bind fun _ e => Safe.any_bind fun _ e => ?_
    exact .pure nofun
  · refine Safe.any_bind fun _ e => Safe.any_bind fun b e => ?_
    cases b <;> exact .pure nofun
  · trivial

/-- A function has been called: a return marker is saved, and the environment of the caller. -/
def Entered (pc : Nat) (c : Ref) (s s' : Store) : Prop :=
  ∀ f : Fiber, s.objects[c]? = some (.context f) → ∃ (g : Fiber) (m : Ref), s'.objects[c]? = some (.context g) ∧
    s'.objects[m]? = some (.number .callRef (UInt64.ofNat (pc + 1))) ∧ g.returns = f.returns ++ [m, f.environment]

/-- A called function returns behind the call. -/
theorem enter_led {s : Store} {callee : Ref} {arguments : List Ref} (before : s.Steers e.store) : Safe Lapse.Ordinary (do
      expect callee .func
      let env ← bindArguments callee arguments
      let marker ← newMarker (some (pc + 1))
      pushReturn c marker
      enterEnvironment c env
      setPc c (← code callee).entry
      return Outcome.proceed : EngineM Outcome) e fun o e' => Led (.call n) pc c s (o, []) e'.store ∧ Entered pc c s e'.store := by
  refine (Guiding.onStore Guiding.expect e).bind fun _ e₄ fourth => (Guiding.bindArguments e₄).bind fun env e₅ fifth => ?_
  have before := (before.after fourth).after fifth
  refine store_bind (R := fun m s => m = e₅.store.objects.length ∧ s = e₅.store.push (.number .callRef (UInt64.ofNat (pc + 1))))
    (Safe.add ⟨rfl, rfl⟩) ?_
  rintro _ _ ⟨rfl, rfl⟩
  refine store_bind pushReturn_seen ?_
  rintro _ _ ⟨f, ho, rfl⟩
  refine store_bind (enterEnvironment_set (Store.context_set ho _)) ?_
  rintro _ _ rfl
  refine store_bind (R := fun _ s' => s' = _) (Safe.look (fun _ _ => rfl) fun _ => trivial) ?_
  rintro d _ rfl
  refine store_bind (update_set (Store.context_set (Store.context_set ho _) _)) ?_
  rintro _ _ rfl
  rw [Store.set_context, Store.set_context]
  -- the marker is the newest object; only the registers of the context are changed besides
  have pushed := before.after (Store.Guides.push (o := .number .callRef (UInt64.ofNat (pc + 1))) (by simp))
  have apart : c ≠ e₅.store.objects.length := by
    rintro rfl
    rw [Store.push, List.getElem?_concat_length] at ho
    cases ho
  have marker (g : Fiber) := (List.getElem?_set_ne (a := Obj.context g) apart).trans
    (List.getElem?_concat_length (l := e₅.store.objects) (a := .number .callRef (UInt64.ofNat (pc + 1))))
  refine .pure ⟨.after pushed (by simp) (.of_set ho (.calls rfl (marker _) (List.append_assoc f.returns _ _) rfl)), fun f₀ hf₀ => ?_⟩
  obtain ⟨f₁, hf₁, same⟩ := pushed.fibers c f₀ hf₀
  cases Option.some.inj (hf₁.symm.trans ho)
  refine ⟨_, _, Store.context_set ho _, marker _, (List.append_assoc f.returns _ _).trans ?_⟩
  rw [show f₀.returns = f.returns from congrArg Bearing.returns same, show f₀.environment = f.environment from congrArg Bearing.environment same]
  rfl

/-- A called function returns behind the call; a bound method has done its work. -/
theorem execCall_led : Safe Lapse.Ordinary (execCall c (pc + 1) n) e fun o e' => Led (.call n) pc c e.store (o, []) e'.store := by
  refine (Guiding.popMany e).bind fun arguments e₁ first => (Guiding.pop e₁).bind fun callee e₂ second => ?_
  refine (Guiding.onStore Guiding.tag e₂).bind fun t e₃ third => ?_
  have before := (first.after second).after third
  split
  · refine (Guiding.onStore Guiding.methodOf e₃).bind fun _ e₄ fourth => (Guiding.onStore Guiding.methodOf e₄).bind fun _ e₅ fifth => ?_
    refine (Guiding.onStore Guiding.bytes e₅).bind fun _ e₆ sixth => callMethod_steers.weaken fun o e' called => ?_
    exact .of_steers ((((before.after fourth).after fifth).after sixth).after called.1) ⟨nofun, nofun⟩ fun finish => absurd finish called.2
  exact (enter_led before).weaken fun _ _ entered => entered.1

/-! ### Communication -/

theorem wakeOption_steers {woken : Option Ref} : Safe Lapse.Ordinary (wakeOption woken) e fun o e' => o = .proceed ∧ e.store.Steers e'.store := by
  cases woken with
  | none => exact .pure ⟨rfl, .refl _⟩
  | some x => exact (Guiding.enqueue e).bind fun _ e' steers => .pure ⟨rfl, steers⟩

theorem blockForever_steers : Safe Lapse.Ordinary (blockForever c) e fun p e' => p = (.block, [.stranded c]) ∧ e.store.Steers e'.store :=
  (Guiding.onStore Guiding.setBlocked e).bind fun _ _ steers => .pure ⟨rfl, steers⟩

theorem parkRequest_steers : Safe Lapse.Ordinary (parkRequest p) e fun p e' => p.1 = .block ∧ e.store.Steers e'.store :=
  (Guiding.onStore Guiding.newRequest e).bind fun _ e₁ first => (Guiding.onStore Guiding.park e₁).bind fun _ e₂ second =>
    (Guiding.onStore Guiding.setBlocked e₂).bind fun _ _ third => .pure ⟨rfl, (first.after second).after third⟩

variable (inside : i ≠ .exitScope ∧ i ≠ .ret)
include inside

/-- Another context may go on. -/
theorem wake_led {woken : Option Ref} {s : Store} (guides : s.Guides Deepens e.store) :
    Safe Lapse.Ordinary (do return (← wakeOption woken, events)) e fun p e' => Led i pc c s p e'.store :=
  wakeOption_steers.bind fun _ _ ⟨same, steers⟩ => same ▸ .pure (.of_guides (guides.before steers) inside)

/-- The context blocks. -/
theorem block_led {s : Store} {m : EngineM (Outcome × List Event)} (steers : s.Steers e.store)
    (blocks : Safe Lapse.Ordinary m e fun p e' => p.1 = .block ∧ e.store.Steers e'.store) :
    Safe Lapse.Ordinary m e fun p e' => Led i pc c s p e'.store :=
  blocks.weaken fun _ _ ⟨block, more⟩ => .of_steers (steers.after more) inside fun finish => nomatch block.symm.trans finish

omit inside

theorem blockForever_led {s : Store} (inside : i ≠ .exitScope ∧ i ≠ .ret) (steers : s.Steers e.store) :
    Safe Lapse.Ordinary (blockForever c) e fun p e' => Led i pc c s p e'.store :=
  block_led inside steers (blockForever_steers.weaken fun _ _ ⟨same, more⟩ => ⟨congrArg Prod.fst same, more⟩)

theorem execSend_led : Safe Lapse.Ordinary (execSend c n) e fun p e' => Led .send pc c e.store p e'.store := by
  have inside : Instruction.send ≠ .exitScope ∧ Instruction.send ≠ .ret := ⟨nofun, nofun⟩
  refine (Guiding.pop e).bind fun value e₁ first => (Guiding.pop e₁).bind fun channel e₂ second => ?_
  refine (Guiding.onStore Guiding.expectChannel e₂).bind fun given e₃ third => ?_
  have before := (first.after second).after third
  cases given with
  | false => exact blockForever_led inside before
  | true =>
    refine (Guiding.protecting Guiding.copy e₃).bind fun copy e₄ fourth => ?_
    have before := before.after fourth
    refine store_bind trySend_leads ?_
    rintro ⟨outcome, events⟩ s₅ ⟨deepens, blocked, _⟩
    cases outcome with
    | delivered woken => exact wake_led inside (before.after deepens)
    | buffered => exact .pure (.of_guides (before.after deepens) inside)
    | wouldBlock => exact block_led inside (before.after (blocked rfl)) parkRequest_steers

theorem execRecv_led : Safe Lapse.Ordinary (execRecv c n) e fun p e' => Led .recv pc c e.store p e'.store := by
  have inside : Instruction.recv ≠ .exitScope ∧ Instruction.recv ≠ .ret := ⟨nofun, nofun⟩
  refine (Guiding.pop e).bind fun channel e₁ first => ?_
  refine (Guiding.onStore Guiding.expectChannel e₁).bind fun given e₂ second => ?_
  have before := first.after second
  cases given with
  | false => exact blockForever_led inside before
  | true =>
    refine store_bind tryRecv_leads ?_
    rintro ⟨outcome, events⟩ s₃ ⟨stays, blocked, _⟩
    cases outcome with
    | received value woken =>
      refine (Guiding.onStore Guiding.expectWoken _).bind fun _ e₄ fourth => (Guiding.push e₄).bind fun _ e₅ fifth => ?_
      exact wake_led inside (((before.after stays).deepens.before fourth).before fifth)
    | wouldBlock => exact block_led inside (before.after (blocked rfl)) parkRequest_steers

theorem execSelect_led {default? : Option Nat} :
    Safe Lapse.Ordinary (execSelect c n default?) e fun p e' => Led (.select n default?) pc c e.store p e'.store := by
  have inside : Instruction.select n default? ≠ .exitScope ∧ Instruction.select n default? ≠ .ret := ⟨nofun, nofun⟩
  refine (Guiding.popMany e).bind fun requests e₁ first => ?_
  refine (Guiding.forM (fun r => .onStore .expect) e₁).bind fun _ e₂ second => ?_
  refine (Guiding.shuffled e₂).bind fun requests e₃ third => ?_
  have before := (first.after second).after third
  refine store_bind takeReady_leads ?_
  rintro ⟨_ | woken, events⟩ s₄ ⟨deepens, blocked, _⟩
  · have before := before.after (blocked rfl)
    cases default? with
    | some target => exact (setPc_guiding _).bind fun _ e₅ led => .pure (.of_guides (before.after led) inside)
    | none =>
      refine block_led inside before ?_
      refine (Guiding.onStore Guiding.parkAll _).bind fun _ e₅ fifth => (Guiding.onStore Guiding.setBlocked e₅).bind fun _ _ sixth => ?_
      exact .pure ⟨rfl, fifth.after sixth⟩
  · exact wake_led inside (before.after deepens)

theorem execMakeChan_led {buffered : Bool} : Safe Lapse.Ordinary (do
      let ((), events) ← execMakeChan c buffered
      return (Outcome.proceed, events)) e fun p e' => Led (.makeChan buffered) pc c e.store p e'.store := by
  have inside : Instruction.makeChan buffered ≠ .exitScope ∧ Instruction.makeChan buffered ≠ .ret := ⟨nofun, nofun⟩
  have made {e' : Engine} (capacity : Int64) : Safe Lapse.Ordinary (do
      if capacity < 0 then Engine.abort (.invalidLength .channelCapacity capacity.toInt)
      let channel ← newChannel capacity.toInt.toNat
      Engine.push c channel
      return ((), [Event.made channel])) e' fun p e'' => Led (.makeChan buffered) pc c e'.store (.proceed, p.2) e''.store := by
    by_cases negative : capacity < 0
    · simp only [negative, if_true]
      trivial
    simp only [negative, if_false]
    refine store_bind (R := fun d s => d = e'.store.objects.length ∧ s = e'.store.push (.channel ⟨capacity.toInt.toNat, [], []⟩))
      (Safe.add ⟨rfl, rfl⟩) ?_
    rintro _ _ ⟨rfl, rfl⟩
    refine (Guiding.push _).bind fun _ e'' steers => .pure ⟨fun f hf => ?_, fun x f _ hf => ?_, fun d k hk => ?_⟩
    · obtain ⟨g, hg, same⟩ := steers.fibers c f (Store.old_push hf)
      exact ⟨g, hg, same ▸ .stays inside nofun⟩
    · obtain ⟨g, hg, same⟩ := steers.fibers x f (Store.old_push hf)
      exact ⟨g, hg, same ▸ .refl _⟩
    · obtain ⟨k, hk⟩ := steers.channels d k hk
      rcases Nat.lt_or_ge d e'.store.objects.length with old | new
      · exact .inl ⟨k, (List.getElem?_append_left old).symm.trans hk⟩
      · have inside := (List.getElem?_eq_some_iff.mp hk).1
        rw [Store.push, List.length_append, List.length_singleton] at inside
        have same : d = e'.store.objects.length := Nat.le_antisymm (Nat.lt_succ_iff.mp inside) new
        exact .inr (same ▸ List.mem_singleton_self _)
  refine Safe.bind (Q := fun q e' => Led (.makeChan buffered) pc c e.store (.proceed, q.2) e'.store) ?_ fun _ _ led => .pure led
  cases buffered with
  | true => exact (Guiding.popInt e).bind fun capacity e₁ first => (made capacity).weaken fun _ _ led => led.after first inside
  | false => exact made 0

/-- A new context does not change the others. -/
theorem execGo_steers : Steering Engine.store (execGo c n) := by
  intro e
  refine (Guiding.popMany e).bind fun arguments e₁ first => (Guiding.pop e₁).bind fun closure e₂ second => ?_
  refine (Guiding.onStore Guiding.expect e₂).bind fun _ e₃ third => (Guiding.bindArguments e₃).bind fun env e₄ fourth => ?_
  have before := ((first.after second).after third).after fourth
  refine Safe.bind (Q := fun _ e' => e'.store = e₄.store) (.of_ok rfl rfl) fun id e₅ same => ?_
  rw [← same] at before
  refine (Guiding.onStore Guiding.code e₅).bind fun d e₆ sixth => ?_
  have before := before.after sixth
  refine store_bind (R := fun child s => child = e₆.store.objects.length ∧ ∃ f, s = e₆.store.push (.context f)) (Safe.add ⟨rfl, _, rfl⟩) ?_
  rintro _ _ ⟨rfl, f, rfl⟩
  have steers := before.after (Store.Guides.push (o := .context f) nofun)
  refine Safe.bind (Q := fun _ e' => e.store.Steers e'.store) (.of_ok rfl ⟨steers.1, steers.2⟩) fun _ e₇ steers => ?_
  refine (Guiding.onStore Guiding.newMarker e₇).bind fun marker e₈ more => ?_
  refine store_bind pushReturn_seen ?_
  rintro _ _ ⟨g, _, rfl⟩
  exact (Guiding.enqueue _).weaken fun _ e' last => ((steers.after more).set_new before (Nat.le_refl _)).after last

theorem dispatch_led : Safe Lapse.Ordinary (dispatch depth c pc i) e fun p e' => Led i pc c e.store p e'.store := by
  have idle {o : Outcome} (done : o = .finish → i = .done) (inside : i ≠ .exitScope ∧ i ≠ .ret) :
      Safe Lapse.Ordinary (quietly (pure o)) e fun p e' => Led i pc c e.store p e'.store :=
    quietly_led (.pure (.of_steers (.refl _) inside done))
  cases i with
  | nop => exact idle nofun ⟨nofun, nofun⟩
  | loadInt v => exact proceeding_steers (.load .newInt) ⟨nofun, nofun⟩
  | loadFloat v => exact proceeding_steers (.load .newFloat) ⟨nofun, nofun⟩
  | loadBool v => exact proceeding_steers (.load .newBool) ⟨nofun, nofun⟩
  | loadString v => exact proceeding_steers (.load .newText) ⟨nofun, nofun⟩
  | loadDefault kind => exact proceeding_steers (.load .zeroValue) ⟨nofun, nofun⟩
  | loadUnassigned => exact proceeding_steers .push ⟨nofun, nofun⟩
  | pop => exact proceeding_steers (.bind .pop fun _ => .pure _) ⟨nofun, nofun⟩
  | dup => exact proceeding_steers (.bind (.onStore .peekOperand) fun _ => .push) ⟨nofun, nofun⟩
  | loadVar frame slot => exact proceeding_steers .execLoadVar ⟨nofun, nofun⟩
  | storeVar frame slot => exact proceeding_steers .execStoreVar ⟨nofun, nofun⟩
  | binary op => exact proceeding_steers .execBinary ⟨nofun, nofun⟩
  | unary op => exact proceeding_steers .execUnary ⟨nofun, nofun⟩
  | jump target => exact proceeding_guides setPc_guiding ⟨nofun, nofun⟩
  | jumpIfFalse target =>
    refine proceeding_guides (.after .popBool fun b => ?_) ⟨nofun, nofun⟩
    cases b
    · exact setPc_guiding
    · exact (Guiding.pure _).weaken fun _ _ e => (Stays.of_eq e).deepens
  | jumpIfTrue target =>
    refine proceeding_guides (.after .popBool fun b => ?_) ⟨nofun, nofun⟩
    cases b
    · exact (Guiding.pure _).weaken fun _ _ e => (Stays.of_eq e).deepens
    · exact setPc_guiding
  | enterScope names => exact proceeding_guides execEnterScope_guiding ⟨nofun, nofun⟩
  | exitScope => exact quietly_led (execExitScope_led.bind fun _ _ led => .pure led)
  | loadFunc entry params => exact proceeding_steers .execLoadFunc ⟨nofun, nofun⟩
  | call argc => exact quietly_led execCall_led
  | ret => exact quietly_led execReturn_led
  | loadMethod method => exact proceeding_steers .execLoadMethod ⟨nofun, nofun⟩
  | callMethod method argc =>
    refine quietly_led ?_
    refine (Guiding.popMany e).bind fun arguments e₁ first => (Guiding.pop e₁).bind fun receiver e₂ second => ?_
    refine callMethod_steers.weaken fun o e' called => ?_
    exact .of_steers ((first.after second).after called.1) ⟨nofun, nofun⟩ fun finish => absurd finish called.2
  | makeArray n => exact proceeding_steers .execMakeArray ⟨nofun, nofun⟩
  | makeSlice elem hasCap => exact proceeding_steers .execMakeSlice ⟨nofun, nofun⟩
  | index => exact proceeding_steers .execIndex ⟨nofun, nofun⟩
  | storeIndex => exact proceeding_steers .execStoreIndex ⟨nofun, nofun⟩
  | len => exact proceeding_steers .execLen ⟨nofun, nofun⟩
  | cap => exact proceeding_steers .execCap ⟨nofun, nofun⟩
  | slice low high => exact proceeding_steers .execSlice ⟨nofun, nofun⟩
  | append argc => exact proceeding_steers .execAppend ⟨nofun, nofun⟩
  | makeChan buffered => exact execMakeChan_led
  | send => exact execSend_led
  | recv => exact execRecv_led
  | selectSend target => exact proceeding_steers .execSelectSend ⟨nofun, nofun⟩
  | selectRecv target name => exact proceeding_steers .execSelectRecv ⟨nofun, nofun⟩
  | select cases default? => exact execSelect_led
  | go argc => exact proceeding_steers execGo_steers ⟨nofun, nofun⟩
  | print argc newline => exact proceeding_steers .execPrint ⟨nofun, nofun⟩
  | done => exact idle (fun _ => rfl) ⟨nofun, nofun⟩

/-- Where an instruction leads, or how it fails: it never reports a deadlock. -/
theorem execute_led : Safe Lapse.Ordinary (execute depth c pc i) e fun p e' => Led i pc c e.store p e'.store :=
  execute_safe (dispatch_led.weaken fun _ _ led => led.reroot)

end Engine

end FiberMachine.Ideal
