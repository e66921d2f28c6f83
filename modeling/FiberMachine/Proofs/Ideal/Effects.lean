import FiberMachine.Proofs.Ideal.Copying
import FiberMachine.Proofs.Ideal.Edits
import FiberMachine.Proofs.Ideal.Leading
import FiberMachine.Proofs.Ideal.Parking

/-!
# What becomes of other contexts

A context whose request is served goes on at the place that the request names. A sender is otherwise as it was; a receiver has got
the value, as an operand or as a variable of a new scope. A context that a wait group releases goes on where it was. To all
other contexts nothing happens.
-/

namespace FiberMachine.Ideal

variable {F : Prop} {K : Tag → Prop} {s s' s'' : Store} {c d q r x : Ref} {v : Ref} {p : Request} {value : Option Ref} {f g : Fiber} {o : Obj} {u : Direction}
  {P Q : Ref → Prop}

/-! ### Objects that stay -/

/-- Besides channels, only objects in `P` have changed, and none has been made. -/
structure Store.Except (P : Ref → Prop) (s s' : Store) : Prop where
  length : s'.objects.length = s.objects.length
  keeps : ∀ r o, ¬P r → (∀ k, o ≠ .channel k) → s.objects[r]? = some o → s'.objects[r]? = some o

namespace Store.Except

theorem refl : s.Except P s := ⟨rfl, fun _ _ _ _ ho => ho⟩

theorem trans (a : s.Except P s') (b : s'.Except P s'') : s.Except P s'' :=
  ⟨b.length.trans a.length, fun r o other plain ho => b.keeps r o other plain (a.keeps r o other plain ho)⟩

theorem mono (a : s.Except P s') (more : ∀ x, P x → Q x) : s.Except Q s' :=
  ⟨a.length, fun r o other plain ho => a.keeps r o (fun mine => other (more r mine)) plain ho⟩

theorem set (mine : P r) : s.Except P (s.set r o) :=
  ⟨List.length_set, fun x _ other _ ho => (List.getElem?_set_ne fun e : r = x => other (e ▸ mine)).trans ho⟩

theorem channel {k k' : Duct} (hk : s.objects[d]? = some (.channel k)) : s.Except P (s.set d (.channel k')) :=
  ⟨List.length_set, fun _ _ _ plain ho => (List.getElem?_set_ne fun e => plain k (Option.some.inj ((e ▸ ho :).symm.trans hk))).trans ho⟩

theorem reroot (a : s.Except P s') (objects : s''.objects = s'.objects) : s.Except P s'' :=
  ⟨objects ▸ a.length, fun r o other plain ho => objects ▸ a.keeps r o other plain ho⟩

theorem request (a : s.Except P s') (hr : s.IsRequest q p) (other : ¬P q) : s'.IsRequest q p := a.keeps q _ other (by simp) hr

theorem context (a : s.Except P s') (hf : s.objects[x]? = some (.context f)) (other : ¬P x) : s'.objects[x]? = some (.context f) :=
  a.keeps x _ other (by simp) hf

end Store.Except

theorem withdraw_except : Safe Any (withdraw q) s fun _ s' => s.Except P s' := by
  refine Safe.look_bind (fun t _ => ?_) fun _ => trivial
  split
  · exact Safe.look_bind (fun p _ => Safe.look_bind (fun k seen => Safe.replace (.channel (object_of_duct seen))) fun _ => trivial)
      fun _ => trivial
  · exact .refl

theorem withdrawAll_except {l : List Ref} : Safe Any (l.forM withdraw) s fun _ s' => s.Except P s' := by
  induction l generalizing s with
  | nil => exact .refl
  | cons q l ih => exact withdraw_except.bind fun _ s₁ first => ih.weaken fun _ _ rest => first.trans rest

theorem takeWaiter_except : Safe Any (takeWaiter d u) s fun _ s' => s.Except P s' := by
  refine Safe.look_bind (fun k seen => Safe.skip (a := s) rfl ?_) fun _ => trivial
  split
  · exact Safe.bind (Q := fun _ s' => s.Except P s') (Safe.replace (.channel (object_of_duct seen))) fun _ _ kept => .pure kept
  · trivial

theorem tryPush_except : Safe Any (tryPush d v) s fun _ s' => s.Except P s' := by
  refine Safe.look_bind (fun k seen => ?_) fun _ => trivial
  split
  · exact .pure .refl
  · exact Safe.bind (Q := fun _ s' => s.Except P s') (Safe.replace (.channel (object_of_duct seen))) fun _ _ kept => .pure kept

theorem popBuffer_except : Safe Any (popBuffer d) s fun _ s' => s.Except P s' := by
  refine Safe.look_bind (fun k seen => ?_) fun _ => trivial
  split
  · exact .pure .refl
  · exact Safe.bind (Q := fun _ s' => s.Except P s') (Safe.replace (.channel (object_of_duct seen))) fun _ _ kept => .pure kept

/-! ### New registers -/

/-- The registers of the context are `g` now; of the other objects only channels have changed. -/
structure Fares (s : Store) (c : Ref) (g : Fiber) (s' : Store) : Prop where
  fiber : s'.objects[c]? = some (.context g)
  others : s.Except (· = c) s'

namespace Fares

theorem trans (a : Fares s c f s') (b : Fares s' c g s'') : Fares s c g s'' := ⟨b.fiber, a.others.trans b.others⟩

theorem update {h : Fiber → Fiber} (hf : s.objects[c]? = some (.context f)) : Safe Any (update c h) s fun _ s' => Fares s c (h f) s' := by
  refine ((update_set hf).relax fun _ _ => trivial).weaken ?_
  rintro _ _ rfl
  exact ⟨Store.context_set hf _, .set rfl⟩

theorem setPc (hf : s.objects[c]? = some (.context f)) (n : Nat) :
    Safe Any (setPc c n) s fun _ s' => Fares s c { f with pc := wrap n } s' := update hf

theorem pushOperand (hf : s.objects[c]? = some (.context f)) :
    Safe Any (pushOperand c v) s fun _ s' => Fares s c { f with operands := f.operands ++ [v] } s' := by
  refine Safe.bind (Guiding.expectRegistered_same.relax fun _ _ => trivial) ?_
  rintro _ _ rfl
  exact update hf

theorem enterEnvironment (hf : s.objects[c]? = some (.context f)) (env : Ref) : Safe Any (enterEnvironment c env) s fun _ s' =>
    Fares s c { f with returns := f.returns ++ [f.environment], environment := env } s' := by
  refine ((enterEnvironment_set hf).relax fun _ _ => trivial).weaken ?_
  rintro _ _ rfl
  exact ⟨Store.context_set hf _, .set rfl⟩

/-- The wait-list is cleared. -/
theorem cancelWaits : Safe Any (cancelWaits c) s fun _ s' =>
    ∃ f : Fiber, s.objects[c]? = some (.context f) ∧ Fares s c { f with waits := [] } s' := by
  refine Safe.look_bind (fun f seen => ?_) fun _ => trivial
  have hf := object_of_fiber seen
  refine (withdrawAll_except (P := fun _ => False)).bind fun _ s₁ kept => ?_
  exact (update (kept.context hf id)).weaken fun _ _ fares => ⟨f, hf, fares.fiber, (kept.mono (by simp)).trans fares.others⟩

end Fares

/-- The registers of a context that goes on where it was. -/
def Fiber.released (f : Fiber) : Fiber := { f with waits := [], blocked := false }

/-- The context goes on. -/
theorem release_bind {α : Type} {k : Unit → StoreM α} {R : α → Store → Prop}
    (next : ∀ f s', s.objects[c]? = some (.context f) → Fares s c f.released s' → Safe Any (k ()) s' R) : Safe Any (do
      cancelWaits c
      setBlocked c false
      k ()) s R :=
  Fares.cancelWaits.bind fun _ _ ⟨f, hf, first⟩ => (Fares.update first.fiber).bind fun _ s' second => next f s' hf (first.trans second)

/-! ### Serving a request -/

/-- The registers of a context once its request has been served, and it has received the value, if there is one. -/
def Fiber.served (f : Fiber) (p : Request) : Option Ref → Fiber
  | none => { f.released with pc := wrap p.resume }
  | some v =>
    if p.frame = unassigned then { f.released with pc := wrap p.resume, operands := f.operands ++ [v] }
    else { f.released with pc := wrap p.resume, returns := f.returns ++ [f.environment], environment := p.environment }

/-- A request that has been served. -/
structure Served (s : Store) (p : Request) (value : Option Ref) (s' : Store) : Prop where
  fiber : ∃ f : Fiber, s.objects[p.context]? = some (.context f) ∧ s'.objects[p.context]? = some (.context (f.served p value))
  /-- The frame of the request, if a value has been received for it. -/
  frame : ∀ v, value = some v → p.frame ≠ unassigned →
    (∃ t xs, s.objects[p.frame]? = some (.sequence t xs)) ∧ ∃ t xs, s'.objects[p.frame]? = some (.sequence t (v :: xs))
  others : s.Except (fun r => r = p.context ∨ value.isSome ∧ p.frame ≠ unassigned ∧ r = p.frame) s'

/-- What a request says. -/
theorem request_bind {α : Type} {k : Request → StoreM α} {R : α → Store → Prop} (hr : s.IsRequest q p) (next : Safe Any (k p) s R) :
    Safe Any (request q >>= k) s R := by
  refine Safe.look_bind (fun p' seen => ?_) fun _ => trivial
  cases hr.unique (object_of_request seen)
  exact next

/-- The first item is replaced. -/
theorem setFirst_effect : Safe Any (setItem r 0 v) s fun _ s' =>
    ∃ t x xs, s.objects[r]? = some (.sequence t (x :: xs)) ∧ s' = s.set r (.sequence t (v :: xs)) := by
  rw [setItem, items_bind]
  refine Safe.look_bind (fun p seen => ?_) fun _ => trivial
  obtain ⟨t, xs⟩ := p
  refine Safe.bind (Q := fun i s' => i = 0 ∧ s' = s) ?_ ?_
  · unfold within
    split
    · trivial
    · exact ⟨rfl, rfl⟩
  rintro _ _ ⟨rfl, rfl⟩
  refine Safe.look_bind (fun p seen' => ?_) fun _ => trivial
  cases Option.some.inj (seen.symm.trans seen')
  cases xs with
  | nil => trivial
  | cons x xs =>
    dsimp only
    split
    · exact Safe.replace ⟨t, x, xs, object_of_items seen, rfl⟩
    · trivial

theorem enterEnvironment_seen {env : Ref} : Safe Any (enterEnvironment c env) s fun _ s' => ∃ f : Fiber, s.objects[c]? = some (.context f) ∧
    s' = s.set c (.context { f with returns := f.returns ++ [f.environment], environment := env }) := by
  cases seen : s.objects[c]?.bind Obj.fiber? with
  | none =>
    refine Safe.look_bind (fun f some => ?_) fun _ => trivial
    rw [seen] at some
    cases some
  | some f =>
    refine ((enterEnvironment_set (object_of_fiber seen)).relax fun _ _ => trivial).weaken ?_
    exact fun _ _ same => ⟨f, object_of_fiber seen, same⟩

/-- A value is put where a request wants it. -/
theorem deliver_effect (hr : s.IsRequest q p) :
    Safe Any (deliver q p.context v) s fun _ s' => ∃ f g : Fiber, s.objects[p.context]? = some (.context f) ∧
      s'.objects[p.context]? = some (.context g) ∧ { g.released with pc := wrap p.resume } = f.served p (some v) ∧
      (p.frame ≠ unassigned → (∃ t xs, s.objects[p.frame]? = some (.sequence t xs)) ∧ ∃ t xs, s'.objects[p.frame]? = some (.sequence t (v :: xs))) ∧
      s.Except (fun r => r = p.context ∨ p.frame ≠ unassigned ∧ r = p.frame) s' := by
  refine request_bind hr ?_
  unfold Fiber.served
  split
  next plain =>
    refine Safe.bind (Guiding.expectRegistered_same.relax fun _ _ => trivial) ?_
    rintro _ _ rfl
    refine (update_seen.relax fun _ _ => trivial).weaken ?_
    rintro _ _ ⟨f, hf, rfl⟩
    exact ⟨f, _, hf, Store.context_set hf _, rfl, fun framed => absurd plain framed, .set (.inl rfl)⟩
  next framed =>
    refine setFirst_effect.bind ?_
    rintro _ _ ⟨t, x, xs, ho, rfl⟩
    have set (y : Ref) := Store.getElem?_set ⟨_, ho⟩ (.sequence t (v :: xs)) y
    have apart {y : Ref} {o : Obj} (hy : s.objects[y]? = some o) (other : o ≠ .sequence t (x :: xs)) : y ≠ p.frame := by
      rintro rfl
      exact other (Option.some.inj (hy.symm.trans ho))
    refine request_bind ((set q).trans ((if_neg (apart hr (by simp))).trans hr)) ?_
    refine enterEnvironment_seen.weaken ?_
    rintro _ _ ⟨f, hf, rfl⟩
    have ne : p.context ≠ p.frame := by
      intro e
      rw [e, set, if_pos rfl] at hf
      cases hf
    refine ⟨f, _, ?_, Store.context_set hf _, rfl, fun _ => ⟨⟨t, _, ho⟩, t, xs, ?_⟩, ?_⟩
    · rwa [set, if_neg ne] at hf
    · exact (List.getElem?_set_ne ne).trans ((set _).trans (if_pos rfl))
    · exact (Store.Except.set (.inr ⟨framed, rfl⟩)).trans (.set (.inl rfl))

/-- The context behind a request goes on where the request says. -/
theorem resume_effect (hr : s.IsRequest q p) : Safe Any (do
      setPc p.context (← request q).resume
      cancelWaits p.context
      setBlocked p.context false
      return p.context) s fun c s' => c = p.context ∧ ∃ f : Fiber, s.objects[p.context]? = some (.context f) ∧
        Fares s p.context { f.released with pc := wrap p.resume } s' := by
  refine request_bind hr (Safe.bind (update_seen.relax (B := Any) fun _ _ => trivial) ?_)
  rintro _ _ ⟨f, hf, rfl⟩
  refine release_bind (k := fun _ => pure p.context) fun f' s' hf' fares => ?_
  cases (Store.context_set hf _).symm.trans hf'
  exact .pure ⟨rfl, f, hf, fares.fiber, (Store.Except.set (P := (· = p.context)) rfl).trans fares.others⟩

/-- What is protected meanwhile does not matter. -/
theorem rooted_effect {α : Type} {m : StoreM α} {ρ : List Ref} {R : Store → α → Store → Prop} (inner : ∀ s, Safe Any m s (R s))
    (same : ∀ s a s' ts us, R { s with temporaries := ts } a s' → R s a { s' with temporaries := us }) : Safe Any (withRoots ρ m) s (R s) :=
  Safe.withRoots ((inner _).weaken fun a s' effect => same s a s' _ _ effect)

/-- The context behind a request goes on. -/
theorem complete_served : Safe Any (complete q value) s fun c s' => ∃ p, s.IsRequest q p ∧ c = p.context ∧ Served s p value s' := by
  refine rooted_effect (R := fun s c s' => ∃ p, s.IsRequest q p ∧ c = p.context ∧ Served s p value s') (fun s => ?_)
    fun _ _ s' _ _ ⟨p, hr, own, served⟩ => ⟨p, hr, own, served.fiber, served.frame, ⟨served.others.length, served.others.keeps⟩⟩
  refine Safe.look_bind (fun p seen => ?_) fun _ => trivial
  have hr : s.IsRequest q p := object_of_request seen
  refine Safe.bind (Guiding.expectRegistered_same.relax fun _ _ => trivial) ?_
  rintro _ _ rfl
  cases value with
  | none =>
    refine (resume_effect hr).weaken ?_
    rintro _ s' ⟨rfl, f, hf, fares⟩
    exact ⟨p, hr, rfl, ⟨f, hf, fares.fiber⟩, by simp, fares.others.mono fun _ => .inl⟩
  | some v =>
    refine (deliver_effect hr).bind ?_
    rintro _ s₁ ⟨f, g, hf, hg, same, framed, kept⟩
    have other : ¬(q = p.context ∨ p.frame ≠ unassigned ∧ q = p.frame) := by
      rintro (e | ⟨some, e⟩)
      · cases (e ▸ hr :).symm.trans hf
      · obtain ⟨⟨t, xs, ho⟩, _⟩ := framed some
        cases (e ▸ hr :).symm.trans ho
    refine (resume_effect (kept.request hr other)).weaken ?_
    rintro _ s' ⟨rfl, g', hg', fares⟩
    cases hg.symm.trans hg'
    refine ⟨p, hr, rfl, ⟨f, hf, same ▸ fares.fiber⟩, ?_, ?_⟩
    · rintro _ ⟨⟩ some
      obtain ⟨⟨t, xs, ho⟩, t', ys, first⟩ := framed some
      refine ⟨⟨t, xs, ho⟩, t', ys, fares.others.keeps _ _ (fun e => ?_) (by simp) first⟩
      cases (e ▸ first :).symm.trans hg
    · exact (kept.mono fun _ => Or.imp_right fun e => ⟨rfl, e⟩).trans (fares.others.mono fun _ => .inl)

namespace Served

variable (served : Served s p value s')
include served

theorem keeps (items : ∀ t xs, o ≠ .sequence t xs) (channel : ∀ k, o ≠ .channel k) (other : x ≠ p.context)
    (ho : s.objects[x]? = some o) : s'.objects[x]? = some o := by
  refine served.others.keeps x o ?_ channel ho
  rintro (own | ⟨given, framed, e⟩)
  · exact other own
  · obtain ⟨v, rfl⟩ := Option.isSome_iff_exists.mp given
    obtain ⟨⟨t, xs, hx⟩, _⟩ := served.frame v rfl framed
    exact items t xs (Option.some.inj (ho.symm.trans (e ▸ hx)))

theorem request {r : Request} (hr : s.IsRequest q r) : s'.IsRequest q r := by
  refine served.keeps (by simp) (by simp) ?_ hr
  rintro rfl
  obtain ⟨f, hf, _⟩ := served.fiber
  cases hr.symm.trans hf

end Served

/-! ### Other contexts -/

/-- No value has been delivered to a waiting receiver. -/
def Event.Undelivered (events : List Event) : Prop := ∀ d q v, events ≠ [.completed d .recv q, .sent d v, .received d v]

/-- What may become of the registers `f` of the context `x` when others act, as noted. -/
inductive Touched (s : Store) (x : Ref) (f : Fiber) (events : List Event) (s' : Store) : Fiber → Prop
  | rests : Touched s x f events s' f
  /-- The value that it waits to send has been taken. -/
  | sent {d q v w : Ref} {p : Request} (hr : s'.IsRequest q p) (own : p.context = x)
      (noted : events = [.received d v, .completed d .send q, .sent d w] ∨ events = [.completed d .send q, .sent d w, .received d v]) :
      Touched s x f events s' (f.served p none)
  /-- A value that it waits for has been sent. -/
  | received {d q v : Ref} {p : Request} (hr : s'.IsRequest q p) (own : p.context = x)
      (noted : events = [.completed d .recv q, .sent d v, .received d v])
      (framed : p.frame ≠ unassigned → ∃ t xs, s'.objects[p.frame]? = some (.sequence t (v :: xs))) :
      Touched s x f events s' (f.served p (some v))
  /-- The wait group that it waits for has released it. -/
  | released {g : Ref} {w : Word} {l : List Ref} (group : s.objects[g]? = some (.waitGroup w l)) (member : x ∈ l) :
      Touched s x f events s' f.released

/-- What has become of a context is still true after changes that leave requests, and the value received, as they are. -/
theorem Touched.later {events : List Event} (touched : Touched s x f events s' g) (requests : ∀ q p, s'.IsRequest q p → s''.IsRequest q p)
    (frames : ∀ (d q v r : Ref) (t : Tag) (xs : List Ref), events = [.completed d .recv q, .sent d v, .received d v] → s'.objects[r]? = some (.sequence t (v :: xs)) →
      s''.objects[r]? = some (.sequence t (v :: xs))) : Touched s x f events s'' g := by
  cases touched with
  | rests => exact .rests
  | sent hr own noted => exact .sent (requests _ _ hr) own noted
  | received hr own noted framed =>
    refine .received (requests _ _ hr) own noted fun some => ?_
    obtain ⟨t, xs, first⟩ := framed some
    exact ⟨t, xs, frames _ _ _ _ _ _ noted first⟩
  | released group member => exact .released group member

/-- What an action does that works for the contexts in `P`, as far as others are concerned. -/
structure Reaches (P : Ref → Prop) (s : Store) (events : List Event) (s' : Store) : Prop where
  others : ∀ (x : Ref) (f : Fiber), ¬P x → s.objects[x]? = some (.context f) →
    ∃ g, s'.objects[x]? = some (.context g) ∧ Touched s x f events s' g
  requests : ∀ q p, s.IsRequest q p → s'.IsRequest q p

namespace Reaches

variable {events : List Event}

theorem of_edits (edits : s.Edits K P s') : Reaches P s events s' where
  others := fun x f other hf => ⟨f, edits.context other hf, .rests⟩
  requests := fun _ _ hr => edits.keeps (by simp) (by simp) (by simp) hr

theorem refl : Reaches P s events s := .of_edits (K := ungrouped) .refl

/-- Edits go before. -/
theorem before (edits : s.Edits K P s') (a : Reaches P s' events s'') : Reaches P s events s'' where
  others := by
    intro x f other hf
    obtain ⟨g, hg, touched⟩ := a.others x f other (edits.context other hf)
    refine ⟨g, hg, ?_⟩
    cases touched with
    | rests => exact .rests
    | sent hr own noted => exact .sent hr own noted
    | received hr own noted framed => exact .received hr own noted framed
    | released group member =>
      rcases edits.group_origin group with group | ⟨_, _, _, rfl⟩
      · exact .released group member
      · cases member
  requests := fun q p hr => a.requests q p (edits.keeps (by simp) (by simp) (by simp) hr)

theorem mono (a : Reaches P s events s') (more : ∀ x, s.Known x → P x → Q x) : Reaches Q s events s' where
  others := fun x f other hf => a.others x f (fun mine => other (more x ⟨_, hf⟩ mine)) hf
  requests := a.requests

/-- Only the roots change afterwards. -/
theorem reroot (a : Reaches P s events s') (objects : s''.objects = s'.objects) : Reaches P s events s'' where
  others := by
    intro x f other hf
    obtain ⟨g, hg, touched⟩ := a.others x f other hf
    exact ⟨g, objects ▸ hg, touched.later (fun _ _ hr => (congrArg (·[_]?) objects).trans hr)
      fun _ _ _ _ _ _ _ first => (congrArg (·[_]?) objects).trans first⟩
  requests := fun q p hr => (congrArg (·[q]?) objects).trans (a.requests q p hr)

/-- Edits go after, when no value has been delivered. -/
theorem edited (a : Reaches P s events s') (undelivered : Event.Undelivered events) (edits : s'.Edits K P s'') : Reaches P s events s'' where
  others := by
    intro x f other hf
    obtain ⟨g, hg, touched⟩ := a.others x f other hf
    refine ⟨g, edits.context other hg, touched.later (fun _ _ hr => edits.keeps (by simp) (by simp) (by simp) hr) ?_⟩
    exact fun d q v _ _ _ noted => absurd noted (undelivered d q v)
  requests := fun q p hr => edits.keeps (by simp) (by simp) (by simp) (a.requests q p hr)

/-- A request has been served. -/
theorem served (served : Served s p value s') (touched : ∀ f, Touched s p.context f events s' (f.served p value)) : Reaches P s events s' where
  others := by
    intro x f _ hf
    by_cases own : x = p.context
    · subst own
      obtain ⟨g, hg, hg'⟩ := served.fiber
      cases hf.symm.trans hg
      exact ⟨_, hg', touched f⟩
    · exact ⟨f, served.keeps (by simp) (by simp) own hf, .rests⟩
  requests := fun _ _ => served.request

/-- A request of the context that acts is served afterwards; then a frame has got a value only once. -/
theorem after (a : Reaches P s events s') (served : Served s' p value s'') (mine : P p.context)
    (once : value = none ∨ Event.Undelivered events) : Reaches P s events s'' where
  others := by
    intro x f other hf
    obtain ⟨g, hg, touched⟩ := a.others x f other hf
    refine ⟨g, served.keeps (by simp) (by simp) (fun own => other (own ▸ mine)) hg, ?_⟩
    refine touched.later (fun _ _ => served.request) fun d q v r t xs noted first => served.others.keeps _ _ ?_ (by simp) first
    rintro (own | ⟨given, _, _⟩)
    · obtain ⟨g, hg, _⟩ := served.fiber
      cases (own ▸ first :).symm.trans hg
    · rcases once with rfl | never
      · cases given
      · exact never d q v noted
  requests := fun q p hr => served.request (a.requests q p hr)

end Reaches

end FiberMachine.Ideal
