import FiberMachine.Proofs.Ideal.Effects

/-!
# Exchanges

What serving a request comes to is told by the channel and the requests that wait on it: what the request receives, what the
buffer holds then, and which waiting request is served as well. Serving cannot fail, and apart from the two contexts, a frame
that a value goes into and what is withdrawn everything stays.
-/

namespace FiberMachine.Ideal

/-- What serving a request comes to. -/
structure Exchange where
  /-- The value that the request receives. -/
  value : Option Ref
  /-- What the channel buffers then. -/
  buffer : List Ref
  /-- The waiting request that is served as well, and the value that it receives. -/
  partner : Option (Request × Option Ref)

/-- How the channel serves a request while others wait on it, the oldest first, if it can. -/
def Duct.serve (k : Duct) (waiting : List Request) (r : Request) : Option Exchange :=
  match r.direction with
  | .send =>
    match waiting.find? (·.direction == .recv) with
    | some p => some ⟨none, k.buffer, some (p, some r.value)⟩
    | none => if k.buffer.length < k.capacity then some ⟨none, k.buffer ++ [r.value], none⟩ else none
  | .recv =>
    match k.buffer, waiting.find? (·.direction == .send) with
    | v :: rest, partner => some ⟨some v, rest ++ (partner.map Request.value).toList, partner.map (·, none)⟩
    | [], some p => some ⟨some p.value, [], some (p, none)⟩
    | [], none => none

namespace Exchange

/-- The registers of the context `x` once the request has been served. -/
def fiber (e : Exchange) (r : Request) (x : Ref) (f : Fiber) : Fiber :=
  if x = r.context then f.served r e.value
  else
    match e.partner with
    | some (p, v) => if x = p.context then f.served p v else f
    | none => f

/-- The channel `d` once the request has been served: what the other context has waited with is withdrawn. -/
def duct (e : Exchange) (r : Request) (owned : Ref → Ref → Bool) (d : Ref) (k : Duct) : Duct where
  capacity := k.capacity
  buffer := if d = r.channel then e.buffer else k.buffer
  waiters := k.waiters.filter fun q => e.partner.all fun p => !owned p.1.context q

/-- The frames that a value goes into. -/
def fills (e : Exchange) (r : Request) (x : Ref) : Prop :=
  (e.value.isSome ∧ r.frame ≠ unassigned ∧ x = r.frame) ∨
    ∃ p v, e.partner = some (p, some v) ∧ p.frame ≠ unassigned ∧ x = p.frame

end Exchange

/-- The request can be served, and this is what it comes to. -/
def Store.Serves (s : Store) (r : Request) (e : Exchange) : Prop :=
  ∃ k waiting, s.objects[r.channel]? = some (.channel k) ∧ List.Forall₂ s.IsRequest k.waiters waiting ∧ k.serve waiting r = some e

/-- The request can be served. -/
def Store.Ready (s : Store) (r : Request) : Prop := ∃ e, s.Serves r e

/-- What becomes of contexts and channels. Of the other objects only those in `filled` may be different. -/
structure Store.Becomes (s : Store) (fiber : Ref → Fiber → Fiber) (duct : Ref → Duct → Duct) (filled : Ref → Prop) (s' : Store) : Prop where
  length : s'.objects.length = s.objects.length
  grows : s.Grows s'
  contexts : ∀ (x : Ref) (f : Fiber), s.objects[x]? = some (.context f) → s'.objects[x]? = some (.context (fiber x f))
  channels : ∀ (d : Ref) (k : Duct), s.objects[d]? = some (.channel k) → s'.objects[d]? = some (.channel (duct d k))
  frames : ∀ (x : Ref), filled x → ∃ t xs, s.objects[x]? = some (.sequence t xs)
  others : ∀ (x : Ref) (o : Obj), (∀ f, o ≠ .context f) → (∀ k, o ≠ .channel k) → ¬filled x →
    s.objects[x]? = some o → s'.objects[x]? = some o

/-- The request has been served. -/
structure Store.Communicates (s : Store) (r : Request) (e : Exchange) (s' : Store) : Prop where
  becomes : s.Becomes (e.fiber r) (e.duct r s.ownedBy) (e.fills r) s'
  /-- The other context is another one. -/
  apart : ∀ p v, e.partner = some (p, v) → p.context ≠ r.context
  received : ∀ v, e.value = some v → r.frame ≠ unassigned → ∃ t xs, s'.objects[r.frame]? = some (.sequence t (v :: xs))
  delivered : ∀ p v, e.partner = some (p, some v) → p.frame ≠ unassigned → ∃ t xs, s'.objects[p.frame]? = some (.sequence t (v :: xs))

variable {s s' s₁ : Store} {c d q v : Ref} {r p : Request} {k : Duct} {e : Exchange} {u : Direction} {value : Option Ref} {ps : List Request}
  {qs : List Ref} {b : Ref → List Ref}

/-! ### Actions that do not fail -/

/-- No failure is admitted. -/
def Never (_ : Lapse) : Prop := False

/-- The action is not refused, except that requests wait against each other. -/
def Unrefused (l : Lapse) : Prop := ∀ cause, l = .error cause → cause = .heap (.mixedWaiters 0)

/-- An action that can neither be refused nor go wild succeeds. -/
theorem Safe.never {α : Type} {m : StoreM α} {Q : α → Store → Prop} (safe : Safe (Admits False) m s Q)
    (unrefused : Safe Unrefused m s fun _ _ => True) : Safe Never m s Q := by
  unfold Safe at safe unrefused ⊢
  split at safe
  · exact safe
  next l _ run =>
    rw [run] at unrefused
    cases l with
    | error cause => exact safe (unrefused cause rfl)
    | fault => exact safe
    | wild => exact safe

/-- The action is never refused. -/
def Unrefusing {α : Type} (m : StoreM α) : Prop := ∀ s, Safe Unrefused m s fun _ _ => True

theorem expectRegistered_unrefused : Safe Unrefused (expectRegistered c) s fun _ s' => s' = s := by
  unfold Safe expectRegistered
  by_cases registered : c ∈ s.contexts
  · simp only [registered, if_true]
  · simp only [registered, if_false]
    nofun

namespace Unrefusing

variable {α β : Type}

theorem pure (a : α) : Unrefusing (pure a) := fun _ => trivial

theorem bind {m : StoreM α} {n : α → StoreM β} (first : Unrefusing m) (next : ∀ a, Unrefusing (n a)) : Unrefusing (m >>= n) :=
  fun s => (first s).bind fun a s' _ => next a s'

theorem look {see : Obj → Option α} {x : Ref} : Unrefusing (look see x) := fun _ => Safe.look (fun _ _ => trivial) fun _ => nofun

theorem replace {x : Ref} {o : Obj} : Unrefusing (replace x o) := fun _ => Safe.replace trivial

theorem expectRegistered {x : Ref} : Unrefusing (expectRegistered x) := fun _ =>
  expectRegistered_unrefused.weaken fun _ _ _ => trivial

theorem withRoots {xs : List Ref} {m : StoreM α} (inner : Unrefusing m) : Unrefusing (withRoots xs m) := fun _ => Safe.withRoots (inner _)

theorem forM {xs : List β} {f : β → StoreM Unit} (each : ∀ x, Unrefusing (f x)) : Unrefusing (xs.forM f) := by
  induction xs with
  | nil => exact .pure ()
  | cons x xs ih => exact .bind (each x) fun _ => ih

theorem update {x : Ref} {g : Fiber → Fiber} : Unrefusing (update x g) := .bind .look fun _ => .replace

theorem withdraw : Unrefusing (withdraw q) := by
  refine .bind .look fun t => ?_
  split
  · exact .bind .look fun _ => .bind .look fun _ => .replace
  · exact .pure _

theorem takeWaiter : Unrefusing (takeWaiter d u) := by
  refine .bind .look fun k s => Safe.skip (a := s) rfl ?_
  split
  · exact Unrefusing.bind .replace (fun _ => .pure _) s
  · nofun

theorem tryPush : Unrefusing (tryPush d v) := by
  refine .bind .look fun k => ?_
  split
  · exact .pure _
  · exact .bind .replace fun _ => .pure _

theorem popBuffer : Unrefusing (popBuffer d) := by
  refine .bind .look fun k => ?_
  split
  · exact .pure _
  · exact .bind .replace fun _ => .pure _

theorem setPc {n : Nat} : Unrefusing (setPc c n) := update

theorem setBlocked {blocked : Bool} : Unrefusing (setBlocked c blocked) := update

theorem cancelWaits : Unrefusing (cancelWaits c) := .bind .look fun _ => .bind (.forM fun _ => withdraw) fun _ => update

theorem pushOperand : Unrefusing (pushOperand c v) := .bind expectRegistered fun _ => update

theorem enterEnvironment : Unrefusing (enterEnvironment c v) :=
  .bind .look fun _ => .bind (.withRoots (.bind expectRegistered fun _ => update)) fun _ => update

end Unrefusing

/-- A value is put where a request wants it, if there is room for it. -/
theorem deliver_unrefused (hr : s.IsRequest q r) (sized : r.frame = unassigned ∨ s.Sized r.frame .frame 1) :
    Safe Unrefused (deliver q c v) s fun _ _ => True := by
  refine Safe.look_bind (fun r' seen => ?_) fun _ => nofun
  cases hr.unique (object_of_request seen)
  split
  · exact Unrefusing.pushOperand s
  next framed =>
    obtain ⟨xs, ho, room⟩ := sized.resolve_left framed
    have inside : ¬((0 : Int) < 0 ∨ (xs.length : Int) ≤ 0) := by omega
    refine Safe.bind (Q := fun _ _ => True) ?_ fun _ s₁ _ => Unrefusing.bind .look (fun _ => .enterEnvironment) s₁
    refine Safe.skip (a := xs) ?_ (Safe.skip (a := 0) ?_ ?_)
    · simp only [items, run_bind, look, ho]
      rfl
    · simp only [within, if_neg inside]
      rfl
    · refine Unrefusing.bind .look (fun p => ?_) s
      dsimp only
      split
      · exact .replace
      · exact fun _ => nofun

theorem complete_unrefused (hr : s.IsRequest q r) (sized : r.frame = unassigned ∨ s.Sized r.frame .frame 1) :
    Safe Unrefused (complete q value) s fun _ _ => True := by
  refine Safe.withRoots (Safe.look_bind (fun r' seen => ?_) fun _ => nofun)
  cases hr.unique (object_of_request seen)
  refine Safe.bind expectRegistered_unrefused ?_
  rintro _ _ rfl
  have rest : Unrefusing (do
      setPc r.context (← request q).resume
      cancelWaits r.context
      setBlocked r.context false
      return r.context) :=
    .bind .look fun _ => .bind .setPc fun _ => .bind .cancelWaits fun _ => .bind .setBlocked fun _ => .pure _
  cases value with
  | none => exact rest _
  | some v =>
    have delivered := deliver_unrefused (s := { s with temporaries := s.temporaries ++ [q, v] }) (c := r.context) (v := v) hr sized
    exact delivered.bind fun _ s₁ _ => rest s₁

/-! ### The context of a waiting request -/

theorem Store.Typed.isContext (typed : s.Typed) (hr : s.IsRequest q r) : s.IsTag r.context .context := (typed.good q _ hr).1

/-- There is room for a value in the frame of a request. -/
theorem Store.Typed.framed (typed : s.Typed) (hr : s.IsRequest q r) : r.frame = unassigned ∨ s.Sized r.frame .frame 1 :=
  (typed.good q _ hr).2.2.2.imp id And.left

/-- Only channels have changed before. -/
theorem Served.before (served : Served s₁ r value s') (typed : s.Typed) (hr : s.IsRequest q r) (kept : s.Except (fun _ => False) s₁) :
    Served s r value s' where
  fiber := by
    obtain ⟨f, hf⟩ := typed.canonical (typed.isContext hr)
    obtain ⟨g, hg, hg'⟩ := served.fiber
    cases (kept.context hf id).symm.trans hg
    exact ⟨f, hf, hg'⟩
  frame := by
    intro v given some
    obtain ⟨xs, ho, _⟩ := (typed.framed hr).resolve_left some
    exact ⟨⟨_, xs, ho⟩, (served.frame v given some).2⟩
  others := (kept.mono fun _ => False.elim).trans served.others

theorem Served.reroot {ts : List Ref} (served : Served s r value s') : Served s r value { s' with temporaries := ts } :=
  ⟨served.fiber, served.frame, served.others.reroot rfl⟩

/-- A request that has been taken off the waiting list of its channel is served. -/
theorem complete_serves (linked : Linked s) (hq : q ∈ s.waiters d) (hr : s.IsRequest q r) (taken : Taken s r.context b s₁)
    (kept : s.Except (fun _ => False) s₁) (known : ∀ v, value = some v → s₁.Known v) : Safe Never (complete q value) s₁ fun c s' =>
      c = r.context ∧ (s.blockedAt r.context).isSome ∧ Resumed s r.context b s' ∧ Served s r value s' := by
  have hr₁ := hr.grow taken.proceeds.grows
  refine Safe.never (((complete_taken linked hq hr taken known).both complete_served).weaken ?_)
    (complete_unrefused hr₁ (taken.proceeds.typed.framed hr₁))
  rintro c s' ⟨⟨rfl, blocked, resumed⟩, r', hr', _, served⟩
  cases hr₁.unique hr'
  exact ⟨rfl, blocked, resumed, served.before linked.typed hr kept⟩

/-- The same while a value is protected. -/
theorem complete_serves_rooted (linked : Linked s) (hq : q ∈ s.waiters d) (hr : s.IsRequest q r) (taken : Taken s r.context b s₁)
    (kept : s.Except (fun _ => False) s₁) : Safe Never (withRoots [v] (complete q none)) s₁ fun c s' =>
      c = r.context ∧ (s.blockedAt r.context).isSome ∧ Resumed s r.context b s' ∧ Served s r none s' := by
  have rooted : Taken s r.context b { s₁ with temporaries := s₁.temporaries ++ [v] } := taken.reroot
  refine Safe.withRoots ((complete_serves linked hq hr rooted (kept.reroot rfl) fun _ (no : none = some _) => nomatch no).weaken ?_)
  rintro c s' ⟨same, blocked, resumed, served⟩
  exact ⟨same, blocked, resumed.reroot, served.reroot⟩

/-! ### The channel and the waiting request -/

/-- The channel `d` and the waiting request have done their part. -/
structure Dealt (s : Store) (d : Ref) (e : Exchange) (s' : Store) : Prop where
  proceeds : Proceeds s s'
  waiters : ∀ x, s'.waiters x = (s.waiters x).filter fun q => e.partner.all fun p => !s.ownedBy p.1.context q
  buffer : ∀ x, s'.buffer x = if x = d then e.buffer else s.buffer x
  alone : e.partner = none → s.Except (fun _ => False) s'
  partner : ∀ p v, e.partner = some (p, v) → (s.blockedAt p.context).isSome ∧ Served s p v s'

theorem Dealt.moved {values : List Ref} (moved : Moved s d values s') (kept : s.Except (fun _ => False) s') :
    Dealt s d ⟨value, values, none⟩ s' where
  proceeds := moved.proceeds
  waiters x := by simpa using moved.waiters x
  buffer := moved.buffer
  alone _ := kept
  partner := nofun

theorem Dealt.resumed {values : List Ref} {v : Option Ref} (resumed : Resumed s p.context b s') (blocked : (s.blockedAt p.context).isSome)
    (served : Served s p v s') (buffer : ∀ x, b x = if x = d then values else s.buffer x) : Dealt s d ⟨value, values, some (p, v)⟩ s' where
  proceeds := resumed.proceeds
  waiters x := by simpa using resumed.waiters x
  buffer x := (resumed.buffer x).trans (buffer x)
  alone := nofun
  partner := by
    rintro _ _ ⟨⟩
    exact ⟨blocked, served⟩

/-- What the channel answers: the value and the context that is woken, if it has served the request. -/
def Deals (s : Store) (d : Ref) (k : Duct) (waiting : List Request) (r : Request) (s' : Store) : Option (Option Ref × Option Ref) → Prop
  | some (value, woken) => ∃ e, k.serve waiting r = some e ∧ e.value = value ∧ e.partner.map (·.1.context) = woken ∧ Dealt s d e s'
  | none => s' = s ∧ k.serve waiting r = none

/-- The waiting requests of a direction. -/
theorem Store.waiting_requests (hk : s.objects[d]? = some (.channel k)) (requests : List.Forall₂ s.IsRequest k.waiters ps) (u : Direction) :
    List.Forall₂ s.IsRequest (s.waiting d u) (ps.filter (·.direction == u)) := by
  rw [Store.waiting, Store.waiters_of hk]
  generalize k.waiters = qs at requests
  induction requests with
  | nil => exact .nil
  | @cons q p qs ps hp _ ih =>
    rw [List.filter_cons, List.filter_cons, Store.IsRequest.direction? hp]
    by_cases same : p.direction = u
    · simpa [same] using ⟨hp, ih⟩
    · simpa [same] using ih

theorem Store.none_waiting (hk : s.objects[d]? = some (.channel k)) (requests : List.Forall₂ s.IsRequest k.waiters ps)
    (clear : s.waiting d u = []) : ps.find? (·.direction == u) = none := by
  have related := Store.waiting_requests hk requests u
  rw [clear] at related
  rw [← List.head?_filter, List.forall₂_nil_left_iff.mp related]
  rfl

theorem Store.first_waiting {rest : List Ref} (hk : s.objects[d]? = some (.channel k)) (requests : List.Forall₂ s.IsRequest k.waiters ps)
    (head : s.waiting d u = q :: rest) (hr : s.IsRequest q r) : ps.find? (·.direction == u) = some r := by
  have related := Store.waiting_requests hk requests u
  rw [head] at related
  obtain ⟨p, _, hp, _, same⟩ := List.forall₂_cons_left_iff.mp related
  rw [← List.head?_filter, same, hp.unique hr]
  rfl

/-- The oldest request of a direction is taken off the waiting list, if there is one. -/
theorem takeWaiter_takes (typed : s.Typed) (hk : s.objects[d]? = some (.channel k)) (u : Direction) :
    Safe Never (takeWaiter d u) s fun found s' => s.Except (fun _ => False) s' ∧
      (found = none ∧ s' = s ∧ s.waiting d u = [] ∨
        ∃ q r rest, found = some q ∧ s.waiting d u = q :: rest ∧ s.IsRequest q r ∧ r.direction = u ∧ Taken s r.context s.buffer s') :=
  Safe.never (((takeWaiter_safe typed hk u).both takeWaiter_except).weaken fun _ _ both => ⟨both.2, both.1⟩) (Unrefusing.takeWaiter s)

theorem tryPush_pushes (typed : s.Typed) (hk : s.objects[d]? = some (.channel k)) (known : s.Known v) :
    Safe Never (tryPush d v) s fun added s' => s.Except (fun _ => False) s' ∧
      (added = false ∧ s' = s ∧ k.buffer.length = k.capacity ∨
        added = true ∧ k.buffer.length ≠ k.capacity ∧ Moved s d (k.buffer ++ [v]) s') :=
  Safe.never (((tryPush_safe typed hk known).both tryPush_except).weaken fun _ _ both => ⟨both.2, both.1⟩) (Unrefusing.tryPush s)

theorem popBuffer_pops (typed : s.Typed) (hk : s.objects[d]? = some (.channel k)) :
    Safe Never (popBuffer d) s fun popped s' => s.Except (fun _ => False) s' ∧
      (popped = none ∧ s' = s ∧ k.buffer = [] ∨
        ∃ v rest, popped = some v ∧ k.buffer = v :: rest ∧ s.Known v ∧ Moved s d rest s') :=
  Safe.never (((popBuffer_safe typed hk).both popBuffer_except).weaken fun _ _ both => ⟨both.2, both.1⟩) (Unrefusing.popBuffer s)

theorem trySend_deals (linked : Linked s) (hk : s.objects[d]? = some (.channel k)) (requests : List.Forall₂ s.IsRequest k.waiters ps)
    (send : r.direction = .send) (known : s.Known r.value) :
    Safe Never (trySend d r.value) s fun p s' => Deals s d k ps r s' (match p.1 with
      | .delivered c => some (none, some c)
      | .buffered => some (none, none)
      | .wouldBlock => none) := by
  have room := linked.ducts.room d _ (Store.capacity_of hk)
  rw [Store.buffer_of hk] at room
  refine (takeWaiter_takes linked.typed hk .recv).bind ?_
  rintro found s₁ ⟨kept, ⟨rfl, rfl, clear⟩ | ⟨q, p, rest, rfl, head, hp, _, taken⟩⟩
  · have none := Store.none_waiting hk requests clear
    refine (tryPush_pushes linked.typed hk known).bind ?_
    rintro added s' ⟨kept, ⟨rfl, rfl, full⟩ | ⟨rfl, free, moved⟩⟩
    · refine ⟨rfl, ?_⟩
      simp only [Duct.serve, send, none, full, Nat.lt_irrefl, if_false]
    · refine ⟨_, ?_, rfl, rfl, .moved moved kept⟩
      simp only [Duct.serve, send, none, if_pos (Nat.lt_of_le_of_ne room free)]
  · have first := Store.first_waiting hk requests head hp
    refine (complete_serves linked (Store.waiter_of_waiting head) hp taken kept fun v given =>
      Option.some.inj given ▸ known.grow taken.proceeds.grows).bind ?_
    rintro _ s' ⟨rfl, blocked, resumed, served⟩
    refine ⟨⟨none, k.buffer, some (p, some r.value)⟩, ?_, rfl, rfl, .resumed resumed blocked served fun x => ?_⟩
    · simp only [Duct.serve, send, first]
    · split
      next same => exact same ▸ Store.buffer_of hk
      next => rfl

theorem request_run (hr : s.IsRequest q r) : request q s = .ok r s := by
  simp only [request, look, show s.objects[q]? = _ from hr]
  rfl

theorem tryRecv_deals (linked : Linked s) (hk : s.objects[d]? = some (.channel k)) (requests : List.Forall₂ s.IsRequest k.waiters ps)
    (recv : r.direction = .recv) :
    Safe Never (tryRecv d) s fun p s' => Deals s d k ps r s' (match p.1 with
      | .received v woken => some (some v, woken)
      | .wouldBlock => none) := by
  refine (popBuffer_pops linked.typed hk).bind ?_
  rintro popped s₁ ⟨kept, ⟨rfl, rfl, empty⟩ | ⟨v, values, rfl, buffered, known, moved⟩⟩
  · refine (takeWaiter_takes linked.typed hk .send).bind ?_
    rintro found s₂ ⟨kept, ⟨rfl, rfl, clear⟩ | ⟨q, p, rest, rfl, head, hp, _, taken⟩⟩
    · refine ⟨rfl, ?_⟩
      simp only [Duct.serve, recv, empty, Store.none_waiting hk requests clear]
    · refine Safe.skip (a := p) (request_run (hp.grow taken.proceeds.grows)) ?_
      refine (complete_serves_rooted linked (Store.waiter_of_waiting head) hp taken kept).bind ?_
      rintro _ s' ⟨rfl, blocked, resumed, served⟩
      refine ⟨⟨some p.value, [], some (p, none)⟩, ?_, rfl, rfl, .resumed resumed blocked served fun x => ?_⟩
      · simp only [Duct.serve, recv, empty, Store.first_waiting hk requests head hp]
      · split
        next same => rw [same, Store.buffer_of hk, empty]
        next => rfl
  · have same : s₁.waiting d .send = s.waiting d .send := by
      rw [Store.waiting_of_subset linked.typed moved.proceeds.grows fun q hq => moved.waiters d ▸ hq, moved.waiters]
      rfl
    have isChannel : s.IsTag d .channel := ⟨_, hk, rfl⟩
    obtain ⟨k₁, hk₁⟩ := moved.proceeds.typed.canonical (isChannel.grow moved.proceeds.grows)
    refine (takeWaiter_takes moved.proceeds.typed hk₁ .send).bind ?_
    rintro found s₂ ⟨kept₂, ⟨rfl, rfl, clear⟩ | ⟨q, p, rest, rfl, head, hp₁, _, taken⟩⟩
    · refine ⟨⟨some v, values, none⟩, ?_, rfl, rfl, .moved moved kept⟩
      simp [Duct.serve, recv, buffered, Store.none_waiting hk requests (same ▸ clear)]
    · rw [same] at head
      have waits := Store.waiter_of_waiting head
      have hp := hp₁.shrink_waiter linked.typed waits moved.proceeds.grows
      have grows₂ := moved.proceeds.grows.trans taken.proceeds.grows
      refine Safe.skip (a := p) (request_run (hp.grow grows₂)) ?_
      obtain ⟨k₂, hk₂⟩ := taken.proceeds.typed.canonical (isChannel.grow grows₂)
      have left : k₂.buffer = values := by rw [← Store.buffer_of hk₂, taken.buffer, moved.buffer, if_pos rfl]
      have value : s₂.Known p.value := (linked.typed.good q _ hp).2.2.1.grow grows₂
      refine (tryPush_pushes taken.proceeds.typed hk₂ value).bind ?_
      rintro added s₃ ⟨kept₃, ⟨_, _, again⟩ | ⟨rfl, _, pushed⟩⟩
      · -- the place of the value that was taken is free
        have full := linked.full hk (head ▸ List.cons_ne_nil _ _)
        have capacity : k₂.capacity = k.capacity := (Store.capacity_of hk₂).unique ((Store.capacity_of hk).grow grows₂)
        rw [left, capacity, ← full, buffered] at again
        exact absurd again (Nat.ne_of_lt (Nat.lt_succ_self _))
      · rw [left] at pushed
        refine (complete_serves_rooted linked waits hp ((taken.after linked.typed moved).moved pushed)
          (kept.trans (kept₂.trans kept₃))).bind ?_
        rintro _ s' ⟨rfl, blocked, resumed, served⟩
        refine ⟨⟨some v, values ++ [p.value], some (p, none)⟩, ?_, rfl, rfl, .resumed resumed blocked served fun x => ?_⟩
        · simp [Duct.serve, recv, buffered, Store.first_waiting hk requests head hp]
        · split
          next => rfl
          next other => rw [moved.buffer, if_neg other]

/-! ### The request itself -/

/-- The context whose turn it is goes on. -/
theorem complete_own_serves (linked : Linked s) (running : s.Running r.context) (hr : s.IsRequest q r)
    (known : ∀ v, value = some v → s.Known v) : Safe Never (complete q value) s fun _ s' => Calm s s' ∧ Served s r value s' := by
  refine Safe.never (((complete_own linked running hr rfl known).both complete_served).weaken ?_)
    (complete_unrefused hr (linked.typed.framed hr))
  rintro _ s' ⟨calm, r', hr', _, served⟩
  cases hr.unique hr'
  exact ⟨calm, served⟩

theorem Dealt.length (dealt : Dealt s d e s') : s'.objects.length = s.objects.length := by
  cases partner : e.partner with
  | none => exact (dealt.alone partner).length
  | some p => exact (dealt.partner p.1 p.2 partner).2.others.length

/-- What the other context does not do stays. -/
theorem Dealt.keeps {x : Ref} {o : Obj} (dealt : Dealt s d e s') (items : ∀ t xs, o ≠ .sequence t xs) (channel : ∀ k, o ≠ .channel k)
    (other : ∀ p v, e.partner = some (p, v) → x ≠ p.context) (ho : s.objects[x]? = some o) : s'.objects[x]? = some o := by
  cases partner : e.partner with
  | none => exact (dealt.alone partner).keeps x o id channel ho
  | some p => exact (dealt.partner p.1 p.2 partner).2.keeps items channel (other p.1 p.2 partner) ho

/-- The same of frames that it does not fill. -/
theorem Dealt.stays {x : Ref} {o : Obj} (dealt : Dealt s d e s') (channel : ∀ k, o ≠ .channel k)
    (other : ∀ p v, e.partner = some (p, v) → x ≠ p.context) (unfilled : ¬e.fills r x) (ho : s.objects[x]? = some o) :
    s'.objects[x]? = some o := by
  cases partner : e.partner with
  | none => exact (dealt.alone partner).keeps x o id channel ho
  | some both =>
    obtain ⟨p, v⟩ := both
    refine (dealt.partner p v partner).2.others.keeps x o ?_ channel ho
    rintro (own | ⟨given, framed, same⟩)
    · exact other p v partner own
    · obtain ⟨v, rfl⟩ := Option.isSome_iff_exists.mp given
      exact unfilled (.inr ⟨p, v, partner, framed, same⟩)

/-- The channel as it is described. -/
theorem Store.Grows.channel (grows : s.Grows s') (hk : s.objects[d]? = some (.channel k)) :
    s'.objects[d]? = some (.channel ⟨k.capacity, s'.buffer d, s'.waiters d⟩) := by
  obtain ⟨k', hk', same⟩ := (Store.capacity_of hk).grow grows
  rw [hk', Store.buffer_of hk', Store.waiters_of hk', ← same]

/-- Only one of the two requests receives a value. -/
theorem Duct.serve_once {w : Ref} (serves : k.serve ps r = some e) (delivered : e.partner = some (p, some w)) : e.value = none := by
  unfold Duct.serve at serves
  split at serves
  · split at serves
    · cases serves
      rfl
    · split at serves <;> cases serves
      rfl
  · split at serves
    · cases serves
      simp at delivered
    · cases serves
      cases delivered
    · cases serves

/-- The request has been served once its context goes on. -/
theorem Dealt.communicates (dealt : Dealt s r.channel e s₁) (typed : s.Typed) (hr : s.IsRequest q r) (serves : k.serve ps r = some e) (running : s.Running r.context)
    (calm : Calm s₁ s') (served : Served s₁ r e.value s') : s.Communicates r e s' := by
  have apart (p : Request) (v : Option Ref) (partner : e.partner = some (p, v)) : p.context ≠ r.context := by
    intro same
    have blocked := (dealt.partner p v partner).1
    rw [same, show s.blockedAt r.context = none from running.idle] at blocked
    cases blocked
  have grows := dealt.proceeds.grows.trans calm.grows
  refine ⟨⟨served.others.length.trans dealt.length, grows, fun x f hf => ?_, fun d k hk => ?_, fun x => ?_,
    fun x o context channel unfilled ho => ?_⟩, apart, fun v given framed => (served.frame v given framed).2, fun p v partner framed => ?_⟩
  · unfold Exchange.fiber
    split
    next own =>
      subst own
      obtain ⟨g, hg, hg'⟩ := served.fiber
      cases (dealt.keeps (by simp) (by simp) (fun p v partner same => apart p v partner same.symm) hf).symm.trans hg
      exact hg'
    next other =>
      refine served.keeps (by simp) (by simp) other ?_
      split
      next p v partner =>
        split
        next same =>
          subst same
          obtain ⟨g, hg, hg'⟩ := (dealt.partner p v partner).2.fiber
          cases hf.symm.trans hg
          exact hg'
        next another => exact (dealt.partner p v partner).2.keeps (by simp) (by simp) another hf
      next alone => exact (dealt.alone alone).context hf id
  · rw [grows.channel hk, calm.buffer, calm.waiters, dealt.buffer, dealt.waiters, Store.buffer_of hk,
      Store.waiters_of hk]
    rfl
  · rintro (⟨_, framed, rfl⟩ | ⟨p, v, partner, framed, rfl⟩)
    · obtain ⟨xs, ho, _⟩ := (typed.framed hr).resolve_left framed
      exact ⟨_, xs, ho⟩
    · exact ((dealt.partner p _ partner).2.frame v rfl framed).1
  · have stays (p : Request) (isContext : s.IsTag p.context .context) : x ≠ p.context := by
      rintro rfl
      obtain ⟨f, hf⟩ := typed.canonical isContext
      exact context f (Option.some.inj (ho.symm.trans hf))
    have kept : s₁.objects[x]? = some o := dealt.stays channel (fun p v partner => stays p ?_) unfilled ho
    · refine served.others.keeps x o ?_ channel kept
      rintro (own | ⟨given, framed, same⟩)
      · exact stays r (typed.isContext hr) own
      · exact unfilled (.inl ⟨given, framed, same⟩)
    · obtain ⟨f, hf, _⟩ := (dealt.partner p v partner).2.fiber
      exact ⟨_, hf, rfl⟩
  · obtain ⟨_, t, xs, first⟩ := (dealt.partner p (some v) partner).2.frame v rfl framed
    refine ⟨t, xs, served.others.keeps _ _ ?_ (by simp) first⟩
    rintro (own | ⟨given, _⟩)
    · obtain ⟨f, hf, _⟩ := served.fiber
      cases (own ▸ first :).symm.trans hf
    · rw [Duct.serve_once serves partner] at given
      cases given

/-- What has become of a case: it has been chosen, and this context is woken, or it cannot be served and nothing has happened. -/
def Settles (s : Store) (r : Request) (s' : Store) : Option (Option Ref) → Prop
  | some woken => ∃ e, s.Serves r e ∧ woken = e.partner.map (·.1.context) ∧ s.Communicates r e s'
  | none => s' = s ∧ ¬s.Ready r

/-- The waiting requests of a channel. -/
theorem Store.Typed.requests (typed : s.Typed) (hk : s.objects[d]? = some (.channel k)) : ∃ ps, List.Forall₂ s.IsRequest k.waiters ps := by
  have each : ∀ q ∈ k.waiters, ∃ p, s.IsRequest q p := fun q hq => Store.waiter_isRequest typed (Store.waiters_of hk ▸ hq)
  generalize k.waiters = qs at each
  induction qs with
  | nil => exact ⟨[], .nil⟩
  | cons q qs ih =>
    obtain ⟨p, hp⟩ := each q List.mem_cons_self
    obtain ⟨ps, rest⟩ := ih fun q hq => each q (List.mem_cons_of_mem _ hq)
    exact ⟨p :: ps, .cons hp rest⟩

/-- A request that can be served has a channel. -/
theorem Store.Serves.channelled (serves : s.Serves r e) (typed : s.Typed) : r.channel ≠ unassigned := by
  obtain ⟨k, _, hk, _⟩ := serves
  intro nil
  rw [nil] at hk
  exact nomatch Store.IsTag.unique ⟨_, hk, rfl⟩ typed.nil

theorem Store.Serves.serve (serves : s.Serves r e) (hk : s.objects[r.channel]? = some (.channel k))
    (requests : List.Forall₂ s.IsRequest k.waiters ps) : k.serve ps r = some e := by
  obtain ⟨k', ps', hk', requests', answer⟩ := serves
  cases hk.symm.trans hk'
  have unique : Relator.RightUnique s.IsRequest := fun _ _ _ => Store.IsRequest.unique
  cases List.right_unique_forall₂' unique requests requests'
  exact answer

theorem tryCase_settles (linked : Linked s) (hr : s.IsRequest q r) (running : s.Running r.context) :
    Safe Never (Engine.tryCase q) s fun p s' => Settles s r s' p.1 := by
  obtain ⟨_, channelled, value, _⟩ := linked.typed.good q _ hr
  refine Safe.skip (a := r) (request_run hr) ?_
  by_cases nil : r.channel = unassigned
  · rw [if_pos nil]
    refine ⟨rfl, ?_⟩
    rintro ⟨e, k, ps, hk, _⟩
    obtain ⟨o, ho, unassigned⟩ := linked.typed.nil
    rw [nil] at hk
    cases hk.symm.trans ho
    cases unassigned
  rw [if_neg nil]
  have isChannel := channelled.resolve_left nil
  obtain ⟨k, hk⟩ := linked.typed.canonical isChannel
  obtain ⟨ps, requests⟩ := linked.typed.requests hk
  have unserved (none : k.serve ps r = none) : ¬s.Ready r := by
    rintro ⟨e, serves⟩
    rw [serves.serve hk requests] at none
    cases none
  -- the channel has served the request
  have served {value : Option Ref} (woken : Option Ref) {events : List Event} {s₁ : Store} {l : List Ref} (exchanged : Exchanged s l events s₁)
      (woken_iff : l = woken.toList) (known : ∀ v, value = some v → s₁.Known v) (deals : Deals s r.channel k ps r s₁ (some (value, woken))) :
      Safe Never (do
        let _ ← complete q value
        return (some woken, events)) s₁ fun p s' => Settles s r s' p.1 := by
    obtain ⟨e, serves, rfl, rfl, dealt⟩ := deals
    refine (complete_own_serves exchanged.linked (exchanged.running running) (hr.grow exchanged.proceeds.grows) known).bind ?_
    rintro _ s' ⟨calm, done⟩
    exact ⟨e, ⟨k, ps, hk, requests, serves⟩, rfl, dealt.communicates linked.typed hr serves running calm done⟩
  have woken_run {o : Option Ref} {s₁ : Store} (registered : ∀ x ∈ o.toList, x ∈ s₁.contexts) : Engine.expectWoken o s₁ = .ok () s₁ := by
    cases o with
    | none => rfl
    | some x => simp only [Engine.expectWoken, expectRegistered, registered x (List.mem_singleton_self x), if_true]
  refine Safe.skip (a := r) (request_run hr) ?_
  cases direction : r.direction with
  | send =>
    refine Safe.skip (a := r) (request_run hr) ?_
    refine ((trySend_deals linked hk requests direction value).both
      ((trySend_safe (F := True) linked isChannel value).relax fun _ _ => trivial)).bind ?_
    rintro ⟨outcome, events⟩ s₁ ⟨deals, sent⟩
    cases outcome with
    | delivered woken =>
      refine Safe.skip (woken_run (o := some woken) (sent.1.registered linked)) ?_
      exact served (some woken) sent.1 rfl (fun v no => absurd no (Option.some_ne_none v).symm) deals
    | buffered => exact served none sent.1 rfl (fun v no => absurd no (Option.some_ne_none v).symm) deals
    | wouldBlock => exact ⟨deals.1, unserved deals.2⟩
  | recv =>
    refine ((tryRecv_deals linked hk requests direction).both ((tryRecv_safe (F := True) linked isChannel).relax fun _ _ => trivial)).bind ?_
    rintro ⟨outcome, events⟩ s₁ ⟨deals, received⟩
    cases outcome with
    | received v woken =>
      obtain ⟨known, exchanged, _⟩ := received
      refine Safe.skip (woken_run (exchanged.registered linked)) ?_
      exact served woken exchanged rfl (fun _ same => Option.some.inj same ▸ known) deals
    | wouldBlock => exact ⟨deals.1, unserved deals.2⟩

/-- The first case that can be served is. -/
theorem takeReady_settles (linked : Linked s) (running : s.Running c) (requests : ∀ q ∈ qs, ∃ r, s.IsRequest q r ∧ r.context = c) :
    Safe Never (Engine.takeReady qs) s fun p s' => match p.1 with
      | some woken => ∃ before q after r e, qs = before ++ q :: after ∧ s.IsRequest q r ∧ (∀ p ∈ before, ∀ r, s.IsRequest p r → ¬s.Ready r) ∧
          s.Serves r e ∧ woken = e.partner.map (·.1.context) ∧ s.Communicates r e s'
      | none => s' = s ∧ ∀ q ∈ qs, ∀ r, s.IsRequest q r → ¬s.Ready r := by
  induction qs with
  | nil => exact ⟨rfl, fun _ no => absurd no List.not_mem_nil⟩
  | cons q rest ih =>
    obtain ⟨r, hr, rfl⟩ := requests q List.mem_cons_self
    refine (tryCase_settles linked hr running).bind ?_
    rintro ⟨outcome, events⟩ s₁ settles
    cases outcome with
    | some woken =>
      obtain ⟨e, serves, woken, communicates⟩ := settles
      exact ⟨[], q, rest, r, e, rfl, hr, fun _ no => absurd no List.not_mem_nil, serves, woken, communicates⟩
    | none =>
      obtain ⟨rfl, idle⟩ := settles
      have also (l : List Ref) (all : ∀ p ∈ l, ∀ r, s₁.IsRequest p r → ¬s₁.Ready r) : ∀ p ∈ q :: l, ∀ r, s₁.IsRequest p r → ¬s₁.Ready r := by
        intro p hp r' hr'
        rcases List.mem_cons.mp hp with rfl | hp
        · exact hr.unique hr' ▸ idle
        · exact all p hp r' hr'
      refine (ih fun p hp => requests p (List.mem_cons_of_mem _ hp)).weaken ?_
      rintro ⟨outcome, events⟩ s' found
      cases outcome with
      | some woken =>
        obtain ⟨before, p, after, r', e, rfl, hr', none, serves⟩ := found
        exact ⟨q :: before, p, after, r', e, rfl, hr', also before none, serves⟩
      | none => exact ⟨found.1, also rest found.2⟩

end FiberMachine.Ideal
