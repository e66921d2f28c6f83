import FiberMachine.Proofs.Ideal.Acting
import FiberMachine.Proofs.Ideal.Effects

/-!
# What instructions do to other contexts

An instruction works for its own context. It reaches another context only by serving one of its requests, or by releasing it from
a wait group.
-/

namespace FiberMachine.Ideal

variable {P : Ref → Prop} {s s' s₁ : Store} {c d g q v x : Ref} {p r : Request} {w : Word} {l qs : List Ref} {n : Nat}

/-! ### Sending and receiving -/

theorem expectWoken_same {o : Option Ref} : Safe Any (Engine.expectWoken o) s fun _ s' => s' = s := by
  cases o with
  | none => rfl
  | some c => exact Guiding.expectRegistered_same.relax fun _ _ => trivial

/-- A waiting receiver is served, or nobody is reached. -/
theorem trySend_reaches : Safe Any (trySend d v) s fun p s' => Reaches P s p.2 s' ∧ (p.1 = .wouldBlock → s.Edits ungrouped P s') := by
  refine Safe.bind (Editing.takeWaiter (K := ungrouped) (P := P) s) fun found s₁ first => ?_
  cases found with
  | some q =>
    refine complete_served.bind fun c s' ⟨p, hr, own, served⟩ => .pure ⟨.before first (.served served fun f => ?_), by simp⟩
    refine .received (served.request hr) rfl rfl fun framed => ?_
    exact (served.frame v rfl framed).2
  | none =>
    refine Safe.bind (Editing.tryPush (K := ungrouped) (P := P) s₁) fun added s' second => ?_
    cases added with
    | true => exact .pure ⟨.of_edits (first.trans second), by simp⟩
    | false => exact .pure ⟨.of_edits (first.trans second), fun _ => first.trans second⟩

/-- A waiting sender goes on. -/
theorem sender_reaches {events : List Event} (edits : s.Edits ungrouped P s₁)
    (noted : events = [.received d v, .completed d .send q, .sent d x] ∨ events = [.completed d .send q, .sent d x, .received d v]) :
    Safe Any (do
      let woken ← withRoots [v] (complete q none)
      return (RecvOutcome.received v (some woken), events)) s₁ fun p s' =>
        Reaches P s p.2 s' ∧ Event.Undelivered p.2 ∧ (p.1 = .wouldBlock → s.Edits ungrouped P s') := by
  refine Safe.bind (rooted_effect (R := fun s _ s' => ∃ p, s.IsRequest q p ∧ Served s p none s') (fun s => ?_)
    fun _ _ _ _ _ ⟨p, hr, served⟩ => ⟨p, hr, served.fiber, served.frame, ⟨served.others.length, served.others.keeps⟩⟩) ?_
  · exact complete_served.weaken fun _ _ ⟨p, hr, _, served⟩ => ⟨p, hr, served⟩
  · rintro woken s' ⟨p, hr, served⟩
    refine .pure ⟨.before edits (.served served fun f => .sent (served.request hr) rfl noted), ?_, by simp⟩
    rcases noted with rfl | rfl <;> simp [Event.Undelivered]

/-- A waiting sender is served, or nobody is reached. -/
theorem tryRecv_reaches : Safe Any (tryRecv d) s fun p s' =>
    Reaches P s p.2 s' ∧ Event.Undelivered p.2 ∧ (p.1 = .wouldBlock → s.Edits ungrouped P s') := by
  refine Safe.bind (Editing.popBuffer (K := ungrouped) (P := P) s) fun popped s₁ first => ?_
  cases popped with
  | some value =>
    refine Safe.bind (Editing.takeWaiter (K := ungrouped) (P := P) s₁) fun found s₂ second => ?_
    cases found with
    | none => exact .pure ⟨.of_edits (first.trans second), by simp [Event.Undelivered], by simp⟩
    | some q =>
      refine Safe.look_bind (fun r seen => ?_) fun _ => trivial
      refine Safe.bind (Editing.tryPush (K := ungrouped) (P := P) s₂) fun _ s₃ third => ?_
      exact sender_reaches ((first.trans second).trans third) (.inl rfl)
  | none =>
    refine Safe.bind (Editing.takeWaiter (K := ungrouped) (P := P) s₁) fun found s₂ second => ?_
    cases found with
    | none => exact .pure ⟨.of_edits (first.trans second), by simp [Event.Undelivered], fun _ => first.trans second⟩
    | some q => exact Safe.look_bind (fun r seen => sender_reaches (first.trans second) (.inr rfl)) fun _ => trivial

/-! ### Selecting -/

/-- The request is served, which is one of a context that acts, and perhaps one of another context; or nobody is reached. -/
theorem tryCase_reaches (hr : s.IsRequest q r) (mine : P r.context) : Safe Any (Engine.tryCase q) s fun p s' =>
    Reaches P s p.2 s' ∧ (p.1 = none → s.Edits ungrouped P s') := by
  have own {value : Option Ref} {o : Option Ref} {events : List Event} {s₁ : Store} (reached : Reaches P s events s₁)
      (once : value = none ∨ Event.Undelivered events) : Safe Any (do
        let _ ← complete q value
        return (some o, events)) s₁ fun p s' => Reaches P s p.2 s' ∧ (p.1 = none → s.Edits ungrouped P s') := by
    refine complete_served.bind fun _ s' ⟨r', hr', _, served⟩ => .pure ⟨?_, by simp⟩
    cases hr'.unique (reached.requests q r hr)
    exact reached.after served mine once
  refine request_bind hr ?_
  by_cases nil : r.channel = unassigned
  · rw [if_pos nil]
    exact .pure ⟨.refl, fun _ => .refl⟩
  rw [if_neg nil]
  refine request_bind hr ?_
  cases r.direction with
  | send =>
    refine request_bind hr (Safe.bind (trySend_reaches (P := P)) ?_)
    rintro ⟨outcome, events⟩ s₁ ⟨reached, quiet⟩
    cases outcome with
    | delivered woken =>
      refine Safe.bind (expectWoken_same (o := some woken)) ?_
      rintro _ _ rfl
      exact own reached (.inl rfl)
    | buffered => exact own reached (.inl rfl)
    | wouldBlock => exact .pure ⟨.of_edits (quiet rfl), fun _ => quiet rfl⟩
  | recv =>
    refine Safe.bind (tryRecv_reaches (P := P)) ?_
    rintro ⟨outcome, events⟩ s₁ ⟨reached, undelivered, quiet⟩
    cases outcome with
    | received value woken =>
      refine Safe.bind (expectWoken_same (o := woken)) ?_
      rintro _ _ rfl
      exact own reached (.inr undelivered)
    | wouldBlock => exact .pure ⟨.of_edits (quiet rfl), fun _ => quiet rfl⟩

/-- A case is chosen, or nobody is reached. -/
theorem takeReady_reaches (own : ∀ q ∈ qs, ∃ r, s.IsRequest q r ∧ P r.context) : Safe Any (Engine.takeReady qs) s fun p s' =>
    Reaches P s p.2 s' ∧ (p.1 = none → s.Edits ungrouped P s') := by
  induction qs generalizing s with
  | nil => exact .pure ⟨.refl, fun _ => .refl⟩
  | cons q rest ih =>
    obtain ⟨r, hr, mine⟩ := own q List.mem_cons_self
    refine (tryCase_reaches hr mine).bind ?_
    rintro ⟨outcome, events⟩ s₁ ⟨reached, quiet⟩
    cases outcome with
    | some woken => exact .pure ⟨reached, by simp⟩
    | none =>
      have edits := quiet rfl
      refine (ih fun q hq => ?_).weaken fun p s' ⟨reached, quiet⟩ => ⟨.before edits reached, fun none => edits.trans (quiet none)⟩
      obtain ⟨r, hr, mine⟩ := own q (List.mem_cons_of_mem _ hq)
      exact ⟨r, reached.requests q r hr, mine⟩

theorem parkAll_edits (own : ∀ q ∈ qs, ∃ r, s.IsRequest q r ∧ P r.context) :
    Safe Any (Engine.parkAll qs) s fun _ s' => s.Edits ungrouped P s' := by
  induction qs generalizing s with
  | nil => exact .refl
  | cons q rest ih =>
    obtain ⟨r, hr, mine⟩ := own q List.mem_cons_self
    refine request_bind hr ?_
    have later {s₁ : Store} (edits : s.Edits ungrouped P s₁) : Safe Any (Engine.parkAll rest) s₁ fun _ s' => s.Edits ungrouped P s' := by
      refine (ih fun p hp => ?_).weaken fun _ _ more => edits.trans more
      obtain ⟨r, hr, mine⟩ := own p (List.mem_cons_of_mem _ hp)
      exact ⟨r, edits.keeps (by simp) (by simp) (by simp) hr, mine⟩
    split
    · exact (Editing.park fun _ hp => hr.unique hp ▸ mine).bind fun _ _ edits => (later edits).bind fun _ _ edits => .pure edits
    · exact (later .refl).bind fun _ _ edits => .pure edits

/-! ### Wait groups -/

theorem group_bind {α : Type} {k : Word × List Ref → StoreM α} {R : α → Store → Prop} (ho : s.objects[g]? = some (.waitGroup w l))
    (next : Safe Any (k (w, l)) s R) : Safe Any (group g >>= k) s R := by
  refine Safe.look_bind (fun p seen => ?_) fun _ => trivial
  cases (object_of_group seen).symm.trans ho
  exact next

/-- The contexts in `l` have been released from the wait group `g`, in which `rest` wait now. -/
structure Released (s : Store) (g : Ref) (w : Word) (l rest : List Ref) (s' : Store) : Prop where
  group : s'.objects[g]? = some (.waitGroup w rest)
  contexts : ∀ (x : Ref) (f : Fiber), x ∈ l → s.objects[x]? = some (.context f) → s'.objects[x]? = some (.context f.released)
  requests : ∀ x ∈ l, ∀ p, ¬s.IsRequest x p
  others : s.Except (fun r => r = g ∨ r ∈ l) s'

/-- The counter of the wait group has changed before. -/
theorem Released.before {w₀ : Word} {l₀ xs rest : List Ref} (ho : s.objects[g]? = some (.waitGroup w₀ l₀))
    (released : Released (s.set g (.waitGroup w l)) g w xs rest s') : Released s g w xs rest s' := by
  have set (y : Ref) := Store.getElem?_set ⟨_, ho⟩ (.waitGroup w l) y
  refine ⟨released.group, fun x f member hx => released.contexts x f member ?_, fun x member p hp => released.requests x member p ?_, ?_⟩
  · refine (set x).trans ((if_neg ?_).trans hx)
    rintro rfl
    cases hx.symm.trans ho
  · refine (set x).trans ((if_neg ?_).trans hp)
    rintro rfl
    cases hp.symm.trans ho
  · exact (Store.Except.set (.inl rfl)).trans released.others

theorem releaseFrom_released (ho : s.objects[g]? = some (.waitGroup w l)) :
    Safe Any (releaseFrom g n) s fun xs s' => xs = l.take n ∧ Released s g w xs (l.drop n) s' := by
  induction n generalizing s l with
  | zero => exact .pure ⟨rfl, ho, by simp, by simp, .refl⟩
  | succ n ih =>
    refine group_bind ho ?_
    cases l with
    | nil => exact .pure ⟨rfl, ho, by simp, by simp, .refl⟩
    | cons c rest =>
      refine Safe.bind (Q := fun _ s' => s' = s.set g (.waitGroup w rest)) (Safe.replace rfl) ?_
      rintro _ _ rfl
      have set (y : Ref) := Store.getElem?_set ⟨_, ho⟩ (.waitGroup w rest) y
      refine release_bind (k := fun _ => do return c :: (← releaseFrom g n)) fun f s₁ hf fares => ?_
      have ne : c ≠ g := by
        rintro rfl
        rw [set, if_pos rfl] at hf
        cases hf
      have first : s.Except (fun r => r = g ∨ r = c) s₁ := (Store.Except.set (.inl rfl)).trans (fares.others.mono fun _ => .inr)
      refine (ih (fares.others.keeps _ _ ne.symm (by simp) ((set g).trans (if_pos rfl)))).bind fun xs s' ⟨same, released⟩ => .pure ?_
      refine ⟨congrArg _ same, released.group, fun x f' member hx => ?_, fun x member p hp => ?_, ?_⟩
      · by_cases e : x = c
        · subst e
          rw [set, if_neg ne, hx] at hf
          cases hf
          by_cases again : x ∈ xs
          · exact (released.contexts x f.released again fares.fiber :)
          · exact released.others.keeps _ _ (by simp [ne, again]) (by simp) fares.fiber
        · refine released.contexts x f' ((List.mem_cons.mp member).resolve_left e) (first.keeps _ _ ?_ (by simp) hx)
          rintro (rfl | e')
          · cases hx.symm.trans ho
          · exact e e'
      · have other : x ≠ g := by
          rintro rfl
          cases hp.symm.trans ho
        have still : x ≠ c := by
          rintro rfl
          rw [set, if_neg ne] at hf
          cases hp.symm.trans hf
        exact released.requests x ((List.mem_cons.mp member).resolve_left still) p (first.keeps _ _ (by simp [other, still]) (by simp) hp)
      · exact (first.mono fun x => Or.imp_right fun e => e ▸ List.mem_cons_self).trans
          (released.others.mono fun x => Or.imp_right fun mem => List.mem_cons_of_mem _ mem)

/-- The counter of the wait group has changed by `delta`, from `w`; if it is zero now, those in the queue `l` have been released. -/
structure Added (s : Store) (g : Ref) (w : Word) (l : List Ref) (delta : Int64) (xs : List Ref) (s' : Store) : Prop where
  nonneg : 0 ≤ w.toInt64.toInt + delta.toInt
  fits : w.toInt64.toInt + delta.toInt ≤ Int64.maxValue.toInt
  woken : xs = if w.toInt64.toInt + delta.toInt = 0 then l else []
  released : Released s g (UInt64.ofNat (w.toInt64.toInt + delta.toInt).toNat) xs
    (if w.toInt64.toInt + delta.toInt = 0 then [] else l) s'

theorem addToGroup_added {delta : Int64} : Safe Any (addToGroup g delta) s fun xs s' =>
    ∃ w l, s.objects[g]? = some (.waitGroup w l) ∧ Added s g w l delta xs s' := by
  refine Safe.look_bind (fun p seen => ?_) fun _ => trivial
  obtain ⟨w, l⟩ := p
  have ho := object_of_group seen
  refine Safe.weaken (Q := fun xs s' => Added s g w l delta xs s') ?_ fun _ _ added => ⟨w, l, ho, added⟩
  simp only
  split
  · exact Safe.bind (Q := fun _ _ => False) trivial fun _ _ no => no.elim
  next nonneg =>
    split
    · exact Safe.bind (Q := fun _ _ => False) trivial fun _ _ no => no.elim
    next fits =>
      refine Safe.bind (Q := fun _ s' => s' = s.set g (.waitGroup (UInt64.ofNat (w.toInt64.toInt + delta.toInt).toNat) l)) (Safe.replace rfl) ?_
      rintro _ _ rfl
      have ho' := (Store.getElem?_set ⟨_, ho⟩ (.waitGroup (UInt64.ofNat (w.toInt64.toInt + delta.toInt).toNat) l) g).trans (if_pos rfl)
      split
      next zero =>
        refine (releaseFrom_released ho').weaken ?_
        rintro xs s' ⟨same, released⟩
        rw [List.take_length] at same
        rw [List.drop_length] at released
        subst same
        refine ⟨Int.not_lt.mp nonneg, Int.not_lt.mp fits, (if_pos zero).symm, ?_⟩
        rw [if_pos zero]
        exact released.before ho
      next nonzero =>
        refine .pure ⟨Int.not_lt.mp nonneg, Int.not_lt.mp fits, (if_neg nonzero).symm, ?_⟩
        rw [if_neg nonzero]
        exact .before ho ⟨ho', by simp, by simp, .refl⟩

/-- A context waits for the wait group, unless the counter is zero. -/
theorem waitFor_effect : Safe Any (waitFor g c) s fun waits s' => ∃ w l, s.objects[g]? = some (.waitGroup w l) ∧
    ((waits = false ∧ w.toInt64 = 0 ∧ s' = s) ∨ (waits = true ∧ w.toInt64 ≠ 0 ∧ s'.objects[g]? = some (.waitGroup w (l ++ [c])) ∧
      ∃ f : Fiber, s.objects[c]? = some (.context f) ∧ s'.objects[c]? = some (.context { f with waits := f.waits ++ [g], blocked := true }) ∧
        s.Except (fun r => r = g ∨ r = c) s')) := by
  refine Safe.look_bind (fun p seen => ?_) fun _ => trivial
  obtain ⟨w, l⟩ := p
  have ho := object_of_group seen
  simp only
  split
  next zero => exact .pure ⟨w, l, ho, .inl ⟨rfl, zero, rfl⟩⟩
  next nonzero =>
    refine Safe.bind (Guiding.expectRegistered_same.relax fun _ _ => trivial) ?_
    rintro _ s rfl
    refine Safe.bind (Q := fun _ s' => s'.objects[g]? = some (.waitGroup w (l ++ [c])) ∧ ∃ f : Fiber, s.objects[c]? = some (.context f) ∧
        s'.objects[c]? = some (.context { f with waits := f.waits ++ [g] }) ∧ s.Except (fun r => r = g ∨ r = c) s') ?_ ?_
    · refine Safe.withRoots (Safe.bind (Q := fun _ s' => s'.objects = (s.set g (.waitGroup w (l ++ [c]))).objects) (Safe.replace rfl) ?_)
      rintro _ s₁ same
      refine (update_seen.relax fun _ _ => trivial).weaken ?_
      rintro _ _ ⟨f, hf, rfl⟩
      have set (y : Ref) : s₁.objects[y]? = if y = g then some (.waitGroup w (l ++ [c])) else s.objects[y]? := by
        rw [same]
        exact Store.getElem?_set ⟨_, ho⟩ _ y
      have ne : c ≠ g := by
        rintro rfl
        rw [set, if_pos rfl] at hf
        cases hf
      refine ⟨?_, f, ?_, Store.context_set hf _, .trans (.reroot (.set (.inl rfl)) same) (.reroot (.set (.inr rfl)) rfl)⟩
      · exact (List.getElem?_set_ne ne).trans ((set g).trans (if_pos rfl))
      · rwa [set, if_neg ne] at hf
    · rintro _ s₁ ⟨ho₁, f, hf, hf₁, kept⟩
      refine (Fares.update hf₁).bind fun _ s' fares => .pure ⟨w, l, ho, .inr
        ⟨rfl, nonzero, ?_, f, hf, fares.fiber, kept.trans (fares.others.mono fun _ => .inr)⟩⟩
      refine fares.others.keeps _ _ ?_ (by simp) ho₁
      rintro rfl
      cases hf.symm.trans ho

/-! ### Methods of wait groups -/

/-- What a method adds to the counter of a wait group. -/
inductive Store.Asks (s : Store) : String → List Ref → Int64 → Prop
  | add {v : Ref} {delta : Word} (hv : s.objects[v]? = some (.number .int delta)) : Asks s "Add" [v] delta.toInt64
  | done : Asks s "Done" [] (-1)

/-- The object `m` is the method of the object `g`, bound to it. -/
def Store.Binds (s : Store) (m g : Ref) (method : String) : Prop :=
  ∃ name bs, s.objects[m]? = some (.method g name) ∧ s.objects[name]? = some (.text bs) ∧ Utf8.decodeLossy bs = method

/-- The instruction, when the context `c` executes it, calls the method of the object `g` with the arguments `xs`. -/
inductive Store.Invokes (s : Store) (c : Ref) : Instruction → Ref → String → List Ref → Prop
  | direct {g : Ref} {method : String} {xs rest : List Ref} (operands : s.Operands c (rest ++ g :: xs)) :
      Invokes s c (.callMethod method xs.length) g method xs
  | bound {m g : Ref} {method : String} {xs rest : List Ref} (operands : s.Operands c (rest ++ m :: xs)) (binds : s.Binds m g method) :
      Invokes s c (.call xs.length) g method xs

namespace Engine

variable {e e' : Engine} {xs : List Ref} {method : String}

/-- The context `c` has called a method of the wait group `g`. -/
inductive Invoked (e : Engine) (c g : Ref) : String → List Ref → Outcome → Engine → Prop
  | adds {method : String} {xs woken : List Ref} {w : Word} {l : List Ref} {delta : Int64} {e' : Engine}
      (ho : e.store.objects[g]? = some (.waitGroup w l)) (asks : e.store.Asks method xs delta)
      (added : Added e.store g w l delta woken e'.store) (scheduler : e'.scheduler = { e.scheduler with ready := e.scheduler.ready ++ woken }) :
      Invoked e c g method xs .proceed e'
  | passes {w : Word} {l : List Ref} (ho : e.store.objects[g]? = some (.waitGroup w l)) (zero : w.toInt64 = 0) :
      Invoked e c g "Wait" [] .proceed e
  | waits {w : Word} {l : List Ref} {f : Fiber} {e' : Engine} (ho : e.store.objects[g]? = some (.waitGroup w l)) (nonzero : w.toInt64 ≠ 0)
      (joined : e'.store.objects[g]? = some (.waitGroup w (l ++ [c]))) (before : e.store.objects[c]? = some (.context f))
      (after : e'.store.objects[c]? = some (.context { f with waits := f.waits ++ [g], blocked := true }))
      (others : e.store.Except (fun r => r = g ∨ r = c) e'.store) (scheduler : e'.scheduler = e.scheduler) :
      Invoked e c g "Wait" [] .block e'

theorem look_seen {α : Type} {view : Obj → Option α} : Safe Any (look view x) s fun a s' => s' = s ∧ s.objects[x]?.bind view = some a :=
  Safe.look (fun _ seen => ⟨rfl, seen⟩) fun _ => trivial

theorem enqueue_effect {x : Ref} : Safe Any (enqueue x) e fun _ e' =>
    e' = { e with scheduler := { e.scheduler with ready := e.scheduler.ready ++ [x] } } := by
  refine store_bind (Guiding.expectRegistered_same.relax (B := Any) fun _ _ => trivial) ?_
  rintro _ _ rfl
  rfl

theorem wakeAll_effect : Safe Any (wakeAll l) e fun o e' =>
    o = .proceed ∧ e' = { e with scheduler := { e.scheduler with ready := e.scheduler.ready ++ l } } := by
  refine Safe.bind (Q := fun _ e' => e' = { e with scheduler := { e.scheduler with ready := e.scheduler.ready ++ l } }) ?_
    fun _ _ same => .pure ⟨rfl, same⟩
  induction l generalizing e with
  | nil => simp [Safe, Pure.pure, EStateM.pure]
  | cons x rest ih =>
    refine enqueue_effect.bind ?_
    rintro _ _ rfl
    refine ih.weaken ?_
    rintro _ _ rfl
    simp

theorem expectInt_seen : Safe Any (expectInt v) s fun n s' => s' = s ∧ ∃ w, s.objects[v]? = some (.number .int w) ∧ n = w.toInt64 := by
  refine Safe.bind (expect_seen.relax fun _ _ => trivial) ?_
  rintro _ _ ⟨rfl, o, ho, tagged⟩
  refine Safe.look_bind (fun w seen => ?_) fun _ => trivial
  obtain ⟨o', ho', eq⟩ := object_of_view seen
  cases ho.symm.trans ho'
  cases o <;> cases eq
  cases tagged
  exact .pure ⟨rfl, w, ho, rfl⟩

/-- A method of a wait group has been called. -/
theorem callMethod_invoked : Safe Any (callMethod c g method xs) e (Invoked e c g method xs) := by
  refine store_bind (tag_seen.relax (B := Any) fun _ _ => trivial) ?_
  rintro t _ ⟨rfl, k⟩
  have counted {n : Nat} : Safe Any (expectArguments xs n) e fun _ e' => e' = e ∧ xs.length = n := by
    unfold expectArguments
    split
    · trivial
    next same => exact .pure ⟨rfl, Classical.not_not.mp same⟩
  split
  · refine Safe.bind counted ?_
    rintro _ _ ⟨rfl, one⟩
    obtain ⟨v, rfl⟩ := List.length_eq_one_iff.mp one
    refine store_bind expectInt_seen ?_
    rintro _ _ ⟨rfl, delta, hv, rfl⟩
    refine store_bind addToGroup_added fun woken s' ⟨w, l, ho, added⟩ => wakeAll_effect.weaken ?_
    rintro _ _ ⟨rfl, rfl⟩
    exact .adds ho (.add hv) added rfl
  · refine Safe.bind counted ?_
    rintro _ _ ⟨rfl, none⟩
    cases List.length_eq_zero_iff.mp none
    refine store_bind addToGroup_added fun woken s' ⟨w, l, ho, added⟩ => wakeAll_effect.weaken ?_
    rintro _ _ ⟨rfl, rfl⟩
    exact .adds ho .done added rfl
  · refine Safe.bind counted ?_
    rintro _ _ ⟨rfl, none⟩
    cases List.length_eq_zero_iff.mp none
    refine store_bind waitFor_effect ?_
    rintro waits s' ⟨w, l, ho, ⟨rfl, zero, rfl⟩ | ⟨rfl, nonzero, joined, f, hf, after, others⟩⟩
    · exact .pure (.passes ho zero)
    · exact .pure (.waits ho nonzero joined hf after others rfl)
  · trivial

/-- Whoever is reached is released. -/
theorem Invoked.reaches {o : Outcome} (invoked : Invoked e c g method xs o e') : Reaches (· = c) e.store [] e'.store := by
  cases invoked with
  | @adds _ _ woken w l delta _ ho asks added =>
    have member {x : Ref} (hx : x ∈ woken) : x ∈ l := by
      rw [added.woken] at hx
      split at hx
      · exact hx
      · cases hx
    refine ⟨fun x f other hf => ?_, fun q p hq => ?_⟩
    · by_cases mem : x ∈ woken
      · exact ⟨_, added.released.contexts x f mem hf, .released ho (member mem)⟩
      · refine ⟨f, added.released.others.context hf ?_, .rests⟩
        rintro (rfl | mem')
        · cases hf.symm.trans ho
        · exact mem mem'
    · refine added.released.others.request hq ?_
      rintro (rfl | mem)
      · cases hq.symm.trans ho
      · exact added.released.requests q mem p hq
  | passes => exact .refl
  | waits ho nonzero joined before after others =>
    refine ⟨fun x f other hf => ⟨f, others.context hf ?_, .rests⟩, fun q p hq => others.request hq ?_⟩
    · rintro (rfl | own)
      · cases hf.symm.trans ho
      · exact other own
    · rintro (rfl | rfl)
      · cases hq.symm.trans ho
      · cases hq.symm.trans before

variable {i : Instruction} {depth pc argc : Nat}

/-- The operands of the instruction have been taken off the stack, and the method of the wait group `g` has been called with the
arguments `xs`. -/
inductive Called (e : Engine) (c : Ref) (i : Instruction) (g : Ref) (method : String) (xs : List Ref) (o : Outcome) (e' : Engine) : Prop
  | mk {e₁ : Engine} (invokes : e.store.Invokes c i g method xs) (edits : e.store.Edits ungrouped (· = c) e₁.store)
      (others : e.store.OnlyAt c e₁.store) (isContext : e₁.store.IsTag c .context) (scheduler : e₁.scheduler = e.scheduler)
      (invoked : Invoked e₁ c g method xs o e') : Called e c i g method xs o e'

theorem Called.reaches {o : Outcome} (called : Called e c i g method xs o e') : Reaches (· = c) e.store [] e'.store := by
  obtain ⟨_, edits, _, _, _, invoked⟩ := called
  exact .before edits invoked.reaches

/-- The operands that a call takes: what is called, and the arguments. -/
theorem takeCall {α : Type} {k : List Ref → Ref → EngineM α} {Q : α → Engine → Prop} (turn : Turn e c)
    (next : ∀ callee xs rest e₁, e.store.Edits ungrouped (· = c) e₁.store → e.store.OnlyAt c e₁.store → e₁.scheduler = e.scheduler →
      e.store.Operands c (rest ++ callee :: xs) → xs.length = argc → e₁.store.Operands c rest → Safe Any (k xs callee) e₁ Q) :
    Safe Any (do
      let arguments ← popMany c argc
      let callee ← pop c
      k arguments callee) e Q := by
  refine Safe.bind (Safe.both ((Quiet.popMany (F := True) turn.active argc (.inl trivial)).relax (B := Any) fun _ _ => trivial) (Editing.popMany (K := ungrouped) (P := (· = c)) rfl e)) ?_
  rintro xs e₁ ⟨⟨calm, beside, known, ⟨length, rest, before, after⟩, others⟩, edits⟩
  refine Safe.bind (Safe.both ((Quiet.pop (F := True) (turn.keep calm).active).relax (B := Any) fun _ _ => trivial) (Editing.pop (K := ungrouped) (P := (· = c)) rfl e₁)) ?_
  rintro callee e₂ ⟨⟨calm', beside', hr, ⟨rest', before', after'⟩, others'⟩, edits'⟩
  refine next callee xs rest' e₂ (edits.trans edits') (fun q ne => (others' q ne).trans (others q ne))
    (beside'.scheduler.trans beside.scheduler) ?_ length after'
  cases after.unique before'
  simpa using before

theorem execCallMethod_called (turn : Turn e c) : Safe Any (execCallMethod c method argc) e fun o e' =>
    ∃ g xs, Called e c (.callMethod method argc) g method xs o e' := by
  refine takeCall turn fun g xs rest e₁ edits others scheduler before length ⟨f, hf, _⟩ => callMethod_invoked.weaken fun o e' invoked => ?_
  subst length
  exact ⟨g, xs, .direct before, edits, others, ⟨_, hf, rfl⟩, scheduler, invoked⟩

/-- What is called is the method of nothing if it is no method. -/
theorem not_invokes {m : Ref} {rest : List Ref} (operands : s.Operands c (rest ++ m :: xs))
    (other : ∀ g name, s.objects[m]? ≠ some (.method g name)) : ¬s.Invokes c (.call xs.length) g method l := by
  generalize same : Instruction.call xs.length = i
  rintro (_ | ⟨operands', name, _, bound, _⟩)
  · cases same
  · rw [Instruction.call.injEq] at same
    obtain ⟨_, tops⟩ := List.append_inj' (operands.unique operands') (by simp [same])
    cases tops
    exact other _ name bound

/-- A function is called, or the method of a wait group. -/
theorem execCall_called {returnPc : Nat} (turn : Turn e c) : Safe Any (execCall c returnPc argc) e fun o e' =>
    (e.store.Edits ungrouped (· = c) e'.store ∧ ∀ g method xs, ¬e.store.Invokes c (.call argc) g method xs) ∨
      ∃ g method xs, Called e c (.call argc) g method xs o e' := by
  refine takeCall turn fun m xs rest e₁ edits others scheduler before length after => ?_
  subst length
  refine store_bind (tag_seen.relax (B := Any) fun _ _ => trivial) ?_
  rintro t _ ⟨rfl, k⟩
  have old {r : Ref} {o : Obj} (other : ∀ f, o ≠ .context f) (ho : e₁.store.objects[r]? = some o) : e.store.objects[r]? = some o := by
    refine (others r ?_).symm.trans ho
    rintro rfl
    obtain ⟨f, hf, _⟩ := after
    exact other f (Option.some.inj (ho.symm.trans hf))
  split
  · refine store_bind look_seen ?_
    rintro _ _ ⟨rfl, seen⟩
    refine store_bind look_seen ?_
    rintro ⟨g, name⟩ _ ⟨rfl, seen'⟩
    cases seen.symm.trans seen'
    have bound := object_of_method seen
    refine store_bind look_seen ?_
    rintro bs _ ⟨rfl, seen''⟩
    have named := object_of_bytes seen''
    refine callMethod_invoked.weaken fun o e' invoked => .inr ⟨g, _, xs, .bound before ⟨name, bs, ?_, ?_, rfl⟩, edits, others, ?_, scheduler, invoked⟩
    · exact old (by simp) bound
    · exact old (by simp) named
    · obtain ⟨f, hf, _⟩ := after
      exact ⟨_, hf, rfl⟩
  next other =>
    refine (Editing.enter (K := ungrouped) (P := (· = c)) rfl (by decide) e₁).weaken fun _ _ more => .inl ⟨edits.trans more, fun _ _ _ => ?_⟩
    refine not_invokes before fun g name bound => other ?_
    have apart : m ≠ c := by
      rintro rfl
      obtain ⟨f, hf, _⟩ := before
      cases hf.symm.trans bound
    obtain ⟨o, ho, tagged⟩ := k
    rw [← tagged, Option.some.inj (ho.symm.trans ((others m apart).trans bound))]
    rfl

/-! ### Instructions -/

theorem wakeOption_same {o : Option Ref} : Safe Any (wakeOption o) e fun _ e' => e'.store = e.store := by
  cases o with
  | none => rfl
  | some x => exact enqueue_effect.bind fun _ _ same => .pure (same ▸ rfl)

/-- A context that has been reached is ready. -/
theorem wakeOption_reaches {o : Option Ref} {events : List Event} {s : Store} (reached : Reaches P s events e.store) :
    Safe Any (do return (← wakeOption o, events)) e fun p e' => Reaches P s p.2 e'.store :=
  wakeOption_same.bind fun _ _ same => .pure (same ▸ reached)

/-- A context blocks on a request. -/
theorem parkRequest_edits {r : Request} (own : r.context = c) : Safe Any (parkRequest r) e fun _ e' => e.store.Edits ungrouped (· = c) e'.store := by
  refine store_bind (R := fun q s' => e.store.Edits ungrouped (· = c) s' ∧ s'.IsRequest q { r with resume := wrap r.resume }) ?_ ?_
  · refine Safe.add ⟨.single (.make (by simp [Obj.Plain]) (by simp [Obj.isWatched])), ?_⟩
    simp [Store.IsRequest, Store.push]
  · rintro q s₁ ⟨edits, hr⟩
    refine store_bind (Editing.park (K := ungrouped) (P := (· = c)) fun _ hp => hr.unique hp ▸ own) fun _ s₂ parked => ?_
    refine store_bind (Editing.setBlocked (K := ungrouped) (P := (· = c)) own s₂) fun _ s₃ blocked => ?_
    exact .pure ((edits.trans parked).trans blocked)

theorem execSend_reaches {resume : Nat} : Safe Any (execSend c resume) e fun p e' => Reaches (· = c) e.store p.2 e'.store := by
  refine Safe.bind (Editing.pop (K := ungrouped) (P := (· = c)) rfl e) fun value e₁ first => ?_
  refine Safe.bind (Editing.pop (K := ungrouped) (P := (· = c)) rfl e₁) fun channel e₂ second => ?_
  refine Safe.bind (Editing.onStore (K := ungrouped) (P := (· = c)) Editing.expectChannel e₂) fun given e₃ third => ?_
  have edits := (first.trans second).trans third
  split
  · refine Safe.bind (Editing.protecting (K := ungrouped) (P := (· = c)) Editing.copy e₃) fun copied e₄ fourth => ?_
    have edits := edits.trans fourth
    refine store_bind (trySend_reaches (P := (· = c))) ?_
    rintro ⟨outcome, events⟩ s₁ ⟨reached, quiet⟩
    cases outcome with
    | delivered woken => exact wakeOption_reaches (o := some woken) (.before edits reached)
    | buffered => exact .pure (.before edits reached)
    | wouldBlock => exact (parkRequest_edits rfl).weaken fun p e' last => .of_edits ((edits.trans (quiet rfl)).trans last)
  · exact (Editing.blockForever (K := ungrouped) (P := (· = c)) rfl e₃).weaken fun p e' last => .of_edits (edits.trans last)

theorem execRecv_reaches {resume : Nat} : Safe Any (execRecv c resume) e fun p e' => Reaches (· = c) e.store p.2 e'.store := by
  refine Safe.bind (Editing.pop (K := ungrouped) (P := (· = c)) rfl e) fun channel e₁ first => ?_
  refine Safe.bind (Editing.onStore (K := ungrouped) (P := (· = c)) Editing.expectChannel e₁) fun given e₂ second => ?_
  have edits := first.trans second
  split
  · refine store_bind (tryRecv_reaches (P := (· = c))) ?_
    rintro ⟨outcome, events⟩ s₁ ⟨reached, undelivered, quiet⟩
    cases outcome with
    | received value woken =>
      refine store_bind expectWoken_same ?_
      rintro _ _ rfl
      refine Safe.bind (Editing.push (K := ungrouped) (P := (· = c)) rfl _) fun _ e₃ pushed => wakeOption_reaches ?_
      exact (Reaches.before edits reached).edited undelivered pushed
    | wouldBlock => exact (parkRequest_edits rfl).weaken fun p e' last => .of_edits ((edits.trans (quiet rfl)).trans last)
  · exact (Editing.blockForever (K := ungrouped) (P := (· = c)) rfl e₂).weaken fun p e' last => .of_edits (edits.trans last)

theorem execSelect_reaches {default? : Option Nat} (turn : Turn e c) (owned : Owned e.store c (.select argc default?)) :
    Safe Any (execSelect c argc default?) e fun p e' => Reaches (· = c) e.store p.2 e'.store := by
  refine execSelect_bind (F := True) (fun _ _ => trivial) turn (.inl trivial) owned fun xs ys e₁ offers => ?_
  have own : ∀ q ∈ ys, ∃ r, e₁.store.IsRequest q r ∧ r.context = c := fun q hq =>
    (offers.requests q hq).imp fun _ ⟨hr, own, _⟩ => ⟨hr, own⟩
  refine store_bind (takeReady_reaches (P := (· = c)) own) ?_
  rintro ⟨outcome, events⟩ s₁ ⟨reached, quiet⟩
  cases outcome with
  | some woken => exact wakeOption_reaches (.before offers.edits reached)
  | none =>
    have edits := offers.edits.trans (quiet rfl)
    cases default? with
    | some target => exact store_bind (Editing.setPc (K := ungrouped) (P := (· = c)) rfl s₁) fun _ _ last => .pure (.of_edits (edits.trans last))
    | none =>
      refine store_bind (parkAll_edits (P := (· = c)) fun q hq => ?_) fun _ s₂ parked => ?_
      · obtain ⟨r, hr, mine⟩ := own q hq
        exact ⟨r, reached.requests q r hr, mine⟩
      · exact store_bind (Editing.setBlocked (K := ungrouped) (P := (· = c)) rfl s₂) fun _ _ last => .pure (.of_edits ((edits.trans parked).trans last))

/-- Only new contexts are changed besides. -/
theorem execGo_edits (mine : P c) (new : ∀ x, e.store.objects.length ≤ x → P x) :
    Safe Any (execGo c argc) e fun _ e' => e.store.Edits ungrouped P e'.store := by
  refine Safe.bind (Editing.popMany (K := ungrouped) mine e) fun xs e₁ first => ?_
  refine Safe.bind (Editing.pop (K := ungrouped) mine e₁) fun closure e₂ second => ?_
  refine Safe.bind (Editing.onStore (K := ungrouped) (P := P) Editing.expect e₂) fun _ e₃ third => ?_
  refine Safe.bind (Editing.bindArguments (K := ungrouped) (P := P) (by decide) e₃) fun env e₄ fourth => ?_
  refine Safe.bind (Editing.freshId (K := ungrouped) (P := P) e₄) fun id e₅ fifth => ?_
  refine Safe.bind (Editing.onStore (K := ungrouped) (P := P) Editing.code e₅) fun code e₆ sixth => ?_
  have before := ((((first.trans second).trans third).trans fourth).trans fifth).trans sixth
  refine store_bind (R := fun child s' => e₆.store.Edits ungrouped P s' ∧ P child) ?_ ?_
  · exact Safe.add ⟨.single (.make (by simp [Obj.Plain]) fun _ => nofun), new _ before.length⟩
  rintro child s₁ ⟨made, newer⟩
  have rest : Editing ungrouped P Engine.store (do
      registerContext child
      let marker ← newMarker none
      pushReturn child marker
      enqueue child : EngineM Unit) := by grind
  exact (rest { e₆ with store := s₁ }).weaken fun _ _ last => (before.trans made).trans last

theorem execGo_reaches : Safe Any (execGo c argc) e fun _ e' => Reaches (· = c) e.store [] e'.store :=
  (execGo_edits (P := fun x => x = c ∨ e.store.objects.length ≤ x) (.inl rfl) fun _ => .inr).weaken fun _ _ edits =>
    (Reaches.of_edits edits).mono fun _ ⟨_, hx⟩ mine => mine.resolve_right (Nat.not_le.mpr (List.getElem?_eq_some_iff.mp hx).1)

theorem proceeding_reaches {m : EngineM Unit} (reached : Safe Any m e fun _ e' => Reaches (· = c) e.store [] e'.store) :
    Safe Any (proceeding m) e fun p e' => Reaches (· = c) e.store p.2 e'.store :=
  Safe.bind (Safe.bind reached fun _ _ reached => .pure reached) fun _ _ reached => .pure reached

theorem dispatch_reaches (turn : Turn e c) (owned : Owned e.store c i) :
    Safe Any (dispatch depth c pc i) e fun p e' => Reaches (· = c) e.store p.2 e'.store := by
  have edits {m : EngineM (Outcome × List Event)} (editing : Editing (fun _ => True) (· = c) Engine.store m) :
      Safe Any m e fun p e' => Reaches (· = c) e.store p.2 e'.store := (editing e).weaken fun _ _ edits => .of_edits edits
  have quiet {m : EngineM Outcome} (reached : Safe Any m e fun _ e' => Reaches (· = c) e.store [] e'.store) :
      Safe Any (quietly m) e fun p e' => Reaches (· = c) e.store p.2 e'.store := reached.bind fun _ _ reached => .pure reached
  cases i with
  | send => exact execSend_reaches
  | recv => exact execRecv_reaches
  | select n default? => exact execSelect_reaches turn owned
  | go n => exact proceeding_reaches execGo_reaches
  | call n =>
    refine quiet ((execCall_called turn).weaken ?_)
    rintro o e' (⟨edits, _⟩ | ⟨_, _, _, called⟩)
    · exact .of_edits edits
    · exact called.reaches
  | callMethod method n => exact quiet ((execCallMethod_called turn).weaken fun _ _ ⟨_, _, called⟩ => called.reaches)
  | _ => exact edits (by unfold dispatch; grind)

theorem execute_reaches (turn : Turn e c) (owned : Owned e.store c i) :
    Safe Any (execute depth c pc i) e fun p e' => Reaches (· = c) e.store p.2 e'.store :=
  execute_safe ((dispatch_reaches turn owned).weaken fun _ _ reached => reached.reroot rfl)

end Engine

/-! ### Steps -/

/-- What has become of the registers `f` of the context `x`, which waited and goes on now. -/
inductive Woken (s : Store) (x : Ref) (f : Fiber) (events : List Event) (s' : Store) : Fiber → Prop
  | sent {d q : Ref} {p : Request} (waits : q ∈ f.waits) (hr : s.IsRequest q p) (own : p.context = x) (channel : p.channel = d)
      (direction : p.direction = .send) (noted : .completed d .send q ∈ events) : Woken s x f events s' (f.served p none)
  | received {d q v : Ref} {p : Request} (waits : q ∈ f.waits) (hr : s.IsRequest q p) (own : p.context = x) (channel : p.channel = d)
      (direction : p.direction = .recv) (noted : events = [.completed d .recv q, .sent d v, .received d v])
      (framed : p.frame ≠ unassigned → ∃ t xs, s'.objects[p.frame]? = some (.sequence t (v :: xs))) :
      Woken s x f events s' (f.served p (some v))
  | released {g : Ref} (waits : f.waits = [g]) (member : x ∈ s.queue g) : Woken s x f events s' f.released

namespace Course

variable {log events : List Event} {i : Instruction} {depth : Nat} {t t' : Course} {o : Outcome} {f g : Fiber} {e : Engine}

/-- A request that is completed by a step was waiting before, and so was its context. -/
theorem Executed.completed (executed : Executed depth t c f i o events e t') (steady : Steady log t) {u : Direction}
    (noted : .completed d u q ∈ events) (unparked : Event.parks d u events = []) (known : t'.engine.store.IsRequest q p) :
    t.engine.store.IsRequest q p ∧ p.channel = d ∧ p.direction = u ∧ q ∈ t.engine.store.waits p.context ∧
      (t.engine.store.blockedAt p.context).isSome := by
  have wired := steady.linked.wired
  have line := executed.turned.flow.line d u
  rw [unparked, List.append_nil] at line
  have waiting := line.subset (List.mem_append_left _ (List.mem_filterMap.mpr ⟨_, noted, if_pos ⟨rfl, rfl⟩⟩))
  obtain ⟨waiter, direction⟩ := List.mem_filter.mp waiting
  change q ∈ (t.fetchedStore c f).waiters d at waiter
  rw [executed.calm.waiters] at waiter
  obtain ⟨r, hr, channel, _, blocked, count⟩ := wired.waiter d q waiter
  have grown := hr.grow (executed.calm.grows.trans executed.turned.grows)
  cases grown.unique ((executed.object q).symm.trans known)
  refine ⟨hr, channel, ?_, List.count_pos_iff.mp (count ▸ List.count_pos_iff.mpr waiter), blocked.blocked⟩
  rw [Store.IsRequest.direction? (s := (t.fetchedEngine c f).store) (hr.grow executed.calm.grows)] at direction
  simpa using direction

/-- Another context is as it was, or it was blocked and goes on. -/
theorem Executed.isolates (executed : Executed depth t c f i o events e t') (steady : Steady log t) (ne : x ≠ c)
    (hg : t.engine.store.objects[x]? = some (.context g)) : ∃ h, t'.engine.store.objects[x]? = some (.context h) ∧
      (h = g ∨ g.blocked = true ∧ Woken t.engine.store x g events t'.engine.store h) := by
  have reached : Reaches (· = c) t.engine.store events t'.engine.store :=
    .reroot (.before (K := ungrouped) (.single (.registers rfl executed.fiber)) ((Engine.execute_reaches executed.turning executed.permits.owned).ok executed.run))
      executed.objects
  obtain ⟨h, hh, touched⟩ := reached.others x g ne hg
  have stopped (blocked : (t.engine.store.blockedAt x).isSome) : g.blocked = true := by
    obtain ⟨n, at_⟩ := Option.isSome_iff_exists.mp blocked
    exact (Store.blocked_of hg at_).1
  have entries : t.engine.store.waits x = g.waits := Store.waits_of hg
  refine ⟨h, hh, ?_⟩
  cases touched with
  | rests => exact .inl rfl
  | @sent d q v w p known own noted =>
    have member : Event.completed d .send q ∈ events := by rcases noted with rfl | rfl <;> simp
    obtain ⟨hr, channel, direction, waits, blocked⟩ := executed.completed steady member (by rcases noted with rfl | rfl <;> rfl) known
    subst own
    exact .inr ⟨stopped blocked, .sent (entries ▸ waits) hr rfl channel direction member⟩
  | @received d q v p known own noted framed =>
    have member : Event.completed d .recv q ∈ events := noted ▸ List.mem_cons_self
    obtain ⟨hr, channel, direction, waits, blocked⟩ := executed.completed steady member (by rw [noted]; rfl) known
    subst own
    exact .inr ⟨stopped blocked, .received (entries ▸ waits) hr rfl channel direction noted framed⟩
  | released group member =>
    have queued : x ∈ t.engine.store.queue _ := Store.queue_of group ▸ member
    obtain ⟨blocked, waits, _⟩ := steady.linked.wired.member _ x queued
    exact .inr ⟨stopped blocked, .released (entries ▸ waits) queued⟩

end Course

end FiberMachine.Ideal
