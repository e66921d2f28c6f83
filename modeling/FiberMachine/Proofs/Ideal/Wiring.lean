import Mathlib.Data.List.Perm.Subperm
import FiberMachine.Proofs.Ideal.Registers

/-!
# Waiting

A context that waits on channels has entered its requests twice: in the waiting lists of the channels, and in its own
wait-list. A context that waits on a wait group is in the queue of the group, and has the group in its
wait-list. When a context goes on, all its entries are withdrawn, wherever they are.
-/

namespace FiberMachine.Ideal

variable {F : Prop} {s s' s'' : Store} {r v c d g q x y w : Ref} {f : Fiber} {o : Obj} {xs l W : List Ref}

/-! ### Lists of entries -/

/-- Withdrawing all entries of a kind. -/
theorem diff_eq_filter {p : Ref → Bool} (only : ∀ q ∈ W, q ∈ l → p q = true) (all : ∀ q ∈ l, p q = true → l.count q ≤ W.count q) :
    l.diff W = l.filter fun q => !p q := by
  induction W generalizing l with
  | nil =>
    rw [List.diff_nil, eq_comm, List.filter_eq_self]
    intro q hq
    by_contra owned
    have le := all q hq (by simpa using owned)
    exact Nat.not_lt.mpr le (List.count_pos_iff.mpr hq)
  | cons w W ih =>
    rw [List.diff_cons, ih]
    · by_cases hw : w ∈ l
      · obtain ⟨front, back, _, rfl, eq⟩ := List.exists_erase_eq hw
        rw [eq]
        simp [only w List.mem_cons_self hw]
      · rw [List.erase_of_not_mem hw]
    · exact fun q hq hl => only q (List.mem_cons_of_mem _ hq) (List.mem_of_mem_erase hl)
    · intro q hq owned
      have := all q (List.mem_of_mem_erase hq) owned
      rw [List.count_cons] at this
      rw [List.count_erase]
      split at this
      next e => simp [beq_iff_eq.mp e] at this ⊢; omega
      next e =>
        have e : ¬w == q := e
        simp [e] at this ⊢; omega

/-! ### The communication state of one object -/

namespace Store

def waits (s : Store) (c : Ref) : List Ref := (s.wiring c).waits

def blockedAt (s : Store) (c : Ref) : Option Nat := (s.wiring c).blockedAt

def waiters (s : Store) (d : Ref) : List Ref := (s.wiring d).waiters

def buffer (s : Store) (d : Ref) : List Ref := (s.wiring d).buffer

def queue (s : Store) (g : Ref) : List Ref := (s.wiring g).queue

/-- The request belongs to the context. -/
def ownedBy (s : Store) (c q : Ref) : Bool :=
  match s.objects[q]?.bind Obj.request? with
  | some r => r.context == c
  | none => false

theorem IsRequest.ownedBy {r : Request} (k : s.IsRequest q r) : s.ownedBy c q = (r.context == c) := by
  rw [Store.ownedBy, k]
  rfl

theorem waiter_isRequest (typed : s.Typed) (hq : q ∈ s.waiters d) : ∃ r, s.IsRequest q r := by
  unfold waiters wiring at hq
  cases ho : s.objects[d]? with
  | none =>
    rw [ho] at hq
    exact absurd hq List.not_mem_nil
  | some o =>
    rw [ho] at hq
    cases o with
    | channel x => exact typed.canonical ((typed.good d _ ho).2 q hq)
    | _ => exact absurd hq List.not_mem_nil

end Store

namespace Calm

variable (calm : Calm s s')
include calm

theorem waits (x : Ref) : s'.waits x = s.waits x := congrArg Wiring.waits (calm.wiring x)

theorem blockedAt (x : Ref) : s'.blockedAt x = s.blockedAt x := congrArg Wiring.blockedAt (calm.wiring x)

theorem waiters (x : Ref) : s'.waiters x = s.waiters x := congrArg Wiring.waiters (calm.wiring x)

theorem buffer (x : Ref) : s'.buffer x = s.buffer x := congrArg Wiring.buffer (calm.wiring x)

theorem queue (x : Ref) : s'.queue x = s.queue x := congrArg Wiring.queue (calm.wiring x)

end Calm

/-- Whatever happens on channels, the store stays typed, objects keep their kinds, and the same contexts are registered. -/
structure Proceeds (s s' : Store) : Prop where
  typed : s'.Typed
  grows : s.Grows s'
  contexts : s'.contexts = s.contexts

theorem Proceeds.trans (a : Proceeds s s') (b : Proceeds s' s'') : Proceeds s s'' :=
  ⟨b.typed, a.grows.trans b.grows, b.contexts.trans a.contexts⟩

theorem Calm.proceeds (calm : Calm s s') : Proceeds s s' := ⟨calm.typed, calm.grows, calm.contexts⟩

theorem Store.Grows.ownedBy {q : Ref} {r : Request} (g : s.Grows s') (k : s.IsRequest q r) (c : Ref) :
    s'.ownedBy c q = s.ownedBy c q := by
  rw [k.ownedBy, (k.grow g).ownedBy]

/-- An object is replaced by one of the same kind. -/
theorem replace_proceeds {old : Obj} (typed : s.Typed) (ho : s.objects[r]? = some old) (same : o.frozen = old.frozen)
    (good : o.Good s) (plain : o.tag ≠ .array) : Safe (Admits F) (replace r o) s fun _ s' =>
      Proceeds s s' ∧ ∀ x, s'.wiring x = if x = r then o.wiring else s.wiring x := by
  refine ⟨⟨typed.set ho same good ?_, .set ho same, rfl⟩, Store.wiring_set ⟨old, ho⟩ o⟩
  rintro xs rfl
  exact absurd rfl plain

/-- New registers. -/
theorem update_proceeds {g : Fiber → Fiber} (typed : s.Typed) (ho : s.objects[c]? = some (.context f)) (id : (g f).id = f.id)
    (good : (Obj.context (g f)).Good s) : Safe (Admits F) (update c g) s fun _ s' =>
      Proceeds s s' ∧ ∀ x, s'.wiring x = if x = c then (Obj.context (g f)).wiring else s.wiring x := by
  refine (Observes.fiber ho).bind ?_
  rintro _ rfl
  exact replace_proceeds typed ho (by simp only [Obj.frozen, id]) good Tag.noConfusion

/-! ### Withdrawing entries -/

/-- What a context waits for can be withdrawn: it has entered each of its requests at least as often as the request
waits on a channel. -/
structure Covered (s : Store) (c : Ref) : Prop where
  known : ∀ w ∈ s.waits c, s.IsTag w .waitGroup ∨ ∃ r, s.IsRequest w r ∧ r.context = c ∧ s.IsTag r.channel .channel
  count : ∀ d, ∀ q ∈ s.waiters d, s.ownedBy c q = true → (s.waiters d).count q ≤ (s.waits c).count q
  home : ∀ d, ∀ q ∈ s.waiters d, ∃ r, s.IsRequest q r ∧ r.channel = d

/-- One entry is withdrawn, whatever it is. -/
theorem withdraw_safe (typed : s.Typed) (known : s.IsTag w .waitGroup ∨ ∃ r, s.IsRequest w r ∧ s.IsTag r.channel .channel)
    (home : ∀ d, ∀ q ∈ s.waiters d, ∃ r, s.IsRequest q r ∧ r.channel = d) : Safe (Admits F) (withdraw w) s fun _ s' =>
      Proceeds s s' ∧ ∀ x, s'.wiring x = { s.wiring x with waiters := (s.waiters x).erase w } := by
  rcases known with ⟨o, ho, tag⟩ | ⟨r, k, isChannel⟩
  · refine (Observes.tag ho).bind ?_
    rintro _ rfl
    rw [tag, if_neg (by decide)]
    refine ⟨⟨typed, .refl, rfl⟩, fun x => ?_⟩
    have other : w ∉ s.waiters x := by
      intro hw
      obtain ⟨r, k, _⟩ := home x w hw
      cases (tag ▸ ⟨o, ho, rfl⟩ : s.IsTag w .waitGroup).unique k.isTag
    rw [List.erase_of_not_mem other]
    rfl
  · refine (Observes.tag k).bind ?_
    rintro _ rfl
    rw [if_pos (show (Obj.request r).tag = .channelRequest from rfl)]
    refine (Observes.request k).bind ?_
    rintro _ rfl
    obtain ⟨d, ho⟩ := typed.canonical isChannel
    refine (Observes.duct ho).bind ?_
    rintro _ rfl
    obtain ⟨buffer, waiters⟩ := typed.good _ _ ho
    refine (replace_proceeds typed ho ?_ ?_ ?_).weaken ?_
    · rfl
    · exact ⟨buffer, fun q hq => waiters q (List.mem_of_mem_erase hq)⟩
    · exact Tag.noConfusion
    rintro _ s' ⟨proceeds, wiring⟩
    refine ⟨proceeds, fun x => ?_⟩
    rw [wiring]
    split
    next e =>
      subst e
      rw [Store.waiters, Store.wiring_of ho]
      rfl
    next e =>
      have other : w ∉ s.waiters x := by
        intro hw
        obtain ⟨r', k', same⟩ := home x w hw
        exact e (k.unique k' ▸ same.symm)
      rw [List.erase_of_not_mem other]
      rfl

/-- All entries of a context are withdrawn. -/
theorem withdrawAll_safe (typed : s.Typed) (covered : Covered s c) : Safe (Admits F) ((s.waits c).forM withdraw) s fun _ s' =>
    Proceeds s s' ∧ ∀ x, s'.wiring x = { s.wiring x with waiters := (s.waiters x).filter fun q => !s.ownedBy c q } := by
  have loop : Safe (Admits F) ((s.waits c).forM withdraw) s fun _ s' => Proceeds s s' ∧
      ∀ x, s'.wiring x = { s.wiring x with waiters := (s.waiters x).diff (s.waits c) } := by
    refine (Safe.forM (I := fun rest s' => Proceeds s s' ∧ (∀ w ∈ rest, w ∈ s.waits c) ∧ ∀ x,
      s'.wiring x = { s.wiring x with waiters := s'.waiters x } ∧ (∀ q ∈ s'.waiters x, q ∈ s.waiters x) ∧
        (s'.waiters x).diff rest = (s.waiters x).diff (s.waits c)) ?_ ?_).weaken ?_
    · exact ⟨⟨typed, .refl, rfl⟩, fun _ hw => hw, fun x => ⟨rfl, fun _ hq => hq, rfl⟩⟩
    · rintro w rest s₁ ⟨proceeds, sub, each⟩
      have known : s₁.IsTag w .waitGroup ∨ ∃ r, s₁.IsRequest w r ∧ s₁.IsTag r.channel .channel := by
        rcases covered.known w (sub w List.mem_cons_self) with k | ⟨r, k, _, isChannel⟩
        · exact .inl (k.grow proceeds.grows)
        · exact .inr ⟨r, k.grow proceeds.grows, isChannel.grow proceeds.grows⟩
      have home (d q : Ref) (hq : q ∈ s₁.waiters d) : ∃ r, s₁.IsRequest q r ∧ r.channel = d := by
        obtain ⟨r, k, same⟩ := covered.home d q ((each d).2.1 q hq)
        exact ⟨r, k.grow proceeds.grows, same⟩
      refine (withdraw_safe proceeds.typed known home).weaken ?_
      rintro _ s₂ ⟨proceeds', wiring⟩
      refine ⟨proceeds.trans proceeds', fun w hw => sub w (List.mem_cons_of_mem _ hw), fun x => ?_⟩
      obtain ⟨rest', kept, diff⟩ := each x
      have here : s₂.waiters x = (s₁.waiters x).erase w := congrArg Wiring.waiters (wiring x)
      refine ⟨?_, fun q hq => kept q (List.mem_of_mem_erase (here ▸ hq)), ?_⟩
      · rw [wiring, rest', here]
      · rw [here, ← diff, List.diff_cons]
    · rintro _ s' ⟨proceeds, _, each⟩
      refine ⟨proceeds, fun x => ?_⟩
      rw [(each x).1, ← (each x).2.2, List.diff_nil]
  refine loop.weaken ?_
  rintro _ s' ⟨proceeds, wiring⟩
  refine ⟨proceeds, fun x => ?_⟩
  rw [wiring, diff_eq_filter ?_ (covered.count x)]
  intro w hw hx
  obtain ⟨r, k, _⟩ := covered.home x w hx
  rcases covered.known w hw with group | ⟨r', k', same, _⟩
  · cases group.unique k.isTag
  · rw [k'.ownedBy, same]
    exact beq_self_eq_true c

/-- The entries of a context are gone, and so is its wait-list. -/
theorem cancelWaits_safe (typed : s.Typed) (isContext : s.IsTag c .context) (covered : Covered s c) :
    Safe (Admits F) (cancelWaits c) s fun _ s' => Proceeds s s' ∧ ∀ x, s'.wiring x = { s.wiring x with
      waits := if x = c then [] else s.waits x
      waiters := (s.waiters x).filter fun q => !s.ownedBy c q } := by
  obtain ⟨f, ho⟩ := typed.canonical isContext
  have same : s.waits c = f.waits := congrArg Wiring.waits (Store.wiring_of ho)
  refine (Observes.fiber ho).bind ?_
  rintro f rfl
  rw [← same]
  refine (withdrawAll_safe typed covered).bind fun _ s₁ ⟨proceeds, wiring⟩ => ?_
  obtain ⟨f₁, ho₁, env, operands, returns⟩ := proceeds.typed.fiber (isContext.grow proceeds.grows)
  refine (update_proceeds proceeds.typed ho₁ rfl ⟨env, operands, returns⟩).weaken ?_
  rintro _ s₂ ⟨proceeds', wiring'⟩
  refine ⟨proceeds.trans proceeds', fun x => ?_⟩
  rw [wiring']
  split
  next e =>
    subst e
    have eq : s.wiring x = (Obj.context f).wiring := Store.wiring_of ho
    have at_eq : (if f₁.blocked then some f₁.pc else none) = if f.blocked then some f.pc else none := by
      have before := congrArg Wiring.blockedAt (wiring x)
      rw [Store.wiring_of ho₁] at before
      exact before.trans (congrArg Wiring.blockedAt eq)
    simp only [Store.waiters, eq, Obj.wiring, at_eq, List.filter_nil]
  next e => simp only [wiring, Store.waits]

/-! ### Going on -/

/-- Only where a context is blocked has changed. -/
structure Reblocked (s : Store) (c : Ref) (p : Option Nat) (s' : Store) : Prop where
  proceeds : Proceeds s s'
  wiring : ∀ x, s'.wiring x = { s.wiring x with blockedAt := if x = c then p else s.blockedAt x }

namespace Reblocked

variable {p : Option Nat} (changed : Reblocked s c p s')
include changed

theorem waits (x : Ref) : s'.waits x = s.waits x := by rw [Store.waits, changed.wiring]; rfl

theorem blockedAt (x : Ref) : s'.blockedAt x = if x = c then p else s.blockedAt x := by rw [Store.blockedAt, changed.wiring]

theorem waiters (x : Ref) : s'.waiters x = s.waiters x := by rw [Store.waiters, changed.wiring]; rfl

theorem buffer (x : Ref) : s'.buffer x = s.buffer x := by rw [Store.buffer, changed.wiring]; rfl

theorem queue (x : Ref) : s'.queue x = s.queue x := by rw [Store.queue, changed.wiring]; rfl

end Reblocked

theorem update_reblocked {g : Fiber → Fiber} (typed : s.Typed) (ho : s.objects[c]? = some (.context f)) (id : (g f).id = f.id)
    (good : (Obj.context (g f)).Good s) (waits : (g f).waits = f.waits) : Safe (Admits F) (update c g) s fun _ s' =>
      Reblocked s c (if (g f).blocked then some (g f).pc else none) s' := by
  refine (update_proceeds typed ho id good).weaken ?_
  rintro _ s' ⟨proceeds, wiring⟩
  refine ⟨proceeds, fun x => ?_⟩
  rw [wiring]
  split
  next e =>
    subst e
    simp only [Store.wiring_of ho, Obj.wiring, waits]
  next => rfl

theorem setPc_reblocked (typed : s.Typed) (k : s.IsTag c .context) (pc : Nat) :
    Safe (Admits F) (setPc c pc) s fun _ s' => ∃ p, Reblocked s c p s' := by
  obtain ⟨f, ho, env, operands, returns⟩ := typed.fiber k
  exact (update_reblocked typed ho rfl ⟨env, operands, returns⟩ rfl).weaken fun _ _ changed => ⟨_, changed⟩

theorem setBlocked_reblocked (typed : s.Typed) (ho : s.objects[c]? = some (.context f)) (blocked : Bool) :
    Safe (Admits F) (setBlocked c blocked) s fun _ s' => Reblocked s c (if blocked then some f.pc else none) s' := by
  obtain ⟨env, operands, returns⟩ := typed.good c _ ho
  exact update_reblocked typed ho rfl ⟨env, operands, returns⟩ rfl

/-- The context goes on: it is no longer blocked and nothing waits for it. The buffers are `b` then. -/
structure Resumed (s : Store) (c : Ref) (b : Ref → List Ref) (s' : Store) : Prop where
  proceeds : Proceeds s s'
  waits : ∀ x, s'.waits x = if x = c then [] else s.waits x
  blockedAt : ∀ x, s'.blockedAt x = if x = c then none else s.blockedAt x
  waiters : ∀ x, s'.waiters x = (s.waiters x).filter fun q => !s.ownedBy c q
  buffer : ∀ x, s'.buffer x = b x
  queue : ∀ x, s'.queue x = (s.queue x).filter (· ≠ c)

theorem Covered.transfer (covered : Covered s c) (typed : s.Typed) (proceeds : Proceeds s s') (waits : s'.waits c = s.waits c)
    (waiters : ∀ d, (s'.waiters d).Sublist (s.waiters d)) : Covered s' c where
  known := by
    intro w hw
    rw [waits] at hw
    rcases covered.known w hw with k | ⟨r, k, same, isChannel⟩
    · exact .inl (k.grow proceeds.grows)
    · exact .inr ⟨r, k.grow proceeds.grows, same, isChannel.grow proceeds.grows⟩
  count := by
    intro d q hq owned
    have hq' := (waiters d).subset hq
    obtain ⟨r, k⟩ := Store.waiter_isRequest typed hq'
    rw [proceeds.grows.ownedBy k] at owned
    rw [waits]
    exact ((waiters d).count_le q).trans (covered.count d q hq' owned)
  home := by
    intro d q hq
    obtain ⟨r, k, same⟩ := covered.home d q ((waiters d).subset hq)
    exact ⟨r, k.grow proceeds.grows, same⟩

/-- The end of every wait. -/
theorem resume_bind {α : Type} {k : Unit → StoreM α} {Q : α → Store → Prop} (typed : s.Typed) (isContext : s.IsTag c .context)
    (covered : Covered s c) (alone : ∀ g, c ∉ s.queue g)
    (next : ∀ s', Resumed s c s.buffer s' → Safe (Admits F) (k ()) s' Q) :
    Safe (Admits F) (do
      cancelWaits c
      setBlocked c false
      k ()) s Q := by
  refine (cancelWaits_safe typed isContext covered).bind fun _ s₁ ⟨proceeds, wiring⟩ => ?_
  obtain ⟨f, ho⟩ := proceeds.typed.canonical (isContext.grow proceeds.grows)
  refine (setBlocked_reblocked proceeds.typed ho false).bind fun _ s₂ changed => next s₂ ?_
  refine ⟨proceeds.trans changed.proceeds, fun x => ?_, fun x => ?_, fun x => ?_, fun x => ?_, fun x => ?_⟩
  · simp only [Store.waits, changed.wiring, wiring]
  · simp only [Store.blockedAt, changed.wiring, wiring, Bool.false_eq_true, if_false]
  · simp only [Store.waiters, changed.wiring, wiring]
  · simp only [Store.buffer, changed.wiring, wiring]
  · have kept : (s.queue x).filter (· ≠ c) = s.queue x :=
      List.filter_eq_self.mpr fun y hy => decide_eq_true fun same => alone x (same ▸ hy)
    rw [kept]
    simp only [Store.queue, changed.wiring, wiring]

/-- What has happened before a context goes on does not matter, if it concerned only what is withdrawn then. -/
theorem Resumed.after {b : Ref → List Ref} (resumed : Resumed s' c b s'') (typed : s.Typed) (proceeds : Proceeds s s')
    (waits : ∀ x, x ≠ c → s'.waits x = s.waits x) (blockedAt : ∀ x, x ≠ c → s'.blockedAt x = s.blockedAt x)
    (sub : ∀ x, (s'.waiters x).Sublist (s.waiters x))
    (waiters : ∀ x, ((s'.waiters x).filter fun q => !s.ownedBy c q) = (s.waiters x).filter fun q => !s.ownedBy c q)
    (queue : ∀ x, (s'.queue x).filter (· ≠ c) = (s.queue x).filter (· ≠ c)) : Resumed s c b s'' where
  proceeds := proceeds.trans resumed.proceeds
  waits := by
    intro x
    rw [resumed.waits]
    split
    · rfl
    next ne => exact waits x ne
  blockedAt := by
    intro x
    rw [resumed.blockedAt]
    split
    · rfl
    next ne => exact blockedAt x ne
  waiters := by
    intro x
    rw [resumed.waiters, ← waiters]
    refine List.filter_congr fun q hq => ?_
    obtain ⟨r, k⟩ := Store.waiter_isRequest typed ((sub x).subset hq)
    rw [proceeds.grows.ownedBy k]
  buffer := resumed.buffer
  queue := fun x => (resumed.queue x).trans (queue x)

/-- Roots do not matter. -/
theorem Resumed.reroot {b : Ref → List Ref} {ts us : List Ref} (resumed : Resumed { s with temporaries := ts } c b s') :
    Resumed s c b { s' with temporaries := us } where
  proceeds := ⟨resumed.proceeds.typed.reroot rfl resumed.proceeds.typed.contexts, resumed.proceeds.grows, resumed.proceeds.contexts⟩
  waits := resumed.waits
  blockedAt := resumed.blockedAt
  waiters := resumed.waiters
  buffer := resumed.buffer
  queue := resumed.queue

theorem deliver_quiet {r : Request} (typed : s.Typed) (k : s.IsRequest q r) (registered : r.context ∈ s.contexts) (known : s.Known v) :
    Quiet F (deliver q r.context v) s fun _ _ => True := by
  obtain ⟨_, _, _, frame⟩ : (Obj.request r).Good s := typed.good q _ k
  refine (Observes.request k).bind ?_
  rintro r rfl
  split
  · exact Quiet.pushOperand typed registered known
  next some =>
    obtain ⟨sized, env⟩ := frame.resolve_left some
    have isFrame := sized.isTag
    obtain ⟨xs, ho, _⟩ := sized
    refine Quiet.bind (Quiet.setItem typed ho (.inr rfl) ⟨known, fun array => nomatch isFrame.unique array⟩ 0) fun _ s₁ calm _ => ?_
    refine (Observes.request (k.grow calm.grows)).bind ?_
    rintro r rfl
    exact Quiet.enterEnvironment calm.typed (calm.contexts ▸ registered) (env.grow calm.grows).isTag

/-- The context behind a request goes on. -/
theorem complete_safe {r : Request} {value : Option Ref} (typed : s.Typed) (k : s.IsRequest q r) (registered : r.context ∈ s.contexts)
    (covered : Covered s r.context) (alone : ∀ g, r.context ∉ s.queue g) (known : ∀ v, value = some v → s.Known v) :
    Safe (Admits F) (complete q value) s fun c s' => c = r.context ∧ Resumed s r.context s.buffer s' := by
  refine Safe.withRoots ?_
  generalize hs : ({ s with temporaries := s.temporaries ++ _ } : Store) = s₀
  have typed₀ : s₀.Typed := hs ▸ typed.reroot rfl typed.contexts
  have covered₀ : Covered s₀ r.context := hs ▸ ⟨covered.known, covered.count, covered.home⟩
  have registered₀ : r.context ∈ s₀.contexts := hs ▸ registered
  have k₀ : s₀.IsRequest q r := hs ▸ k
  have rest {s₁ : Store} (calm : Calm s₀ s₁) : Safe (Admits F) (do
      setPc r.context (← request q).resume
      cancelWaits r.context
      setBlocked r.context false
      return r.context) s₁ fun c s' => c = r.context ∧ Resumed s r.context s.buffer { s' with temporaries := s'.temporaries.take s.temporaries.length } := by
    refine (Observes.request (k₀.grow calm.grows)).bind ?_
    rintro r rfl
    have isContext := calm.typed.contexts _ (calm.contexts ▸ registered₀)
    refine (setPc_reblocked calm.typed isContext _).bind fun _ s₂ ⟨p, changed⟩ => ?_
    have proceeds := calm.proceeds.trans changed.proceeds
    have waits (x : Ref) : s₂.waits x = s₀.waits x := (changed.waits x).trans (calm.waits x)
    have waiters (x : Ref) : s₂.waiters x = s₀.waiters x := (changed.waiters x).trans (calm.waiters x)
    have queue (x : Ref) : s₂.queue x = s₀.queue x := (changed.queue x).trans (calm.queue x)
    have buffer (x : Ref) : s₂.buffer x = s₀.buffer x := (changed.buffer x).trans (calm.buffer x)
    refine resume_bind (k := fun _ => pure r.context) proceeds.typed (isContext.grow changed.proceeds.grows)
      (covered₀.transfer typed₀ proceeds (waits _) fun d => waiters d ▸ List.Sublist.refl _) (fun g => ?_) fun s₃ resumed => ?_
    · rw [queue, ← hs]
      exact alone g
    refine ⟨rfl, ?_⟩
    have after := resumed.after typed₀ proceeds (fun x _ => waits x) (fun x ne => ?_) (fun x => waiters x ▸ List.Sublist.refl _)
      (fun x => by rw [waiters]) fun x => by rw [queue]
    · subst hs
      exact { after with buffer := fun x => (after.buffer x).trans (buffer x) }.reroot
    · rw [changed.blockedAt, if_neg ne, calm.blockedAt]
  refine (Observes.request k₀).bind ?_
  rintro r rfl
  refine Safe.bind (Q := fun _ s' => s' = s₀) (Quiet.expectRegistered registered₀ rfl) ?_
  rintro _ s₀ rfl
  cases value with
  | none => exact rest (.refl typed₀)
  | some v =>
    have known : s₀.Known v := hs ▸ known v rfl
    exact Safe.bind (deliver_quiet typed₀ k₀ registered₀ known) fun _ s₁ ⟨calm, _⟩ => rest calm

end FiberMachine.Ideal
