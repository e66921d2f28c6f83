import FiberMachine.Proofs.Ideal.Wiring

/-!
# Entries and buffers

Two invariants of the communication state. Entries are exact: what waits on a channel or in a wait group is entered
in the wait-list of a blocked context, and the other way round. And a request waits only while its channel cannot
serve it: senders wait on a full channel, receivers on an empty one, and both only if they belong to one context.
-/

namespace FiberMachine.Ideal

variable {s s' s'' : Store} {r v c d g q x y w : Ref} {n : Nat} {o : Obj} {p : Option Nat} {i : Option Ref}

namespace Store

/-- The context is blocked, or it is the one that is entering its requests. -/
def Waiting (s : Store) (i : Option Ref) (c : Ref) : Prop := (s.blockedAt c).isSome ∨ i = some c

theorem Waiting.blocked (waiting : s.Waiting none c) : (s.blockedAt c).isSome := waiting.resolve_right (by simp)

/-- A channel for up to `n` buffered values. -/
def Capacity (s : Store) (d : Ref) (n : Nat) : Prop := ∃ k, s.objects[d]? = some (.channel k) ∧ k.capacity = n

theorem Capacity.grow (k : s.Capacity d n) (g : s.Grows s') : s'.Capacity d n := by
  obtain ⟨k, ho, rfl⟩ := k
  obtain ⟨o', ho', same⟩ := g d _ ho
  cases o' with
  | channel k' =>
    simp only [Obj.frozen, Obj.channel.injEq, Duct.mk.injEq] at same
    exact ⟨k', ho', same.1⟩
  | _ => cases same

theorem Capacity.unique {m : Nat} (k : s.Capacity d n) (l : s.Capacity d m) : n = m := by
  obtain ⟨k, ho, rfl⟩ := k
  obtain ⟨l, ho', rfl⟩ := l
  rw [ho] at ho'
  cases ho'
  rfl

/-- Only channels have waiting requests. -/
theorem channel_of_waiter (hq : q ∈ s.waiters d) : ∃ k, s.objects[d]? = some (.channel k) := by
  unfold waiters wiring at hq
  cases ho : s.objects[d]? with
  | none => rw [ho] at hq; exact absurd hq List.not_mem_nil
  | some o =>
    rw [ho] at hq
    cases o with
    | channel k => exact ⟨k, rfl⟩
    | _ => exact absurd hq List.not_mem_nil

/-- Only wait groups have contexts in their queues. -/
theorem group_of_member (hc : c ∈ s.queue g) : s.IsTag g .waitGroup := by
  unfold queue wiring at hc
  cases ho : s.objects[g]? with
  | none => rw [ho] at hc; exact absurd hc List.not_mem_nil
  | some o =>
    rw [ho] at hc
    cases o with
    | waitGroup counter waiters => exact ⟨_, ho, rfl⟩
    | _ => exact absurd hc List.not_mem_nil

end Store

/-- Every entry is there twice. The context `i` has entered requests although it is not blocked. -/
structure Wired (s : Store) (i : Option Ref) : Prop where
  idle : ∀ c, s.blockedAt c = none → i ≠ some c → s.waits c = []
  waiter : ∀ d, ∀ q ∈ s.waiters d, ∃ r, s.IsRequest q r ∧ r.channel = d ∧ r.context ∈ s.contexts ∧ s.Waiting i r.context ∧
    (s.waiters d).count q = (s.waits r.context).count q
  member : ∀ g, ∀ c ∈ s.queue g, (s.blockedAt c).isSome ∧ s.waits c = [g] ∧ (s.queue g).count c = 1
  waits : ∀ c, (∀ q ∈ s.waits c, ∃ r, s.IsRequest q r ∧ r.context = c ∧ q ∈ s.waiters r.channel) ∨
    ∃ g, s.waits c = [g] ∧ c ∈ s.queue g
  registered : ∀ c, (s.blockedAt c).isSome → c ∈ s.contexts

namespace Wired

theorem covered (wired : Wired s i) (c : Ref) : Covered s c where
  known := by
    intro w hw
    rcases wired.waits c with requests | ⟨g, same, member⟩
    · obtain ⟨r, k, owner, waiter⟩ := requests w hw
      obtain ⟨_, ho⟩ := Store.channel_of_waiter waiter
      exact .inr ⟨r, k, owner, _, ho, rfl⟩
    · rw [same] at hw
      exact .inl (List.mem_singleton.mp hw ▸ Store.group_of_member member)
  count := by
    intro d q hq owned
    obtain ⟨r, k, _, _, _, count⟩ := wired.waiter d q hq
    rw [k.ownedBy, beq_iff_eq] at owned
    exact Nat.le_of_eq (owned ▸ count)
  home := by
    intro d q hq
    obtain ⟨r, k, same, _⟩ := wired.waiter d q hq
    exact ⟨r, k, same⟩

/-- A context that is not blocked waits for nothing. -/
theorem nothing (wired : Wired s none) (idle : s.blockedAt c = none) : s.waits c = [] := wired.idle c idle (by simp)

/-- A context that waits on a channel waits on no wait group. -/
theorem alone {r : Request} (wired : Wired s i) (hq : q ∈ s.waiters d) (k : s.IsRequest q r) (g : Ref) : r.context ∉ s.queue g := by
  intro member
  obtain ⟨r', k', _, _, _, count⟩ := wired.waiter d q hq
  cases k.unique k'
  obtain ⟨_, waits, _⟩ := wired.member g _ member
  have entered : q ∈ s.waits r.context := List.count_pos_iff.mp (count ▸ List.count_pos_iff.mpr hq)
  rw [waits] at entered
  cases (Store.group_of_member member).unique (List.mem_singleton.mp entered ▸ k.isTag)

theorem alone_of_idle (wired : Wired s i) (idle : s.Idle c) (g : Ref) : c ∉ s.queue g := by
  intro member
  have blocked := (wired.member g c member).1
  rw [Store.blockedAt, idle] at blocked
  cases blocked

/-- Buffers do not matter. -/
theorem keep (wired : Wired s i) (proceeds : Proceeds s s') (waits : ∀ x, s'.waits x = s.waits x)
    (blockedAt : ∀ x, s'.blockedAt x = s.blockedAt x) (waiters : ∀ x, s'.waiters x = s.waiters x)
    (queue : ∀ x, s'.queue x = s.queue x) : Wired s' i where
  idle := fun c idle running => by
    rw [waits]
    exact wired.idle c (blockedAt c ▸ idle) running
  waiter := by
    intro d q hq
    rw [waiters] at hq ⊢
    obtain ⟨r, k, channel, registered, waiting, count⟩ := wired.waiter d q hq
    refine ⟨r, k.grow proceeds.grows, channel, proceeds.contexts ▸ registered, ?_, ?_⟩
    · rw [Store.Waiting, blockedAt]
      exact waiting
    · rw [waits]
      exact count
  member := by
    intro g c hc
    rw [queue] at hc ⊢
    rw [blockedAt, waits]
    exact wired.member g c hc
  waits := by
    intro c
    rw [waits]
    refine (wired.waits c).imp (fun requests q hq => ?_) fun ⟨g, same, member⟩ => ⟨g, same, queue g ▸ member⟩
    obtain ⟨r, k, owner, waiter⟩ := requests q hq
    exact ⟨r, k.grow proceeds.grows, owner, waiters _ ▸ waiter⟩
  registered := fun c blocked => proceeds.contexts ▸ wired.registered c (blockedAt c ▸ blocked)

theorem calm (wired : Wired s i) (calm : Calm s s') : Wired s' i :=
  wired.keep calm.proceeds calm.waits calm.blockedAt calm.waiters calm.queue

/-- Requests of others still wait when a context goes on. -/
theorem ownedBy_ne {r : Request} (k : s.IsRequest q r) : (!s.ownedBy c q) = true ↔ r.context ≠ c := by
  rw [k.ownedBy]
  simp

theorem resumed {b : Ref → List Ref} (wired : Wired s i) (resumed : Resumed s c b s') : Wired s' i where
  idle := by
    intro y blockedAt running
    rw [resumed.waits]
    split
    · rfl
    next ne =>
      rw [resumed.blockedAt, if_neg ne] at blockedAt
      exact wired.idle y blockedAt running
  waiter := by
    intro d q hq
    rw [resumed.waiters] at hq ⊢
    obtain ⟨hq, other⟩ := List.mem_filter.mp hq
    obtain ⟨r, k, channel, registered, waiting, count⟩ := wired.waiter d q hq
    have ne := (ownedBy_ne k).mp other
    refine ⟨r, k.grow resumed.proceeds.grows, channel, resumed.proceeds.contexts ▸ registered, ?_, ?_⟩
    · rw [Store.Waiting, resumed.blockedAt, if_neg ne]
      exact waiting
    · rw [List.count_filter (p := fun q => !s.ownedBy c q) other, resumed.waits, if_neg ne]
      exact count
  member := by
    intro g y hy
    rw [resumed.queue] at hy ⊢
    obtain ⟨hy, ne⟩ := List.mem_filter.mp hy
    have ne' : y ≠ c := of_decide_eq_true ne
    rw [resumed.blockedAt, resumed.waits, if_neg ne', if_neg ne', List.count_filter (p := fun y => decide (y ≠ c)) ne]
    exact wired.member g y hy
  waits := by
    intro y
    rw [resumed.waits]
    split
    · exact .inl fun _ no => absurd no List.not_mem_nil
    next ne =>
      refine (wired.waits y).imp (fun requests q hq => ?_) fun ⟨g, same, member⟩ => ⟨g, same, ?_⟩
      · obtain ⟨r, k, owner, waiter⟩ := requests q hq
        refine ⟨r, k.grow resumed.proceeds.grows, owner, ?_⟩
        rw [resumed.waiters]
        exact List.mem_filter.mpr ⟨waiter, (ownedBy_ne k).mpr (owner ▸ ne)⟩
      · rw [resumed.queue]
        exact List.mem_filter.mpr ⟨member, decide_eq_true ne⟩
  registered := by
    intro y blocked
    rw [resumed.blockedAt] at blocked
    split at blocked
    · cases blocked
    · exact resumed.proceeds.contexts ▸ wired.registered y blocked

/-- A context may start to enter its requests. -/
theorem entering (wired : Wired s none) (c : Ref) : Wired s (some c) where
  idle := fun y blockedAt _ => wired.nothing blockedAt
  waiter := by
    intro d q hq
    obtain ⟨r, k, channel, registered, waiting, count⟩ := wired.waiter d q hq
    exact ⟨r, k, channel, registered, .inl waiting.blocked, count⟩
  member := wired.member
  waits := wired.waits
  registered := wired.registered

/-- The context that has entered its requests blocks. -/
theorem blocks {p : Nat} (wired : Wired s (some c)) (registered : c ∈ s.contexts) (changed : Reblocked s c (some p) s') :
    Wired s' none where
  idle := by
    intro y blockedAt _
    rw [changed.blockedAt] at blockedAt
    split at blockedAt
    · cases blockedAt
    next ne =>
      rw [changed.waits]
      exact wired.idle y blockedAt fun same => ne (Option.some.inj same).symm
  waiter := by
    intro d q hq
    rw [changed.waiters] at hq ⊢
    obtain ⟨r, k, channel, known, waiting, count⟩ := wired.waiter d q hq
    refine ⟨r, k.grow changed.proceeds.grows, channel, changed.proceeds.contexts ▸ known, .inl ?_, ?_⟩
    · rw [changed.blockedAt]
      split
      · rfl
      next ne => exact waiting.resolve_right fun same => ne (Option.some.inj same).symm
    · rw [changed.waits]
      exact count
  member := by
    intro g y hy
    rw [changed.queue] at hy ⊢
    obtain ⟨blocked, waits, count⟩ := wired.member g y hy
    rw [changed.waits, changed.blockedAt]
    refine ⟨?_, waits, count⟩
    split
    · rfl
    · exact blocked
  waits := by
    intro y
    rw [changed.waits]
    refine (wired.waits y).imp (fun requests q hq => ?_) fun ⟨g, same, member⟩ => ⟨g, same, changed.queue g ▸ member⟩
    obtain ⟨r, k, owner, waiter⟩ := requests q hq
    exact ⟨r, k.grow changed.proceeds.grows, owner, changed.waiters _ ▸ waiter⟩
  registered := by
    intro y blocked
    rw [changed.proceeds.contexts]
    rw [changed.blockedAt] at blocked
    split at blocked
    next e => exact e ▸ registered
    next => exact wired.registered y blocked

end Wired

/-! ### Buffers -/

/-- What waits on a channel waits for a reason. -/
structure Ducts (s : Store) : Prop where
  room : ∀ d n, s.Capacity d n → (s.buffer d).length ≤ n
  full : ∀ d n, s.Capacity d n → ∀ q ∈ s.waiters d, ∀ r, s.IsRequest q r → r.direction = .send → (s.buffer d).length = n
  empty : ∀ d, ∀ q ∈ s.waiters d, ∀ r, s.IsRequest q r → r.direction = .recv → s.buffer d = []
  single : ∀ d, ∀ q ∈ s.waiters d, ∀ q' ∈ s.waiters d, ∀ r r', s.IsRequest q r → s.IsRequest q' r' → r.direction ≠ r'.direction →
    r.context = r'.context

namespace Store

/-- What is known of a request once the store has grown was known of it before. -/
theorem IsRequest.shrink {r : Request} (k : s'.IsRequest q r) (known : s.Known q) (g : s.Grows s') : s.IsRequest q r := by
  obtain ⟨o, ho⟩ := known
  obtain ⟨o', ho', same⟩ := g q o ho
  unfold IsRequest at k
  rw [k] at ho'
  cases ho'
  cases o <;> cases same
  exact ho

theorem Capacity.shrink (k : s'.Capacity d n) (known : s.Known d) (g : s.Grows s') : s.Capacity d n := by
  obtain ⟨o, ho⟩ := known
  obtain ⟨l, hl, rfl⟩ := k
  obtain ⟨o', ho', same⟩ := g d o ho
  rw [hl] at ho'
  cases ho'
  cases o with
  | channel l' =>
    simp only [Obj.frozen, Obj.channel.injEq, Duct.mk.injEq] at same
    exact ⟨l', ho, same.1.symm⟩
  | _ => cases same

theorem buffer_of_unknown (unknown : ¬s.Known d) : s.buffer d = [] := by
  have none : s.objects[d]? = .none := by
    by_contra some
    exact unknown (Option.ne_none_iff_exists'.mp some)
  rw [buffer, wiring, none]
  rfl

theorem IsRequest.shrink_waiter {r : Request} (k : s'.IsRequest q r) (typed : s.Typed) (hq : q ∈ s.waiters x) (g : s.Grows s') :
    s.IsRequest q r := by
  obtain ⟨r', k'⟩ := waiter_isRequest typed hq
  exact k.shrink k'.isTag.known g

end Store

/-- What was known of the waiting requests and the buffers is still true of those that still wait. -/
theorem Ducts.keep (ducts : Ducts s) (typed : s.Typed) (proceeds : Proceeds s s') (sub : ∀ x, ∀ q ∈ s'.waiters x, q ∈ s.waiters x)
    (lengths : ∀ x, (s'.buffer x).length = (s.buffer x).length) : Ducts s' := by
  have before {x q : Ref} {r : Request} (hq : q ∈ s'.waiters x) (k : s'.IsRequest q r) : s.IsRequest q r :=
    k.shrink_waiter typed (sub x q hq) proceeds.grows
  refine ⟨fun d n k => ?_, fun d n k q hq r hr send => ?_, fun d q hq r hr recv => ?_, fun d q hq q' hq' r r' hr hr' => ?_⟩
  · rw [lengths]
    by_cases known : s.Known d
    · exact ducts.room d n (k.shrink known proceeds.grows)
    · rw [Store.buffer_of_unknown known]
      exact Nat.zero_le n
  · obtain ⟨l, ho⟩ := Store.channel_of_waiter (sub d q hq)
    rw [lengths]
    exact ducts.full d n (k.shrink ⟨_, ho⟩ proceeds.grows) q (sub d q hq) r (before hq hr) send
  · have := congrArg List.length (ducts.empty d q (sub d q hq) r (before hq hr) recv)
    rw [← lengths] at this
    exact List.length_eq_zero_iff.mp this
  · exact ducts.single d q (sub d q hq) q' (sub d q' hq') r r' (before hq hr) (before hq' hr')

/-- The buffer of a channel has changed, and nothing else. -/
structure Moved (s : Store) (d : Ref) (b : List Ref) (s' : Store) : Prop where
  proceeds : Proceeds s s'
  wiring : ∀ x, s'.wiring x = { s.wiring x with buffer := if x = d then b else s.buffer x }

namespace Moved

variable {b : List Ref} (moved : Moved s d b s')
include moved

theorem waits (x : Ref) : s'.waits x = s.waits x := by rw [Store.waits, moved.wiring]; rfl

theorem blockedAt (x : Ref) : s'.blockedAt x = s.blockedAt x := by rw [Store.blockedAt, moved.wiring]; rfl

theorem waiters (x : Ref) : s'.waiters x = s.waiters x := by rw [Store.waiters, moved.wiring]; rfl

theorem buffer (x : Ref) : s'.buffer x = if x = d then b else s.buffer x := by rw [Store.buffer, moved.wiring]

theorem queue (x : Ref) : s'.queue x = s.queue x := by rw [Store.queue, moved.wiring]; rfl

end Moved

theorem Wired.moved {b : List Ref} (wired : Wired s i) (moved : Moved s d b s') : Wired s' i :=
  wired.keep moved.proceeds moved.waits moved.blockedAt moved.waiters moved.queue

/-- The buffer of a channel may change as long as nothing waits there. -/
theorem Ducts.moved {b : List Ref} (ducts : Ducts s) (typed : s.Typed) (moved : Moved s d b s') (clear : s.waiters d = [])
    (known : s.Known d) (fits : ∀ n, s.Capacity d n → b.length ≤ n) : Ducts s' := by
  have g := moved.proceeds.grows
  have other {x q : Ref} (hq : q ∈ s'.waiters x) : q ∈ s.waiters x ∧ s'.buffer x = s.buffer x := by
    rw [moved.waiters] at hq
    refine ⟨hq, ?_⟩
    rw [moved.buffer, if_neg]
    rintro rfl
    rw [clear] at hq
    cases hq
  refine ⟨fun x n k => ?_, fun x n k q hq r hr send => ?_, fun x q hq r hr recv => ?_, fun x q hq q' hq' r r' hr hr' => ?_⟩
  · rw [moved.buffer]
    split
    next e =>
      subst e
      exact fits n (k.shrink known g)
    next =>
      by_cases known : s.Known x
      · exact ducts.room x n (k.shrink known g)
      · rw [Store.buffer_of_unknown known]
        exact Nat.zero_le n
  · obtain ⟨hq, same⟩ := other hq
    obtain ⟨l, ho⟩ := Store.channel_of_waiter hq
    rw [same]
    exact ducts.full x n (k.shrink ⟨_, ho⟩ g) q hq r (hr.shrink_waiter typed hq g) send
  · obtain ⟨hq, same⟩ := other hq
    rw [same]
    exact ducts.empty x q hq r (hr.shrink_waiter typed hq g) recv
  · have hq := (other hq).1
    have hq' := (other hq').1
    exact ducts.single x q hq q' hq' r r' (hr.shrink_waiter typed hq g) (hr'.shrink_waiter typed hq' g)

end FiberMachine.Ideal
