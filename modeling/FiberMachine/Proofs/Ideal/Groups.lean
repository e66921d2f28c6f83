import FiberMachine.Proofs.Ideal.Parking

/-!
# Wait groups

A context that waits on a wait group is in its queue once. When the counter drops to zero, all contexts in the queue
go on, the first one first.
-/

namespace FiberMachine.Ideal

variable {F : Prop} {s s' s₁ : Store} {c g x : Ref} {n : Nat} {w : Word} {l : List Ref}

theorem Observes.group {rest : List Ref} (ho : s.objects[g]? = some (.waitGroup w rest)) :
    Observes F (group g) s fun p => p = (w, rest) := look ho rfl

theorem Store.queue_of {rest : List Ref} (ho : s.objects[g]? = some (.waitGroup w rest)) : s.queue g = rest :=
  congrArg Wiring.queue (Store.wiring_of ho)

/-- Another counter and another queue. -/
theorem replaceGroup {v : Word} {queue l : List Ref} (typed : s.Typed) (ho : s.objects[g]? = some (.waitGroup w queue))
    (known : ∀ x ∈ l, s.IsTag x .context) : Safe (Admits F) (replace g (.waitGroup v l)) s fun _ s' =>
      Proceeds s s' ∧ ∀ x, s'.wiring x = { s.wiring x with queue := if x = g then l else s.queue x } := by
  refine (replace_proceeds (o := .waitGroup v l) typed ho rfl known Tag.noConfusion).weaken ?_
  rintro _ s' ⟨proceeds, wiring⟩
  refine ⟨proceeds, fun x => ?_⟩
  rw [wiring]
  split
  next e =>
    subst e
    rw [Store.wiring_of ho]
    rfl
  next => rfl

/-- The first context in the queue goes on. -/
theorem releaseFirst {α : Type} {k : Unit → StoreM α} {Q : α → Store → Prop} {rest : List Ref} (linked : Linked s)
    (ho : s.objects[g]? = some (.waitGroup w (c :: rest))) (next : ∀ s', Exchanged s [c] [] s' → Safe (Admits F) (k ()) s' Q) :
    Safe (Admits F) (do
      replace g (.waitGroup w rest)
      cancelWaits c
      setBlocked c false
      k ()) s Q := by
  have queue := Store.queue_of ho
  have member : c ∈ s.queue g := queue ▸ List.mem_cons_self
  obtain ⟨blocked, waits, once⟩ := linked.wired.member g c member
  have contexts : ∀ x ∈ c :: rest, s.IsTag x .context := linked.typed.good g _ ho
  have later : c ∉ rest := by
    rw [queue, List.count_cons_self, Nat.succ_inj] at once
    exact List.count_eq_zero.mp once
  refine (replaceGroup linked.typed ho fun x hx => contexts x (List.mem_cons_of_mem _ hx)).bind fun _ s₁ ⟨proceeds, wiring⟩ => ?_
  have waits₁ (x : Ref) : s₁.waits x = s.waits x := by rw [Store.waits, wiring]; rfl
  have blockedAt₁ (x : Ref) : s₁.blockedAt x = s.blockedAt x := by rw [Store.blockedAt, wiring]; rfl
  have waiters₁ (x : Ref) : s₁.waiters x = s.waiters x := by rw [Store.waiters, wiring]; rfl
  have buffer₁ (x : Ref) : s₁.buffer x = s.buffer x := by rw [Store.buffer, wiring]; rfl
  have queue₁ (x : Ref) : s₁.queue x = if x = g then rest else s.queue x := by rw [Store.queue, wiring]
  have isContext := (contexts c List.mem_cons_self).grow proceeds.grows
  have covered := (linked.wired.covered c).transfer linked.typed proceeds (waits₁ c) fun d => waiters₁ d ▸ List.Sublist.refl _
  have alone (x : Ref) : c ∉ s₁.queue x := by
    rw [queue₁]
    split
    · exact later
    next ne =>
      intro other
      have same := (linked.wired.member x c other).2.1
      rw [waits, List.singleton_inj] at same
      exact ne same.symm
  refine resume_bind proceeds.typed isContext covered alone fun s' resumed => next s' ?_
  have after := resumed.after linked.typed proceeds (fun x _ => waits₁ x) (fun x _ => blockedAt₁ x)
    (fun x => waiters₁ x ▸ List.Sublist.refl _) (fun x => by rw [waiters₁]) fun x => ?_
  · have flow : Flow s s' [] := by
      refine .quiet linked.typed after.proceeds.grows (fun x => (after.buffer x).trans (buffer₁ x)) fun x => ?_
      rw [after.waiters]
      exact List.filter_sublist
    exact .resumed linked after blocked (fun x => by rw [buffer₁]) flow
  · rw [queue₁]
    split
    next e =>
      subst e
      rw [queue]
      simp
    next => rfl

/-- The contexts that are released go on. -/
theorem releaseFrom_safe (linked : Linked s) (k : s.IsTag g .waitGroup) (n : Nat) :
    Safe (Admits F) (releaseFrom g n) s fun l s' => Exchanged s l [] s' := by
  induction n generalizing s with
  | zero => exact .refl linked
  | succ n ih =>
    obtain ⟨w, queue, ho⟩ := linked.typed.canonical k
    refine (Observes.group ho).bind ?_
    rintro _ rfl
    cases queue with
    | nil => exact .refl linked
    | cons c rest =>
      refine releaseFirst (k := fun _ => do return c :: (← releaseFrom g n)) linked ho fun s₁ exchanged => ?_
      refine (ih exchanged.linked (k.grow exchanged.proceeds.grows)).bind fun l s' exchanged' => ?_
      exact exchanged.trans exchanged'

/-- The counter changes; if it is zero then, all waiting contexts go on. -/
theorem addToGroup_safe {delta : Int64} (linked : Linked s) (k : s.IsTag g .waitGroup)
    (fits : F ∨ ∀ w queue, s.objects[g]? = some (.waitGroup w queue) → w.toInt64.toInt + delta.toInt ≤ Int64.maxValue.toInt) :
    Safe (Admits F) (addToGroup g delta) s fun l s' => Exchanged s l [] s' := by
  obtain ⟨w, queue, ho⟩ := linked.typed.canonical k
  refine (Observes.group ho).bind ?_
  rintro _ rfl
  simp only
  split
  · exact Observes.bind (P := fun _ => False) (Observes.reject (by simp)) fun _ no => no.elim
  split
  next isOver =>
    refine Observes.bind (P := fun _ => False) ?_ fun _ no => no.elim
    exact fits.resolve_right fun fits => Int.not_lt.mpr (fits w queue ho) isOver
  refine (replaceGroup linked.typed ho (linked.typed.good g _ ho)).bind fun _ s₁ ⟨proceeds, wiring⟩ => ?_
  have calm : Calm s s₁ := by
    refine ⟨proceeds.typed, proceeds.grows, fun x => ?_, proceeds.contexts⟩
    rw [wiring, ← Store.queue_of ho]
    split
    next e => subst e; rfl
    next => rfl
  have exchanged := Exchanged.calm linked calm
  split
  · exact (releaseFrom_safe exchanged.linked (k.grow proceeds.grows) _).weaken fun l s' exchanged' => exchanged.trans exchanged'
  · exact exchanged

/-! ### Waiting -/

/-- The context `c` waits on the wait group `g`, blocked. -/
structure Joined (s : Store) (c g : Ref) (s' : Store) : Prop where
  proceeds : Proceeds s s'
  blocked : (s'.blockedAt c).isSome
  waits : ∀ x, s'.waits x = if x = c then s.waits x ++ [g] else s.waits x
  blockedAt : ∀ x, x ≠ c → s'.blockedAt x = s.blockedAt x
  waiters : ∀ x, s'.waiters x = s.waiters x
  buffer : ∀ x, s'.buffer x = s.buffer x
  queue : ∀ x, s'.queue x = if x = g then s.queue x ++ [c] else s.queue x

theorem Joined.wired (joined : Joined s c g s') (wired : Wired s none) (running : s.Running c) : Wired s' none where
  idle := by
    intro y blockedAt _
    have ne : y ≠ c := by
      rintro rfl
      have blocked := joined.blocked
      rw [blockedAt] at blocked
      cases blocked
    rw [joined.waits, if_neg ne]
    exact wired.nothing (joined.blockedAt y ne ▸ blockedAt)
  waiter := by
    intro d q hq
    rw [joined.waiters] at hq ⊢
    obtain ⟨r, k, channel, registered, waiting, count⟩ := wired.waiter d q hq
    have blocked := waiting.blocked
    have ne : r.context ≠ c := by
      intro e
      rw [e, Store.blockedAt, running.idle] at blocked
      cases blocked
    refine ⟨r, k.grow joined.proceeds.grows, channel, joined.proceeds.contexts ▸ registered, .inl ?_, ?_⟩
    · rw [joined.blockedAt _ ne]
      exact blocked
    · rw [joined.waits, if_neg ne]
      exact count
  member := by
    intro h y hy
    have idle (h : Ref) : c ∉ s.queue h := wired.alone_of_idle running.idle h
    rw [joined.queue] at hy ⊢
    have old (hy : y ∈ s.queue h) : (s'.blockedAt y).isSome ∧ s'.waits y = [h] ∧ (s.queue h).count y = 1 := by
      have ne : y ≠ c := fun e => idle h (e ▸ hy)
      rw [joined.blockedAt y ne, joined.waits, if_neg ne]
      exact wired.member h y hy
    split at hy
    next e =>
      subst e
      rw [if_pos rfl]
      rcases List.mem_append.mp hy with hy | new
      · obtain ⟨blocked, waits, once⟩ := old hy
        have ne : c ≠ y := fun e => idle h (e ▸ hy)
        refine ⟨blocked, waits, ?_⟩
        rw [List.count_append, once, List.count_singleton, if_neg (by simpa using ne)]
      · cases List.mem_singleton.mp new
        have nothing : s.waits c = [] := wired.nothing running.idle
        refine ⟨joined.blocked, ?_, ?_⟩
        · rw [joined.waits, if_pos rfl, nothing, List.nil_append]
        · rw [List.count_append, List.count_eq_zero.mpr (idle h), List.count_singleton_self]
    next ne =>
      rw [if_neg ne]
      exact old hy
  waits := by
    intro y
    rw [joined.waits]
    split
    next e =>
      subst e
      have nothing : s.waits y = [] := wired.nothing running.idle
      refine .inr ⟨g, by rw [nothing]; rfl, ?_⟩
      rw [joined.queue, if_pos rfl]
      exact List.mem_append_right _ (List.mem_singleton_self y)
    next =>
      rcases wired.waits y with requests | ⟨h, same, member⟩
      · refine .inl fun q hq => ?_
        obtain ⟨r, k, owner, waits⟩ := requests q hq
        exact ⟨r, k.grow joined.proceeds.grows, owner, joined.waiters _ ▸ waits⟩
      · refine .inr ⟨h, same, ?_⟩
        rw [joined.queue]
        split
        · exact List.mem_append_left _ member
        · exact member
  registered := by
    intro y blocked
    rw [joined.proceeds.contexts]
    by_cases e : y = c
    · exact e ▸ running.registered
    · exact wired.registered y (joined.blockedAt y e ▸ blocked)

theorem Joined.halted (joined : Joined s c g s') (linked : Linked s) (running : s.Running c) : Halted s c [] s' where
  proceeds := joined.proceeds
  linked := ⟨joined.proceeds.typed, joined.wired linked.wired running,
    linked.ducts.keep linked.typed joined.proceeds (fun x _ hq => joined.waiters x ▸ hq) fun x => by rw [joined.buffer]⟩
  blocked := joined.blocked
  blockedAt := joined.blockedAt
  waits x ne := by rw [joined.waits, if_neg ne]
  flow := .quiet linked.typed joined.proceeds.grows joined.buffer fun d => joined.waiters d ▸ List.Sublist.refl _

/-- The running context waits unless the counter is zero. -/
theorem waitFor_safe (linked : Linked s) (running : s.Running c) (k : s.IsTag g .waitGroup) :
    Safe (Admits F) (waitFor g c) s fun waits s' =>
      waits = false ∧ s' = s ∨ waits = true ∧ Halted s c [] s' ∧ s'.waits c = [g] := by
  obtain ⟨w, queue, ho⟩ := linked.typed.canonical k
  refine (Observes.group ho).bind ?_
  rintro _ rfl
  simp only
  split
  · exact .inl ⟨rfl, rfl⟩
  have isContext := linked.typed.contexts c running.registered
  refine Safe.bind (Q := fun _ s' => s' = s) (Quiet.expectRegistered running.registered rfl) ?_
  rintro _ s rfl
  refine Safe.bind (Safe.rooted (P := fun _ s' => Proceeds s s' ∧ ∀ x, s'.wiring x = { s.wiring x with
      waits := if x = c then s.waits x ++ [g] else s.waits x
      queue := if x = g then s.queue x ++ [c] else s.queue x }) ?_ ?_) ?_
  · generalize hs : ({ s with temporaries := s.temporaries ++ [g, c] } : Store) = s₀
    have typed₀ : s₀.Typed := hs ▸ linked.typed.reroot rfl linked.typed.contexts
    have ho₀ : s₀.objects[g]? = some (.waitGroup w queue) := hs ▸ ho
    have isContext₀ : s₀.IsTag c .context := hs ▸ isContext
    refine (replaceGroup (l := queue ++ [c]) typed₀ ho₀ fun x hx => ?_).bind ?_
    · rcases List.mem_append.mp hx with old | new
      · exact typed₀.good g _ ho₀ x old
      · exact List.mem_singleton.mp new ▸ isContext₀
    rintro _ s₁ ⟨proceeds, wiring⟩
    refine (update_waits proceeds.typed (isContext₀.grow proceeds.grows) g).weaken ?_
    rintro _ s₂ ⟨proceeds', wiring'⟩
    have all := proceeds.trans proceeds'
    subst hs
    refine ⟨⟨all.typed, all.grows, all.contexts⟩, fun x => ?_⟩
    have longer : (if x = g then queue ++ [c] else s.queue x) = if x = g then s.queue x ++ [c] else s.queue x := by
      split
      next e => rw [e, Store.queue_of ho]
      next => rfl
    rw [wiring', Store.waits, wiring, ← longer]
    rfl
  · rintro _ s' ts ⟨proceeds, wiring⟩
    exact ⟨⟨proceeds.typed.reroot rfl proceeds.typed.contexts, proceeds.grows, proceeds.contexts⟩, wiring⟩
  rintro _ s₁ ⟨proceeds, wiring⟩
  obtain ⟨f, hf⟩ := proceeds.typed.canonical (isContext.grow proceeds.grows)
  refine (setBlocked_reblocked proceeds.typed hf true).bind fun _ s' changed => .inr ⟨rfl, ?_⟩
  have joined : Joined s c g s' := by
    refine ⟨proceeds.trans changed.proceeds, ?_, fun x => ?_, fun x ne => ?_, fun x => ?_, fun x => ?_, fun x => ?_⟩
    · rw [changed.blockedAt, if_pos rfl]; rfl
    · rw [changed.waits, Store.waits, wiring]
    · rw [changed.blockedAt, if_neg ne, Store.blockedAt, wiring]; rfl
    · rw [changed.waiters, Store.waiters, wiring]; rfl
    · rw [changed.buffer, Store.buffer, wiring]; rfl
    · rw [changed.queue, Store.queue, wiring]
  refine ⟨joined.halted linked running, ?_⟩
  rw [joined.waits, if_pos rfl, linked.wired.nothing running.idle]
  rfl

end FiberMachine.Ideal
