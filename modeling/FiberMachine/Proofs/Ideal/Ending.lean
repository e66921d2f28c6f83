import FiberMachine.Proofs.Ideal.Acting

/-!
# How courses end

A course counts its instructions, and numbers its contexts in the order of their creation. If it is an error that the main
context never goes on, then the course is over only after its main context has ended; and the main context ends only
by an instruction for that, since it has nothing to return from.
-/

namespace FiberMachine.Ideal

variable {s s' : Store} {c d x : Ref} {n : Nat} {log events : List Event} {i : Instruction} {depth : Nat} {t t' : Course} {o : Outcome}
  {f : Fiber} {e : Engine}

namespace Store

/-- The number of a context. -/
def idOf (s : Store) (c : Ref) : Nat := (s.objects[c]?.bind Obj.fiber?).elim 0 Fiber.id

theorem HasId.idOf (k : s.HasId c n) : s.idOf c = n := by
  obtain ⟨f, ho, rfl⟩ := k
  rw [Store.idOf, ho]
  rfl

theorem Typed.hasId (typed : s.Typed) (isContext : s.IsTag c .context) : s.HasId c (s.idOf c) := by
  obtain ⟨f, ho⟩ := typed.canonical isContext
  have k : s.HasId c f.id := ⟨f, ho, rfl⟩
  rwa [k.idOf]

theorem Grows.idOf (grows : s.Grows s') (typed : s.Typed) (isContext : s.IsTag c .context) : s'.idOf c = s.idOf c :=
  ((typed.hasId isContext).grow grows).idOf

/-- The context has no return marker that ends it. -/
def Unending (s : Store) (c : Ref) : Prop :=
  ∃ f : Fiber, s.objects[c]? = some (.context f) ∧ ∀ m ∈ f.returns, s.objects[m]? ≠ some (.number .callRef ReturnMarker.ending)

/-- Return markers stay what they are. -/
theorem Grows.marker {m : Ref} {w : Word} (grows : s.Grows s') (known : s.Known m) (hm : s'.objects[m]? = some (.number .callRef w)) :
    s.objects[m]? = some (.number .callRef w) := by
  obtain ⟨o, ho⟩ := known
  obtain ⟨o', ho', same⟩ := grows m o ho
  rw [hm] at ho'
  cases ho'
  cases o <;> cases same
  exact ho

end Store

/-- What a context returns to after it may have entered another environment. -/
theorem Bearing.Deepens.returned {y z : Bearing} (deepens : Bearing.Deepens y z) : ∀ m ∈ z.returns, m ∈ y.returns ∨ m = y.environment := by
  intro m hm
  rcases deepens.returns with ⟨same, _⟩ | more
  · exact .inl (same ▸ hm)
  · rw [more] at hm
    exact (List.mem_append.mp hm).imp_right List.mem_singleton.mp

/-- A return marker for an instruction of a program does not end its context. -/
theorem ofNat_ne_ending (small : n < hostLimit) : UInt64.ofNat n ≠ ReturnMarker.ending := by
  intro same
  have same := congrArg UInt64.toNat same
  rw [UInt64.toNat_ofNat_of_lt' (small.trans (by decide))] at same
  rw [same] at small
  exact absurd small (by decide)

namespace Leads

variable {pc : Nat} {y z : Bearing} (leads : Leads i pc s s' o y z)
include leads

/-- A context ends by the instruction for that, or by a return to its ending marker. -/
theorem finishes (finish : o = .finish) :
    i = .done ∨ i = .ret ∧ ∃ m ∈ y.returns, s.objects[m]? = some (.number .callRef ReturnMarker.ending) := by
  subst finish
  cases leads with
  | stays _ done => exact .inl (done rfl)
  | @returns _ m w es _ _ ret returns marker _ _ _ goes _ =>
    by_cases ending : w = ReturnMarker.ending
    · exact .inr ⟨ret, m, by simp [returns], ending ▸ marker⟩
    · cases (goes ending).1

/-- What a context returns to was there before, or it is the environment that it has left, or the marker of a call. -/
theorem returned : ∀ m ∈ z.returns, m ∈ y.returns ∨ m = y.environment ∨ s'.objects[m]? = some (.number .callRef (UInt64.ofNat (pc + 1))) := by
  intro m hm
  cases leads with
  | stays => exact .inl hm
  | deepens _ deepens => exact (deepens.returned m hm).imp_right .inl
  | calls _ marker returns =>
    rw [returns] at hm
    rcases List.mem_append.mp hm with old | new
    · exact .inl old
    · rcases List.mem_pair.mp new with rfl | rfl
      · exact .inr (.inr marker)
      · exact .inr (.inl rfl)
  | exits _ returns => exact .inl (returns ▸ List.mem_append_left _ hm)
  | returns _ returns => exact .inl (returns ▸ List.mem_append_left _ hm)

end Leads

namespace Course

/-- What else is true of a course between two steps. -/
structure Orderly (t : Course) : Prop where
  counted : t.executed ≤ t.limit
  /-- Contexts are registered in the order of their numbers. -/
  numbers : t.engine.store.contexts.Pairwise fun c d => t.engine.store.idOf c < t.engine.store.idOf d
  below : ∀ c ∈ t.engine.store.contexts, t.engine.store.idOf c < t.engine.nextId
  next : t.engine.nextId ≤ t.executed + 1
  registered : t.mainDone = false → t.main ∈ t.engine.store.contexts
  unending : t.engine.store.Unending t.main
  isOver : t.finished = true → t.detect = true → t.mainDone = true

theorem start_orderly (code : Array Instruction) (config : Config) : Orderly (start code config) where
  counted := Nat.zero_le _
  numbers := List.pairwise_singleton ..
  below := fun _ hc => List.mem_singleton.mp hc ▸ Nat.one_pos
  next := Nat.le_refl _
  registered _ := List.mem_singleton_self _
  unending := ⟨_, rfl, fun _ no => absurd no List.not_mem_nil⟩
  isOver := nofun

namespace Executed

variable (executed : Executed depth t c f i o events e t')
include executed

theorem grows : t.engine.store.Grows t'.engine.store := by
  intro r old ho
  obtain ⟨new, hn, same⟩ := executed.calm.grows.trans executed.turned.grows r old ho
  exact ⟨new, (executed.object r).trans hn, same⟩

/-- Nobody is registered anew but a new context. -/
theorem registered : ∃ l, t'.engine.store.contexts.Sublist (t.engine.store.contexts ++ l) ∧
    (l = [] ∧ t'.engine.nextId = t.engine.nextId ∨
      ∃ d, l = [d] ∧ t'.engine.store.HasId d (wrap t.engine.nextId) ∧ t'.engine.nextId = t.engine.nextId + 1) ∧
    ∀ x ∈ t.engine.store.contexts, x ∉ t'.engine.store.contexts → x = c ∧ o = .finish := by
  have fewer : t'.engine.store.contexts.Sublist e.store.contexts := by
    rw [executed.contexts]
    split
    · exact List.erase_sublist
    · exact .refl _
  have kept {x : Ref} (hx : x ∈ e.store.contexts) (gone : x ∉ t'.engine.store.contexts) : x = c ∧ o = .finish := by
    rw [executed.contexts] at gone
    split at gone
    next finish => exact ⟨by_contra fun ne => gone ((List.mem_erase_of_ne ne).mpr hx), finish⟩
    next => exact absurd hx gone
  rcases executed.turned.spawned with ⟨same, nextId⟩ | ⟨d, more, ⟨g, hg, number⟩, nextId⟩
  · have same : e.store.contexts = t.engine.store.contexts := same
    refine ⟨[], by rwa [List.append_nil, ← same], .inl ⟨rfl, executed.nextId.trans nextId⟩, fun x hx => kept (same ▸ hx)⟩
  · have more : e.store.contexts = t.engine.store.contexts ++ [d] := more
    refine ⟨[d], more ▸ fewer, .inr ⟨d, rfl, ⟨g, (executed.object d).trans hg, number⟩, executed.nextId.trans nextId⟩, fun x hx => kept ?_⟩
    rw [more]
    exact List.mem_append_left _ hx

/-- A context is registered as long as it does not end. -/
theorem stays {x : Ref} (hx : x ∈ t.engine.store.contexts) (going : x = c → o ≠ .finish) : x ∈ t'.engine.store.contexts := by
  by_contra out
  obtain ⟨_, _, _, gone⟩ := executed.registered
  obtain ⟨same, finish⟩ := gone x hx out
  exact going same finish

/-- What ends the context that executes it is one of two instructions. -/
theorem ends (finish : o = .finish) : i = .done ∨ i = .ret := by
  obtain ⟨_, _, leads⟩ := executed.own
  exact (leads.finishes finish).imp_right And.left

/-- The number of a context that was there. -/
theorem idOf (typed : t.engine.store.Typed) (hx : x ∈ t.engine.store.contexts) : t'.engine.store.idOf x = t.engine.store.idOf x :=
  executed.grows.idOf typed (typed.contexts x hx)

/-- A context that nothing ends ends only by the instruction for that. -/
theorem finishes (unending : t.engine.store.Unending c) (finish : o = .finish) : i = .done := by
  obtain ⟨g, hg, markers⟩ := unending
  cases Option.some.inj (hg.symm.trans executed.fiber)
  obtain ⟨g', _, leads⟩ := executed.own
  refine (leads.finishes finish).resolve_right fun ⟨_, m, hm, ending⟩ => markers m hm (Store.unset ending nofun)

theorem unending {main : Ref} (typed : t.engine.store.Typed) (fits : t.code.size < hostLimit)
    (unending : t.engine.store.Unending main) : t'.engine.store.Unending main := by
  obtain ⟨g, hg, markers⟩ := unending
  obtain ⟨env, _, known⟩ := typed.good main _ hg
  -- nothing becomes an ending marker that was there before
  have old {m : Ref} (k : t.engine.store.Known m) (not : t.engine.store.objects[m]? ≠ some (.number .callRef ReturnMarker.ending)) :
      t'.engine.store.objects[m]? ≠ some (.number .callRef ReturnMarker.ending) := fun hm => not (executed.grows.marker k hm)
  have kept (m : Ref) (hm : m ∈ g.returns) := old (known m hm) (markers m hm)
  have scope := old env.known fun hr => nomatch env.unique ⟨_, hr, rfl⟩
  by_cases own : main = c
  · subst own
    cases Option.some.inj (hg.symm.trans executed.fiber)
    obtain ⟨g', hg', leads⟩ := executed.own
    refine ⟨g', hg', fun m hm => ?_⟩
    rcases leads.returned m hm with before | rfl | marker
    · exact kept m before
    · exact scope
    · have inside := (Array.getElem?_eq_some_iff.mp executed.instruction).1
      rw [executed.object, marker]
      exact fun same => ofNat_ne_ending (n := f.pc + 1) (by omega) (by simpa using same)
  · obtain ⟨h, hh, deepens⟩ := executed.others own hg
    refine ⟨h, hh, fun m hm => ?_⟩
    rcases deepens.returned m hm with before | rfl
    · exact kept m before
    · exact scope

/-- A step leaves everything in order. -/
theorem orderly (typed : t.engine.store.Typed) (orderly : Orderly t) (fits : t.code.size < hostLimit) (small : t.limit < wordLimit) : Orderly t' := by
  have counted : t'.executed = t.executed + 1 := executed.executed
  have within : t.executed + 1 ≤ t.limit := executed.counted
  have next := orderly.next
  obtain ⟨l, fewer, spawned, gone⟩ := executed.registered
  -- the numbers of the contexts that were there, and of a new one
  have old (x : Ref) (hx : x ∈ t.engine.store.contexts) := executed.idOf typed hx
  have new (d : Ref) (hd : d ∈ l) : t'.engine.store.idOf d = t.engine.nextId ∧ t'.engine.nextId = t.engine.nextId + 1 := by
    rcases spawned with ⟨rfl, _⟩ | ⟨d, rfl, number, nextId⟩
    · cases hd
    · cases List.mem_singleton.mp hd
      exact ⟨number.idOf.trans (Nat.mod_eq_of_lt (by omega)), nextId⟩
  have nextId : t.engine.nextId ≤ t'.engine.nextId ∧ t'.engine.nextId ≤ t.engine.nextId + 1 := by
    rcases spawned with ⟨_, same⟩ | ⟨_, _, _, more⟩ <;> omega
  refine {
    counted := ?_, numbers := .sublist fewer (List.pairwise_append.mpr ⟨?_, ?_, fun x hx d hd => ?_⟩), below := fun x hx => ?_, next := ?_,
    registered := fun going => ?_, unending := ?_, isOver := fun isOver detect => ?_ }
  · rw [counted, executed.limit]
    exact within
  · exact orderly.numbers.imp_of_mem fun {x y} hx hy less => by rwa [old x hx, old y hy]
  · rcases spawned with ⟨rfl, _⟩ | ⟨d, rfl, _⟩
    · exact .nil
    · exact List.pairwise_singleton ..
  · rw [old x hx, (new d hd).1]
    exact orderly.below x hx
  · rcases List.mem_append.mp (fewer.subset hx) with hx | hx
    · rw [old x hx]
      exact (orderly.below x hx).trans_le nextId.1
    · obtain ⟨number, more⟩ := new x hx
      omega
  · omega
  · rw [executed.mainDone, Bool.or_eq_false_iff] at going
    rw [executed.main]
    by_contra out
    obtain ⟨same, finish⟩ := gone _ (orderly.registered going.1) out
    simp [same, finish] at going
  · exact executed.main ▸ executed.unending typed fits orderly.unending
  · rcases executed.finished isOver with before | done
    · exact absurd (before.symm.trans executed.going) nofun
    · exact done

end Executed

/-- The blocked contexts are found in the order in which they are given. -/
theorem blockedAmong_eq {l : List Ref} (contexts : ∀ c ∈ l, s.IsTag c .context) (typed : s.Typed) :
    blockedAmong l s = .ok (l.filter fun c => (s.blockedAt c).isSome) s := by
  induction l with
  | nil => rfl
  | cons c rest ih =>
    obtain ⟨f, hf⟩ := typed.canonical (contexts c List.mem_cons_self)
    have look : fiber c s = .ok f s := by simp only [fiber, look, hf]; rfl
    rw [blockedAmong, run_bind, look]
    simp only
    rw [run_bind, ih fun c hc => contexts c (List.mem_cons_of_mem _ hc)]
    simp only [List.filter_cons, Store.blockedAt_of hf]
    cases f.blocked <;> rfl

/-- If no context can run, then all are blocked. -/
theorem all_blocked (steady : Steady log t) (idle : t.engine.scheduler.dispatch.current = none) :
    t.engine.store.blockedContexts = t.engine.store.contexts := by
  obtain ⟨current, ready⟩ := Scheduler.dispatch_none.mp idle
  refine List.filter_eq_self.mpr fun c hc => ?_
  have mem := steady.balanced.mem.mp hc
  rw [current, ready] at mem
  exact (mem.resolve_left (by simp)).2

/-- A course in which no context can run and the main context waits does not rest. -/
theorem Content.isOver (content : t.Content) (steady : Steady log t) (idle : t.engine.scheduler.dispatch.current = none)
    (orderly : Orderly t) (detect : t.detect = true) : t.mainDone = true := by
  rcases content with done | silent | ⟨s, none⟩
  · exact done
  · rw [detect] at silent
    cases silent
  · by_contra going
    rw [blockedAmong_eq steady.linked.typed.contexts steady.linked.typed] at none
    have empty : t.engine.store.blockedContexts = [] := (EStateM.Result.ok.inj none).1
    have main := orderly.registered (Bool.eq_false_iff.mpr going)
    rw [← all_blocked steady idle, empty] at main
    cases main

theorem Rests.orderly (rests : t.Rests t') (steady : Steady log t) (orderly : Orderly t) : Orderly t' := by
  cases rests with
  | isOver => exact orderly
  | stalls idle content => exact { orderly with isOver := fun _ detect => content.isOver steady idle orderly detect }

/-- Every step leaves everything in order. -/
theorem step_orderly (steady : Steady log t) (sane : Sane True depth t) (orderly : Orderly t) (fits : t.code.size < hostLimit)
    (small : t.limit < wordLimit) {done : StepOutcome} (run : step depth t = .ok (done, events) t') : Orderly t' := by
  rcases step_executed steady sane run with ⟨_, _, rests⟩ | ⟨c, f, i, o, e, _, executed⟩
  · exact rests.orderly steady orderly
  · exact executed.orderly steady.linked.typed orderly fits small

end Course

end FiberMachine.Ideal
