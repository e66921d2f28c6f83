import Mathlib.Data.List.DropRight
import FiberMachine.Proofs.Ideal.Ending

/-!
# What a step passes through channels

A step makes a channel, or what it does on channels concerns channels that its context mentions. So what is noted since a
channel was made is all that has happened on it.
-/

namespace FiberMachine

namespace Event

variable {d : Addr} {xs ys : List Event}

/-- What has happened on the channel. -/
def on (d : Addr) (events : List Event) : List Event := events.filter fun x => x.channel? == some d

/-- What has happened since the channel was made. -/
def since (d : Addr) (events : List Event) : List Event := events.rtakeWhile fun x => decide (x ≠ .made d)

theorem on_append : on d (xs ++ ys) = on d xs ++ on d ys := List.filter_append ..

theorem on_eq_nil (none : ∀ x ∈ xs, x.channel? ≠ some d) : on d xs = [] :=
  List.filter_eq_nil_iff.mpr fun x hx same => none x hx (eq_of_beq same)

theorem channel?_of_mem_on {x : Event} (hx : x ∈ on d xs) : x.channel? = some d := eq_of_beq (List.mem_filter.mp hx).2

theorem since_append (old : .made d ∉ ys) : since d (xs ++ ys) = since d xs ++ ys := by
  induction ys using List.reverseRecOn with
  | nil => rw [List.append_nil, List.append_nil]
  | append_singleton ys y ih =>
    rw [List.mem_append, not_or, List.mem_singleton] at old
    rw [since, ← List.append_assoc, List.rtakeWhile_concat, if_pos (decide_eq_true (Ne.symm old.2)), ← List.append_assoc]
    exact congrArg (· ++ [y]) (ih old.1)

theorem since_made : since d (xs ++ [.made d]) = [] := List.rtakeWhile_concat_neg _ _ _ (by simp)

/-- What is told about a channel depends only on what happens on it. -/
theorem filterMap_on {f : Event → Option Addr} (only : ∀ x v, f x = some v → x.channel? = some d) : (on d xs).filterMap f = xs.filterMap f := by
  rw [on, List.filterMap_filter]
  refine List.filterMap_congr fun x _ => ?_
  split
  next => rfl
  next other =>
    cases told : f x with
    | none => rfl
    | some v => exact absurd (beq_iff_eq.mpr (only x v told)) other

variable (d : Addr) (t : Direction) (xs : List Event)

theorem sends_on : sends d (on d xs) = sends d xs := filterMap_on fun x v told => by
  cases x with
  | sent c u => by_cases same : c = d <;> simp_all [channel?]
  | _ => cases told

theorem receives_on : receives d (on d xs) = receives d xs := filterMap_on fun x v told => by
  cases x with
  | received c u => by_cases same : c = d <;> simp_all [channel?]
  | _ => cases told

theorem parks_on : parks d t (on d xs) = parks d t xs := filterMap_on fun x v told => by
  cases x with
  | parked c u q => by_cases same : c = d <;> simp_all [channel?]
  | _ => cases told

theorem completions_on : completions d t (on d xs) = completions d t xs := filterMap_on fun x v told => by
  cases x with
  | completed c u q => by_cases same : c = d <;> simp_all [channel?]
  | _ => cases told

end Event

namespace Ideal

variable {s s' : Store} {c d : Ref} {log events : List Event} {i : Instruction} {depth : Nat} {t t' : Course} {o : Outcome} {f : Fiber}
  {e : Engine} {done : StepOutcome}

/-- A channel has been one as long as it has been there. -/
theorem Store.Grows.channel_before {k : Duct} (grows : s.Grows s') (known : s.Known d) (hk : s'.objects[d]? = some (.channel k)) :
    ∃ k : Duct, s.objects[d]? = some (.channel k) := by
  obtain ⟨o, ho⟩ := known
  obtain ⟨o', ho', frozen⟩ := grows d o ho
  rw [hk] at ho'
  cases ho'
  cases o with
  | channel k => exact ⟨k, ho⟩
  | _ => cases frozen

/-- What a context mentions does not depend on its program counter. -/
theorem Store.Mentions.of_fetched (ho : s.objects[c]? = some (.context f)) (mentions : (s.set c (.context { f with pc := n })).Mentions c d) :
    s.Mentions c d := by
  obtain ⟨xs, ⟨g, hg, rfl⟩, mentioned⟩ := mentions
  cases Option.some.inj (hg.symm.trans (Store.context_set ho _))
  refine ⟨_, ⟨f, ho, rfl⟩, mentioned.imp_right fun ⟨q, hq, r, hr, same⟩ => ⟨q, hq, r, Store.unset hr nofun, same⟩⟩

/-- A context that ends does nothing on channels. -/
theorem Engine.execute_silent {pc : Nat} (last : i = .done ∨ i = .ret) : Safe Any (execute depth c pc i) e fun p _ => p.2 = [] := by
  have silent {m : EngineM Outcome} {e : Engine} : Safe Any (quietly m) e fun p _ => p.2 = [] :=
    Safe.any_bind fun _ _ => .pure rfl
  rcases last with rfl | rfl
  · exact execute_safe silent
  · exact execute_safe silent

namespace Course

/-- What a step passes through channels. -/
structure Passing (t : Course) (events : List Event) (t' : Course) : Prop where
  grows : t.engine.store.Grows t'.engine.store
  flow : Flow t.engine.store t'.engine.store events
  /-- A channel that is new has just been made, and nothing else has happened. -/
  made : ∀ (d : Ref) (k : Duct), t'.engine.store.objects[d]? = some (.channel k) → ¬t.engine.store.Known d → events = [.made d]
  about : (∃ d, events = [.made d] ∧ ¬t.engine.store.Known d ∧ ∃ c ∈ t'.engine.store.contexts, t'.engine.store.Mentions c d) ∨
    ∀ x ∈ events, (∃ c, x = .stranded c) ∨ ∃ d, x.channel? = some d ∧ ∃ c ∈ t.engine.store.contexts, t.engine.store.Mentions c d

/-- A step that executes nothing. -/
theorem Rests.passing (rests : t.Rests t') (typed : t.engine.store.Typed) : Passing t [] t' := by
  have same := rests.store
  refine ⟨same ▸ .refl, ?_, fun d k hk new => ?_, .inr fun x hx => nomatch hx⟩
  · rw [same]
    exact .calm typed (.refl typed)
  · rw [same] at hk
    exact absurd ⟨_, hk⟩ new

theorem Executed.passing (executed : Executed depth t c f i o events e t') (typed : t.engine.store.Typed) : Passing t events t' := by
  have turned := executed.turned
  have old {d : Ref} (mentions : (t.fetchedStore c f).Mentions c d) : t.engine.store.Mentions c d :=
    mentions.of_fetched executed.fiber
  have known {d : Ref} (new : ¬(t.fetchedStore c f).Known d) : ¬t.engine.store.Known d := fun old => new (old.grow executed.calm.grows)
  refine ⟨executed.grows, ?_, fun d k hk new => ?_, ?_⟩
  · have flow := (Flow.calm typed executed.calm).trans (turned.flow.trans (.quiet turned.linked.typed
      (fun r o ho => ⟨o, (executed.object r).trans ho, rfl⟩) (fun d => congrArg Wiring.buffer (executed.wiring d))
      fun d => by rw [Store.waiters, Store.waiters, executed.wiring]))
    rwa [List.nil_append, List.append_nil] at flow
  · rcases executed.led.channels d k ((executed.object d).symm.trans hk) with ⟨k', hk'⟩ | made
    · exact absurd ⟨_, Store.unset hk' (by simp)⟩ new
    · rcases turned.about with ⟨d', same, _⟩ | about
      · rw [same] at made
        cases List.mem_singleton.mp made
        exact same
      · rcases about _ made with no | ⟨_, no, _⟩ <;> cases no
  · rcases turned.about with ⟨d, rfl, new, mentions⟩ | about
    · refine .inl ⟨d, rfl, known new, c, ?_, ?_⟩
      · refine executed.stays executed.running.registered fun _ finish => ?_
        cases (Engine.execute_silent (executed.ends finish)).ok executed.run
      · obtain ⟨xs, operands, mentioned⟩ := mentions
        refine ⟨xs, operands.imp fun g hg => ⟨(executed.object c).trans hg.1, hg.2⟩, mentioned.imp_right ?_⟩
        rintro ⟨q, hq, r, hr, same⟩
        exact ⟨q, hq, r, (executed.object q).trans hr, same⟩
    · refine .inr fun x hx => ?_
      rcases about x hx with stranded | ⟨d, channel, mentions⟩
      · exact .inl ⟨c, stranded⟩
      · exact .inr ⟨d, channel, c, executed.running.registered, old mentions⟩

/-- What a successful step passes through channels. -/
theorem step_passing (steady : Steady log t) (sane : Sane True depth t) (run : step depth t = .ok (done, events) t') : Passing t events t' := by
  rcases step_executed steady sane run with ⟨_, rfl, rests⟩ | ⟨c, f, i, o, e, _, executed⟩
  · exact rests.passing steady.linked.typed
  · exact executed.passing steady.linked.typed

end Course

end Ideal

end FiberMachine
