import Mathlib.Data.List.Find
import FiberMachine.Proofs.Ideal.Ending

/-!
# Calls

While a context is in a call, what it returned to before stays at the bottom of its return stack, below the return marker of
the call. Of the environments above the marker the lowest is that of the caller; if there is none, it is the current one.
Only a return takes the marker away, and then the context is again where it was.
-/

namespace FiberMachine.Ideal

variable {s s' : Store} {c m E : Ref} {R : List Ref} {n pc depth : Nat} {i : Instruction} {o : Outcome} {x y : Bearing}
  {log events : List Event} {t t' : Course} {f : Fiber} {e : Engine}

/-! ### Entering a function -/

theorem Store.Steers.fiber (steers : s.Steers s') (ho : s.objects[c]? = some (.context f)) :
    ∃ g : Fiber, s'.objects[c]? = some (.context g) ∧ g.returns = f.returns ∧ g.environment = f.environment := by
  obtain ⟨g, hg, same⟩ := steers.fibers c f ho
  exact ⟨g, hg, (congrArg Bearing.returns same).symm, (congrArg Bearing.environment same).symm⟩

namespace Engine

/-- A call of a function enters it. -/
theorem execCall_entered {rest arguments : List Ref} {callee : Ref} (active : Active e.store c)
    (operands : e.store.Operands c (rest ++ callee :: arguments)) (length : arguments.length = n) (func : e.store.IsTag callee .func) :
    Safe Any (execCall c (pc + 1) n) e fun _ e' => Entered pc c e.store e'.store := by
  refine ((Quiet.popMany active n (.inl trivial)).any.both (Guiding.popMany.any e)).bind ?_
  rintro xs e₁ ⟨⟨calm₁, _, _, ⟨taken, front, before, after⟩, _⟩, steers₁⟩
  refine ((Quiet.pop (active.keep calm₁)).any.both (Guiding.pop.any e₁)).bind ?_
  rintro x e₂ ⟨⟨calm₂, _, _, ⟨low, before', _⟩, _⟩, steers₂⟩
  -- what is popped is the function
  obtain rfl : callee = x := by
    have same := operands.unique before
    rw [after.unique before', List.append_assoc] at same
    obtain ⟨_, same⟩ := List.append_inj' same (by simp [length, taken])
    exact (List.cons.inj same).1
  have func₂ := (func.grow calm₁.grows).grow calm₂.grows
  refine store_bind (R := fun t s' => s' = e₂.store ∧ t = .func)
    ((tag_seen.relax fun _ _ => trivial).weaken fun _ _ ⟨same, seen⟩ => ⟨same, seen.unique func₂⟩) ?_
  rintro _ _ ⟨rfl, rfl⟩
  rw [if_neg (by decide)]
  exact ((enter_led (n := n) (steers₁.after steers₂)).relax fun _ _ => trivial).weaken fun _ _ entered => entered.2

theorem execute_entered {rest arguments : List Ref} {callee : Ref} (active : Active e.store c)
    (operands : e.store.Operands c (rest ++ callee :: arguments)) (length : arguments.length = n) (func : e.store.IsTag callee .func) :
    Safe Any (execute depth c pc (.call n)) e fun _ e' => Entered pc c e.store e'.store :=
  execute_safe ((execCall_entered active operands length func).bind fun _ _ entered =>
    .pure (Q := fun _ (e' : Engine) => Entered pc c e.store (e'.releaseRoots e.store.temporaries.length).store) entered)

end Engine

/-! ### Environments -/

namespace Store

/-- Whether the object is an environment. -/
def isScope (s : Store) (r : Ref) : Bool := s.objects[r]?.any fun o => o.tag == .environment

theorem isScope_iff {r : Ref} : s.isScope r = true ↔ s.IsTag r .environment := by
  unfold isScope IsTag
  cases s.objects[r]? <;> simp

theorem Grows.isScope {r : Ref} (grows : s.Grows s') (known : s.Known r) : s'.isScope r = s.isScope r := by
  obtain ⟨o, ho⟩ := known
  obtain ⟨o', ho', same⟩ := grows r o ho
  simp only [Store.isScope, ho, ho', Option.any_some]
  rw [← o'.frozen_tag, same, o.frozen_tag]

theorem not_isScope {r : Ref} {w : Word} (hr : s.objects[r]? = some (.number .callRef w)) : s.isScope r = false := by
  rw [Store.isScope, hr]
  rfl

/-- The object is not a marker that ends its context. -/
def Lasting (s : Store) (r : Ref) : Prop := s.objects[r]? ≠ some (.number .callRef ReturnMarker.ending)

/-- Numbers and return markers stay what they are. -/
theorem Grows.number {r : Ref} {k : Tag} {w : Word} (grows : s.Grows s') (hr : s.objects[r]? = some (.number k w)) :
    s'.objects[r]? = some (.number k w) := by
  obtain ⟨o', ho', same⟩ := grows r _ hr
  cases o' <;> cases same
  exact ho'

theorem IsTag.lasting {r : Ref} (k : s.IsTag r .environment) : s.Lasting r := fun hr => nomatch k.unique ⟨_, hr, rfl⟩

theorem Lasting.grow {r : Ref} (lasting : s.Lasting r) (grows : s.Grows s') (known : s.Known r) : s'.Lasting r :=
  fun hr => lasting (grows.marker known hr)

end Store

/-! ### Within a call -/

/-- The context is in a call. Below the marker `m` it has `R`, and above the marker, lowest or else current, its environment `E`. -/
def Bearing.Within (s : Store) (R : List Ref) (m E : Ref) (x : Bearing) : Prop :=
  ∃ rest, x.returns = R ++ m :: rest ∧ (rest ++ [x.environment]).find? s.isScope = some E ∧ ∀ r ∈ rest, s.Lasting r

namespace Bearing

/-- A context that enters another environment stays in its call. -/
theorem Within.deepens (within : x.Within s R m E) (scope : s.IsTag x.environment .environment) (deepens : Deepens x y) :
    y.Within s R m E := by
  obtain ⟨rest, returns, lowest, lasting⟩ := within
  rcases deepens.returns with ⟨same, env⟩ | more
  · exact ⟨rest, same.trans returns, env ▸ lowest, lasting⟩
  · refine ⟨rest ++ [x.environment], by rw [more, returns, List.append_assoc]; rfl, ?_, ?_⟩
    · rw [List.find?_append, lowest]
      rfl
    · intro r hr
      rcases List.mem_append.mp hr with old | new
      · exact lasting r old
      · exact List.mem_singleton.mp new ▸ scope.lasting

end Bearing

/-- The context returns from its call. -/
structure Leads.Returned (i : Instruction) (s : Store) (R : List Ref) (m E : Ref) (o : Outcome) (x y : Bearing) : Prop where
  ret : i = .ret
  returns : y.returns = R
  environment : y.environment = E
  goes : ∀ w, s.objects[m]? = some (.number .callRef w) → w ≠ ReturnMarker.ending → o = .proceed ∧ y.pc = wrap w.toNat
  scopes : ∃ rest, x.returns = R ++ m :: rest ∧ ∀ e ∈ rest, s.IsTag e .environment

/-- The environment that is entered again after a return is the lowest. -/
theorem find?_scopes {p : Ref → Bool} {es : List Ref} {env : Ref} (all : ∀ e ∈ es, p e = true) (last : p env = true) :
    (es ++ [env]).find? p = (es ++ [env]).head? := by
  cases es with
  | nil => simp [last]
  | cons e rest => simp [all e List.mem_cons_self]

/-- A context in a call stays in it unless it returns or ends. -/
theorem Leads.within (leads : Leads i pc s s' o x y) (grows : s.Grows s') (scope : s.IsTag x.environment .environment)
    (small : pc + 1 < hostLimit) (marker : s'.isScope m = false) (lasts : s'.Lasting m) (within : x.Within s' R m E) :
    y.Within s' R m E ∧ (o = .finish → i = .done) ∨ Leads.Returned i s R m E o x y := by
  have scope' := scope.grow grows
  cases leads with
  | stays _ done => exact .inl ⟨within, done⟩
  | deepens _ deepens => exact .inl ⟨within.deepens scope' deepens, nofun⟩
  | @calls _ m' _ _ _ call returns =>
    obtain ⟨rest, below, lowest, lasting⟩ := within
    refine .inl ⟨⟨rest ++ [m', x.environment], by rw [returns, below, List.append_assoc]; rfl, ?_, ?_⟩, nofun⟩
    · rw [List.find?_append] at lowest
      rw [List.append_assoc, List.find?_append, ← lowest]
      congr 1
      simp [Store.not_isScope call, Store.isScope_iff.mpr scope']
    · intro r hr
      rcases List.mem_append.mp hr with old | new
      · exact lasting r old
      · rcases List.mem_pair.mp new with rfl | rfl
        · intro ending
          rw [call] at ending
          exact ofNat_ne_ending small (by simpa using ending)
        · exact scope'.lasting
  | exits _ returns leaves =>
    have leaves := leaves.grow grows
    obtain ⟨rest, below, lowest, lasting⟩ := within
    rw [returns] at below
    rcases List.eq_nil_or_concat' rest with rfl | ⟨rest, last, rfl⟩
    · have same := (List.append_inj' below rfl).2
      cases same
      rw [Store.isScope_iff.mpr leaves] at marker
      cases marker
    · rw [← List.cons_append, ← List.append_assoc] at below
      obtain ⟨bottom, same⟩ := List.append_inj' below rfl
      cases same
      refine .inl ⟨⟨rest, bottom, ?_, fun r hr => lasting r (List.mem_append_left _ hr)⟩, nofun⟩
      rw [List.append_assoc, List.find?_append] at lowest
      rw [List.find?_append, ← lowest]
      congr 1
      simp [Store.isScope_iff.mpr leaves]
  | @returns _ m' w es _ _ ret returns marks scopes environment _ goes ends =>
    have entered : (es ++ [x.environment]).find? s'.isScope = some y.environment :=
      (find?_scopes (fun e he => Store.isScope_iff.mpr ((scopes e he).grow grows)) (Store.isScope_iff.mpr scope')).trans environment
    obtain ⟨rest, below, lowest, lasting⟩ := within
    -- the marker that is taken is that of the call, or it is above it
    have popped (top : m' = m) (above : es = rest) (bottom : y.returns = R) : Leads.Returned i s R m E o x y := by
      subst top above
      refine ⟨ret, bottom, Option.some.inj (entered.symm.trans lowest), fun w' hw lasts => ?_, es, below, scopes⟩
      rw [marks] at hw
      cases hw
      exact goes lasts
    rcases List.append_eq_append_iff.mp (returns.symm.trans below) with ⟨l, same, split⟩ | ⟨l, same, split⟩
    · rcases l with _ | ⟨z, l⟩
      · cases split
        exact .inr (popped rfl rfl (by simpa using same.symm))
      · have inside : m ∈ es := (List.cons.inj split).2 ▸ List.mem_append_right _ List.mem_cons_self
        rw [Store.isScope_iff.mpr ((scopes m inside).grow grows)] at marker
        cases marker
    · rcases l with _ | ⟨z, l⟩
      · cases split
        exact .inr (popped rfl rfl (by simpa using same))
      · obtain ⟨rfl, rfl⟩ : m = z ∧ rest = l ++ m' :: es := List.cons.inj split
        refine .inl ⟨⟨l, same, ?_, fun r hr => lasting r (List.mem_append_left _ hr)⟩, fun finish => ?_⟩
        · rw [List.append_assoc, List.cons_append, List.find?_append, List.find?_cons, entered] at lowest
          rw [List.find?_append, ← lowest]
          congr 1
          have skipped := Store.not_isScope (grows.number marks)
          have last : s'.isScope y.environment = true := List.find?_some entered
          simp [skipped, last]
        · by_contra
          have ending : w = ReturnMarker.ending := by_contra fun lasts => nomatch finish.symm.trans (goes lasts).1
          exact lasting m' (by simp) (ending ▸ grows.number marks)

namespace Bearing

theorem Within.grow (within : x.Within s R m E) (grows : s.Grows s') (known : ∀ r ∈ x.returns, s.Known r)
    (scope : s.Known x.environment) : x.Within s' R m E := by
  obtain ⟨rest, returns, lowest, lasting⟩ := within
  have above (r : Ref) (hr : r ∈ rest) : s.Known r := known r (by rw [returns]; simp [hr])
  refine ⟨rest, returns, ?_, fun r hr => (lasting r hr).grow grows (above r hr)⟩
  rw [← lowest]
  refine List.find?_congr fun r hr => grows.isScope ?_
  rcases List.mem_append.mp hr with hr | hr
  · exact above r hr
  · exact List.mem_singleton.mp hr ▸ scope

/-- Only the objects matter. -/
theorem Within.objects (within : x.Within s R m E) (same : s'.objects = s.objects) : x.Within s' R m E := by
  unfold Within Store.isScope Store.Lasting at within ⊢
  rwa [same]

end Bearing

namespace Course

/-- The registered context is in a call that returns to `n`. -/
structure Calling (t : Course) (c : Ref) (R : List Ref) (m E : Ref) (n : Nat) : Prop where
  registered : c ∈ t.engine.store.contexts
  within : ∃ f : Fiber, t.engine.store.objects[c]? = some (.context f) ∧ f.bearing.Within t.engine.store R m E
  marker : t.engine.store.objects[m]? = some (.number .callRef (UInt64.ofNat n))

/-- The context has returned from the call. -/
structure Back (t : Course) (c : Ref) (R : List Ref) (E : Ref) (n : Nat) : Prop where
  registers : ∃ f : Fiber, t.engine.store.objects[c]? = some (.context f) ∧ f.returns = R ∧ f.environment = E ∧ f.pc = n
  registered : c ∈ t.engine.store.contexts

/-- Nothing but environments is above the return marker of the call. -/
def Topmost (t : Course) (c : Ref) (R : List Ref) (m : Ref) : Prop :=
  ∃ f rest, t.engine.store.objects[c]? = some (.context f) ∧ f.returns = R ++ m :: rest ∧ ∀ r ∈ rest, t.engine.store.IsTag r .environment

namespace Executed

/-- A context in a call stays in it, or it ends, or it returns. -/
theorem calling_own (executed : Executed depth t c f i o events e t') (typed : t.engine.store.Typed) (fits : t.code.size < hostLimit)
    (small : n < hostLimit) (calling : t.Calling c R m E n) :
    t'.Calling c R m E n ∨ i = .done ∨ i = .ret ∧ t.Topmost c R m ∧ t'.Back c R E n := by
  obtain ⟨registered, ⟨f', hf, within⟩, marker⟩ := calling
  cases Option.some.inj (hf.symm.trans executed.fiber)
  obtain ⟨env, _, known⟩ := typed.good c _ hf
  have calm := executed.calm.grows
  have grows := executed.turned.grows
  have inside := (Array.getElem?_eq_some_iff.mp executed.instruction).1
  have marker' : e.store.objects[m]? = some (.number .callRef (UInt64.ofNat n)) := (calm.trans grows).number marker
  have lasting : e.store.Lasting m := fun ending => by
    rw [marker'] at ending
    exact ofNat_ne_ending small (by simpa using ending)
  have within := within.grow (calm.trans grows) known env.known
  obtain ⟨g, hg, leads⟩ := executed.own
  rcases leads.within grows (env.grow calm) (by omega) (Store.not_isScope marker') lasting within with ⟨stays, done⟩ | back
  · by_cases last : i = .done
    · exact .inr (.inl last)
    · exact .inl ⟨executed.stays registered fun _ finish => last (done finish), ⟨g, hg, stays.objects executed.objects⟩,
        executed.grows.number marker⟩
  · obtain ⟨rest, returns, scopes⟩ := back.scopes
    obtain ⟨proceed, pc⟩ := back.goes _ (calm.number marker) (ofNat_ne_ending small)
    refine .inr (.inr ⟨back.ret, ⟨f, rest, hf, returns, fun r hr => ?_⟩, ⟨g, hg, back.returns, back.environment, pc.trans ?_⟩,
      executed.stays registered fun _ finish => nomatch proceed.symm.trans finish⟩)
    · exact (scopes r hr).unset nofun
    · have fits := small.trans (by decide : hostLimit < UInt64.size)
      rw [UInt64.toNat_ofNat_of_lt' fits]
      exact Nat.mod_eq_of_lt fits

/-- A call of a function begins. -/
theorem calls {k : Nat} {rest arguments : List Ref} {callee : Ref} (executed : Executed depth t c f (.call k) o events e t')
    (typed : t.engine.store.Typed) (operands : t.engine.store.Operands c (rest ++ callee :: arguments))
    (length : arguments.length = k) (func : t.engine.store.IsTag callee .func) : ∃ m, t'.Calling c f.returns m f.environment (f.pc + 1) ∧
      ∃ g : Fiber, t'.engine.store.objects[c]? = some (.context g) ∧ g.returns = f.returns ++ [m, f.environment] := by
  have active : Engine.Active (t.fetchedEngine c f).store c := ⟨executed.calm.typed, executed.running.keep executed.calm⟩
  have fetched := Store.context_set executed.fiber { f with pc := wrap (f.pc + 1) }
  obtain ⟨f', hf', same⟩ := operands
  cases Option.some.inj (hf'.symm.trans executed.fiber)
  obtain ⟨g, m, hg, hm, returns⟩ :=
    (Engine.execute_entered active ⟨_, fetched, same⟩ length (func.grow executed.calm.grows)).ok executed.run _ fetched
  obtain ⟨env, _, _⟩ := typed.good c _ executed.fiber
  have inside := (Array.getElem?_eq_some_iff.mp executed.instruction).1
  have hg' := (executed.object c).trans hg
  have scope := Store.isScope_iff.mpr (env.grow executed.grows)
  have registered := executed.stays executed.running.registered fun _ finish => by rcases executed.ends finish with no | no <;> cases no
  refine ⟨m, ⟨registered, ⟨g, hg', [f.environment], returns, ?_, ?_⟩, (executed.object m).trans hm⟩, g, hg', returns⟩
  · rw [List.find?_append, List.find?_singleton, if_pos scope]
    rfl
  · intro r hr
    exact List.mem_singleton.mp hr ▸ (env.grow executed.grows).lasting

/-- A context in a call stays in it when another executes an instruction. -/
theorem calling_other {d : Ref} (executed : Executed depth t d f i o events e t') (typed : t.engine.store.Typed) (ne : c ≠ d)
    (calling : t.Calling c R m E n) : t'.Calling c R m E n := by
  obtain ⟨registered, ⟨f', hf, within⟩, marker⟩ := calling
  obtain ⟨env, _, known⟩ := typed.good c _ hf
  obtain ⟨g, hg, deepens⟩ := executed.others ne hf
  refine ⟨executed.stays registered fun same => absurd same ne, ⟨g, hg, ?_⟩, executed.grows.number marker⟩
  exact (within.grow executed.grows known env.known).deepens (env.grow executed.grows) deepens

end Executed

end Course

end FiberMachine.Ideal
