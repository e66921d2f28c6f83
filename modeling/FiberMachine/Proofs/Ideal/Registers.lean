import FiberMachine.Proofs.Ideal.Calm

/-!
# Registers

The actions on closures, bound methods, return markers and the registers of a context are calm, as long as the
program counter of a blocked context is left alone.
-/

namespace FiberMachine.Ideal

variable {F : Prop} {s s' : Store} {r v c q env : Ref} {f : Fiber} {xs : List Ref}

/-! ### Closures, methods and markers -/

namespace Observes

theorem code (typed : s.Typed) (k : s.IsTag r .func) :
    Observes F (code r) s fun d => s.objects[r]? = some (.func d) ∧ s.IsTag d.environment .environment := by
  obtain ⟨d, ho⟩ := typed.canonical k
  have seen : Observes F (Ideal.code r) s fun e => e = d := look ho rfl
  exact seen.weaken fun _ same => same ▸ ⟨ho, typed.good r _ ho⟩

theorem methodOf (typed : s.Typed) (k : s.IsTag r .method) :
    Observes F (methodOf r) s fun m => s.Known m.1 ∧ s.IsTag m.2 .string := by
  obtain ⟨receiver, name, ho⟩ := typed.canonical k
  have seen : Observes F (Ideal.methodOf r) s fun m => m = (receiver, name) := look ho rfl
  exact seen.weaken fun _ same => same ▸ typed.good r _ ho

theorem target (typed : s.Typed) (k : s.IsTag r .callRef) : Observes F (target r) s fun _ => True := by
  obtain ⟨w, ho⟩ := typed.canonical k
  exact (word ho).bind fun _ _ => pure trivial

theorem fiber (ho : s.objects[c]? = some (.context f)) : Observes F (fiber c) s fun g => g = f := look ho rfl

theorem duct {d : Duct} (ho : s.objects[c]? = some (.channel d)) : Observes F (duct c) s fun d' => d' = d := look ho rfl

theorem request {r : Request} (ho : s.IsRequest q r) : Observes F (request q) s fun r' => r' = r := look ho rfl

end Observes

namespace Quiet

theorem newCode (typed : s.Typed) (entry arity : Nat) (k : s.IsTag env .environment) (declaration : Nat) :
    Quiet F (newCode entry arity env declaration) s fun r s' => s'.IsTag r .func :=
  make (o := .func ⟨wrap entry, wrap arity, env, wrap declaration⟩) typed k rfl

theorem newMethod (typed : s.Typed) (known : s.Known r) (name : String) :
    Quiet F (newMethod r name) s fun m s' => s'.IsTag m .method := by
  refine bind (P := fun m s' => s'.IsTag m .string) ?_ fun m s₁ calm hm => ?_
  · exact withRoots (fun typed => newText typed _) typed fun _ _ k => k
  · exact make (o := .method r m) calm.typed ⟨known.grow calm.grows, hm⟩ rfl

theorem newMarker (typed : s.Typed) (pc : Option Nat) : Quiet F (newMarker pc) s fun r s' => s'.Known r :=
  (make (o := .number .callRef _) typed (by simp [Obj.Good]) rfl).weaken fun _ _ _ k => k.known

end Quiet

/-! ### Contexts -/

/-- The operands of a context, the bottom one first. -/
def Store.Operands (s : Store) (c : Ref) (xs : List Ref) : Prop :=
  ∃ f, s.objects[c]? = some (.context f) ∧ f.operands = xs

theorem Store.Operands.unique {ys : List Ref} (k : s.Operands c xs) (l : s.Operands c ys) : xs = ys := by
  obtain ⟨f, ho, rfl⟩ := k
  obtain ⟨g, ho', rfl⟩ := l
  rw [ho] at ho'
  cases ho'
  rfl

/-- No other object has changed. -/
def Store.OnlyAt (s : Store) (c : Ref) (s' : Store) : Prop := ∀ q, q ≠ c → s'.objects[q]? = s.objects[q]?

/-- The context is not blocked. -/
def Store.Idle (s : Store) (c : Ref) : Prop := (s.wiring c).blockedAt = none

theorem Store.Idle.keep (idle : s.Idle c) (calm : Calm s s') : s'.Idle c := by
  rw [Store.Idle, calm.wiring]
  exact idle

theorem Store.Idle.not_blocked (idle : s.Idle c) (ho : s.objects[c]? = some (.context f)) : f.blocked = false := by
  rw [Store.Idle, Store.wiring_of ho] at idle
  by_contra blocked
  rw [Bool.not_eq_false] at blocked
  simp [Obj.wiring, blocked] at idle

/-- The context whose turn it is: registered, and not blocked. -/
structure Store.Running (s : Store) (c : Ref) : Prop where
  registered : c ∈ s.contexts
  idle : s.Idle c

theorem Store.Running.keep (running : s.Running c) (calm : Calm s s') : s'.Running c :=
  ⟨calm.contexts ▸ running.registered, running.idle.keep calm⟩

theorem Store.Typed.fiber (typed : s.Typed) (k : s.IsTag c .context) : ∃ f, s.objects[c]? = some (.context f) ∧
    s.IsTag f.environment .environment ∧ (∀ x ∈ f.operands, s.Known x) ∧ ∀ x ∈ f.returns, s.Known x := by
  obtain ⟨f, ho⟩ := typed.canonical k
  exact ⟨f, ho, typed.good c _ ho⟩

namespace Quiet

/-- New registers, which leave the communication state as it is. -/
theorem rewriteFiber {g : Fiber} (typed : s.Typed) (ho : s.objects[c]? = some (.context f)) (id : g.id = f.id)
    (good : (Obj.context g).Good s) (wiring : (Obj.context g).wiring = (Obj.context f).wiring) :
    Quiet F (Ideal.replace c (.context g)) s fun _ s' => s' = s.set c (.context g) :=
  replace typed ho (by simp only [Obj.frozen, id]) good wiring fun _ no => nomatch no

theorem update {g : Fiber → Fiber} (typed : s.Typed) (ho : s.objects[c]? = some (.context f)) (id : (g f).id = f.id)
    (good : (Obj.context (g f)).Good s) (wiring : (Obj.context (g f)).wiring = (Obj.context f).wiring) :
    Quiet F (update c g) s fun _ s' => s' = s.set c (.context (g f)) := by
  refine (Observes.fiber ho).bind ?_
  rintro _ rfl
  exact rewriteFiber typed ho id good wiring

theorem setPc (typed : s.Typed) (running : s.Running c) (pc : Nat) : Quiet F (setPc c pc) s fun _ _ => True := by
  obtain ⟨f, ho, env, operands, returns⟩ := typed.fiber (typed.contexts c running.registered)
  refine (update typed ho rfl ⟨env, operands, returns⟩ ?_).weaken fun _ _ _ _ => trivial
  simp only [Obj.wiring, running.idle.not_blocked ho]
  rfl

theorem setEnvironment (typed : s.Typed) (k : s.IsTag c .context) (env_ok : s.IsTag env .environment) :
    Quiet F (setEnvironment c env) s fun _ _ => True := by
  obtain ⟨f, ho, _, operands, returns⟩ := typed.fiber k
  exact (update typed ho rfl ⟨env_ok, operands, returns⟩ rfl).weaken fun _ _ _ _ => trivial

theorem expectRegistered {R : Unit → Store → Prop} (registered : c ∈ s.contexts) (next : R () s) :
    Safe (Admits F) (expectRegistered c) s R := by
  unfold Safe Ideal.expectRegistered
  rw [if_pos registered]
  exact next

/-- An operand is pushed. -/
theorem pushOperand (typed : s.Typed) (registered : c ∈ s.contexts) (known : s.Known v) :
    Quiet F (pushOperand c v) s fun _ _ => True := by
  refine Safe.bind (Q := fun _ s' => s' = s) (expectRegistered registered rfl) ?_
  rintro _ _ rfl
  obtain ⟨f, ho, env, operands, returns⟩ := typed.fiber (typed.contexts c registered)
  refine (update typed ho rfl ⟨env, fun x hx => ?_, returns⟩ rfl).weaken fun _ _ _ _ => trivial
  rcases List.mem_append.mp hx with old | new
  · exact operands x old
  · exact List.mem_singleton.mp new ▸ known

/-- It is the top operand then. -/
theorem pushOperand_top : Safe Any (Ideal.pushOperand c v) s fun _ s' => ∃ xs, s'.Operands c (xs ++ [v]) := by
  refine Safe.bind (Q := fun _ _ => True) ?_ fun _ s' _ => ?_
  · unfold Safe Ideal.expectRegistered
    split <;> trivial
  refine Safe.look_bind (fun f hf => ?_) fun _ => trivial
  obtain ⟨o, ho, view⟩ := Option.bind_eq_some_iff.mp hf
  exact ⟨f.operands, _, List.getElem?_set_self (Store.known_iff.mp ⟨o, ho⟩), rfl⟩

theorem pushReturn (typed : s.Typed) (registered : c ∈ s.contexts) (known : s.Known v) :
    Quiet F (pushReturn c v) s fun _ _ => True := by
  refine Safe.bind (Q := fun _ s' => s' = s) (expectRegistered registered rfl) ?_
  rintro _ _ rfl
  obtain ⟨f, ho, env, operands, returns⟩ := typed.fiber (typed.contexts c registered)
  refine (update typed ho rfl ⟨env, operands, fun x hx => ?_⟩ rfl).weaken fun _ _ _ _ => trivial
  rcases List.mem_append.mp hx with old | new
  · exact returns x old
  · exact List.mem_singleton.mp new ▸ known

/-- The top operand is popped. -/
theorem popOperand (typed : s.Typed) (k : s.IsTag c .context) : Quiet F (popOperand c) s fun v s' =>
    s'.Known v ∧ (∃ rest, s.Operands c (rest ++ [v]) ∧ s'.Operands c rest) ∧ s.OnlyAt c s' := by
  obtain ⟨f, ho, env, operands, returns⟩ := typed.fiber k
  refine (Observes.fiber ho).bind ?_
  rintro _ rfl
  split
  · exact reject (by simp)
  next value last =>
    obtain ⟨rest, split⟩ := List.getLast?_eq_some_iff.mp last
    refine bind (rewriteFiber typed ho rfl ⟨env, fun x hx => ?_, returns⟩ rfl) ?_
    · exact operands x (List.dropLast_subset _ hx)
    · rintro _ _ calm rfl
      have known := (operands value (by simp [split])).grow calm.grows
      refine pure calm.typed ⟨known, ⟨rest, ⟨_, ho, split⟩, _, List.getElem?_set_self (Store.known_iff.mp ⟨_, ho⟩), ?_⟩, ?_⟩
      · exact split ▸ List.dropLast_concat
      · exact fun q ne => List.getElem?_set_ne (Ne.symm ne)

theorem popReturn (typed : s.Typed) (k : s.IsTag c .context) : Quiet F (popReturn c) s fun v s' => s'.Known v := by
  obtain ⟨f, ho, env, operands, returns⟩ := typed.fiber k
  refine (Observes.fiber ho).bind ?_
  rintro _ rfl
  split
  · exact reject (by simp)
  next value last =>
    refine bind (rewriteFiber typed ho rfl ⟨env, operands, fun x hx => ?_⟩ rfl) fun _ s₁ calm _ => ?_
    · exact returns x (List.dropLast_subset _ hx)
    · exact pure calm.typed ((returns value (List.mem_of_getLast? last)).grow calm.grows)

/-- The old environment is saved, and another takes its place. -/
theorem enterEnvironment (typed : s.Typed) (registered : c ∈ s.contexts) (env_ok : s.IsTag env .environment) :
    Quiet F (enterEnvironment c env) s fun _ _ => True := by
  obtain ⟨f, ho, env, _⟩ := typed.fiber (typed.contexts c registered)
  refine (Observes.fiber ho).bind ?_
  rintro _ rfl
  refine bind (P := fun _ _ => True) ?_ fun _ s₁ calm _ => ?_
  · exact withRoots (fun typed => pushReturn typed registered env.known) typed fun _ _ _ => trivial
  · exact setEnvironment calm.typed ((typed.contexts c registered).grow calm.grows) (env_ok.grow calm.grows)

theorem newContext (typed : s.Typed) (pc : Nat) (env_ok : s.IsTag env .environment) (id : Nat) :
    Quiet F (newContext pc env id) s fun c s' => s'.HasId c (wrap id) ∧ c = s.objects.length :=
  (add (o := .context ⟨wrap pc, [], [], env, false, [], wrap id⟩) typed
    ⟨env_ok, fun _ no => absurd no List.not_mem_nil, fun _ no => absurd no List.not_mem_nil⟩ rfl).weaken
    fun _ _ _ ⟨ho, same, _⟩ => ⟨⟨_, ho, rfl⟩, same⟩

end Quiet

namespace Observes

theorem peekOperand (typed : s.Typed) (k : s.IsTag c .context) : Observes F (peekOperand c) s fun v => s.Known v := by
  obtain ⟨f, ho, _, operands, _⟩ := typed.fiber k
  refine (fiber ho).bind ?_
  rintro _ rfl
  split
  · exact reject (by simp)
  next value last => exact pure (operands value (List.mem_of_getLast? last))

end Observes

end FiberMachine.Ideal
