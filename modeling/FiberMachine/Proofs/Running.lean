import FiberMachine.Heap.Basic

/-!
# Running actions

What an observation or an action answers, one constructor of the monads at a time. Every later proof
that follows a program through the heap rewrites with these equations and with the equation of each
action it meets.
-/

namespace FiberMachine

variable {α β : Type}

theorem run_bind {ε σ : Type} (m : EStateM ε σ α) (k : α → EStateM ε σ β) (c : σ) :
    (m >>= k) c = match m c with
      | .ok a c' => k a c'
      | .error e c' => .error e c' := by
  change EStateM.bind _ _ _ = _
  unfold EStateM.bind
  cases m c <;> rfl

theorem run_pure {ε σ : Type} (a : α) (c : σ) : (pure a : EStateM ε σ α) c = .ok a c := rfl

theorem run_throw {ε σ : Type} (e : ε) (c : σ) : (throw e : EStateM ε σ α) c = .error e c := rfl

theorem run_get {ε σ : Type} (c : σ) : (get : EStateM ε σ σ) c = .ok c c := rfl

theorem run_modify {ε σ : Type} (f : σ → σ) (c : σ) : (modify f : EStateM ε σ PUnit) c = .ok ⟨⟩ (f c) := rfl

theorem run_ite {ε σ : Type} (p : Prop) [Decidable p] (m n : EStateM ε σ α) (c : σ) :
    (if p then m else n) c = if p then m c else n c := by split <;> rfl

/-- The action succeeded, with an answer and a state that pass a test. -/
def Passes {ε σ : Type} (test : α → σ → Bool) : EStateM.Result ε σ α → Bool
  | .ok a c => test a c
  | .error _ _ => false

theorem passes_iff {ε σ : Type} {test : α → σ → Bool} {r : EStateM.Result ε σ α} :
    Passes test r = true ↔ ∃ a c, r = .ok a c ∧ test a c = true := by
  cases r with
  | ok a c =>
    refine ⟨fun passed => ⟨a, c, rfl, passed⟩, ?_⟩
    rintro ⟨_, _, same, passed⟩
    cases same
    exact passed
  | error e c =>
    refine ⟨fun no => absurd no Bool.false_ne_true, ?_⟩
    rintro ⟨_, _, same, _⟩
    cases same

/-- The action found no memory, and left a heap that passes a test. -/
def Starves {α : Type} (test : Heap → Bool) : EStateM.Result HeapFailure Heap α → Bool
  | .error (.error (.outOfMemory _)) h => test h
  | _ => false

theorem starves_iff {α : Type} {test : Heap → Bool} {r : EStateM.Result HeapFailure Heap α} :
    Starves test r = true ↔ ∃ n h, r = .error (.error (.outOfMemory n)) h ∧ test h = true := by
  unfold Starves
  split
  next n h => exact ⟨fun passed => ⟨n, h, rfl, passed⟩, fun ⟨_, _, same, passed⟩ => by cases same; exact passed⟩
  next other => exact ⟨fun no => absurd no Bool.false_ne_true, fun ⟨n, h, same, _⟩ => absurd same (other n h)⟩

theorem toOption_eq {α ε : Type} {r : Except ε α} {b : α} (same : r.toOption = some b) : r = .ok b := by
  cases r with
  | ok => exact congrArg _ (Option.some.inj same)
  | error => cases same

namespace HeapReader

theorem run_bind (r : HeapReader α) (k : α → HeapReader β) (h : Heap) :
    (r >>= k) h = match r h with
      | .ok a => k a h
      | .error e => .error e := by
  change Except.bind _ _ = _
  cases r h <;> rfl

theorem run_pure (a : α) (h : Heap) : (pure a : HeapReader α) h = .ok a := rfl

theorem run_map (f : α → β) (r : HeapReader α) (h : Heap) :
    (f <$> r) h = match r h with
      | .ok a => .ok (f a)
      | .error e => .error e := by
  change Except.map _ _ = _
  cases r h <;> rfl

theorem run_throw (e : HeapFailure) (h : Heap) : (throw e : HeapReader α) h = .error e := rfl

theorem run_reject (cause : HeapError) (h : Heap) :
    (Heap.reject cause : HeapReader α) h = .error (.error cause) := rfl

theorem run_itself (h : Heap) : Heap.itself h = .ok h := rfl

theorem run_ite (c : Prop) [Decidable c] (r s : HeapReader α) (h : Heap) :
    (if c then r else s) h = if c then r h else s h := by split <;> rfl

end HeapReader

namespace HeapM

theorem run_bind (m : HeapM α) (k : α → HeapM β) (h : Heap) :
    (m >>= k) h = match m h with
      | .ok a h' => k a h'
      | .error e h' => .error e h' :=
  (FiberMachine.run_bind m k h).trans (by cases m h <;> rfl)

/-- Both actions succeed if one after the other does. -/
theorem bind_ok {m : HeapM α} {k : α → HeapM β} {h h' : Heap} {b : β} (run : (m >>= k) h = .ok b h') :
    ∃ a h₁, m h = .ok a h₁ ∧ k a h₁ = .ok b h' := by
  rw [run_bind] at run
  cases first : m h with
  | ok a h₁ =>
    rw [first] at run
    exact ⟨a, h₁, rfl, run⟩
  | error e h₁ =>
    rw [first] at run
    cases run

theorem run_pure (a : α) (h : Heap) : (pure a : HeapM α) h = .ok a h := rfl

theorem run_map (f : α → β) (m : HeapM α) (h : Heap) :
    (f <$> m) h = match m h with
      | .ok a h' => .ok (f a) h'
      | .error e h' => .error e h' := by
  change EStateM.map _ _ _ = _
  unfold EStateM.map
  cases m h <;> rfl

theorem run_throw (e : HeapFailure) (h : Heap) : (throw e : HeapM α) h = .error e h := rfl

theorem run_lift (r : HeapReader α) (h : Heap) :
    (liftM r : HeapM α) h = match r h with
      | .ok a => .ok a h
      | .error e => .error e h := rfl

/-- To look at the heap leaves it alone. -/
theorem lift_ok {r : HeapReader α} {h h' : Heap} {a : α} (run : (liftM r : HeapM α) h = .ok a h') : r h = .ok a ∧ h = h' := by
  rw [run_lift] at run
  split at run <;> cases run
  exact ⟨‹_›, rfl⟩

theorem lift_error {r : HeapReader α} {h h' : Heap} {e : HeapFailure} (run : (liftM r : HeapM α) h = .error e h') :
    r h = .error e ∧ h = h' := by
  rw [run_lift] at run
  split at run <;> cases run
  exact ⟨‹_›, rfl⟩

theorem run_get (h : Heap) : (get : HeapM Heap) h = .ok h h := rfl

theorem run_modify (f : Heap → Heap) (h : Heap) : (modify f : HeapM PUnit) h = .ok ⟨⟩ (f h) := rfl

theorem run_ite (c : Prop) [Decidable c] (m n : HeapM α) (h : Heap) :
    (if c then m else n) h = if c then m h else n h := by split <;> rfl

end HeapM

end FiberMachine
