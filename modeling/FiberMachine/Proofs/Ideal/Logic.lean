import Mathlib.Data.List.Forall2
import FiberMachine.Proofs.Ideal.Store
import FiberMachine.Proofs.Running

/-!
# What ideal actions do

An action is safe for a postcondition if it ends in a state with that postcondition, or fails in one of the
admitted ways. Admitting every failure gives what an action does whenever it succeeds; admitting all but going wild
is how the ideal machine is shown to describe the heap.
-/

namespace FiberMachine.Ideal

section

variable {τ α β : Type}

/-- The action succeeds with the postcondition `Q`, or fails in a way that `A` admits. -/
def Safe (A : Lapse → Prop) (n : EStateM Lapse τ α) (t : τ) (Q : α → τ → Prop) : Prop :=
  match n t with
  | .ok a t' => Q a t'
  | .error l _ => A l

/-- Every failure is admitted. -/
def Any (_ : Lapse) : Prop := True

namespace Safe

variable {A : Lapse → Prop} {n : EStateM Lapse τ α} {t : τ} {Q R : α → τ → Prop}

theorem pure {a : α} (q : Q a t) : Safe A (pure a) t Q := q

theorem throw {l : Lapse} (admitted : A l) : Safe A (throw l : EStateM Lapse τ α) t Q := admitted

theorem of_ok {a : α} {t' : τ} (run : n t = .ok a t') (q : Q a t') : Safe A n t Q := by
  unfold Safe
  rwa [run]

theorem ok {a : α} {t' : τ} (f : Safe A n t Q) (run : n t = .ok a t') : Q a t' := by
  unfold Safe at f
  rwa [run] at f

theorem error {l : Lapse} {t' : τ} (f : Safe A n t Q) (run : n t = .error l t') : A l := by
  unfold Safe at f
  rwa [run] at f

theorem weaken (f : Safe A n t Q) (more : ∀ a t', Q a t' → R a t') : Safe A n t R := by
  unfold Safe at f ⊢
  split at f
  next eq => simpa only [eq] using more _ _ f
  next eq => simpa only [eq] using f

theorem relax {B : Lapse → Prop} (f : Safe A n t Q) (more : ∀ l, A l → B l) : Safe B n t Q := by
  unfold Safe at f ⊢
  split at f
  next eq => simpa only [eq] using f
  next eq => simpa only [eq] using more _ f

theorem both (f : Safe A n t Q) (g : Safe Any n t R) : Safe A n t fun a t' => Q a t' ∧ R a t' := by
  unfold Safe at f g ⊢
  cases run : n t with
  | ok a t' =>
    rw [run] at f g
    exact ⟨f, g⟩
  | error l t' =>
    rw [run] at f
    exact f

theorem bind {k : α → EStateM Lapse τ β} {S : β → τ → Prop} (f : Safe A n t Q) (next : ∀ a t', Q a t' → Safe A (k a) t' S) :
    Safe A (n >>= k) t S := by
  unfold Safe at f ⊢
  change match EStateM.bind n k t with | .ok a t' => S a t' | .error l _ => A l
  unfold EStateM.bind
  split at f
  next eq =>
    rw [eq]
    exact next _ _ f
  next eq =>
    rw [eq]
    exact f

/-- The first action does nothing but answer. -/
theorem skip {a : α} {k : α → EStateM Lapse τ β} {S : β → τ → Prop} (run : n t = .ok a t) (next : Safe A (k a) t S) :
    Safe A (n >>= k) t S :=
  bind (Q := fun b t' => b = a ∧ t' = t) (of_ok run ⟨rfl, rfl⟩) fun _ _ ⟨same, same'⟩ => same ▸ same' ▸ next

/-- What an action answers may not depend on what it does first. -/
theorem any_bind {k : α → EStateM Lapse τ β} {S : β → τ → Prop} (next : ∀ a t', Safe Any (k a) t' S) : Safe Any (n >>= k) t S := by
  refine bind (Q := fun _ _ => True) ?_ fun a t' _ => next a t'
  unfold Safe
  split <;> trivial

theorem congr {m : EStateM Lapse τ α} (f : Safe A m t Q) (same : n t = m t) : Safe A n t Q := by
  unfold Safe at f ⊢
  rwa [same]

theorem forM {f : β → EStateM Lapse τ Unit} {xs : List β} {I : List β → τ → Prop} (start : I xs t)
    (each : ∀ x rest t, I (x :: rest) t → Safe A (f x) t fun _ t' => I rest t') :
    Safe A (xs.forM f) t fun _ t' => I [] t' := by
  induction xs generalizing t with
  | nil => exact start
  | cons x rest ih => exact (each x rest t start).bind fun _ t' i => ih i

/-- What each of many things is found to be, when nothing is changed. -/
theorem mapM {f : β → EStateM Lapse τ α} {ys : List β} {P : β → α → Prop}
    (each : ∀ y ∈ ys, Safe A (f y) t fun a t' => t' = t ∧ P y a) : Safe A (ys.mapM f) t fun zs t' => t' = t ∧ List.Forall₂ P ys zs := by
  induction ys with
  | nil => exact ⟨rfl, .nil⟩
  | cons y rest ih =>
    rw [List.mapM_cons]
    refine (each y List.mem_cons_self).bind ?_
    rintro z _ ⟨rfl, hz⟩
    refine (ih fun y hy => each y (List.mem_cons_of_mem _ hy)).bind ?_
    rintro zs _ ⟨rfl, hzs⟩
    exact ⟨rfl, .cons hz hzs⟩

end Safe

end

variable {α β : Type} {A : Lapse → Prop} {s : Store} {r : Ref} {o : Obj} {Q : α → Store → Prop}

/-- Replacing an object by itself changes nothing. -/
theorem Store.set_same (ho : s.objects[r]? = some o) : s.set r o = s := by
  have same : s.objects.set r o = s.objects := by
    refine List.ext_getElem? fun x => ?_
    rw [List.getElem?_set]
    split
    next e =>
      subst e
      rw [ho, if_pos (List.getElem?_eq_some_iff.mp ho).1]
    next => rfl
  rw [Store.set, same]

namespace Safe

theorem look {view : Obj → Option α} (found : ∀ x, s.objects[r]?.bind view = some x → Q x s)
    (missing : s.objects[r]?.bind view = none → A .wild) : Safe A (look view r) s Q := by
  unfold Safe Ideal.look
  cases hx : s.objects[r]?.bind view with
  | some x => exact found x hx
  | none => exact missing hx

/-- What the object is decides how the action goes on. -/
theorem look_bind {view : Obj → Option β} {k : β → StoreM α}
    (found : ∀ x, s.objects[r]?.bind view = some x → Safe A (k x) s Q)
    (missing : s.objects[r]?.bind view = none → A .wild) : Safe A (Ideal.look view r >>= k) s Q :=
  (look (Q := fun x t => t = s ∧ s.objects[r]?.bind view = some x) (fun _ hx => ⟨rfl, hx⟩) missing).bind
    fun x _ ⟨same, hx⟩ => same ▸ found x hx

theorem replace {R : Unit → Store → Prop} (q : R () (s.set r o)) : Safe A (replace r o) s R := q

theorem add {R : Ref → Store → Prop} (q : R s.objects.length (s.push o)) : Safe A (add o) s R := q

theorem withRoots {n : StoreM α} {ρ : List Ref}
    (inner : Safe A n { s with temporaries := s.temporaries ++ ρ } fun a t =>
      Q a { t with temporaries := t.temporaries.take s.temporaries.length }) : Safe A (withRoots ρ n) s Q := by
  unfold Safe at inner ⊢
  unfold Ideal.withRoots
  split at inner
  next eq => simpa only [eq] using inner
  next eq => simpa only [eq] using inner

end Safe

end FiberMachine.Ideal
