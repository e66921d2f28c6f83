import FiberMachine.Proofs.Ideal.Store
import FiberMachine.Proofs.Refinement.Contexts
import FiberMachine.Proofs.Refinement.Slices
import FiberMachine.Proofs.Refinement.Waiting

/-!
# Displaying values

What the heap displays is what the store displays, as far as that is known, to the same depth.
-/

namespace FiberMachine

open Ideal

variable {w : World} {s : Store} {h : Heap} {r : Ref} {a n : Nat} {xs : List Ref} {as : List Nat}

/-- The text is as expected, if anything is. -/
def Shown (expected : Option String) (text : String) : Prop := ∀ t, expected = some t → text = t

theorem Shown.known {text : String} : Shown (some text) text := fun _ e => Option.some.inj e

theorem Shown.unknown {text : String} : Shown none text := fun _ e => nomatch e

/-- If all texts are known, they are as expected. -/
theorem Shown.all {expected : List (Option String)} {parts : List String} (all : List.Forall₂ Shown expected parts)
    {known : List String} (run : expected.mapM id = some known) : parts = known := by
  induction all generalizing known with
  | nil =>
    cases run
    rfl
  | @cons x p xs ps shown _ ih =>
    rw [List.mapM_cons] at run
    obtain ⟨t, seen, run⟩ := Option.bind_eq_some_iff.mp run
    obtain ⟨rest, seen', run⟩ := Option.bind_eq_some_iff.mp run
    cases run
    rw [shown t seen, ih seen']

theorem Shown.map {expected : List (Option String)} {parts : List String} (all : List.Forall₂ Shown expected parts)
    (f : List String → String) : Shown ((expected.mapM id).map f) (f parts) := by
  intro t e
  obtain ⟨known, run, rfl⟩ := Option.map_eq_some_iff.mp e
  rw [Shown.all all run]

theorem Shown.append {before text : Option String} {before' text' : String} (shown : Shown before before')
    (shown' : Shown text text') : Shown (before.bind fun before => text.map fun text => before ++ text) (before' ++ text') := by
  intro t e
  obtain ⟨x, rfl, e⟩ := Option.bind_eq_some_iff.mp e
  obtain ⟨y, rfl, rfl⟩ := Option.map_eq_some_iff.mp e
  rw [shown x rfl, shown' y rfl]

theorem Reads.mapM {α β : Type} {f : Nat → HeapReader α} {g : Ref → StoreM β} {Q : β → α → Prop}
    (homes : List.Forall₂ w.home xs as) (each : ∀ r a, w.home r a → Reads s h (f a) (g r) Q) :
    Reads s h (as.mapM f) (xs.mapM g) (List.Forall₂ Q) := by
  induction homes with
  | nil => exact .pure .nil
  | cons hx _ ih =>
    rw [List.mapM_cons, List.mapM_cons]
    exact (each _ _ hx).bind fun _ _ q => ih.bind fun _ _ qs => .pure (.cons q qs)

theorem Reads.counter (rep : Rep w s h) (ha : w.home r a) :
    Reads s h (WaitGroup.counter a) (Ideal.group r) fun x y => x.1.toInt64 = y := by
  refine .seen rep ha fun o x _ hx has => ?_
  cases o with
  | waitGroup counter waiters =>
    cases hx
    exact ⟨_, rep.counterAt has, rfl⟩
  | _ => cases hx

theorem Reads.textOf (rep : Rep w s h) (ha : w.home r a) :
    Reads s h (Text.toString a) (Ideal.bytes r) fun bs t => Utf8.decodeLossy bs = t := by
  have read := (Reads.bytes rep ha).bind (k := fun bs => Pure.pure (Utf8.decodeLossy bs)) (l := Pure.pure)
    (R := fun bs t => Utf8.decodeLossy bs = t) fun _ _ e => .pure (congrArg _ e)
  exact read.congr rfl (by rw [bind_pure])

theorem Reads.displayWithin (rep : Rep w s h) (ha : w.home r a) :
    Reads s h (Value.displayWithin n a) (Ideal.displayWithin n r) Shown := by
  induction n generalizing r a with
  | zero => exact .fault
  | succ n ih =>
    refine (Reads.tag rep ha).bind ?_
    rintro t _ rfl
    have all {xs : List Ref} {as : List Nat} (homes : List.Forall₂ w.home xs as) :
        Reads s h (do return Value.bracketed (← as.mapM (Value.displayWithin n)))
          (do return Ideal.bracketed (← xs.mapM (Ideal.displayWithin n))) Shown :=
      (Reads.mapM homes fun _ _ ha => ih ha).bind fun _ _ known => .pure (.map known _)
    cases t
    case unassigned => exact .pure .known
    case int =>
      refine (Reads.int rep ha).bind ?_
      rintro x _ rfl
      exact .pure .known
    case float =>
      refine (Reads.float rep ha).bind ?_
      rintro x _ rfl
      exact .pure .known
    case bool =>
      refine (Reads.bool rep ha).bind ?_
      rintro x _ rfl
      exact .pure .known
    case string =>
      have read := (Reads.textOf rep ha).bind (k := Pure.pure) (l := fun bs => Pure.pure (some (Utf8.decodeLossy bs)))
        (R := Shown) fun bs t e => .pure (e ▸ .known)
      exact read.congr (by rw [bind_pure]) rfl
    case array => exact (Reads.items rep ha).bind fun _ _ homes => all homes
    case slice => exact (Reads.elements rep ha).bind fun _ _ homes => all homes
    case func =>
      refine (Reads.entry rep ha).bind ?_
      rintro x _ rfl
      exact .pure .known
    case method =>
      refine (Reads.methodName rep ha).bind fun x b hb => (Reads.textOf rep hb).bind ?_
      rintro bs _ rfl
      exact .pure .known
    case waitGroup =>
      refine (Reads.counter rep ha).bind ?_
      rintro x _ rfl
      exact .pure .known
    case channel => exact .pure .unknown
    all_goals exact .pure .unknown

theorem Reads.display (rep : Rep w s h) (ha : w.home r a) :
    Reads s h (Value.display a) (Ideal.displayWithin (w.capacity + 1) r) Shown := by
  refine (Reads.displayWithin (n := w.capacity + 1) rep ha).congr ?_ rfl
  rw [← rep.capacity]
  rfl

end FiberMachine
