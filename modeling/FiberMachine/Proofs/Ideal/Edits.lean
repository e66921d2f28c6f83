import FiberMachine.Proofs.Ideal.Steering
import FiberMachine.Proofs.Ideal.Typing

/-!
# Edits

Whatever an action does to the store, it does in small changes: it makes an object, replaces the items of a sequence, the registers of a
context, or the state of a channel. So a relation between stores that allows these changes holds of all actions that consist of
them. In particular an action leaves the contexts alone that it does not work for, and no wait group changes besides by its
methods.
-/

namespace FiberMachine.Ideal

/-- Not a wait group. -/
def Obj.Plain (o : Obj) : Prop := ∀ w l, o ≠ .waitGroup w l

/-- Wait groups, frames, closures and contexts: of these it matters which actions make them. -/
def Obj.isWatched : Obj → Bool
  | .waitGroup _ _ | .func _ | .context _ => true
  | .sequence t _ => t = .frame
  | _ => false

/-- A change of one object, or of the roots. Of the kinds that are watched only those in `K` are made, and of the contexts only those
in `P` change. -/
inductive Store.Edit (K : Tag → Prop) (P : Ref → Prop) (s : Store) : Store → Prop
  | roots {s' : Store} (objects : s'.objects = s.objects) : Edit K P s s'
  | make {o : Obj} (plain : o.Plain) (may : o.isWatched = true → K o.tag) : Edit K P s (s.push o)
  | group (may : K .waitGroup) : Edit K P s (s.push (.waitGroup 0 []))
  | items {r : Ref} {t : Tag} {xs ys : List Ref} (ho : s.objects[r]? = some (.sequence t xs))
      (same : (Obj.sequence t ys).frozen = (Obj.sequence t xs).frozen) : Edit K P s (s.set r (.sequence t ys))
  | registers {c : Ref} {f g : Fiber} (mine : P c) (ho : s.objects[c]? = some (.context f)) : Edit K P s (s.set c (.context g))
  | channel {d : Ref} {k k' : Duct} (ho : s.objects[d]? = some (.channel k)) : Edit K P s (s.set d (.channel k'))

/-- All kinds but wait groups. -/
abbrev ungrouped (t : Tag) : Prop := t ≠ .waitGroup

/-- One change after another. -/
inductive Store.Edits (K : Tag → Prop) (P : Ref → Prop) (s : Store) : Store → Prop
  | refl : Edits K P s s
  | step {s' s'' : Store} (before : Edits K P s s') (edit : s'.Edit K P s'') : Edits K P s s''

variable {τ α β : Type} {view : τ → Store} {K : Tag → Prop} {P Q : Ref → Prop} {s s' s'' : Store} {r c d x g q env v : Ref} {o : Obj} {f : Fiber}
  {w : Word} {l xs : List Ref} {i j n : Nat} {t t' : Tag} {u : Direction} {z z' : Int} {a? b? : Option Int} {b : Bool}

namespace Store.Edits

theorem single (edit : s.Edit K P s') : s.Edits K P s' := .step .refl edit

theorem trans (a : s.Edits K P s') (b : s'.Edits K P s'') : s.Edits K P s'' := by
  induction b with
  | refl => exact a
  | step _ edit ih => exact .step ih edit

theorem reroot (a : s.Edits K P s') (objects : s''.objects = s'.objects) : s.Edits K P s'' := a.trans (.single (.roots objects))

theorem mono (a : s.Edits K P s') (more : ∀ x, P x → Q x) : s.Edits K Q s' := by
  induction a with
  | refl => exact .refl
  | step _ edit ih =>
    refine .step ih ?_
    cases edit with
    | roots objects => exact .roots objects
    | make plain may => exact .make plain may
    | group may => exact .group may
    | items ho same => exact .items ho same
    | registers mine ho => exact .registers (more _ mine) ho
    | channel ho => exact .channel ho

/-- An object that no edit replaces. -/
theorem keeps (a : s.Edits K P s') (items : ∀ t xs, o ≠ .sequence t xs) (channel : ∀ k, o ≠ .channel k) (other : ∀ f, o = .context f → ¬P x)
    (ho : s.objects[x]? = some o) : s'.objects[x]? = some o := by
  induction a with
  | refl => exact ho
  | step _ edit ih =>
    cases edit with
    | roots objects => rwa [objects]
    | make | group => exact (List.getElem?_append_left (List.getElem?_eq_some_iff.mp ih).1).trans ih
    | items hr => exact (List.getElem?_set_ne fun e => items _ _ (Option.some.inj ((e ▸ ih).symm.trans hr))).trans ih
    | @registers c f _ mine hr =>
      have ne : c ≠ x := by
        rintro rfl
        exact other f (Option.some.inj (ih.symm.trans hr)) mine
      exact (List.getElem?_set_ne ne).trans ih
    | channel hr => exact (List.getElem?_set_ne fun e => channel _ (Option.some.inj ((e ▸ ih).symm.trans hr))).trans ih

/-- A context for which the action does not work. -/
theorem context (a : s.Edits K P s') (other : ¬P x) (ho : s.objects[x]? = some (.context f)) : s'.objects[x]? = some (.context f) :=
  a.keeps (by simp) (by simp) (fun _ _ => other) ho

theorem group (a : s.Edits K P s') (ho : s.objects[g]? = some (.waitGroup w l)) : s'.objects[g]? = some (.waitGroup w l) :=
  a.keeps (by simp) (by simp) (by simp) ho

theorem length (a : s.Edits K P s') : s.objects.length ≤ s'.objects.length := by
  induction a with
  | refl => exact Nat.le_refl _
  | step _ edit ih =>
    refine Nat.le_trans ih ?_
    cases edit with
    | roots objects => rw [objects]
    | make | group => simp [push]
    | _ => simp [set]

/-- Another wait group is new. -/
theorem group_origin (a : s.Edits K P s') (ho : s'.objects[g]? = some (.waitGroup w l)) :
    s.objects[g]? = some (.waitGroup w l) ∨ K .waitGroup ∧ s.objects.length ≤ g ∧ w = 0 ∧ l = [] := by
  induction a with
  | refl => exact .inl ho
  | @step s₁ s₂ before edit ih =>
    have replaced {r : Ref} {o o' : Obj} (hr : s₁.objects[r]? = some o) (ho : (s₁.set r o').objects[g]? = some (.waitGroup w l))
        (other : o' ≠ .waitGroup w l) : s₁.objects[g]? = some (.waitGroup w l) := by
      rw [Store.getElem?_set ⟨o, hr⟩] at ho
      split at ho
      · exact absurd (Option.some.inj ho) other
      · exact ho
    have pushed {o : Obj} (ho : (s₁.push o).objects[g]? = some (.waitGroup w l)) :
        s₁.objects[g]? = some (.waitGroup w l) ∨ s.objects.length ≤ g ∧ o = .waitGroup w l := by
      rcases Nat.lt_or_ge g s₁.objects.length with old | new
      · exact .inl ((List.getElem?_append_left old).symm.trans ho)
      · rw [push, List.getElem?_append_right new, List.getElem?_singleton] at ho
        split at ho
        · exact .inr ⟨Nat.le_trans (length before) new, Option.some.inj ho⟩
        · cases ho
    cases edit with
    | roots objects => exact ih (objects ▸ ho)
    | make plain => exact (pushed ho).elim ih fun no => absurd no.2 (plain w l)
    | group may =>
      rcases pushed ho with old | ⟨new, same⟩
      · exact ih old
      · cases same
        exact .inr ⟨may, new, rfl, rfl⟩
    | items hr => exact ih (replaced hr ho (by simp))
    | registers _ hr => exact ih (replaced hr ho (by simp))
    | channel hr => exact ih (replaced hr ho (by simp))

/-- What never changes of a sequence. -/
theorem sequence (a : s.Edits K P s') (ho : s.objects[x]? = some (.sequence t xs)) :
    ∃ ys, s'.objects[x]? = some (.sequence t ys) ∧ (Obj.sequence t ys).frozen = (Obj.sequence t xs).frozen := by
  induction a with
  | refl => exact ⟨xs, ho, rfl⟩
  | @step s₁ _ _ edit ih =>
    obtain ⟨ys, hx, same⟩ := ih
    have stays {r : Ref} {o o' : Obj} (hr : s₁.objects[r]? = some o) (other : ∀ t xs, o ≠ .sequence t xs) :
        (s₁.set r o').objects[x]? = some (.sequence t ys) := by
      rw [Store.getElem?_set ⟨o, hr⟩, if_neg, hx]
      rintro rfl
      exact other t ys (Option.some.inj (hr.symm.trans hx))
    cases edit with
    | roots objects => exact ⟨ys, objects ▸ hx, same⟩
    | make | group => exact ⟨ys, (List.getElem?_append_left (List.getElem?_eq_some_iff.mp hx).1).trans hx, same⟩
    | @items r _ _ zs hr kept =>
      by_cases here : x = r
      · subst here
        cases hr.symm.trans hx
        exact ⟨zs, by rw [Store.getElem?_set ⟨_, hr⟩, if_pos rfl], kept.trans same⟩
      · exact ⟨ys, by rw [Store.getElem?_set ⟨_, hr⟩, if_neg here, hx], same⟩
    | registers _ hr => exact ⟨ys, stays hr (by simp), same⟩
    | channel hr => exact ⟨ys, stays hr (by simp), same⟩

/-- A watched object is old, or of a kind that may be made. -/
theorem watched_origin (a : s.Edits K P s') (ho : s'.objects[x]? = some o) (watched : o.isWatched = true) :
    (∃ o', s.objects[x]? = some o' ∧ o'.tag = o.tag ∧ o'.isWatched = true) ∨ s.objects.length ≤ x ∧ K o.tag := by
  induction a generalizing o with
  | refl => exact .inl ⟨o, ho, rfl, watched⟩
  | @step s₁ s₂ before edit ih =>
    have pushed {o' : Obj} (ho : (s₁.push o').objects[x]? = some o) (may : o'.isWatched = true → K o'.tag) :
        (∃ o', s.objects[x]? = some o' ∧ o'.tag = o.tag ∧ o'.isWatched = true) ∨ s.objects.length ≤ x ∧ K o.tag := by
      rcases Nat.lt_or_ge x s₁.objects.length with old | new
      · exact ih ((List.getElem?_append_left old).symm.trans ho) watched
      · rw [push, List.getElem?_append_right new, List.getElem?_singleton] at ho
        split at ho
        · cases ho
          exact .inr ⟨Nat.le_trans (length before) new, may watched⟩
        · cases ho
    have replaced {r : Ref} {o₁ o₂ : Obj} (hr : s₁.objects[r]? = some o₁) (ho : (s₁.set r o₂).objects[x]? = some o)
        (other : o₂.isWatched = false) : s₁.objects[x]? = some o := by
      rw [Store.getElem?_set ⟨_, hr⟩] at ho
      split at ho
      · cases ho
        exact absurd (other.symm.trans watched) Bool.false_ne_true
      · exact ho
    cases edit with
    | roots objects => exact ih (objects ▸ ho) watched
    | make _ may => exact pushed ho may
    | group may => exact pushed ho fun _ => may
    | items hr _ =>
      rw [Store.getElem?_set ⟨_, hr⟩] at ho
      split at ho
      next here =>
        subst here
        cases ho
        have origin := ih hr watched
        exact origin
      · exact ih ho watched
    | registers _ hr =>
      rw [Store.getElem?_set ⟨_, hr⟩] at ho
      split at ho
      next here =>
        subst here
        cases ho
        have origin := ih hr rfl
        exact origin
      · exact ih ho watched
    | channel hr => exact ih (replaced hr ho rfl) watched

end Store.Edits

/-- The action edits a store that is part of a larger state. -/
def Editing {τ α : Type} (K : Tag → Prop) (P : Ref → Prop) (view : τ → Store) (m : EStateM Lapse τ α) : Prop :=
  ∀ t, Safe Any m t fun _ t' => (view t).Edits K P (view t')

namespace Editing

@[grind ←] theorem pure (a : α) : Editing K P view (pure a : EStateM Lapse τ α) := fun _ => .pure .refl

@[grind ←] theorem throw (l : Lapse) : Editing K P view (throw l : EStateM Lapse τ α) := fun _ => trivial

@[grind ←] theorem bind {m : EStateM Lapse τ β} {k : β → EStateM Lapse τ α} (first : Editing K P view m)
    (next : ∀ b, Editing K P view (k b)) : Editing K P view (m >>= k) := fun t =>
  (first t).bind fun b t' a => (next b t').weaken fun _ _ b => a.trans b

@[grind ←] theorem map {f : α → β} {m : EStateM Lapse τ α} (inner : Editing K P view m) : Editing K P view (f <$> m) := by
  rw [map_eq_pure_bind]
  exact inner.bind fun _ => .pure _

@[grind ←] theorem forM {f : β → EStateM Lapse τ PUnit} {ys : List β} (each : ∀ b, Editing K P view (f b)) : Editing K P view (ys.forM f) := by
  induction ys with
  | nil => exact .pure _
  | cons b rest ih => exact (each b).bind fun _ => ih

theorem mapM {f : β → EStateM Lapse τ α} {ys : List β} (each : ∀ b, Editing K P view (f b)) : Editing K P view (ys.mapM f) := by
  induction ys with
  | nil => exact .pure []
  | cons b rest ih =>
    rw [List.mapM_cons]
    exact (each b).bind fun _ => ih.bind fun _ => .pure _

/-- What an object is decides how it is replaced. -/
theorem look_bind {see : Obj → Option β} {k : β → StoreM α}
    (next : ∀ s b, s.objects[r]?.bind see = some b → Safe Any (k b) s fun _ s' => s.Edits K P s') : Editing K P id (look see r >>= k) :=
  fun s => Safe.look_bind (fun b seen => next s b seen) fun _ => trivial

@[grind ←] theorem look {see : Obj → Option α} : Editing K P id (look see r) := fun _ => Safe.look (fun _ _ => .refl) fun _ => trivial

@[grind ←] theorem add (plain : o.Plain) (may : o.isWatched = true → K o.tag) : Editing K P id (add o) :=
  fun _ => Safe.add (.single (.make plain may))

/-- An object that any action may make. -/
theorem make (common : o.isWatched = false) : Editing K P id (Ideal.add o) := by
  refine add ?_ fun watched => absurd (common.symm.trans watched) Bool.false_ne_true
  rintro w l rfl
  cases common

@[grind ←] theorem modify {f : Store → Store} (objects : ∀ s, (f s).objects = s.objects) :
    Editing K P id (modify f : StoreM PUnit) := fun s => by
  have run : (MonadStateOf.modifyGet (fun s => (PUnit.unit, f s)) : StoreM PUnit) s = .ok ⟨⟩ (f s) := rfl
  exact Safe.of_ok run (.single (.roots (objects s)))

@[grind ←] theorem withRoots {m : StoreM α} (inner : Editing K P id m) : Editing K P id (withRoots xs m) := fun s =>
  Safe.withRoots ((inner { s with temporaries := s.temporaries ++ xs }).weaken fun _ _ edits => by
    have before : s.Edits K P { s with temporaries := s.temporaries ++ xs } := .single (.roots rfl)
    exact (before.trans edits).reroot rfl)

@[grind ←] theorem onStore {m : StoreM α} (inner : Editing K P id m) : Editing K P Engine.store (liftM m : EngineM α) := fun e =>
  Engine.safe_store ((inner e.store).weaken fun _ _ edits => edits)

/-! ### Objects -/

@[grind ←] theorem reject (cause : HeapError) : Editing K P id (Ideal.reject cause : StoreM α) := .throw _

@[grind ←] theorem wild : Editing K P id (Ideal.wild : StoreM α) := .throw _

@[grind ←] theorem fault : Editing K P id (Ideal.fault : StoreM α) := .throw _

@[grind ←] theorem tag : Editing K P id (Ideal.tag r) := by grind [Ideal.tag]

@[grind ←] theorem expect : Editing K P id (Ideal.expect r t) := by grind [Ideal.expect]

@[grind ←] theorem expectListable : Editing K P id (Ideal.expectListable n) := by grind [Ideal.expectListable]

@[grind ←] theorem pushRoot : Editing K P id (Ideal.pushRoot r) := .modify fun _ => rfl

@[grind ←] theorem registerContext : Editing K P id (Ideal.registerContext c) := .modify fun _ => rfl

@[grind ←] theorem retireContext : Editing K P id (Ideal.retireContext c) := .modify fun _ => rfl

@[grind ←] theorem expectRegistered : Editing K P id (Ideal.expectRegistered c) := fun s => by
  refine Safe.weaken (Guiding.expectRegistered_same.relax fun _ _ => trivial) ?_
  rintro _ _ rfl
  exact .refl

@[grind ←] theorem within : Editing K P id (Ideal.within z n) := by grind [Ideal.within]

@[grind ←] theorem word : Editing K P id (Ideal.word r) := by grind [Ideal.word]

@[grind ←] theorem newInt {y : Int64} : Editing K P id (Ideal.newInt y) := .make rfl

@[grind ←] theorem newFloat {y : Binary64} : Editing K P id (Ideal.newFloat y) := .make rfl

@[grind ←] theorem newBool {y : Bool} : Editing K P id (Ideal.newBool y) := .make rfl

@[grind ←] theorem int : Editing K P id (Ideal.int r) := by grind [Ideal.int]

@[grind ←] theorem float : Editing K P id (Ideal.float r) := by grind [Ideal.float]

@[grind ←] theorem bool : Editing K P id (Ideal.bool r) := by grind [Ideal.bool]

@[grind ←] theorem expectInt : Editing K P id (Ideal.expectInt r) := by grind [Ideal.expectInt]

@[grind ←] theorem expectBool : Editing K P id (Ideal.expectBool r) := by grind [Ideal.expectBool]

@[grind ←] theorem bytes : Editing K P id (Ideal.bytes r) := by grind [Ideal.bytes]

@[grind ←] theorem newText {bs : List UInt8} : Editing K P id (Ideal.newText bs) := .make rfl

@[grind ←] theorem byteAt : Editing K P id (Ideal.byteAt r z) := by grind [Ideal.byteAt]

@[grind ←] theorem items : Editing K P id (Ideal.items r) := by grind [Ideal.items]

@[grind ←] theorem newSequence (may : t = .array ∨ t = .environment ∨ t = .frame ∧ K t) : Editing K P id (Ideal.newSequence t xs) :=
  .add (by simp [Obj.Plain]) fun watched => by
    rcases may with rfl | rfl | may
    · cases watched
    · cases watched
    · exact may.2

@[grind ←] theorem getItem : Editing K P id (Ideal.getItem r z) := by grind [Ideal.getItem]

@[grind ←] theorem setSlot : Editing K P id (Ideal.setSlot r i v) := look_bind fun _ _ seen => by
  dsimp only
  split
  next room => exact Safe.replace (.single (.items (object_of_items seen) (by simp [Obj.frozen, room.2])))
  · trivial

@[grind ←] theorem putItems : Editing K P id (Ideal.putItems r i xs) := look_bind fun _ _ seen => by
  dsimp only
  split
  next room =>
    refine Safe.replace (.single (.items (object_of_items seen) ?_))
    simp only [Obj.frozen, room.2, if_false, List.length_append, List.length_take, List.length_drop]
    congr 2
    omega
  · trivial

@[grind ←] theorem setItem : Editing K P id (Ideal.setItem r z v) := by grind [Ideal.setItem]

@[grind ←] theorem extend : Editing K P id (Ideal.extend env v) := by grind [Ideal.extend]

@[grind ←] theorem frame : Editing K P id (Ideal.frame env i) := by grind [Ideal.frame]

@[grind ←] theorem lookup : Editing K P id (Ideal.lookup env i j) := by grind [Ideal.lookup]

@[grind ←] theorem assign : Editing K P id (Ideal.assign env i j v) := by grind [Ideal.assign]

@[grind ←] theorem sliceOf : Editing K P id (Ideal.sliceOf r) := by grind [Ideal.sliceOf]

@[grind ←] theorem itemsBehind : Editing K P id (Ideal.itemsBehind r) := by grind [Ideal.itemsBehind]

@[grind ←] theorem addSlice : Editing K P id (Ideal.add (.slice r i j)) := .make rfl

@[grind ←] theorem window : Editing K P id (Ideal.window r i j) := by grind [Ideal.window]

@[grind ←] theorem sliceLength : Editing K P id (Ideal.sliceLength r) := by grind [Ideal.sliceLength]

@[grind ←] theorem sliceCapacity : Editing K P id (Ideal.sliceCapacity r) := by grind [Ideal.sliceCapacity]

@[grind ←] theorem elements : Editing K P id (Ideal.elements r) := by grind [Ideal.elements]

@[grind ←] theorem slicePosition : Editing K P id (Ideal.slicePosition r z) := by grind [Ideal.slicePosition]

@[grind ←] theorem sliceGet : Editing K P id (Ideal.sliceGet r z) := by grind [Ideal.sliceGet]

@[grind ←] theorem sliceSet : Editing K P id (Ideal.sliceSet r z v) := by grind [Ideal.sliceSet]

@[grind ←] theorem checkBounds : Editing K P id (Ideal.checkBounds z z' n) := by grind [Ideal.checkBounds]

@[grind ←] theorem ofSlice : Editing K P id (Ideal.ofSlice r a? b?) := by grind [Ideal.ofSlice]

@[grind ←] theorem ofArray : Editing K P id (Ideal.ofArray r a? b?) := by grind [Ideal.ofArray]

@[grind ←] theorem append : Editing K P id (Ideal.append r xs) := by grind [Ideal.append]

@[grind ←] theorem code : Editing K P id (Ideal.code r) := by grind [Ideal.code]

@[grind ←] theorem newCode (may : K .func) : Editing K P id (Ideal.newCode i j env n) := .add (by simp [Obj.Plain]) fun _ => may

@[grind ←] theorem methodOf : Editing K P id (Ideal.methodOf r) := by grind [Ideal.methodOf]

@[grind ←] theorem newMethod {name : String} : Editing K P id (Ideal.newMethod r name) :=
  .bind (withRoots newText) fun _ => .make rfl

@[grind ←] theorem newMarker {p : Option Nat} : Editing K P id (Ideal.newMarker p) := .make rfl

@[grind ←] theorem target : Editing K P id (Ideal.target r) := by grind [Ideal.target]

@[grind ←] theorem fiber : Editing K P id (Ideal.fiber c) := by grind [Ideal.fiber]

@[grind ←] theorem peekOperand : Editing K P id (Ideal.peekOperand c) := by grind [Ideal.peekOperand]

@[grind ←] theorem request : Editing K P id (Ideal.request q) := by grind [Ideal.request]

@[grind ←] theorem newRequest {p : Request} : Editing K P id (Ideal.newRequest p) := .make rfl

@[grind ←] theorem duct : Editing K P id (Ideal.duct d) := by grind [Ideal.duct]

@[grind ←] theorem newChannel : Editing K P id (Ideal.newChannel n) := .make rfl

@[grind ←] theorem group : Editing K P id (Ideal.group g) := by grind [Ideal.group]

@[grind ←] theorem newGroup (may : K .waitGroup) : Editing K P id Ideal.newGroup := fun _ => Safe.add (.single (.group may))

@[grind ←] theorem newContext (may : K .context) : Editing K P id (Ideal.newContext i env n) := .add (by simp [Obj.Plain]) fun _ => may

@[grind ←] theorem duplicate : Editing K P id (Ideal.duplicate r) := by
  have box (t : Tag) (w : Word) : Editing K P id (Ideal.add (.number t w)) := .make rfl
  grind [Ideal.duplicate]

@[grind ←] theorem fillSlots {f : Ref → StoreM Ref} (each : ∀ v, Editing K P id (f v)) : Editing K P id (Ideal.fillSlots f r i xs) := by
  induction xs generalizing i with
  | nil => exact .pure ()
  | cons v rest ih => exact .bind (each v) fun _ => .bind setSlot fun _ => ih

@[grind ←] theorem copyWithin : Editing K P id (Ideal.copyWithin n xs r) := by
  induction n generalizing xs r with
  | zero => exact wild
  | succ n ih =>
    refine .bind tag fun t => ?_
    split <;> grind

@[grind ←] theorem copy : Editing K P id (Ideal.copy r) := fun s => copyWithin s

@[grind ←] theorem displayWithin : Editing K P id (Ideal.displayWithin n r) := by
  induction n generalizing r with
  | zero => exact fault
  | succ n ih =>
    have each (xs : List Ref) : Editing K P id (xs.mapM (Ideal.displayWithin n)) := mapM fun _ => ih
    refine .bind tag fun t => ?_
    split <;> grind

/-! ### Contexts -/

@[grind ←] theorem update {h : Fiber → Fiber} (mine : P c) : Editing K P id (Ideal.update c h) :=
  look_bind fun _ _ seen => Safe.replace (.single (.registers mine (object_of_fiber seen)))

@[grind ←] theorem setPc (mine : P c) : Editing K P id (Ideal.setPc c n) := by grind [Ideal.setPc]

@[grind ←] theorem setEnvironment (mine : P c) : Editing K P id (Ideal.setEnvironment c env) := by grind [Ideal.setEnvironment]

@[grind ←] theorem setBlocked (mine : P c) : Editing K P id (Ideal.setBlocked c b) := by grind [Ideal.setBlocked]

@[grind ←] theorem pushOperand (mine : P c) : Editing K P id (Ideal.pushOperand c v) := by grind [Ideal.pushOperand]

@[grind ←] theorem pushReturn (mine : P c) : Editing K P id (Ideal.pushReturn c v) := by grind [Ideal.pushReturn]

@[grind ←] theorem popOperand (mine : P c) : Editing K P id (Ideal.popOperand c) := look_bind fun _ _ seen => by
  split
  · trivial
  · exact Safe.bind (Safe.replace (.single (.registers mine (object_of_fiber seen)))) fun _ _ edits => .pure edits

@[grind ←] theorem popReturn (mine : P c) : Editing K P id (Ideal.popReturn c) := look_bind fun _ _ seen => by
  split
  · trivial
  · exact Safe.bind (Safe.replace (.single (.registers mine (object_of_fiber seen)))) fun _ _ edits => .pure edits

@[grind ←] theorem enterEnvironment (mine : P c) : Editing K P id (Ideal.enterEnvironment c env) := by grind [Ideal.enterEnvironment]

/-! ### Channels -/

@[grind ←] theorem takeWaiter : Editing K P id (Ideal.takeWaiter d u) := look_bind fun s _ seen => by
  refine Safe.skip (a := s) rfl ?_
  split
  · exact Safe.bind (Safe.replace (.single (.channel (object_of_duct seen)))) fun _ _ edits => .pure edits
  · trivial

@[grind ←] theorem withdraw : Editing K P id (Ideal.withdraw q) := by
  have entry (p : Request) : Editing K P id (do
      let k ← Ideal.duct p.channel
      replace p.channel (.channel { k with waiters := k.waiters.erase q })) :=
    look_bind fun _ _ seen => Safe.replace (.single (.channel (object_of_duct seen)))
  grind [Ideal.withdraw]

@[grind ←] theorem cancelWaits (mine : P c) : Editing K P id (Ideal.cancelWaits c) :=
  .bind fiber fun _ => .bind (forM fun _ => withdraw) fun _ => update mine

@[grind ←] theorem tryPush : Editing K P id (Ideal.tryPush d v) := look_bind fun _ _ seen => by
  split
  · exact .pure .refl
  · exact Safe.bind (Safe.replace (.single (.channel (object_of_duct seen)))) fun _ _ edits => .pure edits

@[grind ←] theorem popBuffer : Editing K P id (Ideal.popBuffer d) := look_bind fun _ _ seen => by
  split
  · exact .pure .refl
  · exact Safe.bind (Safe.replace (.single (.channel (object_of_duct seen)))) fun _ _ edits => .pure edits

@[grind ←] theorem deliver (mine : P c) : Editing K P id (Ideal.deliver q c v) := by grind [Ideal.deliver]

theorem park (mine : ∀ p, s.IsRequest q p → P p.context) : Safe Any (Ideal.park q) s fun _ s' => s.Edits K P s' := by
  refine Safe.look_bind (fun p seen => ?_) fun _ => trivial
  have own := mine p (object_of_request seen)
  refine Safe.look_bind (fun k seen => ?_) fun _ => trivial
  refine Safe.bind (Guiding.opposes_same.relax fun _ _ => trivial) ?_
  rintro opposed s rfl
  cases opposed with
  | true => trivial
  | false =>
    refine Safe.bind (Guiding.expectRegistered_same.relax fun _ _ => trivial) ?_
    rintro _ s rfl
    refine Safe.bind (Q := fun _ s' => s.Edits K P s') (Safe.replace (.single (.channel (object_of_duct seen)))) fun _ s₁ edits => ?_
    have enter : Editing K P id (do
        Ideal.withRoots [q] (Ideal.update p.context fun f => { f with waits := f.waits ++ [q] })
        return ((), [Event.parked p.channel p.direction q])) := .bind (withRoots (update own)) fun _ => .pure _
    exact (enter s₁).weaken fun _ _ more => edits.trans more

/-! ### Instructions -/

@[grind ←] theorem abort {cause : MachineError} : Editing K P Engine.store (Engine.abort cause : EngineM α) := .throw _

@[grind ←] theorem unexpected : Editing K P Engine.store (Engine.unexpected t t' : EngineM α) := .throw _

/-- What concerns only the rest of the engine. -/
theorem beside {f : Engine → α × Engine} (same : ∀ e, (f e).2.store = e.store) :
    Editing K P Engine.store (modifyGet f : EngineM α) := fun e => by
  have edits : e.store.Edits K P (f e).2.store := (same e).symm ▸ .refl
  exact Safe.of_ok rfl edits

@[grind ←] theorem pop (mine : P c) : Editing K P Engine.store (Engine.pop c) := by grind [Engine.pop]

@[grind ←] theorem popOnto (mine : P c) : Editing K P Engine.store (Engine.popOnto c xs n) := by
  induction n generalizing xs with grind [Engine.popOnto]

@[grind ←] theorem popMany (mine : P c) : Editing K P Engine.store (Engine.popMany c n) := by grind [Engine.popMany]

@[grind ←] theorem popInt (mine : P c) : Editing K P Engine.store (Engine.popInt c) := by grind [Engine.popInt]

@[grind ←] theorem popBool (mine : P c) : Editing K P Engine.store (Engine.popBool c) := by grind [Engine.popBool]

@[grind ←] theorem push (mine : P c) : Editing K P Engine.store (Engine.push c v) := by grind [Engine.push]

@[grind ←] theorem protecting {m : StoreM Ref} (made : Editing K P id m) : Editing K P Engine.store (Engine.protecting m) := by
  grind [Engine.protecting]

@[grind ←] theorem copies : Editing K P Engine.store (Engine.copies xs) := by
  induction xs with grind [Engine.copies]

@[grind ←] theorem load {m : StoreM Ref} (mine : P c) (made : Editing K P id m) : Editing K P Engine.store (Engine.load c m) := by
  grind [Engine.load]

@[grind ←] theorem expectWoken {p : Option Ref} : Editing K P id (Engine.expectWoken p) := by
  cases p with grind [Engine.expectWoken]

@[grind ←] theorem enqueue : Editing K P Engine.store (Engine.enqueue c) := .bind (.onStore expectRegistered) fun _ => beside fun _ => rfl

@[grind ←] theorem freshId : Editing K P Engine.store Engine.freshId := beside fun _ => rfl

@[grind ←] theorem shuffled : Editing K P Engine.store (Engine.shuffled xs) := beside fun _ => rfl

@[grind ←] theorem zeroValue {kind : ValueKind} (may : kind = .waitGroup → K .waitGroup) : Editing K P id (Engine.zeroValue kind) := by
  cases kind with grind [Engine.zeroValue]

@[grind ←] theorem newFrame (may : K .frame) : Editing K P id (Engine.newFrame n) := by grind [Engine.newFrame]

@[grind ←] theorem box {p : Machine.Primitive} : Editing K P id (Engine.box p) := by cases p with grind [Engine.box]

@[grind ←] theorem sameReference? : Editing K P id (Engine.sameReference? r v) := by
  unfold Engine.sameReference?
  refine .bind tag fun _ => .bind tag fun _ => ?_
  split <;> grind

@[grind ←] theorem substring : Editing K P id (Engine.substring r a? b?) := by grind [Engine.substring]

@[grind ←] theorem expectChannel : Editing K P id (Engine.expectChannel r) := by grind [Engine.expectChannel]

@[grind ←] theorem ofExcept {p : Except MachineError α} : Editing K P Engine.store (Engine.ofExcept p) := by
  cases p with grind [Engine.ofExcept]

@[grind ←] theorem wakeAll : Editing K P Engine.store (Engine.wakeAll xs) := by grind [Engine.wakeAll]

@[grind ←] theorem wakeOption {p : Option Ref} : Editing K P Engine.store (Engine.wakeOption p) := by
  cases p with grind [Engine.wakeOption]

@[grind ←] theorem execLoadVar (mine : P c) : Editing K P Engine.store (Engine.execLoadVar c i j) := by grind [Engine.execLoadVar]

@[grind ←] theorem execStoreVar (mine : P c) : Editing K P Engine.store (Engine.execStoreVar c i j) := by grind [Engine.execStoreVar]

@[grind ←] theorem execEnterScope (mine : P c) (may : K .frame) : Editing K P Engine.store (Engine.execEnterScope c n) := by grind [Engine.execEnterScope]

@[grind ←] theorem execExitScope (mine : P c) : Editing K P Engine.store (Engine.execExitScope c) := by grind [Engine.execExitScope]

@[grind ←] theorem onReferences {op : BinaryOp} : Editing K P Engine.store (Engine.onReferences op r v) := by grind [Engine.onReferences]

@[grind ←] theorem applyBinary {op : BinaryOp} : Editing K P Engine.store (Engine.applyBinary op r v) := by
  unfold Engine.applyBinary
  refine .bind (.onStore tag) fun _ => .bind (.onStore tag) fun _ => ?_
  split <;> grind

@[grind ←] theorem execBinary {op : BinaryOp} (mine : P c) : Editing K P Engine.store (Engine.execBinary c op) := by grind [Engine.execBinary]

@[grind ←] theorem applyUnary {op : UnaryOp} : Editing K P Engine.store (Engine.applyUnary op r) := by grind [Engine.applyUnary]

@[grind ←] theorem execUnary {op : UnaryOp} (mine : P c) : Editing K P Engine.store (Engine.execUnary c op) := by grind [Engine.execUnary]

@[grind ←] theorem execLoadFunc (mine : P c) (may : K .func) : Editing K P Engine.store (Engine.execLoadFunc c i j n) := by grind [Engine.execLoadFunc]

@[grind ←] theorem bindParameters : Editing K P Engine.store (Engine.bindParameters r n xs) := by
  induction xs generalizing n with grind [Engine.bindParameters]

@[grind ←] theorem bindArguments (may : K .frame) : Editing K P Engine.store (Engine.bindArguments r xs) := by
  unfold Engine.bindArguments
  refine .bind (.onStore code) fun _ => ?_
  dsimp only
  split <;> grind

/-- A function is called. -/
theorem enter {returnPc : Nat} (mine : P c) (may : K .frame) : Editing K P Engine.store (do
    Ideal.expect r .func
    let env ← Engine.bindArguments r xs
    let marker ← Ideal.newMarker (some returnPc)
    Ideal.pushReturn c marker
    Ideal.enterEnvironment c env
    Ideal.setPc c (← Ideal.code r).entry
    return Outcome.proceed : EngineM Outcome) :=
  .bind (.onStore expect) fun _ => .bind (bindArguments may) fun _ => .bind (.onStore newMarker) fun _ => by grind

@[grind ←] theorem expectArguments : Editing K P Engine.store (Engine.expectArguments xs n) := by grind [Engine.expectArguments]

@[grind ←] theorem unwind (mine : P c) : Editing K P Engine.store (Engine.unwind c n) := by
  induction n with
  | zero => exact abort
  | succ n ih =>
    unfold Engine.unwind
    refine .bind (.onStore fiber) fun f => ?_
    dsimp only
    split
    · refine .bind abort fun _ => .bind (.onStore (popReturn mine)) fun _ => .bind (.onStore tag) fun _ => ?_
      split <;> grind
    · refine .bind (.onStore (popReturn mine)) fun _ => .bind (.onStore tag) fun _ => ?_
      split <;> grind

@[grind ←] theorem execReturn (mine : P c) : Editing K P Engine.store (Engine.execReturn c) := by grind [Engine.execReturn]

@[grind ←] theorem execLoadMethod {method : String} (mine : P c) : Editing K P Engine.store (Engine.execLoadMethod c method) := by
  grind [Engine.execLoadMethod]

@[grind ←] theorem execPrint {depth : Nat} (mine : P c) : Editing K P Engine.store (Engine.execPrint depth c n b) :=
  .bind (popMany mine) fun _ => .bind (mapM fun _ => .onStore displayWithin) fun _ => beside fun _ => rfl

@[grind ←] theorem execMakeArray (mine : P c) : Editing K P Engine.store (Engine.execMakeArray c n) := by grind [Engine.execMakeArray]

@[grind ←] theorem fillZero {kind : ValueKind} (may : kind = .waitGroup → K .waitGroup) : Editing K P Engine.store (Engine.fillZero r kind i n) := by
  induction n generalizing i with
  | zero => exact .pure ()
  | succ n ih => exact .bind (.onStore (zeroValue may)) fun _ => .bind (.onStore setSlot) fun _ => ih

@[grind ←] theorem execMakeSlice {kind : ValueKind} (mine : P c) (may : kind = .waitGroup → K .waitGroup) : Editing K P Engine.store (Engine.execMakeSlice c kind b) := by
  have make (length : Int64) (size : Nat) : Editing K P Engine.store (do
      let array ← Engine.protecting (Ideal.newSequence .array (List.replicate size 0))
      Engine.fillZero array kind 0 size
      Engine.load c (Ideal.window array 0 length.toInt.toNat)) := by grind
  unfold Engine.execMakeSlice
  dsimp only
  split
  all_goals
    refine .bind (by grind) fun capacity? => .bind (popInt mine) fun length => ?_
    split
    · refine .bind abort fun _ => ?_
      split
      · exact .bind abort fun _ => make _ _
      · exact make _ _
    · split
      · exact .bind abort fun _ => make _ _
      · exact make _ _

@[grind ←] theorem execIndex (mine : P c) : Editing K P Engine.store (Engine.execIndex c) := by
  unfold Engine.execIndex
  refine .bind (popInt mine) fun _ => .bind (pop mine) fun _ => .bind (.onStore tag) fun _ => ?_
  split <;> grind

@[grind ←] theorem storeAt : Editing K P Engine.store (Engine.storeAt r z v) := by
  unfold Engine.storeAt
  refine .bind (.onStore tag) fun _ => ?_
  split <;> grind

@[grind ←] theorem execStoreIndex (mine : P c) : Editing K P Engine.store (Engine.execStoreIndex c) := by grind [Engine.execStoreIndex]

@[grind ←] theorem execLen (mine : P c) : Editing K P Engine.store (Engine.execLen c) := by
  unfold Engine.execLen
  refine .bind (pop mine) fun _ => .bind (.onStore tag) fun _ => ?_
  split <;> grind

@[grind ←] theorem execCap (mine : P c) : Editing K P Engine.store (Engine.execCap c) := by
  unfold Engine.execCap
  refine .bind (pop mine) fun _ => .bind (.onStore tag) fun _ => ?_
  split <;> grind

@[grind ←] theorem execSlice {b' : Bool} (mine : P c) : Editing K P Engine.store (Engine.execSlice c b b') := by grind [Engine.execSlice]

@[grind ←] theorem execAppend (mine : P c) : Editing K P Engine.store (Engine.execAppend c n) := by
  unfold Engine.execAppend
  refine .bind (popMany mine) fun _ => .bind (pop mine) fun _ => .bind copies fun _ => .bind (.onStore tag) fun _ => ?_
  split <;> grind

@[grind ←] theorem execMakeChan (mine : P c) : Editing K P Engine.store (Engine.execMakeChan c b) := by grind [Engine.execMakeChan]

@[grind ←] theorem blockForever (mine : P c) : Editing K P Engine.store (Engine.blockForever c) := by grind [Engine.blockForever]

@[grind ←] theorem execSelectSend (mine : P c) : Editing K P Engine.store (Engine.execSelectSend c n) := by grind [Engine.execSelectSend]

@[grind ←] theorem execSelectRecv (mine : P c) (may : K .frame) : Editing K P Engine.store (Engine.execSelectRecv c n) := by
  unfold Engine.execSelectRecv
  refine .bind (pop mine) fun _ => .bind (.onStore expectChannel) fun _ => .bind (protecting (newFrame may)) fun _ => ?_
  grind

@[grind ←] theorem quietly {m : EngineM Outcome} (inner : Editing K P Engine.store m) : Editing K P Engine.store (Engine.quietly m) := by
  grind [Engine.quietly]

@[grind ←] theorem proceeding {m : EngineM Unit} (inner : Editing K P Engine.store m) : Editing K P Engine.store (Engine.proceeding m) := by
  grind [Engine.proceeding]

end Editing

end FiberMachine.Ideal
