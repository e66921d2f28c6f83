import FiberMachine.Proofs.Ideal.Stages
import FiberMachine.Proofs.Ideal.Edits

/-!
# Positions in the program

Objects hold positions in the program: where a context goes on, where a request lets it go on, where a function begins, and where a
return marker leads. A position comes from an instruction, which names it as a target, or it is the one behind an
instruction. Only the context that executes an instruction goes on behind it, also after a call or when its request is served, so
a bound for each context covers all of these.
-/

namespace FiberMachine.Ideal

/-- Bounds for positions: for those that instructions name, for those of each context, and for all. -/
structure Bounds where
  low : Nat
  limit : Ref → Nat
  high : Nat
  low_le : ∀ c, low ≤ limit c
  limit_le : ∀ c, limit c ≤ high

/-- There is an object, and if it is a return marker it leads to a position up to `n`. -/
def Store.Returns (s : Store) (r : Ref) (n : Nat) : Prop :=
  ∃ o, s.objects[r]? = some o ∧ ∀ w, o = .number .callRef w → w ≠ ReturnMarker.ending → w.toNat ≤ n

/-- The positions in the object with the name `r` are within the bounds. -/
def Obj.Bounded (β : Bounds) (s : Store) (r : Ref) : Obj → Prop
  | .context f => f.pc ≤ β.limit r ∧ s.Returns f.environment (β.limit r) ∧ ∀ m ∈ f.returns, s.Returns m (β.limit r)
  | .request q => q.resume ≤ β.limit q.context ∧ (q.frame ≠ FiberMachine.unassigned → s.Returns q.environment (β.limit q.context))
  | .func k => k.entry ≤ β.low
  | .number t w => t = .callRef → w ≠ ReturnMarker.ending → w.toNat ≤ β.high
  | _ => True

/-- All positions are within the bounds. -/
def Store.Bounded (β : Bounds) (s : Store) : Prop := ∀ (r : Ref) (o : Obj), s.objects[r]? = some o → o.Bounded β s r

/-- All positions are within the bounds, what leads back somewhere still does, and the requests are the same. -/
structure Store.Heeds (β : Bounds) (s s' : Store) : Prop where
  bounded : s'.Bounded β
  returns : ∀ r n, s.Returns r n → s'.Returns r n
  requests : ∀ q p, s.IsRequest q p → s'.IsRequest q p

/-- Not the report of a position outside the program. -/
def Lapse.Placed : Lapse → Prop
  | .error (.pcOutOfRange _) => False
  | _ => True

@[grind =] theorem Lapse.placed_error {cause : MachineError} : (Lapse.error cause).Placed ↔ ∀ p, cause ≠ .pcOutOfRange p := by
  cases cause <;> simp [Lapse.Placed]

@[grind =] theorem Lapse.placed_fault : Lapse.fault.Placed = True := rfl

@[grind =] theorem Lapse.placed_wild : Lapse.wild.Placed = True := rfl

variable {τ α κ : Type} {view : τ → Store} {β : Bounds} {s s' s'' : Store} {r c d x g q env v m : Ref} {o old : Obj} {f : Fiber}
  {l xs : List Ref} {i j n : Nat} {t t' : Tag} {u : Direction} {z z' : Int} {a? b? : Option Int} {b : Bool}

/-! ### Making and changing objects -/

namespace Store

theorem Returns.mono (back : s.Returns r i) (le : i ≤ j) : s.Returns r j := by
  obtain ⟨o, ho, leads⟩ := back
  exact ⟨o, ho, fun w same lasts => Nat.le_trans (leads w same lasts) le⟩

theorem IsTag.returns (is : s.IsTag r t) (other : t ≠ .callRef) : s.Returns r n := by
  obtain ⟨o, ho, rfl⟩ := is
  exact ⟨o, ho, fun w same => absurd (same ▸ rfl) other⟩

theorem Returns.push (back : s.Returns r n) : (s.push o).Returns r n := by
  obtain ⟨o', ho, leads⟩ := back
  exact ⟨o', old_push ho, leads⟩

/-- A marker is not replaced, and what replaces another object is no marker. -/
theorem Returns.set (plain : ∀ t w, o ≠ .number t w) (back : s.Returns r n) : (s.set x o).Returns r n := by
  obtain ⟨o', ho, leads⟩ := back
  by_cases here : r = x
  · subst here
    exact ⟨o, List.getElem?_set_self (List.getElem?_eq_some_iff.mp ho).1, fun w same => absurd same (plain _ w)⟩
  · exact ⟨o', (List.getElem?_set_ne (Ne.symm here)).trans ho, leads⟩

end Store

theorem Obj.Bounded.keep (bounded : o.Bounded β s r) (returns : ∀ r n, s.Returns r n → s'.Returns r n) : o.Bounded β s' r := by
  cases o with
  | context f => exact ⟨bounded.1, returns _ _ bounded.2.1, fun m hm => returns _ _ (bounded.2.2 m hm)⟩
  | request q => exact ⟨bounded.1, fun inside => returns _ _ (bounded.2 inside)⟩
  | _ => exact bounded

namespace Store.Heeds

theorem refl (bounded : s.Bounded β) : s.Heeds β s := ⟨bounded, fun _ _ back => back, fun _ _ hq => hq⟩

theorem trans (a : s.Heeds β s') (b : s'.Heeds β s'') : s.Heeds β s'' :=
  ⟨b.bounded, fun r n back => b.returns r n (a.returns r n back), fun q p hq => b.requests q p (a.requests q p hq)⟩

/-- Only the objects matter. -/
theorem reroot (a : s.Heeds β s') (objects : s''.objects = s'.objects) : s.Heeds β s'' := by
  have same (r : Ref) (n : Nat) : s''.Returns r n ↔ s'.Returns r n := by
    unfold Returns
    rw [objects]
  exact ⟨fun r o ho => (a.bounded r o (objects ▸ ho)).keep fun r n => (same r n).mpr, fun r n back => (same r n).mpr (a.returns r n back),
    fun q p hq => (congrArg (·[q]?) objects).trans (a.requests q p hq)⟩

theorem push (bounded : s.Bounded β) (fits : o.Bounded β s s.objects.length) : s.Heeds β (s.push o) := by
  refine ⟨fun r o' ho => ?_, fun r n => .push, fun q p => old_push⟩
  rw [getElem?_push] at ho
  split at ho
  next new =>
    subst new
    cases ho
    exact fits.keep fun r n => .push
  next => exact (bounded r o' ho).keep fun r n => .push

theorem set (bounded : s.Bounded β) (ho : s.objects[x]? = some old) (other : ∀ p, old ≠ .request p) (plain : ∀ t w, o ≠ .number t w)
    (fits : o.Bounded β s x) : s.Heeds β (s.set x o) := by
  refine ⟨fun r o' ho' => ?_, fun r n => .set plain, fun q p hq => ?_⟩
  · rw [getElem?_set ⟨old, ho⟩] at ho'
    split at ho'
    next here =>
      subst here
      cases ho'
      exact fits.keep fun r n => .set plain
    next => exact (bounded r o' ho').keep fun r n => .set plain
  · have ne : x ≠ q := by
      rintro rfl
      exact other p (Option.some.inj (ho.symm.trans hq))
    exact (List.getElem?_set_ne ne).trans hq

end Store.Heeds

/-- The positions in a store that is part of a larger state stay within the bounds. -/
def Bounding {τ α : Type} (β : Bounds) (view : τ → Store) (m : EStateM Lapse τ α) : Prop :=
  ∀ t, (view t).Bounded β → Safe Lapse.Placed m t fun _ t' => (view t).Heeds β (view t')

/-! ### Composing actions -/

namespace Bounding

@[grind ←] theorem pure (a : α) : Bounding β view (pure a : EStateM Lapse τ α) := fun _ bounded => .pure (.refl bounded)

@[grind ←] theorem throw {l : Lapse} (placed : l.Placed) : Bounding β view (throw l : EStateM Lapse τ α) := fun _ _ => placed

@[grind ←] theorem bind {m : EStateM Lapse τ κ} {k : κ → EStateM Lapse τ α} (first : Bounding β view m)
    (next : ∀ b, Bounding β view (k b)) : Bounding β view (m >>= k) := fun t bounded =>
  (first t bounded).bind fun b t' a => (next b t' a.bounded).weaken fun _ _ b => a.trans b

@[grind ←] theorem map {f : κ → α} {m : EStateM Lapse τ κ} (inner : Bounding β view m) : Bounding β view (f <$> m) := by
  rw [map_eq_pure_bind]
  exact inner.bind fun _ => .pure _

@[grind ←] theorem forM {f : κ → EStateM Lapse τ PUnit} {ys : List κ} (each : ∀ b, Bounding β view (f b)) : Bounding β view (ys.forM f) := by
  induction ys with
  | nil => exact .pure _
  | cons b rest ih => exact (each b).bind fun _ => ih

theorem mapM {f : κ → EStateM Lapse τ α} {ys : List κ} (each : ∀ b, Bounding β view (f b)) : Bounding β view (ys.mapM f) := by
  induction ys with
  | nil => exact .pure []
  | cons b rest ih =>
    rw [List.mapM_cons]
    exact (each b).bind fun _ => ih.bind fun _ => .pure _

/-- What an object is says which positions it holds. -/
theorem look_bind {see : Obj → Option κ} {k : κ → StoreM α}
    (next : ∀ s b, s.Bounded β → s.objects[r]?.bind see = some b → Safe Lapse.Placed (k b) s fun _ s' => s.Heeds β s') :
    Bounding β id (look see r >>= k) := fun s bounded =>
  Safe.look_bind (fun b seen => next s b bounded seen) fun _ => trivial

@[grind ←] theorem look {see : Obj → Option α} : Bounding β id (look see r) := fun _ bounded => Safe.look (fun _ _ => .refl bounded) fun _ => trivial

/-- A new object without positions. -/
@[grind ←] theorem add (plain : ∀ s r, o.Bounded β s r) : Bounding β id (add o) := fun _ bounded => Safe.add (.push bounded (plain _ _))

@[grind ←] theorem modify {f : Store → Store} (objects : ∀ s, (f s).objects = s.objects) :
    Bounding β id (modify f : StoreM PUnit) := fun s bounded => by
  have run : (MonadStateOf.modifyGet (fun s => (PUnit.unit, f s)) : StoreM PUnit) s = .ok ⟨⟩ (f s) := rfl
  exact Safe.of_ok run ((Store.Heeds.refl bounded).reroot (objects s))

/-- An action that finds more objects protected. -/
theorem withRoots_at {m : StoreM α} (bounded : s.Bounded β) (inner : ∀ s₁ : Store, s.Heeds β s₁ →
    Safe Lapse.Placed m s₁ fun _ s' => s₁.Heeds β s') :
    Safe Lapse.Placed (withRoots xs m) s fun _ s' => s.Heeds β s' := by
  have before : s.Heeds β { s with temporaries := s.temporaries ++ xs } := (Store.Heeds.refl bounded).reroot rfl
  refine Safe.withRoots ((inner { s with temporaries := s.temporaries ++ xs } before).weaken ?_)
  exact fun _ _ bounds => (before.trans bounds).reroot rfl

@[grind ←] theorem withRoots {m : StoreM α} (inner : Bounding β id m) : Bounding β id (withRoots xs m) := fun _ bounded =>
  withRoots_at bounded fun s₁ heeds => inner s₁ heeds.bounded

@[grind ←] theorem onStore {m : StoreM α} (inner : Bounding β id m) : Bounding β Engine.store (liftM m : EngineM α) := fun e bounded =>
  Engine.safe_store ((inner e.store bounded).weaken fun _ _ bounds => bounds)

/-! ### Objects without positions -/

@[grind ←] theorem reject (cause : HeapError) : Bounding β id (Ideal.reject cause : StoreM α) := .throw trivial

@[grind ←] theorem wild : Bounding β id (Ideal.wild : StoreM α) := .throw trivial

@[grind ←] theorem fault : Bounding β id (Ideal.fault : StoreM α) := .throw trivial

@[grind ←] theorem tag : Bounding β id (Ideal.tag r) := by grind [Ideal.tag]

@[grind ←] theorem expect : Bounding β id (Ideal.expect r t) := by grind [Ideal.expect]

@[grind ←] theorem expectListable : Bounding β id (Ideal.expectListable n) := by grind [Ideal.expectListable]

@[grind ←] theorem pushRoot : Bounding β id (Ideal.pushRoot r) := .modify fun _ => rfl

@[grind ←] theorem registerContext : Bounding β id (Ideal.registerContext c) := .modify fun _ => rfl

@[grind ←] theorem retireContext : Bounding β id (Ideal.retireContext c) := .modify fun _ => rfl

@[grind ←] theorem expectRegistered : Bounding β id (Ideal.expectRegistered c) := fun s bounded => by
  unfold Safe Ideal.expectRegistered
  by_cases registered : c ∈ s.contexts
  · rw [if_pos registered]
    exact .refl bounded
  · rw [if_neg registered]
    trivial

@[grind ←] theorem within : Bounding β id (Ideal.within z n) := by grind [Ideal.within]

@[grind ←] theorem word : Bounding β id (Ideal.word r) := by grind [Ideal.word]

@[grind ←] theorem newInt {y : Int64} : Bounding β id (Ideal.newInt y) := .add fun _ _ => nofun

@[grind ←] theorem newFloat {y : Binary64} : Bounding β id (Ideal.newFloat y) := .add fun _ _ => nofun

@[grind ←] theorem newBool {y : Bool} : Bounding β id (Ideal.newBool y) := .add fun _ _ => nofun

@[grind ←] theorem int : Bounding β id (Ideal.int r) := by grind [Ideal.int]

@[grind ←] theorem float : Bounding β id (Ideal.float r) := by grind [Ideal.float]

@[grind ←] theorem bool : Bounding β id (Ideal.bool r) := by grind [Ideal.bool]

@[grind ←] theorem expectInt : Bounding β id (Ideal.expectInt r) := by grind [Ideal.expectInt]

@[grind ←] theorem expectBool : Bounding β id (Ideal.expectBool r) := by grind [Ideal.expectBool]

@[grind ←] theorem bytes : Bounding β id (Ideal.bytes r) := by grind [Ideal.bytes]

@[grind ←] theorem newText {bs : List UInt8} : Bounding β id (Ideal.newText bs) := .add fun _ _ => trivial

@[grind ←] theorem byteAt : Bounding β id (Ideal.byteAt r z) := by grind [Ideal.byteAt]

@[grind ←] theorem items : Bounding β id (Ideal.items r) := by grind [Ideal.items]

@[grind ←] theorem newSequence : Bounding β id (Ideal.newSequence t xs) := .add fun _ _ => trivial

@[grind ←] theorem getItem : Bounding β id (Ideal.getItem r z) := by grind [Ideal.getItem]

/-- Other items in place of those of a sequence. -/
theorem replaceItems (bounded : s.Bounded β) (seen : s.objects[r]?.bind Obj.items? = some (t', xs)) :
    Safe Lapse.Placed (replace r (.sequence t l)) s fun _ s' => s.Heeds β s' :=
  Safe.replace (.set bounded (object_of_items seen) nofun nofun trivial)

@[grind ←] theorem setSlot : Bounding β id (Ideal.setSlot r i v) := look_bind fun _ _ bounded seen => by
  dsimp only
  split
  · exact replaceItems bounded seen
  · trivial

@[grind ←] theorem putItems : Bounding β id (Ideal.putItems r i xs) := look_bind fun _ _ bounded seen => by
  dsimp only
  split
  · exact replaceItems bounded seen
  · trivial

@[grind ←] theorem setItem : Bounding β id (Ideal.setItem r z v) := by grind [Ideal.setItem]

@[grind ←] theorem extend : Bounding β id (Ideal.extend env v) := by grind [Ideal.extend]

@[grind ←] theorem frame : Bounding β id (Ideal.frame env i) := by grind [Ideal.frame]

@[grind ←] theorem lookup : Bounding β id (Ideal.lookup env i j) := by grind [Ideal.lookup]

@[grind ←] theorem assign : Bounding β id (Ideal.assign env i j v) := by grind [Ideal.assign]

@[grind ←] theorem sliceOf : Bounding β id (Ideal.sliceOf r) := by grind [Ideal.sliceOf]

@[grind ←] theorem itemsBehind : Bounding β id (Ideal.itemsBehind r) := by grind [Ideal.itemsBehind]

@[grind ←] theorem addSlice : Bounding β id (Ideal.add (.slice r i j)) := .add fun _ _ => trivial

@[grind ←] theorem window : Bounding β id (Ideal.window r i j) := by grind [Ideal.window]

@[grind ←] theorem sliceLength : Bounding β id (Ideal.sliceLength r) := by grind [Ideal.sliceLength]

@[grind ←] theorem sliceCapacity : Bounding β id (Ideal.sliceCapacity r) := by grind [Ideal.sliceCapacity]

@[grind ←] theorem elements : Bounding β id (Ideal.elements r) := by grind [Ideal.elements]

@[grind ←] theorem slicePosition : Bounding β id (Ideal.slicePosition r z) := by grind [Ideal.slicePosition]

@[grind ←] theorem sliceGet : Bounding β id (Ideal.sliceGet r z) := by grind [Ideal.sliceGet]

@[grind ←] theorem sliceSet : Bounding β id (Ideal.sliceSet r z v) := by grind [Ideal.sliceSet]

@[grind ←] theorem checkBounds : Bounding β id (Ideal.checkBounds z z' n) := by grind [Ideal.checkBounds]

@[grind ←] theorem ofSlice : Bounding β id (Ideal.ofSlice r a? b?) := by grind [Ideal.ofSlice]

@[grind ←] theorem ofArray : Bounding β id (Ideal.ofArray r a? b?) := by grind [Ideal.ofArray]

@[grind ←] theorem append : Bounding β id (Ideal.append r xs) := by grind [Ideal.append]

@[grind ←] theorem methodOf : Bounding β id (Ideal.methodOf r) := by grind [Ideal.methodOf]

@[grind ←] theorem newMethod {name : String} : Bounding β id (Ideal.newMethod r name) :=
  .bind (withRoots newText) fun _ => .add fun _ _ => trivial

@[grind ←] theorem fiber : Bounding β id (Ideal.fiber c) := by grind [Ideal.fiber]

@[grind ←] theorem peekOperand : Bounding β id (Ideal.peekOperand c) := by grind [Ideal.peekOperand]

@[grind ←] theorem code : Bounding β id (Ideal.code r) := by grind [Ideal.code]

@[grind ←] theorem request : Bounding β id (Ideal.request q) := by grind [Ideal.request]

@[grind ←] theorem duct : Bounding β id (Ideal.duct d) := by grind [Ideal.duct]

@[grind ←] theorem newChannel : Bounding β id (Ideal.newChannel n) := .add fun _ _ => trivial

@[grind ←] theorem group : Bounding β id (Ideal.group g) := by grind [Ideal.group]

@[grind ←] theorem newGroup : Bounding β id Ideal.newGroup := .add fun _ _ => trivial

/-- A copy of a number, or of a return marker, holds what the number holds. -/
@[grind ←] theorem duplicate : Bounding β id (Ideal.duplicate r) := fun s bounded => by
  refine Safe.look_bind (fun t seen => Safe.look_bind (fun w found => ?_) fun _ => trivial) fun _ => trivial
  obtain ⟨o, ho, eq⟩ := object_of_view seen
  obtain ⟨o', ho', eq'⟩ := object_of_view found
  cases Option.some.inj (ho.symm.trans ho')
  cases o <;> cases eq'
  cases eq
  have fits : Obj.Bounded β s r (.number _ w) := bounded _ _ ho
  exact Safe.add (.push bounded fits)

@[grind ←] theorem fillSlots {f : Ref → StoreM Ref} (each : ∀ v, Bounding β id (f v)) : Bounding β id (Ideal.fillSlots f r i xs) := by
  induction xs generalizing i with
  | nil => exact .pure ()
  | cons v rest ih => exact .bind (each v) fun _ => .bind setSlot fun _ => ih

@[grind ←] theorem copyWithin : Bounding β id (Ideal.copyWithin n xs r) := by
  induction n generalizing xs r with
  | zero => exact wild
  | succ n ih =>
    refine .bind tag fun t => ?_
    split <;> grind

@[grind ←] theorem copy : Bounding β id (Ideal.copy r) := fun s => copyWithin s

@[grind ←] theorem displayWithin : Bounding β id (Ideal.displayWithin n r) := by
  induction n generalizing r with
  | zero => exact fault
  | succ n ih =>
    have each (xs : List Ref) : Bounding β id (xs.mapM (Ideal.displayWithin n)) := mapM fun _ => ih
    refine .bind tag fun t => ?_
    split <;> grind

/-! ### Functions and return markers -/

@[grind ←] theorem newCode (inside : i ≤ β.low) : Bounding β id (Ideal.newCode i j env n) :=
  .add fun _ _ => Nat.le_trans (Nat.mod_le _ _) inside

/-- The entry of a function is a position that an instruction names. -/
theorem code_at (bounded : s.Bounded β) : Safe Lapse.Placed (Ideal.code r) s fun x s' => s' = s ∧ x.entry ≤ β.low :=
  Safe.look (fun x seen => by
    obtain ⟨o, ho, eq⟩ := object_of_view seen
    cases o <;> cases eq
    exact ⟨rfl, bounded _ _ ho⟩) fun _ => trivial

/-- What is stored of a position leads no further. -/
theorem marker_fits {p : Option Nat} (inside : ∀ k, p = some k → k ≤ n) (lasts : p.elim ReturnMarker.ending UInt64.ofNat ≠ ReturnMarker.ending) :
    (p.elim ReturnMarker.ending UInt64.ofNat).toNat ≤ n := by
  cases p with
  | none => exact absurd rfl lasts
  | some k => exact Nat.le_trans (Nat.mod_le _ _) (inside k rfl)

/-- The new return marker leads to where it should. -/
theorem newMarker_at {p : Option Nat} (inside : ∀ k, p = some k → k ≤ n) (le : n ≤ β.high) (bounded : s.Bounded β) :
    Safe Lapse.Placed (Ideal.newMarker p) s fun r s' => s.Heeds β s' ∧ s'.Returns r n := by
  have here (o : Obj) : (s.push o).objects[s.objects.length]? = some o := by rw [Store.getElem?_push, if_pos rfl]
  refine Safe.add ⟨.push bounded fun _ lasts => Nat.le_trans (marker_fits inside lasts) le, _, here _, fun w same lasts => ?_⟩
  cases same
  exact marker_fits inside lasts

/-! ### Contexts -/

/-- The registers of a context change. -/
theorem update_at {h : Fiber → Fiber} (bounded : s.Bounded β) (fits : ∀ f : Fiber, (Obj.context f).Bounded β s c → (Obj.context (h f)).Bounded β s c) :
    Safe Lapse.Placed (Ideal.update c h) s fun _ s' => s.Heeds β s' :=
  Safe.look_bind (fun f seen => by
    have ho := object_of_fiber seen
    exact Safe.replace (.set bounded ho nofun nofun (fits f (bounded _ _ ho)))) fun _ => trivial

@[grind ←] theorem update {h : Fiber → Fiber} (pc : ∀ f, (h f).pc = f.pc) (returns : ∀ f, (h f).returns = f.returns)
    (environment : ∀ f, (h f).environment = f.environment) : Bounding β id (Ideal.update c h) := fun _ bounded =>
  update_at bounded fun f fits => ⟨pc f ▸ fits.1, environment f ▸ fits.2.1, returns f ▸ fits.2.2⟩

@[grind ←] theorem setPc (inside : n ≤ β.limit c) : Bounding β id (Ideal.setPc c n) := fun _ bounded =>
  update_at bounded fun _ fits => ⟨Nat.le_trans (Nat.mod_le _ _) inside, fits.2⟩

theorem setEnvironment_at (bounded : s.Bounded β) (back : s.Returns env (β.limit c)) :
    Safe Lapse.Placed (Ideal.setEnvironment c env) s fun _ s' => s.Heeds β s' :=
  update_at bounded fun _ fits => ⟨fits.1, back, fits.2.2⟩

@[grind ←] theorem setBlocked : Bounding β id (Ideal.setBlocked c b) := update (fun _ => rfl) (fun _ => rfl) fun _ => rfl

@[grind ←] theorem pushOperand : Bounding β id (Ideal.pushOperand c v) :=
  .bind expectRegistered fun _ => update (fun _ => rfl) (fun _ => rfl) fun _ => rfl

theorem pushReturn_at (bounded : s.Bounded β) (back : s.Returns m (β.limit c)) :
    Safe Lapse.Placed (Ideal.pushReturn c m) s fun _ s' => s.Heeds β s' :=
  (expectRegistered s bounded).bind fun _ s₁ first => (update_at first.bounded fun f fits => by
    refine ⟨fits.1, fits.2.1, fun x hx => ?_⟩
    rcases List.mem_append.mp hx with old | new
    · exact fits.2.2 x old
    · exact List.mem_singleton.mp new ▸ first.returns _ _ back).weaken fun _ _ next => first.trans next

@[grind ←] theorem popOperand : Bounding β id (Ideal.popOperand c) := look_bind fun _ f bounded seen => by
  have ho := object_of_fiber seen
  split
  · trivial
  · have fits := bounded _ _ ho
    have popped : (Obj.context { f with operands := f.operands.dropLast }).Bounded β _ c := ⟨fits.1, fits.2⟩
    exact Safe.bind (Safe.replace (.set bounded ho nofun nofun popped)) fun _ _ heeds => .pure heeds

/-- What is popped leads back to where it did. -/
theorem popReturn_at (bounded : s.Bounded β) :
    Safe Lapse.Placed (Ideal.popReturn c) s fun m s' => s.Heeds β s' ∧ s'.Returns m (β.limit c) :=
  Safe.look_bind (fun f seen => by
    have ho := object_of_fiber seen
    obtain ⟨pc, environment, returns⟩ := bounded _ _ ho
    cases last : f.returns.getLast? with
    | none => trivial
    | some m =>
      refine Safe.bind (Q := fun _ s' => s.Heeds β s' ∧ s'.Returns m (β.limit c)) (Safe.replace ?_) fun _ _ heeds => .pure heeds
      have popped : (Obj.context { f with returns := f.returns.dropLast }).Bounded β s c :=
        ⟨pc, environment, fun x hx => returns x (f.returns.dropLast_subset hx)⟩
      have heeds := Store.Heeds.set bounded ho (by nofun) (by nofun) popped
      exact ⟨heeds, heeds.returns _ _ (returns m (List.mem_of_getLast? last))⟩) fun _ => trivial

/-- The context enters an environment, and saves the old one. -/
theorem enterEnvironment_at (bounded : s.Bounded β) (back : s.Returns env (β.limit c)) :
    Safe Lapse.Placed (Ideal.enterEnvironment c env) s fun _ s' => s.Heeds β s' :=
  Safe.look_bind (fun f seen => by
    have saved := (bounded _ _ (object_of_fiber seen)).2.1
    refine (withRoots_at bounded fun s₁ heeds => pushReturn_at heeds.bounded (heeds.returns _ _ saved)).bind fun _ s₁ first => ?_
    exact (setEnvironment_at first.bounded (first.returns _ _ back)).weaken fun _ _ next => first.trans next) fun _ => trivial

theorem newContext_at (inside : i ≤ β.low) (back : ∀ n, s.Returns env n) (bounded : s.Bounded β) :
    Safe Lapse.Placed (Ideal.newContext i env n) s fun _ s' => s.Heeds β s' :=
  Safe.add (.push bounded ⟨Nat.le_trans (Nat.mod_le _ _) (Nat.le_trans inside (β.low_le _)), back _, nofun⟩)

/-! ### Requests -/

theorem newRequest_at {p : Request} (bounded : s.Bounded β) (inside : p.resume ≤ β.limit p.context)
    (back : p.frame ≠ FiberMachine.unassigned → s.Returns p.environment (β.limit p.context)) :
    Safe Lapse.Placed (Ideal.newRequest p) s fun _ s' => s.Heeds β s' :=
  Safe.add (.push bounded ⟨Nat.le_trans (Nat.mod_le _ _) inside, back⟩)

/-- Put a received value where the request wants it. -/
theorem deliver_at {p : Request} (bounded : s.Bounded β) (hq : s.IsRequest q p) :
    Safe Lapse.Placed (Ideal.deliver q p.context v) s fun _ s' => s.Heeds β s' :=
  Safe.look_bind (fun p' seen => by
    cases hq.unique (object_of_request seen)
    split
    · exact pushOperand s bounded
    next inside =>
      refine (setItem s bounded).bind fun _ s₁ first => Safe.look_bind (fun p' seen => ?_) fun _ => trivial
      cases (first.requests _ _ hq).unique (object_of_request seen)
      have back := first.returns _ _ ((bounded _ _ hq).2 inside)
      exact (enterEnvironment_at first.bounded back).weaken fun _ _ next => first.trans next) fun _ => trivial

/-- Replace what a channel holds. -/
theorem replaceDuct {k k' : Duct} (bounded : s.Bounded β) (seen : s.objects[d]?.bind Obj.duct? = some k) :
    Safe Lapse.Placed (replace d (.channel k')) s fun _ s' => s.Heeds β s' :=
  Safe.replace (.set bounded (object_of_duct seen) nofun nofun trivial)

@[grind ←] theorem withdraw : Bounding β id (Ideal.withdraw q) := by
  have entry (p : Request) : Bounding β id (do
      let k ← Ideal.duct p.channel
      replace p.channel (.channel { k with waiters := k.waiters.erase q })) := look_bind fun _ _ => replaceDuct
  grind [Ideal.withdraw]

@[grind ←] theorem cancelWaits : Bounding β id (Ideal.cancelWaits c) :=
  .bind fiber fun _ => .bind (forM fun _ => withdraw) fun _ => update (fun _ => rfl) (fun _ => rfl) fun _ => rfl

/-- The context behind a request goes on where the request lets it. -/
@[grind ←] theorem complete {value : Option Ref} : Bounding β id (Ideal.complete q value) := fun s bounded =>
  withRoots_at bounded fun s₀ heeds => Safe.look_bind (fun p seen => by
    have hq := object_of_request seen
    have delivers : Bounding β id (Ideal.expectRegistered p.context) := expectRegistered
    refine (expectRegistered s₀ heeds.bounded).bind fun _ s₁ first => ?_
    have resume (s₂ : Store) (before : s₀.Heeds β s₂) : Safe Lapse.Placed (do
        Ideal.setPc p.context (← Ideal.request q).resume
        Ideal.cancelWaits p.context
        Ideal.setBlocked p.context false
        return p.context) s₂ fun _ s' => s₀.Heeds β s' := Safe.look_bind (fun p' seen => by
      have hp := object_of_request seen
      cases (before.requests _ _ hq).unique hp
      have goes : Bounding β id (do
          Ideal.setPc p.context p.resume
          Ideal.cancelWaits p.context
          Ideal.setBlocked p.context false
          return p.context) := by grind [(before.bounded _ _ hp).1]
      exact (goes s₂ before.bounded).weaken fun _ _ next => before.trans next) fun _ => trivial
    cases value with
    | none => exact resume s₁ first
    | some v =>
      exact (deliver_at first.bounded (first.requests _ _ hq)).bind fun _ s₂ next => resume s₂ (first.trans next)) fun _ => trivial

/-! ### Channels and wait groups -/

@[grind ←] theorem takeWaiter : Bounding β id (Ideal.takeWaiter d u) := look_bind fun s _ bounded seen => by
  refine Safe.skip (a := s) rfl ?_
  split
  · exact Safe.bind (replaceDuct bounded seen) fun _ _ heeds => .pure heeds
  · trivial

@[grind ←] theorem tryPush : Bounding β id (Ideal.tryPush d v) := look_bind fun _ _ bounded seen => by
  split
  · exact .pure (.refl bounded)
  · exact Safe.bind (replaceDuct bounded seen) fun _ _ heeds => .pure heeds

@[grind ←] theorem popBuffer : Bounding β id (Ideal.popBuffer d) := look_bind fun _ _ bounded seen => by
  split
  · exact .pure (.refl bounded)
  · exact Safe.bind (replaceDuct bounded seen) fun _ _ heeds => .pure heeds

@[grind ←] theorem trySend : Bounding β id (Ideal.trySend d v) := by
  unfold Ideal.trySend
  refine .bind takeWaiter fun p => ?_
  cases p <;> grind

@[grind ←] theorem tryRecv : Bounding β id (Ideal.tryRecv d) := by
  unfold Ideal.tryRecv
  refine .bind popBuffer fun p => ?_
  cases p with
  | none =>
    refine .bind takeWaiter fun p => ?_
    cases p <;> grind
  | some v =>
    refine .bind takeWaiter fun p => ?_
    cases p <;> grind

@[grind ←] theorem opposes : Bounding β id (Ideal.opposes c u xs) := by
  induction xs with grind [Ideal.opposes]

@[grind ←] theorem park : Bounding β id (Ideal.park q) := .bind request fun p => look_bind fun s k bounded seen => by
  refine ((opposes s bounded).both (Guiding.opposes_same.relax fun _ _ => trivial)).bind ?_
  rintro opposed s ⟨heeds, rfl⟩
  cases opposed with
  | true => trivial
  | false =>
    refine ((expectRegistered s bounded).both (Guiding.expectRegistered_same.relax fun _ _ => trivial)).bind ?_
    rintro _ s ⟨_, rfl⟩
    refine (replaceDuct bounded seen).bind fun _ s₁ first => ?_
    have enter : Bounding β id (do
        Ideal.withRoots [q] (Ideal.update p.context fun f => { f with waits := f.waits ++ [q] })
        return ((), [Event.parked p.channel p.direction q])) :=
      .bind (withRoots (update (fun _ => rfl) (fun _ => rfl) fun _ => rfl)) fun _ => .pure _
    exact (enter s₁ first.bounded).weaken fun _ _ next => first.trans next

/-- Replace what a wait group holds. -/
theorem replaceGroup {w w' : Word} (bounded : s.Bounded β) (seen : s.objects[g]?.bind Obj.group? = some (w, xs)) :
    Safe Lapse.Placed (replace g (.waitGroup w' l)) s fun _ s' => s.Heeds β s' :=
  Safe.replace (.set bounded (object_of_group seen) nofun nofun trivial)

@[grind ←] theorem releaseFrom : Bounding β id (Ideal.releaseFrom g n) := by
  induction n with
  | zero => exact .pure []
  | succ n ih =>
    refine look_bind fun s p bounded seen => ?_
    obtain ⟨w, waiters⟩ := p
    cases waiters with
    | nil => exact .pure (.refl bounded)
    | cons c rest =>
      refine (replaceGroup bounded seen).bind fun _ s₁ first => ?_
      have go : Bounding β id (do
          Ideal.cancelWaits c
          Ideal.setBlocked c false
          return c :: (← Ideal.releaseFrom g n)) := by grind
      exact (go s₁ first.bounded).weaken fun _ _ next => first.trans next

@[grind ←] theorem addToGroup {delta : Int64} : Bounding β id (Ideal.addToGroup g delta) := look_bind fun s p bounded seen => by
  have go (w : Word) : Safe Lapse.Placed (do
      replace g (.waitGroup w p.2)
      if p.1.toInt64.toInt + delta.toInt = 0 then Ideal.releaseFrom g p.2.length else return []) s fun _ s' => s.Heeds β s' := by
    refine (replaceGroup bounded seen).bind fun _ s₁ first => ?_
    split
    · exact (releaseFrom s₁ first.bounded).weaken fun _ _ next => first.trans next
    · exact .pure first
  dsimp only
  split
  · trivial
  · split
    · trivial
    · exact go _

@[grind ←] theorem waitFor : Bounding β id (Ideal.waitFor g c) := look_bind fun s p bounded seen => by
  dsimp only
  split
  · exact .pure (.refl bounded)
  · refine ((expectRegistered s bounded).both (Guiding.expectRegistered_same.relax fun _ _ => trivial)).bind ?_
    rintro _ s ⟨_, rfl⟩
    have enter : Bounding β id (Ideal.update c fun f => { f with waits := f.waits ++ [g] }) :=
      update (fun _ => rfl) (fun _ => rfl) fun _ => rfl
    have last : Bounding β id (do
        Ideal.setBlocked c true
        return true) := by grind
    refine Safe.bind (Q := fun _ s' => s.Heeds β s') (Safe.withRoots ?_) fun _ s₁ first =>
      (last s₁ first.bounded).weaken fun _ _ next => first.trans next
    have before : s.Heeds β { s with temporaries := s.temporaries ++ [g, c] } := (Store.Heeds.refl bounded).reroot rfl
    refine (replaceGroup before.bounded seen).bind fun _ s₁ first => (enter s₁ first.bounded).weaken fun _ _ next => ?_
    exact (before.trans (first.trans next)).reroot rfl

/-! ### Instructions -/

@[grind ←] theorem abort {cause : MachineError} (other : ∀ p, cause ≠ .pcOutOfRange p) :
    Bounding β Engine.store (Engine.abort cause : EngineM α) := .throw (Lapse.placed_error.mpr other)

@[grind ←] theorem unexpected : Bounding β Engine.store (Engine.unexpected t t' : EngineM α) := .throw trivial

/-- What concerns only the rest of the engine. -/
theorem beside {f : Engine → α × Engine} (same : ∀ e, (f e).2.store = e.store) :
    Bounding β Engine.store (modifyGet f : EngineM α) := fun e bounded => by
  have heeds : e.store.Heeds β (f e).2.store := (same e).symm ▸ .refl bounded
  exact Safe.of_ok rfl heeds

@[grind ←] theorem pop : Bounding β Engine.store (Engine.pop c) := by grind [Engine.pop]

@[grind ←] theorem popOnto : Bounding β Engine.store (Engine.popOnto c xs n) := by
  induction n generalizing xs with grind [Engine.popOnto]

@[grind ←] theorem popMany : Bounding β Engine.store (Engine.popMany c n) := by grind [Engine.popMany]

@[grind ←] theorem popInt : Bounding β Engine.store (Engine.popInt c) := by grind [Engine.popInt]

@[grind ←] theorem popBool : Bounding β Engine.store (Engine.popBool c) := by grind [Engine.popBool]

@[grind ←] theorem push : Bounding β Engine.store (Engine.push c v) := by grind [Engine.push]

@[grind ←] theorem protecting {make : StoreM Ref} (made : Bounding β id make) : Bounding β Engine.store (Engine.protecting make) := by
  grind [Engine.protecting]

@[grind ←] theorem copies : Bounding β Engine.store (Engine.copies xs) := by
  induction xs with grind [Engine.copies]

@[grind ←] theorem load {make : StoreM Ref} (made : Bounding β id make) : Bounding β Engine.store (Engine.load c make) := by
  grind [Engine.load]

@[grind ←] theorem expectWoken {p : Option Ref} : Bounding β id (Engine.expectWoken p) := by
  cases p with grind [Engine.expectWoken]

@[grind ←] theorem enqueue : Bounding β Engine.store (Engine.enqueue c) := .bind (.onStore expectRegistered) fun _ => beside fun _ => rfl

@[grind ←] theorem freshId : Bounding β Engine.store Engine.freshId := beside fun _ => rfl

@[grind ←] theorem shuffled : Bounding β Engine.store (Engine.shuffled xs) := beside fun _ => rfl

@[grind ←] theorem zeroValue {kind : ValueKind} : Bounding β id (Engine.zeroValue kind) := by
  cases kind with grind [Engine.zeroValue]

@[grind ←] theorem newFrame : Bounding β id (Engine.newFrame n) := by grind [Engine.newFrame]

@[grind ←] theorem box {p : Machine.Primitive} : Bounding β id (Engine.box p) := by cases p with grind [Engine.box]

@[grind ←] theorem sameReference? : Bounding β id (Engine.sameReference? r v) := by
  unfold Engine.sameReference?
  refine .bind tag fun _ => .bind tag fun _ => ?_
  split <;> grind

@[grind ←] theorem substring : Bounding β id (Engine.substring r a? b?) := by grind [Engine.substring]

@[grind ←] theorem expectChannel : Bounding β id (Engine.expectChannel r) := by grind [Engine.expectChannel]

@[grind ←] theorem wakeAll : Bounding β Engine.store (Engine.wakeAll xs) := by grind [Engine.wakeAll]

@[grind ←] theorem wakeOption {p : Option Ref} : Bounding β Engine.store (Engine.wakeOption p) := by
  cases p with grind [Engine.wakeOption]

@[grind ←] theorem execLoadVar : Bounding β Engine.store (Engine.execLoadVar c i j) := by grind [Engine.execLoadVar]

@[grind ←] theorem execStoreVar : Bounding β Engine.store (Engine.execStoreVar c i j) := by grind [Engine.execStoreVar]

/-- The new environment leads nowhere back. -/
theorem extend_at (bounded : s.Bounded β) : Safe Lapse.Placed (Ideal.extend env v) s fun r s' => s.Heeds β s' ∧ ∀ n, s'.Returns r n := by
  refine Safe.bind (Q := fun _ s' => s.Heeds β s') (items s bounded) fun xs s₁ first => ?_
  refine Safe.add ⟨first.trans (.push first.bounded trivial), fun n => ?_⟩
  exact Store.IsTag.returns ⟨.sequence .environment (xs ++ [v]), by rw [Store.getElem?_push, if_pos rfl], rfl⟩ nofun

@[grind ←] theorem execEnterScope : Bounding β Engine.store (Engine.execEnterScope c n) := by
  refine .bind (protecting newFrame) fun frame => .bind (.onStore fiber) fun f e bounded => ?_
  exact Engine.store_bind (extend_at bounded) fun env s₁ ⟨first, back⟩ =>
    Engine.safe_store ((enterEnvironment_at first.bounded (back _)).weaken fun _ _ next => first.trans next)

@[grind ←] theorem execExitScope : Bounding β Engine.store (Engine.execExitScope c) := fun e bounded =>
  Engine.store_bind (popReturn_at bounded) fun m s₁ ⟨first, back⟩ =>
    Engine.store_bind (expect s₁ first.bounded) fun _ s₂ next => by
      have before := first.trans next
      exact Engine.safe_store ((setEnvironment_at before.bounded (next.returns _ _ back)).weaken fun _ _ last => before.trans last)

section

variable {cause : MachineError} {op : BinaryOp}

theorem comparison_placed {order : Ordering} (failed : Machine.comparison op order t t' = .error cause) (n : Nat) : cause ≠ .pcOutOfRange n := by
  grind [Machine.comparison, Machine.notDefined]

theorem onInts_placed {y y' : Int64} (failed : Machine.onInts op y y' = .error cause) (n : Nat) : cause ≠ .pcOutOfRange n := by
  cases op <;> grind [Machine.onInts, Machine.comparison, Machine.notDefined]

theorem onFloats_placed {y y' : Binary64} (failed : Machine.onFloats op y y' = .error cause) (n : Nat) : cause ≠ .pcOutOfRange n := by
  cases op <;> grind [Machine.onFloats, Machine.notDefined]

theorem onBools_placed {y y' : Bool} (failed : Machine.onBools op y y' = .error cause) (n : Nat) : cause ≠ .pcOutOfRange n := by
  cases op <;> grind [Machine.onBools, Machine.notDefined]

theorem ofExcept {p : Except MachineError α} (placed : ∀ cause, p = .error cause → ∀ n, cause ≠ .pcOutOfRange n) :
    Bounding β Engine.store (Engine.ofExcept p) := by
  cases p with
  | ok a => exact .pure a
  | error cause => exact .abort (placed cause rfl)

@[grind ←] theorem onReferences : Bounding β Engine.store (Engine.onReferences op r v) := by
  grind [Engine.onReferences, Machine.notDefined]

@[grind ←] theorem applyBinary : Bounding β Engine.store (Engine.applyBinary op r v) := by
  refine .bind (.onStore tag) fun _ => .bind (.onStore tag) fun _ => ?_
  split
  · exact .bind (.onStore int) fun _ => .bind (.onStore int) fun _ => .bind (ofExcept fun _ => onInts_placed) fun _ => .onStore box
  · exact .bind (.onStore float) fun _ => .bind (.onStore float) fun _ => .bind (ofExcept fun _ => onFloats_placed) fun _ => .onStore box
  · exact .bind (.onStore bool) fun _ => .bind (.onStore bool) fun _ => .bind (ofExcept fun _ => onBools_placed) fun _ => .onStore box
  · split
    · grind
    · exact .bind (.onStore bytes) fun _ => .bind (.onStore bytes) fun _ => .bind (ofExcept fun _ => comparison_placed) fun _ => .onStore box
  · grind

end

@[grind ←] theorem execBinary {op : BinaryOp} : Bounding β Engine.store (Engine.execBinary c op) := by grind [Engine.execBinary]

@[grind ←] theorem applyUnary {op : UnaryOp} : Bounding β Engine.store (Engine.applyUnary op r) := by grind [Engine.applyUnary]

@[grind ←] theorem execUnary {op : UnaryOp} : Bounding β Engine.store (Engine.execUnary c op) := by grind [Engine.execUnary]

@[grind ←] theorem execLoadFunc (inside : i ≤ β.low) : Bounding β Engine.store (Engine.execLoadFunc c n i j) := by grind [Engine.execLoadFunc]

@[grind ←] theorem bindParameters : Bounding β Engine.store (Engine.bindParameters r n xs) := by
  induction xs generalizing n with grind [Engine.bindParameters]

@[grind ←] theorem expectArguments : Bounding β Engine.store (Engine.expectArguments xs n) := by grind [Engine.expectArguments]

/-- The environment of a call leads nowhere back. -/
theorem bindArguments_at {e : Engine} (bounded : e.store.Bounded β) : Safe Lapse.Placed (Engine.bindArguments r xs) e fun env e' =>
    e.store.Heeds β e'.store ∧ ∀ n, e'.store.Returns env n := by
  have extended (frame : Ref) : ∀ e : Engine, e.store.Bounded β → Safe Lapse.Placed (do
      let captured := (← Ideal.code r).environment
      let env ← Engine.protecting (Ideal.extend captured frame)
      let _ ← Ideal.code r
      return env : EngineM Ref) e fun env e' => e.store.Heeds β e'.store ∧ ∀ n, e'.store.Returns env n := fun e bounded => by
    refine Engine.store_bind (code e.store bounded) fun k s₁ first => ?_
    refine Safe.bind (Q := fun env e' => e.store.Heeds β e'.store ∧ ∀ n, e'.store.Returns env n) ?_ fun env e₂ ⟨next, back⟩ => ?_
    · exact Engine.store_bind (extend_at first.bounded) fun env s₂ ⟨next, back⟩ => Engine.store_bind (pushRoot s₂ next.bounded)
        fun _ s₃ last => .pure ⟨first.trans (next.trans last), fun n => last.returns _ _ (back n)⟩
    · exact Engine.store_bind (code e₂.store next.bounded) fun _ s₃ last => .pure ⟨next.trans last, fun n => last.returns _ _ (back n)⟩
  have bound (arity : Nat) : ∀ e : Engine, e.store.Bounded β → Safe Lapse.Placed (do
      let frame ← Engine.protecting (Engine.newFrame arity)
      Engine.bindParameters frame 0 xs
      let captured := (← Ideal.code r).environment
      let env ← Engine.protecting (Ideal.extend captured frame)
      let _ ← Ideal.code r
      return env : EngineM Ref) e fun env e' => e.store.Heeds β e'.store ∧ ∀ n, e'.store.Returns env n := fun e bounded => by
    refine (protecting newFrame e bounded).bind fun frame e₁ first => ?_
    refine (bindParameters e₁ first.bounded).bind fun _ e₂ next => (extended frame e₂ next.bounded).weaken ?_
    exact fun _ _ ⟨last, back⟩ => ⟨first.trans (next.trans last), back⟩
  refine Engine.store_bind (code e.store bounded) fun k s₁ first => ?_
  dsimp only
  split
  · trivial
  · exact (bound k.arity _ first.bounded).weaken fun _ _ ⟨next, back⟩ => ⟨first.trans next, back⟩

@[grind ←] theorem callMethod {name : String} : Bounding β Engine.store (Engine.callMethod c r name xs) := by
  unfold Engine.callMethod
  refine .bind (.onStore tag) fun _ => ?_
  split <;> grind

/-- A function is called, which begins at a position that an instruction names, and returns behind the call. -/
theorem enter (inside : n ≤ β.limit c) : Bounding β Engine.store (do
    Ideal.expect r .func
    let env ← Engine.bindArguments r xs
    let marker ← Ideal.newMarker (some n)
    Ideal.pushReturn c marker
    Ideal.enterEnvironment c env
    Ideal.setPc c (← Ideal.code r).entry
    return Outcome.proceed : EngineM Outcome) := by
  refine .bind (.onStore expect) fun _ e bounded => ?_
  refine (bindArguments_at bounded).bind fun env e₁ ⟨first, back⟩ => ?_
  refine Engine.store_bind (newMarker_at (n := n) (by simp) (Nat.le_trans inside (β.limit_le c)) first.bounded) fun m s₂ ⟨second, leads⟩ => ?_
  refine Engine.store_bind (pushReturn_at second.bounded (leads.mono inside)) fun _ s₃ third => ?_
  have before := first.trans (second.trans third)
  refine Engine.store_bind (enterEnvironment_at third.bounded (third.returns _ _ (second.returns _ _ (back _)))) fun _ s₄ last => ?_
  refine Engine.store_bind (code_at last.bounded) ?_
  rintro x s₄ ⟨rfl, low⟩
  refine Engine.store_bind (setPc (Nat.le_trans low (β.low_le c)) s₄ last.bounded) fun _ s₅ jump => .pure ?_
  exact (before.trans last).trans jump

@[grind ←] theorem execCall (inside : n ≤ β.limit c) : Bounding β Engine.store (Engine.execCall c n j) := by
  unfold Engine.execCall
  refine .bind popMany fun xs => .bind pop fun callee => .bind (.onStore tag) fun t => ?_
  split
  · grind
  · exact enter inside

/-- Where a return marker leads. -/
theorem target_at (bounded : s.Bounded β) (is : s.IsTag m .callRef) (back : s.Returns m n) :
    Safe Lapse.Placed (Ideal.target m) s fun p s' => s' = s ∧ ∀ k, p = some k → k ≤ n := by
  refine (Safe.both (Q := fun _ _ => True) ?_ ((target_seen is).relax fun _ _ => trivial)).weaken ?_
  · exact Safe.look_bind (fun w _ => .pure trivial) fun _ => trivial
  rintro p s ⟨_, rfl, w, hw, rfl⟩
  obtain ⟨o, ho, leads⟩ := back
  cases Option.some.inj (ho.symm.trans hw)
  refine ⟨rfl, fun k same => ?_⟩
  split at same
  · cases same
  next lasts =>
    cases same
    exact leads w rfl lasts

@[grind ←] theorem unwind : Bounding β Engine.store (Engine.unwind c n) := by
  induction n with
  | zero => exact .abort nofun
  | succ n ih =>
    unfold Engine.unwind
    refine .bind (.onStore fiber) fun f => ?_
    dsimp only
    split
    on_goal 1 => refine .bind (.abort nofun) fun _ => ?_
    -- whether or not the frames ran out, a return marker is popped
    all_goals
      intro e bounded
      refine Engine.store_bind (popReturn_at bounded) ?_
      rintro m s₁ ⟨first, back⟩
      refine Engine.store_bind ((tag s₁ first.bounded).both (tag_seen.relax fun _ _ => trivial)) ?_
      rintro t s₁ ⟨_, rfl, is⟩
      split
      · refine Engine.store_bind (setEnvironment_at first.bounded back) fun _ s₂ next => ?_
        exact (ih { e with store := s₂ } next.bounded).weaken fun _ _ last => (first.trans next).trans last
      · refine Engine.store_bind (target_at first.bounded is back) ?_
        rintro p s₁ ⟨rfl, leads⟩
        cases p with
        | none => exact .pure first
        | some k =>
          refine Engine.store_bind (setPc (leads k rfl) s₁ first.bounded) fun _ s₂ next => .pure ?_
          exact first.trans next
      · trivial

@[grind ←] theorem execReturn : Bounding β Engine.store (Engine.execReturn c) := by grind [Engine.execReturn]

@[grind ←] theorem execLoadMethod {name : String} : Bounding β Engine.store (Engine.execLoadMethod c name) := by grind [Engine.execLoadMethod]

@[grind ←] theorem execCallMethod {name : String} : Bounding β Engine.store (Engine.execCallMethod c name n) := by grind [Engine.execCallMethod]

/-- A new context begins at a position that an instruction names. -/
@[grind ←] theorem execGo : Bounding β Engine.store (Engine.execGo c n) := by
  unfold Engine.execGo
  refine .bind popMany fun xs => .bind pop fun closure => .bind (.onStore expect) fun _ e bounded => ?_
  refine (bindArguments_at bounded).bind fun env e₁ ⟨first, back⟩ => ?_
  refine Safe.bind (Q := fun _ e' => e'.store = e₁.store) (Safe.of_ok rfl rfl) fun id e₂ same => ?_
  rw [← same] at first back
  refine Engine.store_bind (code_at first.bounded) ?_
  rintro x s₂ ⟨same', low⟩
  rw [← same'] at first back
  refine Engine.store_bind (newContext_at low back first.bounded) fun child s₃ second => ?_
  refine Engine.store_bind (registerContext s₃ second.bounded) fun _ s₄ third => ?_
  refine Engine.store_bind (newMarker_at (p := none) (n := β.low) nofun (Nat.le_trans (β.low_le c) (β.limit_le c)) third.bounded)
    fun m s₅ ⟨fourth, leads⟩ => ?_
  refine Engine.store_bind (pushReturn_at fourth.bounded (leads.mono (β.low_le child))) fun _ s₆ last => ?_
  have before := first.trans (second.trans (third.trans (fourth.trans last)))
  exact (enqueue { e₂ with store := s₆ } last.bounded).weaken fun _ _ next => before.trans next

@[grind ←] theorem execPrint {depth : Nat} : Bounding β Engine.store (Engine.execPrint depth c n b) :=
  .bind popMany fun _ => .bind (mapM fun _ => .onStore displayWithin) fun _ => beside fun _ => rfl

@[grind ←] theorem execMakeArray : Bounding β Engine.store (Engine.execMakeArray c n) := by grind [Engine.execMakeArray]

@[grind ←] theorem fillZero {kind : ValueKind} : Bounding β Engine.store (Engine.fillZero r kind i n) := by
  induction n generalizing i with
  | zero => exact .pure ()
  | succ n ih => exact .bind (.onStore zeroValue) fun _ => .bind (.onStore setSlot) fun _ => ih

@[grind ←] theorem execMakeSlice {kind : ValueKind} : Bounding β Engine.store (Engine.execMakeSlice c kind b) := by
  have make (length : Int64) (size : Nat) : Bounding β Engine.store (do
      let array ← Engine.protecting (Ideal.newSequence .array (List.replicate size 0))
      Engine.fillZero array kind 0 size
      Engine.load c (Ideal.window array 0 length.toInt.toNat)) := by grind
  unfold Engine.execMakeSlice
  dsimp only
  split
  all_goals
    refine .bind (by grind) fun capacity? => .bind popInt fun length => ?_
    split
    · refine .bind (abort nofun) fun _ => ?_
      split
      · exact .bind (abort nofun) fun _ => make _ _
      · exact make _ _
    · split
      · exact .bind (abort nofun) fun _ => make _ _
      · exact make _ _

@[grind ←] theorem execIndex : Bounding β Engine.store (Engine.execIndex c) := by
  unfold Engine.execIndex
  refine .bind popInt fun _ => .bind pop fun _ => .bind (.onStore tag) fun _ => ?_
  split <;> grind

@[grind ←] theorem storeAt : Bounding β Engine.store (Engine.storeAt r z v) := by
  unfold Engine.storeAt
  refine .bind (.onStore tag) fun _ => ?_
  split <;> grind

@[grind ←] theorem execStoreIndex : Bounding β Engine.store (Engine.execStoreIndex c) := by grind [Engine.execStoreIndex]

@[grind ←] theorem execLen : Bounding β Engine.store (Engine.execLen c) := by
  unfold Engine.execLen
  refine .bind pop fun _ => .bind (.onStore tag) fun _ => ?_
  split <;> grind

@[grind ←] theorem execCap : Bounding β Engine.store (Engine.execCap c) := by
  unfold Engine.execCap
  refine .bind pop fun _ => .bind (.onStore tag) fun _ => ?_
  split <;> grind

@[grind ←] theorem execSlice {b' : Bool} : Bounding β Engine.store (Engine.execSlice c b b') := by grind [Engine.execSlice]

@[grind ←] theorem execAppend : Bounding β Engine.store (Engine.execAppend c n) := by
  unfold Engine.execAppend
  refine .bind popMany fun _ => .bind pop fun _ => .bind copies fun _ => .bind (.onStore tag) fun _ => ?_
  split <;> grind

@[grind ←] theorem execMakeChan : Bounding β Engine.store (Engine.execMakeChan c b) := by
  have refuse (k : Int) : Bounding β Engine.store (Engine.abort (.invalidLength .channelCapacity k) : EngineM Unit) := .abort nofun
  grind [Engine.execMakeChan]

@[grind ←] theorem blockForever : Bounding β Engine.store (Engine.blockForever c) := by grind [Engine.blockForever]

/-- A request that waits where its context has a bound. -/
@[grind ←] theorem parkRequest {p : Request} (inside : p.resume ≤ β.limit p.context) (plain : p.frame = FiberMachine.unassigned) :
    Bounding β Engine.store (Engine.parkRequest p) := by
  have make : Bounding β id (Ideal.newRequest p) := fun s bounded => newRequest_at bounded inside fun ne => absurd plain ne
  grind [Engine.parkRequest]

@[grind ←] theorem execSend (inside : n ≤ β.limit c) : Bounding β Engine.store (Engine.execSend c n) := by
  unfold Engine.execSend
  refine .bind pop fun v => .bind pop fun d => .bind (.onStore expectChannel) fun there => ?_
  split
  · refine .bind (protecting copy) fun v => .bind (.onStore trySend) fun p => ?_
    split
    · grind
    · grind
    · exact parkRequest inside rfl
  · grind

@[grind ←] theorem execRecv (inside : n ≤ β.limit c) : Bounding β Engine.store (Engine.execRecv c n) := by
  unfold Engine.execRecv
  refine .bind pop fun d => .bind (.onStore expectChannel) fun there => ?_
  split
  · refine .bind (.onStore tryRecv) fun p => ?_
    split
    · grind
    · exact parkRequest inside rfl
  · grind

@[grind ←] theorem execSelectSend (inside : n ≤ β.low) : Bounding β Engine.store (Engine.execSelectSend c n) := by
  unfold Engine.execSelectSend
  refine .bind pop fun v => .bind pop fun d => .bind (.onStore expectChannel) fun there => .bind (protecting copy) fun copy => ?_
  have make : Bounding β id (Ideal.newRequest (Machine.sendRequest c d copy n)) := fun s bounded =>
    newRequest_at bounded (Nat.le_trans inside (β.low_le c)) fun ne => absurd rfl ne
  exact .bind (.onStore make) fun _ => push

/-- A receiving case enters a new scope at a position that an instruction names. -/
@[grind ←] theorem execSelectRecv (inside : n ≤ β.low) : Bounding β Engine.store (Engine.execSelectRecv c n) := by
  unfold Engine.execSelectRecv
  refine .bind pop fun d => .bind (.onStore expectChannel) fun there => .bind (protecting newFrame) fun frame => ?_
  refine .bind (.onStore fiber) fun f e bounded => ?_
  refine Safe.bind (Q := fun env e' => e.store.Heeds β e'.store ∧ ∀ n, e'.store.Returns env n) ?_ fun env e₁ ⟨first, back⟩ => ?_
  · exact Engine.store_bind (extend_at bounded) fun env s₁ ⟨first, back⟩ => Engine.store_bind (pushRoot s₁ first.bounded)
      fun _ s₂ next => .pure ⟨first.trans next, fun n => next.returns _ _ (back n)⟩
  · refine Engine.store_bind (newRequest_at first.bounded (Nat.le_trans inside (β.low_le c)) fun _ => back _) fun q s₂ next => ?_
    exact (push { e₁ with store := s₂ } next.bounded).weaken fun _ _ last => (first.trans next).trans last

@[grind ←] theorem tryCase : Bounding β id (Engine.tryCase q) := by
  unfold Engine.tryCase
  refine .bind request fun p => ?_
  dsimp only
  split
  · grind
  · refine .bind request fun p => ?_
    split
    · refine .bind request fun p => .bind trySend fun p => ?_
      split <;> grind
    · refine .bind tryRecv fun p => ?_
      split <;> grind

@[grind ←] theorem takeReady : Bounding β id (Engine.takeReady xs) := by
  induction xs with
  | nil => exact .pure _
  | cons q rest ih =>
    refine .bind tryCase fun p => ?_
    split <;> grind

@[grind ←] theorem parkAll : Bounding β id (Engine.parkAll xs) := by
  induction xs with
  | nil => exact .pure _
  | cons q rest ih =>
    refine .bind request fun p => ?_
    dsimp only
    split
    · exact .bind park fun _ => .bind ih fun _ => .pure _
    · exact .bind (.pure _) fun _ => .bind ih fun _ => .pure _

@[grind ←] theorem selectAmong {default? : Option Nat} (inside : ∀ n, default? = some n → n ≤ β.low) :
    Bounding β Engine.store (Engine.selectAmong c xs default?) := by
  unfold Engine.selectAmong
  refine .bind (.onStore takeReady) fun p => ?_
  split
  · grind
  · cases default? with
    | some n => exact .bind (.onStore (setPc (Nat.le_trans (inside n rfl) (β.low_le c)))) fun _ => .pure _
    | none => grind

@[grind ←] theorem execSelect {default? : Option Nat} (inside : ∀ n, default? = some n → n ≤ β.low) :
    Bounding β Engine.store (Engine.execSelect c n default?) := by
  unfold Engine.execSelect
  exact .bind popMany fun xs => .bind (forM fun _ => .onStore expect) fun _ => .bind shuffled fun _ => selectAmong inside

@[grind ←] theorem quietly {m : EngineM Outcome} (inner : Bounding β Engine.store m) : Bounding β Engine.store (Engine.quietly m) := by
  grind [Engine.quietly]

@[grind ←] theorem proceeding {m : EngineM Unit} (inner : Bounding β Engine.store m) : Bounding β Engine.store (Engine.proceeding m) := by
  grind [Engine.proceeding]

/-- An instruction keeps the bounds if the positions that it names are low and the one behind it is no further than the context may
go. -/
theorem dispatch {depth pc : Nat} {i : Instruction} (targets : ∀ p ∈ i.targets, p ≤ β.low) (next : pc + 1 ≤ β.limit c) :
    Bounding β Engine.store (Engine.dispatch depth c pc i) := by
  have named {p : Nat} (named : p ∈ i.targets) : p ≤ β.limit c := Nat.le_trans (targets p named) (β.low_le c)
  cases i with
  | jump n => exact proceeding (.onStore (setPc (named (by simp [Instruction.targets]))))
  | jumpIfFalse n =>
    have goes : Bounding β id (Ideal.setPc c n) := setPc (named (by simp [Instruction.targets]))
    grind [Engine.dispatch]
  | jumpIfTrue n =>
    have goes : Bounding β id (Ideal.setPc c n) := setPc (named (by simp [Instruction.targets]))
    grind [Engine.dispatch]
  | loadFunc entry params => exact proceeding (execLoadFunc (targets _ (by simp [Instruction.targets])))
  | selectSend n => exact proceeding (execSelectSend (targets _ (by simp [Instruction.targets])))
  | selectRecv n name => exact proceeding (execSelectRecv (targets _ (by simp [Instruction.targets])))
  | select n default? => exact execSelect fun p same => targets p (by simp [same, Instruction.targets])
  | _ => grind [Engine.dispatch]

end Bounding

end FiberMachine.Ideal
