import FiberMachine.Proofs.Ideal.Engine

/-!
# Where contexts are led

Most actions leave alone where the contexts go on: their program counters, their environments, and what they return to.
That is so for each action because it is so for the actions of which it consists. Such actions make no channels either, and they
report no deadlock.
-/

namespace FiberMachine.Ideal

/-- The registers that say where a context goes on, and its number. -/
structure Bearing where
  pc : Nat
  returns : List Ref
  environment : Ref
  id : Nat

def Fiber.bearing (f : Fiber) : Bearing := ⟨f.pc, f.returns, f.environment, f.id⟩

/-- The registers of each context are in the relation `R` to what they were, and there are no new channels. -/
structure Store.Guides (R : Bearing → Bearing → Prop) (s s' : Store) : Prop where
  fibers : ∀ (c : Ref) (f : Fiber), s.objects[c]? = some (.context f) →
    ∃ g : Fiber, s'.objects[c]? = some (.context g) ∧ R f.bearing g.bearing
  channels : ∀ (d : Ref) (k : Duct), s'.objects[d]? = some (.channel k) → ∃ k : Duct, s.objects[d]? = some (.channel k)

/-- Not the report of a deadlock. -/
def Lapse.Ordinary : Lapse → Prop
  | .error (.deadlock _) => False
  | _ => True

@[grind =] theorem Lapse.ordinary_error {cause : MachineError} :
    (Lapse.error cause).Ordinary ↔ ∀ blocked, cause ≠ .deadlock blocked := by
  cases cause <;> simp [Lapse.Ordinary]

@[grind =] theorem Lapse.ordinary_fault : Lapse.fault.Ordinary = True := rfl

@[grind =] theorem Lapse.ordinary_wild : Lapse.wild.Ordinary = True := rfl

/-- The action guides the contexts in a store. It is part of a larger state. -/
def Guiding {τ α : Type} (R : Bearing → Bearing → Prop) (view : τ → Store) (m : EStateM Lapse τ α) : Prop :=
  ∀ t, Safe Lapse.Ordinary m t fun _ t' => (view t).Guides R (view t')

/-- All contexts go on where they would have gone on. -/
abbrev Store.Steers (s s' : Store) : Prop := s.Guides Eq s'

abbrev Steering {τ α : Type} (view : τ → Store) (m : EStateM Lapse τ α) : Prop := Guiding Eq view m

variable {τ α β : Type} {view : τ → Store} {R : Bearing → Bearing → Prop} {s s' s'' : Store} {r c : Ref} {o old : Obj}

namespace Store.Guides

theorem refl (s : Store) : s.Steers s := ⟨fun _ f hf => ⟨f, hf, rfl⟩, fun _ k hk => ⟨k, hk⟩⟩

theorem trans {P Q : Bearing → Bearing → Prop} (join : ∀ x y z, P x y → Q y z → R x z) (a : s.Guides P s') (b : s'.Guides Q s'') :
    s.Guides R s'' where
  fibers c f hf := by
    obtain ⟨g, hg, first⟩ := a.fibers c f hf
    obtain ⟨h, hh, then_⟩ := b.fibers c g hg
    exact ⟨h, hh, join _ _ _ first then_⟩
  channels d k hk := by
    obtain ⟨k, hk⟩ := b.channels d k hk
    exact a.channels d k hk

/-- What leads nowhere may come first. -/
theorem after (a : s.Steers s') (b : s'.Guides R s'') : s.Guides R s'' :=
  trans (P := Eq) (Q := R) (fun _ _ _ e led => e ▸ led) a b

/-- What leads nowhere may come last. -/
theorem before (a : s.Guides R s') (b : s'.Steers s'') : s.Guides R s'' :=
  trans (P := R) (Q := Eq) (fun _ _ _ led e => e ▸ led) a b

theorem weaken {P : Bearing → Bearing → Prop} (a : s.Guides P s') (more : ∀ x y, P x y → R x y) : s.Guides R s' :=
  trans (P := P) (Q := Eq) (fun _ _ _ led e => e ▸ more _ _ led) a (refl s')

theorem push (plain : ∀ k, o ≠ .channel k) : s.Steers (s.push o) where
  fibers c f hf := by
    refine ⟨f, ?_, rfl⟩
    exact (List.getElem?_append_left (List.getElem?_eq_some_iff.mp hf).1).trans hf
  channels d k hk := by
    rcases Nat.lt_or_ge d s.objects.length with old | new
    · exact ⟨k, (List.getElem?_append_left old).symm.trans hk⟩
    · rw [Store.push, List.getElem?_append_right new, List.getElem?_singleton] at hk
      split at hk
      · exact absurd (Option.some.inj hk) (plain k)
      · cases hk

theorem set (ho : s.objects[r]? = some old) (same : ∀ f, old = .context f → ∃ g, o = .context g ∧ R f.bearing g.bearing)
    (other : ∀ f : Fiber, R f.bearing f.bearing) (channel : ∀ k, o = .channel k → ∃ k, old = .channel k) : s.Guides R (s.set r o) := by
  have inside := (List.getElem?_eq_some_iff.mp ho).1
  constructor
  · intro c f hf
    by_cases e : r = c
    · subst e
      rw [ho] at hf
      obtain ⟨g, rfl, led⟩ := same f (Option.some.inj hf)
      exact ⟨g, List.getElem?_set_self inside, led⟩
    · exact ⟨f, (List.getElem?_set_ne e).trans hf, other f⟩
  · intro d k hk
    by_cases e : r = d
    · subst e
      rw [Store.set, List.getElem?_set_self inside] at hk
      obtain ⟨k, rfl⟩ := channel k (Option.some.inj hk)
      exact ⟨k, ho⟩
    · exact ⟨k, (List.getElem?_set_ne e).symm.trans hk⟩

end Store.Guides

/-! ### Composing actions -/

namespace Guiding

@[grind ←] theorem pure (a : α) : Steering view (pure a : EStateM Lapse τ α) := fun _ => .pure (.refl _)

@[grind ←] theorem throw {l : Lapse} (ordinary : l.Ordinary) : Guiding R view (throw l : EStateM Lapse τ α) := fun _ => ordinary

theorem after {m : EStateM Lapse τ β} {k : β → EStateM Lapse τ α} (first : Steering view m) (next : ∀ b, Guiding R view (k b)) :
    Guiding R view (m >>= k) := fun t =>
  (first t).bind fun b t' s => (next b t').weaken fun _ _ s' => s.after s'

theorem before {m : EStateM Lapse τ β} {k : β → EStateM Lapse τ α} (first : Guiding R view m) (next : ∀ b, Steering view (k b)) :
    Guiding R view (m >>= k) := fun t =>
  (first t).bind fun b t' s => (next b t').weaken fun _ _ s' => s.before s'

@[grind ←] theorem bind {m : EStateM Lapse τ β} {k : β → EStateM Lapse τ α} (first : Steering view m)
    (next : ∀ b, Steering view (k b)) : Steering view (m >>= k) := after first next

theorem weaken {P : Bearing → Bearing → Prop} {m : EStateM Lapse τ α} (f : Guiding P view m) (more : ∀ x y, P x y → R x y) :
    Guiding R view m := fun t => (f t).weaken fun _ _ s => s.weaken more

/-- Where the contexts are led, whatever the failures. -/
theorem any {m : EStateM Lapse τ α} (f : Guiding R view m) (t : τ) : Safe Any m t fun _ t' => (view t).Guides R (view t') :=
  (f t).relax fun _ _ => trivial

@[grind ←] theorem look {see : Obj → Option α} : Steering id (look see r) := fun s =>
  Safe.look (fun _ _ => .refl s) fun _ => trivial

@[grind ←] theorem add (plain : ∀ k, o ≠ .channel k) : Steering id (add o) := fun _ => Safe.add (.push plain)

@[grind ←] theorem pushRoot : Steering id (pushRoot r) := fun s => Safe.of_ok rfl ⟨(Store.Guides.refl s).1, (Store.Guides.refl s).2⟩

@[grind ←] theorem withRoots {m : StoreM α} {ρ : List Ref} (inner : Guiding R id m) : Guiding R id (withRoots ρ m) := fun s =>
  Safe.withRoots ((inner { s with temporaries := s.temporaries ++ ρ }).weaken fun _ _ guided => ⟨guided.1, guided.2⟩)

@[grind ←] theorem expectRegistered : Steering id (expectRegistered c) := fun s => by
  unfold Safe Ideal.expectRegistered
  by_cases registered : c ∈ s.contexts
  · rw [if_pos registered]
    exact .refl s
  · rw [if_neg registered]
    trivial

@[grind ←] theorem onStore {m : StoreM α} (inner : Guiding R id m) : Guiding R Engine.store (liftM m : EngineM α) := fun e =>
  Engine.safe_store ((inner e.store).weaken fun _ _ guided => guided)

end Guiding

/-! ### What an object is -/

/-- What is seen of an object says what it is. -/
theorem object_of_view {see : Obj → Option β} {b : β} (seen : s.objects[r]?.bind see = some b) :
    ∃ o, s.objects[r]? = some o ∧ see o = some b := Option.bind_eq_some_iff.mp seen

section

variable {t : Tag} {xs : List Ref} {f : Fiber} {k : Duct} {w : Word}

theorem object_of_fiber (seen : s.objects[r]?.bind Obj.fiber? = some f) : s.objects[r]? = some (.context f) := by
  obtain ⟨o, ho, eq⟩ := object_of_view seen
  cases o <;> cases eq
  exact ho

theorem object_of_items (seen : s.objects[r]?.bind Obj.items? = some (t, xs)) : s.objects[r]? = some (.sequence t xs) := by
  obtain ⟨o, ho, eq⟩ := object_of_view seen
  cases o <;> cases eq
  exact ho

theorem object_of_duct (seen : s.objects[r]?.bind Obj.duct? = some k) : s.objects[r]? = some (.channel k) := by
  obtain ⟨o, ho, eq⟩ := object_of_view seen
  cases o <;> cases eq
  exact ho

theorem object_of_group (seen : s.objects[r]?.bind Obj.group? = some (w, xs)) : s.objects[r]? = some (.waitGroup w xs) := by
  obtain ⟨o, ho, eq⟩ := object_of_view seen
  cases o <;> cases eq
  exact ho

theorem object_of_request {p : Request} (seen : s.objects[r]?.bind Obj.request? = some p) : s.objects[r]? = some (.request p) := by
  obtain ⟨o, ho, eq⟩ := object_of_view seen
  cases o <;> cases eq
  exact ho

theorem object_of_method {g n : Ref} (seen : s.objects[r]?.bind Obj.method? = some (g, n)) : s.objects[r]? = some (.method g n) := by
  obtain ⟨o, ho, eq⟩ := object_of_view seen
  cases o <;> cases eq
  exact ho

theorem object_of_bytes {bs : List UInt8} (seen : s.objects[r]?.bind Obj.bytes? = some bs) : s.objects[r]? = some (.text bs) := by
  obtain ⟨o, ho, eq⟩ := object_of_view seen
  cases o <;> cases eq
  exact ho

theorem object_of_code {k : Code} (seen : s.objects[r]?.bind Obj.code? = some k) : s.objects[r]? = some (.func k) := by
  obtain ⟨o, ho, eq⟩ := object_of_view seen
  cases o <;> cases eq
  exact ho

end

/-! ### Actions on the store -/

namespace Guiding

variable {i j n depth pc : Nat} {x : Int} {t : Tag} {u : Direction} {xs l : List Ref} {env v d q g : Ref} {a b : Option Int} {y : Int64}

@[grind ←] theorem reject (cause : HeapError) : Steering id (Ideal.reject cause : StoreM α) := by
  unfold Ideal.reject
  grind

@[grind ←] theorem wild : Steering id (Ideal.wild : StoreM α) := by
  unfold Ideal.wild
  grind

@[grind ←] theorem fault : Steering id (Ideal.fault : StoreM α) := by
  unfold Ideal.fault
  grind

@[grind ←] theorem tag : Steering id (Ideal.tag r) := by
  unfold Ideal.tag
  grind

@[grind ←] theorem expect : Steering id (Ideal.expect r t) := by
  unfold Ideal.expect
  grind

@[grind ←] theorem expectListable : Steering id (Ideal.expectListable n) := by
  unfold Ideal.expectListable
  grind

@[grind ←] theorem within : Steering id (Ideal.within x n) := by
  unfold Ideal.within
  grind

@[grind ←] theorem word : Steering id (Ideal.word r) := by
  unfold Ideal.word
  grind

@[grind ←] theorem newInt {w : Int64} : Steering id (Ideal.newInt w) := by
  unfold Ideal.newInt
  grind

@[grind ←] theorem newFloat {w : Binary64} : Steering id (Ideal.newFloat w) := by
  unfold Ideal.newFloat
  grind

@[grind ←] theorem newBool {w : Bool} : Steering id (Ideal.newBool w) := by
  unfold Ideal.newBool
  grind

@[grind ←] theorem int : Steering id (Ideal.int r) := by
  unfold Ideal.int
  grind

@[grind ←] theorem float : Steering id (Ideal.float r) := by
  unfold Ideal.float
  grind

@[grind ←] theorem bool : Steering id (Ideal.bool r) := by
  unfold Ideal.bool
  grind

@[grind ←] theorem expectInt : Steering id (Ideal.expectInt r) := by
  unfold Ideal.expectInt
  grind

@[grind ←] theorem expectBool : Steering id (Ideal.expectBool r) := by
  unfold Ideal.expectBool
  grind

@[grind ←] theorem bytes : Steering id (Ideal.bytes r) := by
  unfold Ideal.bytes
  grind

@[grind ←] theorem newText {bs : List UInt8} : Steering id (Ideal.newText bs) := by
  unfold Ideal.newText
  grind

@[grind ←] theorem byteAt : Steering id (Ideal.byteAt r x) := by
  unfold Ideal.byteAt
  grind

@[grind ←] theorem items : Steering id (Ideal.items r) := by
  unfold Ideal.items
  grind

@[grind ←] theorem newSequence : Steering id (Ideal.newSequence t xs) := by
  unfold Ideal.newSequence
  grind

@[grind ←] theorem getItem : Steering id (Ideal.getItem r x) := by
  unfold Ideal.getItem
  grind

@[grind ←] theorem setSlot : Steering id (Ideal.setSlot r i v) := fun s =>
  Safe.look_bind (fun _ seen => by
    dsimp only
    split
    · exact Safe.replace (.set (object_of_items seen) nofun (fun _ => rfl) nofun)
    · trivial) fun _ => trivial

@[grind ←] theorem putItems : Steering id (Ideal.putItems r i xs) := fun s =>
  Safe.look_bind (fun _ seen => by
    dsimp only
    split
    · exact Safe.replace (.set (object_of_items seen) nofun (fun _ => rfl) nofun)
    · trivial) fun _ => trivial

@[grind ←] theorem setItem : Steering id (Ideal.setItem r x v) := by
  unfold Ideal.setItem
  grind

@[grind ←] theorem extend : Steering id (Ideal.extend env v) := by
  unfold Ideal.extend
  grind

@[grind ←] theorem frame : Steering id (Ideal.frame env i) := by
  unfold Ideal.frame
  grind

@[grind ←] theorem lookup : Steering id (Ideal.lookup env i j) := by
  unfold Ideal.lookup
  grind

@[grind ←] theorem assign : Steering id (Ideal.assign env i j v) := by
  unfold Ideal.assign
  grind

@[grind ←] theorem sliceOf : Steering id (Ideal.sliceOf r) := by
  unfold Ideal.sliceOf
  grind

@[grind ←] theorem itemsBehind : Steering id (Ideal.itemsBehind r) := by
  unfold Ideal.itemsBehind
  grind

@[grind ←] theorem window : Steering id (Ideal.window r i j) := by
  unfold Ideal.window
  grind

@[grind ←] theorem sliceLength : Steering id (Ideal.sliceLength r) := by
  unfold Ideal.sliceLength
  grind

@[grind ←] theorem sliceCapacity : Steering id (Ideal.sliceCapacity r) := by
  unfold Ideal.sliceCapacity
  grind

@[grind ←] theorem elements : Steering id (Ideal.elements r) := by
  unfold Ideal.elements
  grind

@[grind ←] theorem slicePosition : Steering id (Ideal.slicePosition r x) := by
  unfold Ideal.slicePosition
  grind

@[grind ←] theorem sliceGet : Steering id (Ideal.sliceGet r x) := by
  unfold Ideal.sliceGet
  grind

@[grind ←] theorem sliceSet : Steering id (Ideal.sliceSet r x v) := by
  unfold Ideal.sliceSet
  grind

@[grind ←] theorem checkBounds {y : Int} : Steering id (Ideal.checkBounds x y n) := by
  unfold Ideal.checkBounds
  grind

@[grind ←] theorem ofSlice : Steering id (Ideal.ofSlice r a b) := by
  unfold Ideal.ofSlice
  grind

@[grind ←] theorem ofArray : Steering id (Ideal.ofArray r a b) := by
  unfold Ideal.ofArray
  grind

@[grind ←] theorem append : Steering id (Ideal.append r xs) := by
  unfold Ideal.append
  grind

@[grind ←] theorem code : Steering id (Ideal.code r) := by
  unfold Ideal.code
  grind

@[grind ←] theorem newCode : Steering id (Ideal.newCode i j env n) := by
  unfold Ideal.newCode
  grind

@[grind ←] theorem methodOf : Steering id (Ideal.methodOf r) := by
  unfold Ideal.methodOf
  grind

@[grind ←] theorem newMethod {name : String} : Steering id (Ideal.newMethod r name) := by
  unfold Ideal.newMethod
  grind

@[grind ←] theorem newMarker {p : Option Nat} : Steering id (Ideal.newMarker p) := by
  unfold Ideal.newMarker
  grind

@[grind ←] theorem target : Steering id (Ideal.target r) := by
  unfold Ideal.target
  grind

@[grind ←] theorem fiber : Steering id (Ideal.fiber c) := by
  unfold Ideal.fiber
  grind

@[grind ←] theorem peekOperand : Steering id (Ideal.peekOperand c) := by
  unfold Ideal.peekOperand
  grind

@[grind ←] theorem request : Steering id (Ideal.request q) := by
  unfold Ideal.request
  grind

@[grind ←] theorem newRequest {p : Request} : Steering id (Ideal.newRequest p) := by
  unfold Ideal.newRequest
  grind

@[grind ←] theorem duct : Steering id (Ideal.duct d) := by
  unfold Ideal.duct
  grind

@[grind ←] theorem group : Steering id (Ideal.group g) := by
  unfold Ideal.group
  grind

@[grind ←] theorem newGroup : Steering id (Ideal.newGroup) := by
  unfold Ideal.newGroup
  grind

/-- New registers, which are in the relation to the old ones. -/
theorem update {h : Fiber → Fiber} (same : ∀ f, R f.bearing (h f).bearing) (other : ∀ f : Fiber, R f.bearing f.bearing) :
    Guiding R id (Ideal.update c h) := fun s =>
  Safe.look_bind (fun f seen => Safe.replace (.set (object_of_fiber seen) (fun _ e => by cases e; exact ⟨_, rfl, same f⟩) other nofun))
    fun _ => trivial

@[grind ←] theorem setBlocked {blocked : Bool} : Steering id (Ideal.setBlocked c blocked) := update (fun _ => rfl) fun _ => rfl

@[grind ←] theorem pushOperand : Steering id (Ideal.pushOperand c v) := by
  have push := update (R := Eq) (c := c) (h := fun f => { f with operands := f.operands ++ [v] }) (fun _ => rfl) fun _ => rfl
  unfold Ideal.pushOperand
  grind

@[grind ←] theorem popOperand : Steering id (Ideal.popOperand c) := fun s =>
  Safe.look_bind (fun f seen => by
    split
    · trivial
    · exact Safe.bind (Q := fun _ s' => s.Steers s')
        (Safe.replace (.set (object_of_fiber seen) (fun _ e => by cases e; exact ⟨_, rfl, rfl⟩) (fun _ => rfl) nofun))
        fun _ _ steers => .pure steers) fun _ => trivial

/-! ### Channels and wait groups -/

@[grind ←] theorem takeWaiter : Steering id (Ideal.takeWaiter d u) := fun s =>
  Safe.look_bind (fun k seen => by
    refine Safe.skip (a := s) rfl ?_
    split
    · exact Safe.bind (Q := fun _ s' => s.Steers s')
        (Safe.replace (.set (object_of_duct seen) nofun (fun _ => rfl) fun _ _ => ⟨k, rfl⟩)) fun _ _ steers => .pure steers
    · trivial) fun _ => trivial

@[grind ←] theorem withdraw : Steering id (Ideal.withdraw q) := by
  have entry (p : Request) : Steering id (do
      let k ← Ideal.duct p.channel
      replace p.channel (.channel { k with waiters := k.waiters.erase q })) := fun s =>
    Safe.look_bind (fun k seen => Safe.replace (.set (object_of_duct seen) nofun (fun _ => rfl) fun _ _ => ⟨k, rfl⟩)) fun _ => trivial
  unfold Ideal.withdraw
  grind

theorem forM {f : β → EStateM Lapse τ Unit} {ys : List β} (each : ∀ b, Steering view (f b)) : Steering view (ys.forM f) := by
  induction ys with
  | nil => exact .pure ()
  | cons b rest ih => exact .bind (each b) fun _ => ih

@[grind ←] theorem cancelWaits : Steering id (Ideal.cancelWaits c) :=
  .bind fiber fun _ => .bind (forM fun _ => withdraw) fun _ => update (fun _ => rfl) fun _ => rfl

@[grind ←] theorem tryPush : Steering id (Ideal.tryPush d v) := fun s =>
  Safe.look_bind (fun k seen => by
    split
    · exact .pure (.refl s)
    · exact Safe.bind (Q := fun _ s' => s.Steers s')
        (Safe.replace (.set (object_of_duct seen) nofun (fun _ => rfl) fun _ _ => ⟨k, rfl⟩)) fun _ _ steers => .pure steers)
    fun _ => trivial

@[grind ←] theorem popBuffer : Steering id (Ideal.popBuffer d) := fun s =>
  Safe.look_bind (fun k seen => by
    split
    · exact .pure (.refl s)
    · exact Safe.bind (Q := fun _ s' => s.Steers s')
        (Safe.replace (.set (object_of_duct seen) nofun (fun _ => rfl) fun _ _ => ⟨k, rfl⟩)) fun _ _ steers => .pure steers)
    fun _ => trivial

/-- Nothing changes when it is checked that a context is registered. -/
theorem expectRegistered_same : Safe Lapse.Ordinary (Ideal.expectRegistered c) s fun _ s' => s' = s := by
  unfold Safe Ideal.expectRegistered
  by_cases registered : c ∈ s.contexts
  · rw [if_pos registered]
  · rw [if_neg registered]
    trivial

/-- Nothing changes when the waiting requests are looked through. -/
theorem opposes_same : Safe Lapse.Ordinary (Ideal.opposes c u l) s fun _ s' => s' = s := by
  induction l with
  | nil => exact .pure rfl
  | cons q rest ih =>
    refine Safe.look_bind (fun p _ => ?_) fun _ => trivial
    split
    · exact .pure rfl
    · exact ih

@[grind ←] theorem park : Steering id (Ideal.park q) := fun s =>
  Safe.look_bind (fun p _ => Safe.look_bind (fun k seen => Safe.bind opposes_same (by
    rintro opposed s rfl
    cases opposed with
    | true => trivial
    | false =>
      refine Safe.bind expectRegistered_same ?_
      rintro _ s rfl
      refine Safe.bind (Q := fun _ s' => s.Steers s')
        (Safe.replace (.set (object_of_duct seen) nofun (fun _ => rfl) fun _ _ => ⟨k, rfl⟩)) fun _ s₁ steers => ?_
      have enter : Steering id (do
          Ideal.withRoots [q] (Ideal.update p.context fun f => { f with waits := f.waits ++ [q] })
          return ((), [Event.parked p.channel p.direction q])) :=
        .bind (withRoots (update (fun _ => rfl) fun _ => rfl)) fun _ => .pure _
      exact (enter s₁).weaken fun _ _ more => steers.after more)) fun _ => trivial) fun _ => trivial

@[grind ←] theorem releaseFrom : Steering id (Ideal.releaseFrom g n) := by
  induction n with
  | zero => exact .pure _
  | succ n ih =>
    intro s
    refine Safe.look_bind (fun p seen => ?_) fun _ => trivial
    obtain ⟨w, _ | ⟨c, rest⟩⟩ := p
    · exact .pure (.refl s)
    · refine Safe.bind (Q := fun _ s' => s.Steers s') (Safe.replace (.set (object_of_group seen) nofun (fun _ => rfl) nofun))
        fun _ s₁ steers => ?_
      have rest : Steering id (do
          Ideal.cancelWaits c
          Ideal.setBlocked c false
          return c :: (← Ideal.releaseFrom g n)) := .bind cancelWaits fun _ => .bind setBlocked fun _ => .bind ih fun _ => .pure _
      exact (rest s₁).weaken fun _ _ more => steers.after more

@[grind ←] theorem addToGroup : Steering id (Ideal.addToGroup g y) := fun s =>
  Safe.look_bind (fun p seen => by
    obtain ⟨w, waiters⟩ := p
    dsimp only
    split
    · trivial
    · split
      · trivial
      · refine Safe.bind (Q := fun _ s' => s.Steers s') (Safe.replace (.set (object_of_group seen) nofun (fun _ => rfl) nofun))
          fun _ s₁ steers => ?_
        split
        · exact (releaseFrom s₁).weaken fun _ _ more => steers.after more
        · exact .pure steers) fun _ => trivial

@[grind ←] theorem waitFor : Steering id (Ideal.waitFor g c) := fun s =>
  Safe.look_bind (fun p seen => by
    obtain ⟨w, waiters⟩ := p
    dsimp only
    split
    · exact .pure (.refl s)
    · refine Safe.bind expectRegistered_same ?_
      rintro _ s rfl
      refine Safe.bind (Q := fun _ s' => s.Steers s') (Safe.withRoots ?_) fun _ s₁ steers => ?_
      · refine Safe.bind (Q := fun _ s' => s.Steers s') (Safe.replace ?_) fun _ s₁ steers => ?_
        · have set : s.Steers (s.set g (.waitGroup w (waiters ++ [c]))) := .set (object_of_group seen) nofun (fun _ => rfl) nofun
          exact ⟨set.1, set.2⟩
        · have enter : Steering id (Ideal.update c fun f => { f with waits := f.waits ++ [g] }) := update (fun _ => rfl) fun _ => rfl
          refine (enter s₁).weaken fun _ s₂ more => ?_
          have both := steers.after more
          exact ⟨both.1, both.2⟩
      · have block : Steering id (do
            Ideal.setBlocked c true
            return true) := .bind setBlocked fun _ => .pure _
        exact (block s₁).weaken fun _ _ more => steers.after more) fun _ => trivial

/-! ### Values -/

@[grind ←] theorem duplicate : Steering id (Ideal.duplicate r) := by
  unfold Ideal.duplicate
  grind

@[grind ←] theorem fillSlots {f : Ref → StoreM Ref} (each : ∀ v, Steering id (f v)) : Steering id (Ideal.fillSlots f r i xs) := by
  induction xs generalizing i with
  | nil => exact .pure ()
  | cons v rest ih => exact .bind (each v) fun _ => .bind setSlot fun _ => ih

@[grind ←] theorem copyWithin : Steering id (Ideal.copyWithin n xs r) := by
  induction n generalizing xs r with
  | zero => exact wild
  | succ n ih =>
    refine .bind tag fun t => ?_
    split <;> grind

@[grind ←] theorem copy : Steering id (Ideal.copy r) := fun s => copyWithin s

theorem mapM {f : β → EStateM Lapse τ α} {ys : List β} (each : ∀ b, Steering view (f b)) : Steering view (ys.mapM f) := by
  induction ys with
  | nil => exact .pure []
  | cons b rest ih =>
    rw [List.mapM_cons]
    exact .bind (each b) fun _ => .bind ih fun _ => .pure _

@[grind ←] theorem displayWithin : Steering id (Ideal.displayWithin n r) := by
  induction n generalizing r with
  | zero => exact fault
  | succ n ih =>
    have each (xs : List Ref) : Steering id (xs.mapM (Ideal.displayWithin n)) := mapM fun _ => ih
    refine .bind tag fun t => ?_
    split <;> grind

/-! ### The machine -/

@[grind ←] theorem abort {cause : MachineError} (ordinary : (Lapse.error cause).Ordinary) : Steering Engine.store (Engine.abort cause : EngineM α) := by
  unfold Engine.abort
  grind

@[grind ←] theorem unexpected {t u : Tag} : Steering Engine.store (Engine.unexpected t u : EngineM α) := by
  unfold Engine.unexpected
  grind

@[grind ←] theorem pop : Steering Engine.store (Engine.pop c) := by
  unfold Engine.pop
  grind

@[grind ←] theorem popOnto : Steering Engine.store (Engine.popOnto c xs n) := by
  induction n generalizing xs with
  | zero => exact .pure xs
  | succ n ih => exact .bind pop fun _ => ih

@[grind ←] theorem popMany : Steering Engine.store (Engine.popMany c n) := by
  unfold Engine.popMany
  grind

@[grind ←] theorem popInt : Steering Engine.store (Engine.popInt c) := by
  unfold Engine.popInt
  grind

@[grind ←] theorem popBool : Steering Engine.store (Engine.popBool c) := by
  unfold Engine.popBool
  grind

@[grind ←] theorem push : Steering Engine.store (Engine.push c v) := by
  unfold Engine.push
  grind

@[grind ←] theorem protecting {m : StoreM Ref} (made : Steering id m) : Steering Engine.store (Engine.protecting m) := by
  unfold Engine.protecting
  grind

@[grind ←] theorem copies : Steering Engine.store (Engine.copies xs) := by
  induction xs with
  | nil => exact .pure []
  | cons v rest ih => exact .bind (protecting copy) fun _ => .bind ih fun _ => .pure _

@[grind ←] theorem load {m : StoreM Ref} (made : Steering id m) : Steering Engine.store (Engine.load c m) := by
  unfold Engine.load
  grind

@[grind ←] theorem expectWoken {woken : Option Ref} : Steering id (Engine.expectWoken woken) := by
  unfold Engine.expectWoken
  grind

/-- What concerns only the rest of the engine. -/
theorem beside {m : EngineM α} (same : ∀ e, Safe Lapse.Ordinary m e fun _ e' => e'.store = e.store) : Steering Engine.store m := fun e =>
  (same e).weaken fun _ _ same => same ▸ .refl _

@[grind ←] theorem enqueue : Steering Engine.store (Engine.enqueue c) :=
  .bind (.onStore expectRegistered) fun _ => beside fun _ => Safe.of_ok rfl rfl

@[grind ←] theorem shuffled : Steering Engine.store (Engine.shuffled xs) := beside fun _ => Safe.of_ok rfl rfl

@[grind ←] theorem zeroValue {kind : ValueKind} : Steering id (Engine.zeroValue kind) := by
  unfold Engine.zeroValue
  grind

@[grind ←] theorem newFrame : Steering id (Engine.newFrame n) := by
  unfold Engine.newFrame
  grind

@[grind ←] theorem execLoadVar : Steering Engine.store (Engine.execLoadVar c i j) := by
  unfold Engine.execLoadVar
  grind

@[grind ←] theorem execStoreVar : Steering Engine.store (Engine.execStoreVar c i j) := by
  unfold Engine.execStoreVar
  grind

@[grind ←] theorem box {p : Machine.Primitive} : Steering id (Engine.box p) := by
  unfold Engine.box
  grind

@[grind ←] theorem sameReference? : Steering id (Engine.sameReference? r v) := by
  unfold Engine.sameReference?
  grind

/-! Operators report no deadlocks. -/

section

variable {p : BinaryOp} {cause : MachineError} {t t' : Tag}

attribute [local grind] Machine.notDefined

theorem comparison_ordinary {order : Ordering} (failed : Machine.comparison p order t t' = .error cause) : (Lapse.error cause).Ordinary := by
  grind [Machine.comparison]

theorem onInts_ordinary {a b : Int64} (failed : Machine.onInts p a b = .error cause) : (Lapse.error cause).Ordinary := by
  cases p <;> grind [Machine.onInts, Machine.comparison]

theorem onFloats_ordinary {a b : Binary64} (failed : Machine.onFloats p a b = .error cause) : (Lapse.error cause).Ordinary := by
  cases p <;> grind [Machine.onFloats]

theorem onBools_ordinary {a b : Bool} (failed : Machine.onBools p a b = .error cause) : (Lapse.error cause).Ordinary := by
  cases p <;> grind [Machine.onBools]

@[grind ←] theorem ofExcept {m : Except MachineError α} (ordinary : ∀ cause, m = .error cause → (Lapse.error cause).Ordinary) :
    Steering Engine.store (Engine.ofExcept m) := by
  cases m with
  | ok a => exact .pure a
  | error cause => exact .abort (ordinary cause rfl)

@[grind ←] theorem onReferences : Steering Engine.store (Engine.onReferences p r v) := by
  unfold Engine.onReferences
  grind

@[grind ←] theorem applyBinary : Steering Engine.store (Engine.applyBinary p r v) := by
  refine .bind (.onStore tag) fun _ => .bind (.onStore tag) fun _ => ?_
  split
  · exact .bind (.onStore int) fun _ => .bind (.onStore int) fun _ => .bind (ofExcept fun _ => onInts_ordinary) fun _ => .onStore box
  · exact .bind (.onStore float) fun _ => .bind (.onStore float) fun _ =>
      .bind (ofExcept fun _ => onFloats_ordinary) fun _ => .onStore box
  · exact .bind (.onStore bool) fun _ => .bind (.onStore bool) fun _ => .bind (ofExcept fun _ => onBools_ordinary) fun _ => .onStore box
  · split
    · grind
    · exact .bind (.onStore bytes) fun _ => .bind (.onStore bytes) fun _ =>
        .bind (ofExcept fun _ => comparison_ordinary) fun _ => .onStore box
  · grind

end

@[grind ←] theorem execBinary {p : BinaryOp} : Steering Engine.store (Engine.execBinary c p) := by
  unfold Engine.execBinary
  grind

@[grind ←] theorem applyUnary {p : UnaryOp} : Steering Engine.store (Engine.applyUnary p r) := by
  unfold Engine.applyUnary
  refine .bind (.onStore tag) fun _ => ?_
  split <;> grind

@[grind ←] theorem execUnary {p : UnaryOp} : Steering Engine.store (Engine.execUnary c p) := by
  unfold Engine.execUnary
  grind

@[grind ←] theorem execLoadFunc : Steering Engine.store (Engine.execLoadFunc c pc i n) := by
  unfold Engine.execLoadFunc
  grind

@[grind ←] theorem bindParameters : Steering Engine.store (Engine.bindParameters r i xs) := by
  induction xs generalizing i with
  | nil => exact .pure ()
  | cons v rest ih => exact .bind (.onStore copy) fun _ => .bind (.onStore setItem) fun _ => ih

@[grind ←] theorem bindArguments : Steering Engine.store (Engine.bindArguments r xs) := by
  unfold Engine.bindArguments
  refine .bind (.onStore code) fun _ => ?_
  dsimp only
  split <;> grind

@[grind ←] theorem expectArguments : Steering Engine.store (Engine.expectArguments xs n) := by
  unfold Engine.expectArguments
  grind

@[grind ←] theorem wakeAll : Steering Engine.store (Engine.wakeAll xs) := .bind (forM fun _ => enqueue) fun _ => .pure _

@[grind ←] theorem callMethod {name : String} : Steering Engine.store (Engine.callMethod c r name xs) := by
  unfold Engine.callMethod
  refine .bind (.onStore tag) fun _ => ?_
  split <;> grind

@[grind ←] theorem execLoadMethod {name : String} : Steering Engine.store (Engine.execLoadMethod c name) := by
  unfold Engine.execLoadMethod
  grind

@[grind ←] theorem execCallMethod {name : String} : Steering Engine.store (Engine.execCallMethod c name n) := by
  unfold Engine.execCallMethod
  grind

@[grind ←] theorem execPrint {newline : Bool} : Steering Engine.store (Engine.execPrint depth c n newline) :=
  .bind popMany fun _ => .bind (mapM fun _ => .onStore displayWithin) fun _ => beside fun _ => Safe.of_ok rfl rfl

@[grind ←] theorem execMakeArray : Steering Engine.store (Engine.execMakeArray c n) := by
  unfold Engine.execMakeArray
  grind

@[grind ←] theorem fillZero {kind : ValueKind} : Steering Engine.store (Engine.fillZero r kind i n) := by
  induction n generalizing i with
  | zero => exact .pure ()
  | succ n ih => exact .bind (.onStore zeroValue) fun _ => .bind (.onStore setSlot) fun _ => ih

@[grind ←] theorem map {f : α → β} {m : EStateM Lapse τ α} (inner : Steering view m) : Steering view (f <$> m) := by
  rw [map_eq_pure_bind]
  exact .bind inner fun _ => .pure _

@[grind ←] theorem execMakeSlice {kind : ValueKind} {sized : Bool} : Steering Engine.store (Engine.execMakeSlice c kind sized) := by
  unfold Engine.execMakeSlice
  grind

@[grind ←] theorem execIndex : Steering Engine.store (Engine.execIndex c) := by
  unfold Engine.execIndex
  refine .bind popInt fun _ => .bind pop fun _ => .bind (.onStore tag) fun _ => ?_
  split <;> grind

@[grind ←] theorem storeAt : Steering Engine.store (Engine.storeAt r x v) := by
  unfold Engine.storeAt
  refine .bind (.onStore tag) fun _ => ?_
  split <;> grind

@[grind ←] theorem execStoreIndex : Steering Engine.store (Engine.execStoreIndex c) := by
  unfold Engine.execStoreIndex
  grind

@[grind ←] theorem execLen : Steering Engine.store (Engine.execLen c) := by
  unfold Engine.execLen
  refine .bind pop fun _ => .bind (.onStore tag) fun _ => ?_
  split <;> grind

@[grind ←] theorem execCap : Steering Engine.store (Engine.execCap c) := by
  unfold Engine.execCap
  refine .bind pop fun _ => .bind (.onStore tag) fun _ => ?_
  split <;> grind

@[grind ←] theorem substring : Steering id (Engine.substring r a b) := by
  unfold Engine.substring
  grind

@[grind ←] theorem execSlice {low high : Bool} : Steering Engine.store (Engine.execSlice c low high) := by
  unfold Engine.execSlice
  grind

@[grind ←] theorem execAppend : Steering Engine.store (Engine.execAppend c n) := by
  unfold Engine.execAppend
  grind

@[grind ←] theorem expectChannel : Steering id (Engine.expectChannel r) := by
  unfold Engine.expectChannel
  grind

@[grind ←] theorem blockForever : Steering Engine.store (Engine.blockForever c) := by
  unfold Engine.blockForever
  grind

@[grind ←] theorem parkRequest {p : Request} : Steering Engine.store (Engine.parkRequest p) := by
  unfold Engine.parkRequest
  grind

@[grind ←] theorem wakeOption {p : Option Ref} : Steering Engine.store (Engine.wakeOption p) := by
  unfold Engine.wakeOption
  grind

@[grind ←] theorem execSelectSend : Steering Engine.store (Engine.execSelectSend c n) := by
  unfold Engine.execSelectSend
  grind

@[grind ←] theorem execSelectRecv : Steering Engine.store (Engine.execSelectRecv c n) := by
  unfold Engine.execSelectRecv
  grind

@[grind ←] theorem parkAll : Steering id (Engine.parkAll xs) := by
  induction xs with
  | nil => exact .pure _
  | cons q rest ih =>
    unfold Engine.parkAll
    grind

end Guiding

end FiberMachine.Ideal
