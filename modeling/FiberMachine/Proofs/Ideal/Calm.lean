import FiberMachine.Proofs.Ideal.Typing

/-!
# Calm actions

In a typed store the actions on numbers, strings, sequences and slices never go wild, keep the store typed and
leave the communication state alone. An error that says that waiters are mixed is none of theirs.
-/

namespace FiberMachine.Ideal

/-- How an action may fail: it never goes wild, waiters are never mixed, and an assertion breaks only if `F`. -/
def Admits (F : Prop) : Lapse → Prop
  | .error cause => cause ≠ .heap (.mixedWaiters 0)
  | .fault => F
  | .wild => False

variable {F : Prop} {α β : Type} {s s' : Store} {r x v c q array : Ref} {t : Tag} {i k : Nat} {o : Obj} {xs : List Ref}

/-- The action changes nothing and answers something with the property `P`, or fails in an admitted way. -/
def Observes (F : Prop) (n : StoreM α) (s : Store) (P : α → Prop) : Prop :=
  Safe (Admits F) n s fun a s' => s' = s ∧ P a

/-- The action is calm and has the postcondition `P`, or fails in an admitted way. -/
def Quiet (F : Prop) (n : StoreM α) (s : Store) (P : α → Store → Prop) : Prop :=
  Safe (Admits F) n s fun a s' => Calm s s' ∧ P a s'

namespace Observes

variable {n : StoreM α} {P : α → Prop} {Q : β → Store → Prop} {l : α → StoreM β}

theorem pure {a : α} (p : P a) : Observes F (pure a) s P := ⟨rfl, p⟩

/-- An observation comes first. -/
theorem bind (f : Observes F n s P) (next : ∀ a, P a → Safe (Admits F) (l a) s Q) : Safe (Admits F) (n >>= l) s Q :=
  Safe.bind f fun _ _ ⟨same, p⟩ => same ▸ next _ p

theorem quiet (typed : s.Typed) (f : Observes F n s P) : Quiet F n s fun a _ => P a :=
  Safe.weaken f fun _ _ ⟨same, p⟩ => ⟨same.symm ▸ .refl typed, p⟩

theorem weaken {R : α → Prop} (f : Observes F n s P) (more : ∀ a, P a → R a) : Observes F n s R :=
  Safe.weaken f fun _ _ ⟨same, p⟩ => ⟨same, more _ p⟩

theorem reject {cause : HeapError} (other : cause ≠ .mixedWaiters 0) : Observes F (reject cause : StoreM α) s P :=
  fun same => other (by cases same; rfl)

/-- What is seen of a known object. -/
theorem look {view : Obj → Option α} {a : α} (ho : s.objects[r]? = some o) (ha : view o = some a) :
    Observes F (look view r) s fun b => b = a := by
  have seen : s.objects[r]?.bind view = some a := by rw [ho]; exact ha
  exact Safe.look (fun b hb => ⟨rfl, Option.some.inj (hb.symm.trans seen)⟩) fun no => nomatch no.symm.trans seen

theorem tag (ho : s.objects[r]? = some o) : Observes F (tag r) s fun t => t = o.tag := look ho rfl

/-- The object is of the expected kind, or the action is rejected. -/
theorem expect (known : s.Known r) (t : Tag) : Observes F (expect r t) s fun _ => s.IsTag r t := by
  obtain ⟨o, ho⟩ := known
  refine (tag ho).bind fun found same => ?_
  split
  · exact reject (by simp)
  next eq => exact ⟨rfl, o, ho, same.symm.trans (Decidable.not_not.mp eq)⟩

theorem within (index : Int) (n : Nat) : Observes F (within index n) s fun i => i < n ∧ index = i := by
  unfold Ideal.within
  split
  · exact Observes.bind (P := fun _ => False) (reject (by simp)) fun _ no => no.elim
  next inside => exact ⟨rfl, by omega, by omega⟩

end Observes

namespace Quiet

variable {n : StoreM α} {P : α → Store → Prop} {Q : β → Store → Prop} {l : α → StoreM β}

theorem pure {a : α} (typed : s.Typed) (p : P a s) : Quiet F (pure a) s P := ⟨.refl typed, p⟩

/-- One calm action after another. -/
theorem bind (f : Quiet F n s P) (next : ∀ a s', Calm s s' → P a s' → Quiet F (l a) s' Q) : Quiet F (n >>= l) s Q :=
  Safe.bind f fun a s' ⟨calm, p⟩ => (next a s' calm p).weaken fun _ _ ⟨calm', q⟩ => ⟨calm.trans calm', q⟩

theorem weaken {R : α → Store → Prop} (f : Quiet F n s P) (more : ∀ a s', Calm s s' → P a s' → R a s') : Quiet F n s R :=
  Safe.weaken f fun a s' ⟨calm, p⟩ => ⟨calm, more a s' calm p⟩

theorem reject {cause : HeapError} (other : cause ≠ .mixedWaiters 0) : Quiet F (reject cause : StoreM α) s P :=
  fun same => other (by cases same; rfl)

/-- What is seen of a known object decides how the action goes on. -/
theorem look {R : β → Store → Prop} {view : Obj → Option α} {a : α} (ho : s.objects[r]? = some o) (ha : view o = some a)
    (next : Safe (Admits F) (l a) s R) : Safe (Admits F) (Ideal.look view r >>= l) s R :=
  (Observes.look ho ha).bind fun _ same => same ▸ next

/-- A new object is known, and of its kind. -/
theorem add (typed : s.Typed) (good : o.Good s) (plain : o.wiring = .none) :
    Quiet F (add o) s fun r s' => s'.objects[r]? = some o ∧ r = s.objects.length ∧ s' = s.push o :=
  ⟨.push typed good plain, by rw [Store.getElem?_push, if_pos rfl], rfl, rfl⟩

theorem make (typed : s.Typed) (good : o.Good s) (plain : o.wiring = .none) :
    Quiet F (Ideal.add o) s fun r s' => s'.IsTag r o.tag :=
  (add typed good plain).weaken fun _ _ _ ⟨ho, _⟩ => ⟨o, ho, rfl⟩

/-- An object is replaced by one of the same kind and with the same communication state. -/
theorem replace {old : Obj} (typed : s.Typed) (ho : s.objects[r]? = some old) (same : o.frozen = old.frozen) (good : o.Good s)
    (wiring : o.wiring = old.wiring)
    (clear : ∀ xs, o = .sequence .array xs → ∀ x ∈ xs, s.Nests x r ∨ ¬s.Within r x) :
    Quiet F (replace r o) s fun _ s' => s' = s.set r o :=
  ⟨.set typed ho same good clear wiring, rfl⟩

/-- Protection does not matter. -/
theorem withRoots {ρ : List Ref}
    (inner : ({ s with temporaries := s.temporaries ++ ρ } : Store).Typed → Quiet F n { s with temporaries := s.temporaries ++ ρ } P)
    (typed : s.Typed)
    (more : ∀ a s', P a s' → P a { s' with temporaries := s'.temporaries.take s.temporaries.length }) :
    Quiet F (withRoots ρ n) s P := by
  refine Safe.withRoots (Safe.weaken (inner (typed.reroot rfl typed.contexts)) fun a s' ⟨calm, p⟩ => ⟨?_, more a s' p⟩)
  exact ⟨calm.typed.reroot rfl calm.typed.contexts, calm.grows, calm.wiring, calm.contexts⟩

theorem pushRoot (typed : s.Typed) : Quiet F (pushRoot r) s fun _ s' => s'.objects = s.objects :=
  ⟨⟨typed.reroot rfl typed.contexts, .refl, fun _ => rfl, rfl⟩, rfl⟩

end Quiet

/-! ### Numbers and strings -/

namespace Observes

theorem word {w : Word} (ho : s.objects[r]? = some (.number t w)) : Observes F (word r) s fun v => v = w := look ho rfl

theorem bytes (typed : s.Typed) (k : s.IsTag r .string) : Observes F (bytes r) s fun _ => True := by
  obtain ⟨bs, ho⟩ := typed.canonical k
  have seen : Observes F (Ideal.bytes r) s fun b => b = bs := look ho rfl
  exact seen.weaken fun _ _ => trivial

theorem int (typed : s.Typed) (k : s.IsTag r .int) : Observes F (int r) s fun _ => True := by
  obtain ⟨w, ho⟩ := typed.canonical k
  exact (word ho).bind fun _ _ => pure trivial

theorem float (typed : s.Typed) (k : s.IsTag r .float) : Observes F (float r) s fun _ => True := by
  obtain ⟨w, ho⟩ := typed.canonical k
  exact (word ho).bind fun _ _ => pure trivial

theorem bool (typed : s.Typed) (k : s.IsTag r .bool) : Observes F (bool r) s fun _ => True := by
  obtain ⟨w, ho⟩ := typed.canonical k
  exact (word ho).bind fun _ _ => pure trivial

theorem expectInt (typed : s.Typed) (known : s.Known r) : Observes F (expectInt r) s fun _ => True :=
  (expect known .int).bind fun _ k => int typed k

theorem intValue (typed : s.Typed) (known : s.Known r) :
    Observes F (Ideal.expectInt r) s fun n => ∃ w, s.objects[r]? = some (.number .int w) ∧ n = w.toInt64 := by
  refine (expect known .int).bind fun _ k => ?_
  obtain ⟨w, ho⟩ := typed.canonical k
  exact (word ho).bind fun v same => pure ⟨w, ho, by rw [same]⟩

theorem expectBool (typed : s.Typed) (known : s.Known r) : Observes F (expectBool r) s fun _ => True :=
  (expect known .bool).bind fun _ k => bool typed k

theorem byteAt (typed : s.Typed) (k : s.IsTag r .string) (index : Int) : Observes F (byteAt r index) s fun _ => True :=
  (bytes typed k).bind fun bs _ => (within index bs.length).bind fun _ _ => pure trivial

end Observes

namespace Quiet

theorem newInt (typed : s.Typed) (v : Int64) : Quiet F (newInt v) s fun r s' => s'.IsTag r .int :=
  make (o := .number .int v.toUInt64) typed (List.mem_cons_self ..) rfl

theorem newFloat (typed : s.Typed) (v : Binary64) : Quiet F (newFloat v) s fun r s' => s'.IsTag r .float :=
  make (o := .number .float v.bits) typed (by simp [Obj.Good]) rfl

theorem newBool (typed : s.Typed) (v : Bool) : Quiet F (newBool v) s fun r s' => s'.IsTag r .bool :=
  make (o := .number .bool v.toUInt64) typed (by simp [Obj.Good]) rfl

theorem newText (typed : s.Typed) (bs : List UInt8) : Quiet F (newText bs) s fun r s' => s'.IsTag r .string :=
  make (o := .text bs) typed trivial rfl

end Quiet

/-! ### Sequences -/

/-- The tags of sequences. -/
def Tag.isSequence (t : Tag) : Prop := t = .array ∨ t = .frame ∨ t = .environment

theorem Store.Typed.sequence (typed : s.Typed) (k : s.IsTag r t) (seq : Tag.isSequence t) :
    ∃ xs, s.objects[r]? = some (.sequence t xs) := by
  rcases seq with rfl | rfl | rfl <;> exact typed.canonical k

theorem Store.Typed.items (typed : s.Typed) (ho : s.objects[r]? = some (.sequence t xs)) : ∀ x ∈ xs, s.Known x := by
  rcases typed.good r _ ho with ⟨_, items⟩ | ⟨_, items⟩
  · exact items
  · exact fun x hx => (items x hx).known

theorem Store.Typed.frames (typed : s.Typed) (ho : s.objects[r]? = some (.sequence .environment xs)) :
    ∀ x ∈ xs, s.IsTag x .frame := by
  rcases typed.good r _ ho with ⟨no | no, _⟩ | ⟨_, items⟩
  · cases no
  · cases no
  · exact items

/-- The value may become an item of the sequence: that makes no cycle of arrays. -/
def Store.Storable (s : Store) (r v : Ref) : Prop := s.Known v ∧ (s.IsTag r .array → ¬s.Within r v)

theorem Store.Typed.put {ys : List Ref} (typed : s.Typed) (ho : s.objects[r]? = some (.sequence t xs)) (kind : t = .array ∨ t = .frame)
    (length : ys.length = xs.length) (items : ∀ y ∈ ys, y ∈ xs ∨ s.Storable r y) :
    Quiet F (replace r (.sequence t ys)) s fun _ s' => s' = s.set r (.sequence t ys) := by
  refine .replace typed ho ?_ (.inl ⟨kind, fun y hy => ?_⟩) rfl ?_
  · rcases kind with rfl | rfl <;> simp [Obj.frozen, length]
  · rcases items y hy with old | new
    · exact typed.items ho y old
    · exact new.1
  · rintro _ ⟨rfl, rfl⟩ y hy
    rcases items y hy with old | new
    · exact .inl ⟨xs, ho, old⟩
    · exact .inr (new.2 ⟨_, ho, rfl⟩)

namespace Observes

theorem items (ho : s.objects[r]? = some (.sequence t xs)) : Observes F (items r) s fun ys => ys = xs :=
  Quiet.look ho rfl (pure rfl)

theorem getItem (ho : s.objects[r]? = some (.sequence t xs)) (index : Int) :
    Observes F (getItem r index) s fun x => x ∈ xs := by
  refine (items ho).bind ?_
  rintro _ rfl
  refine (within index _).bind fun i inside => pure ?_
  rw [List.getD_eq_getElem?_getD, List.getElem?_eq_getElem inside.1]
  exact List.getElem_mem _

theorem lookup (typed : s.Typed) (env : s.IsTag r .environment) (index slot : Nat) :
    Observes F (lookup r index slot) s fun x => s.Known x := by
  obtain ⟨frames, ho⟩ := typed.canonical env
  refine (getItem ho _).bind fun f hf => ?_
  obtain ⟨xs, ho'⟩ := typed.canonical (typed.frames ho f hf)
  exact (getItem ho' _).weaken fun x hx => typed.items ho' x hx

end Observes

namespace Quiet

theorem setSlot (typed : s.Typed) (ho : s.objects[r]? = some (.sequence t xs)) (kind : t = .array ∨ t = .frame) (inside : i < xs.length)
    (storable : s.Storable r v) : Quiet F (setSlot r i v) s fun _ s' => s' = s.set r (.sequence t (xs.set i v)) := by
  refine look ho rfl ?_
  simp only
  rw [if_pos ⟨inside, by rintro rfl; rcases kind with no | no <;> cases no⟩]
  refine typed.put ho kind List.length_set fun y hy => ?_
  rcases List.mem_or_eq_of_mem_set hy with old | rfl
  · exact .inl old
  · exact .inr storable

theorem setItem (typed : s.Typed) (ho : s.objects[r]? = some (.sequence t xs)) (kind : t = .array ∨ t = .frame)
    (storable : s.Storable r v) (index : Int) : Quiet F (setItem r index v) s fun _ _ => True := by
  refine (Observes.items ho).bind ?_
  rintro _ rfl
  exact (Observes.within index _).bind fun i inside => (setSlot typed ho kind inside.1 storable).weaken fun _ _ _ _ => trivial

theorem newSequence (typed : s.Typed) (kind : t = .array ∨ t = .frame) (known : ∀ x ∈ xs, s.Known x) :
    Quiet F (newSequence t xs) s fun r s' => s'.objects[r]? = some (.sequence t xs) ∧ r = s.objects.length ∧
      s' = s.push (.sequence t xs) :=
  add typed (.inl ⟨kind, known⟩) rfl

/-- A sequence of unassigned items. -/
theorem zeros (typed : s.Typed) (kind : t = .array ∨ t = .frame) (n : Nat) :
    Quiet F (Ideal.newSequence t (List.replicate n 0)) s fun r s' => s'.objects[r]? = some (.sequence t (List.replicate n 0)) ∧
      r = s.objects.length ∧ s' = s.push (.sequence t (List.replicate n 0)) :=
  newSequence typed kind fun _ hx => (List.mem_replicate.mp hx).2 ▸ typed.nil.known

theorem extend (typed : s.Typed) (env : s.IsTag r .environment) (frame : s.IsTag x .frame) :
    Quiet F (extend r x) s fun e s' => s'.Scopes e x := by
  obtain ⟨frames, ho⟩ := typed.canonical env
  refine (Observes.items ho).bind ?_
  rintro _ rfl
  refine (add (o := .sequence .environment _) typed (.inr ⟨rfl, fun y hy => ?_⟩) rfl).weaken fun e s' _ made =>
    ⟨_, made.1, List.mem_append_right _ (List.mem_singleton_self x)⟩
  rcases List.mem_append.mp hy with old | new
  · exact typed.frames ho y old
  · exact List.mem_singleton.mp new ▸ frame

theorem assign (typed : s.Typed) (env : s.IsTag r .environment) (index slot : Nat) (known : s.Known v) :
    Quiet F (assign r index slot v) s fun _ _ => True := by
  obtain ⟨frames, ho⟩ := typed.canonical env
  refine (Observes.getItem ho _).bind fun f hf => ?_
  have frame := typed.frames ho f hf
  obtain ⟨xs, ho'⟩ := typed.canonical frame
  exact setItem typed ho' (.inr rfl) ⟨known, fun array => nomatch frame.unique array⟩ _

end Quiet

/-! ### Slices -/

theorem Store.Typed.slice (typed : s.Typed) (k : s.IsTag r .slice) :
    ∃ array first stop n, s.objects[r]? = some (.slice array first stop) ∧ first ≤ stop ∧ stop ≤ n ∧ s.Behind array n := by
  obtain ⟨array, first, stop, ho⟩ := typed.canonical k
  obtain ⟨le, n, behind, fits⟩ := typed.good r _ ho
  exact ⟨array, first, stop, n, ho, le, fits, behind⟩

/-- There is nothing behind the slice without an array. -/
theorem Store.Typed.nothing {n : Nat} (typed : s.Typed) (behind : s.Behind unassigned n) : n = 0 := by
  rcases behind with ⟨_, zero⟩ | ⟨xs, ho, _⟩
  · exact zero
  · cases typed.nil.unique (show s.IsTag unassigned .array from ⟨_, ho, rfl⟩)

namespace Observes

variable {first stop n : Nat}

theorem sliceOf (ho : s.objects[r]? = some (.slice array first stop)) (le : first ≤ stop) :
    Observes F (sliceOf r) s fun p => p = (array, first, stop) :=
  Quiet.look ho rfl (by simp only [if_pos le]; exact pure rfl)

theorem itemsBehind (typed : s.Typed) (behind : s.Behind array n) : Observes F (itemsBehind array) s fun xs => xs.length = n ∧
    (array = unassigned ∧ xs = [] ∨ s.objects[array]? = some (.sequence .array xs)) := by
  unfold Ideal.itemsBehind
  rcases behind with ⟨rfl, rfl⟩ | ⟨xs, ho, rfl⟩
  · rw [if_pos rfl]
    exact pure ⟨rfl, .inl ⟨rfl, rfl⟩⟩
  · have assigned : array ≠ unassigned := by
      rintro rfl
      cases typed.nil.unique (show s.IsTag unassigned .array from ⟨_, ho, rfl⟩)
    rw [if_neg assigned]
    refine (items ho).weaken ?_
    rintro _ rfl
    exact ⟨rfl, .inr ho⟩

theorem sliceLength (typed : s.Typed) (k : s.IsTag r .slice) : Observes F (sliceLength r) s fun _ => True := by
  obtain ⟨array, first, stop, n, ho, le, _, _⟩ := typed.slice k
  refine (sliceOf ho le).bind ?_
  rintro _ rfl
  exact pure trivial

theorem sliceCapacity (typed : s.Typed) (ho : s.objects[r]? = some (.slice array first stop)) (le : first ≤ stop)
    (behind : s.Behind array n) (fits : stop ≤ n) :
    Observes F (sliceCapacity r) s fun m => m = if array = unassigned then 0 else n - first := by
  refine (sliceOf ho le).bind ?_
  rintro _ rfl
  refine (itemsBehind typed behind).bind fun xs ⟨length, _⟩ => ?_
  simp only
  split
  · exact pure rfl
  · rw [if_pos (length ▸ le.trans fits), length]
    exact pure rfl

theorem elements (typed : s.Typed) (k : s.IsTag r .slice) : Observes F (elements r) s fun xs => ∀ x ∈ xs, s.Known x := by
  obtain ⟨array, first, stop, n, ho, le, fits, behind⟩ := typed.slice k
  refine (sliceOf ho le).bind ?_
  rintro _ rfl
  refine (itemsBehind typed behind).bind fun xs ⟨length, items⟩ => ?_
  simp only
  rw [if_pos (length ▸ fits)]
  refine pure fun x hx => ?_
  have hx := List.mem_of_mem_drop (List.mem_of_mem_take hx)
  rcases items with ⟨_, rfl⟩ | ho
  · cases hx
  · exact typed.items ho x hx

/-- The element is in an array. -/
theorem slicePosition (typed : s.Typed) (ho : s.objects[r]? = some (.slice array first stop)) (le : first ≤ stop)
    (behind : s.Behind array n) (fits : stop ≤ n) (index : Int) : Observes F (slicePosition r index) s fun p =>
      p.1 = array ∧ ∃ xs, s.objects[array]? = some (.sequence .array xs) ∧ p.2 < xs.length := by
  refine (sliceOf ho le).bind ?_
  rintro _ rfl
  refine (within index _).bind fun i ⟨inside, _⟩ => ?_
  refine (itemsBehind typed behind).bind fun xs ⟨length, items⟩ => ?_
  have inside : first + i < xs.length := by
    have := Nat.add_lt_of_lt_sub' inside
    omega
  simp only
  rw [if_pos inside]
  rcases items with ⟨_, rfl⟩ | ho
  · cases inside
  · exact pure ⟨rfl, xs, ho, inside⟩

theorem sliceGet (typed : s.Typed) (k : s.IsTag r .slice) (index : Int) :
    Observes F (sliceGet r index) s fun x => s.Known x := by
  obtain ⟨array, first, stop, n, ho, le, fits, behind⟩ := typed.slice k
  refine (slicePosition typed ho le behind fits index).bind ?_
  rintro ⟨_, i⟩ ⟨rfl, xs, ho, inside⟩
  refine (items ho).bind fun ys same => pure (typed.items ho _ ?_)
  subst same
  have inside : i < ys.length := inside
  rw [List.getD_eq_getElem?_getD, List.getElem?_eq_getElem inside]
  exact List.getElem_mem _

theorem checkBounds (low high : Int) (m : Nat) : Observes F (checkBounds low high m) s fun _ => 0 ≤ low ∧ low ≤ high ∧ high ≤ m := by
  unfold Ideal.checkBounds
  by_cases upper : high < 0 ∨ (m : Int) < high
  · simp only [upper, if_true]
    refine Observes.bind (P := fun _ => False) ?_ fun _ no => no.elim
    exact reject (by simp)
  · simp only [upper, if_false]
    split
    · exact reject (by simp)
    next lower => exact pure ⟨by omega, by omega, by omega⟩

end Observes

namespace Quiet

variable {first stop n : Nat} {values : List Ref}

/-- The object that a new slice is. -/
theorem cut (typed : s.Typed) (le : first ≤ stop) (behind : s.Behind array n) (fits : stop ≤ n) :
    Quiet F (window array first stop) s fun r s' => s'.objects[r]? = some (.slice array first stop) := by
  refine (Observes.itemsBehind typed behind).bind fun xs ⟨length, _⟩ => ?_
  rw [if_pos ⟨le, length ▸ fits⟩]
  exact (add (o := .slice array first stop) typed ⟨le, n, behind, fits⟩ rfl).weaken fun _ _ _ made => made.1

theorem window (typed : s.Typed) (le : first ≤ stop) (behind : s.Behind array n) (fits : stop ≤ n) :
    Quiet F (Ideal.window array first stop) s fun r s' => s'.IsTag r .slice :=
  (cut typed le behind fits).weaken fun _ _ _ ho => ⟨_, ho, rfl⟩

/-- The slice without an array. -/
theorem nilSlice (typed : s.Typed) :
    Quiet F (Ideal.window unassigned 0 0) s fun r s' => s'.objects[r]? = some (.slice unassigned 0 0) :=
  cut typed le_rfl (.inl ⟨rfl, rfl⟩) le_rfl

theorem sliceSet (typed : s.Typed) (k : s.IsTag r .slice) (index : Int) (known : s.Known v)
    (apart : ∀ a first stop, s.objects[r]? = some (.slice a first stop) → s.IsTag a .array → ¬s.Within a v) :
    Quiet F (sliceSet r index v) s fun _ _ => True := by
  obtain ⟨array, first, stop, n, ho, le, fits, behind⟩ := typed.slice k
  refine (Observes.slicePosition typed ho le behind fits index).bind ?_
  rintro ⟨_, i⟩ ⟨rfl, xs, ho', inside⟩
  exact (setSlot typed ho' (.inl rfl) inside ⟨known, apart _ _ _ ho⟩).weaken fun _ _ _ _ => trivial

theorem ofArray (typed : s.Typed) (k : s.IsTag r .array) (low high : Option Int) :
    Quiet F (ofArray r low high) s fun r s' => s'.IsTag r .slice := by
  obtain ⟨xs, ho⟩ := typed.canonical k
  refine (Observes.items ho).bind ?_
  rintro _ rfl
  refine (Observes.checkBounds _ _ _).bind fun _ ⟨_, _, _⟩ => ?_
  exact window typed (by omega) (.inr ⟨_, ho, rfl⟩) (by omega)

theorem ofSlice (typed : s.Typed) (k : s.IsTag r .slice) (low high : Option Int) :
    Quiet F (ofSlice r low high) s fun r s' => s'.IsTag r .slice := by
  obtain ⟨array, first, stop, n, ho, le, fits, behind⟩ := typed.slice k
  refine (Observes.sliceCapacity typed ho le behind fits).bind fun m capacity => ?_
  refine (Observes.sliceLength typed k).bind fun length _ => ?_
  refine (Observes.checkBounds _ _ _).bind fun _ ⟨_, _, inside⟩ => ?_
  refine (Observes.sliceOf ho le).bind ?_
  rintro _ rfl
  refine window typed (by omega) behind ?_
  split at capacity
  next nil =>
    have := typed.nothing (nil ▸ behind)
    omega
  next => omega

theorem putItems (typed : s.Typed) (ho : s.objects[r]? = some (.sequence .array xs)) (inside : i + values.length ≤ xs.length)
    (storable : ∀ v ∈ values, s.Storable r v) : Quiet F (putItems r i values) s fun _ _ => True := by
  refine look ho rfl ?_
  simp only
  rw [if_pos ⟨inside, nofun⟩]
  refine (typed.put ho (.inl rfl) ?_ fun y hy => ?_).weaken fun _ _ _ _ => trivial
  · simp only [List.length_append, List.length_take, List.length_drop]
    omega
  · simp only [List.mem_append] at hy
    rcases hy with (hy | hy) | hy
    · exact .inl (List.mem_of_mem_take hy)
    · exact .inr (storable y hy)
    · exact .inl (List.mem_of_mem_drop hy)

theorem append (typed : s.Typed) (k : s.IsTag r .slice) (known : ∀ v ∈ values, s.Known v)
    (apart : ∀ v ∈ values, ∀ a first stop, s.objects[r]? = some (.slice a first stop) → s.IsTag a .array → ¬s.Within a v) :
    Quiet F (append r values) s fun r s' => s'.IsTag r .slice := by
  obtain ⟨array, first, stop, n, ho, le, fits, behind⟩ := typed.slice k
  refine (Observes.sliceOf ho le).bind ?_
  rintro _ rfl
  refine (Observes.sliceCapacity typed ho le behind fits).bind fun m capacity => ?_
  refine (Observes.itemsBehind typed behind).bind fun xs ⟨length, items⟩ => ?_
  simp only
  rw [if_pos (length ▸ fits)]
  split
  next room =>
    -- the elements go into the array that is there
    have whole : first + (stop - first + values.length) ≤ n := by
      split at capacity
      next nil =>
        have := typed.nothing (nil ▸ behind)
        omega
      next => omega
    have shown {s' : Store} (calm : Calm s s') :
        Quiet F (Ideal.window array first (first + (stop - first + values.length))) s' fun r s' => s'.IsTag r .slice :=
      window calm.typed (by omega) (behind.grow calm.grows) whole
    split
    next given =>
      have there : s.objects[array]? = some (.sequence .array xs) := by
        rcases items with ⟨_, rfl⟩ | there
        · have := List.length_pos_iff.mpr given
          simp only [List.length_nil] at length
          omega
        · exact there
      refine (putItems typed there (by omega) fun v hv => ⟨known v hv, apart v hv _ _ _ ho⟩).bind fun _ s' calm _ => ?_
      exact shown calm
    next => exact shown (.refl typed)
  next =>
    -- a longer array takes the place of the one that is there
    refine (newSequence typed (.inl rfl) fun x hx => ?_).bind fun grown s' calm ⟨ho', _⟩ => ?_
    · simp only [List.mem_append] at hx
      rcases hx with (hx | hx) | hx
      · have hx := List.mem_of_mem_drop (List.mem_of_mem_take hx)
        rcases items with ⟨_, rfl⟩ | there
        · cases hx
        · exact typed.items there x hx
      · exact known x hx
      · exact (List.mem_replicate.mp hx).2 ▸ typed.nil.known
    · refine window calm.typed (Nat.zero_le _) (.inr ⟨_, ho', rfl⟩) ?_
      simp only [List.length_append, List.length_take, List.length_drop, List.length_replicate]
      omega

end Quiet

end FiberMachine.Ideal
