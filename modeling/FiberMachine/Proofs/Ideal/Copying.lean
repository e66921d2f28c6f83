import Mathlib.Data.List.Perm.Subperm
import FiberMachine.Proofs.Ideal.Registers

/-!
# Copies in a typed store

Copying makes new objects and changes none that was there before. A copy has no array in common with anything older,
so it can be stored anywhere without making a cycle; and as no array is part of itself, copying comes to an
end.
-/

namespace FiberMachine.Ideal

variable {F : Prop} {s s' : Store} {r v x out : Ref} {a i k n : Nat} {t : Tag} {o : Obj} {xs ys π : List Ref}

/-! ### What copying leaves alone -/

/-- Nothing that exists is changed. -/
def Appends (s s' : Store) : Prop := ∀ (r : Ref) (o : Obj), s.objects[r]? = some o → s'.objects[r]? = some o

theorem Appends.refl : Appends s s := fun _ _ ho => ho

theorem Appends.trans {s'' : Store} (x : Appends s s') (y : Appends s' s'') : Appends s s'' :=
  fun r o ho => y r o (x r o ho)

theorem appends_push : Appends s (s.push o) := fun _ _ ho =>
  (List.getElem?_append_left (List.getElem?_eq_some_iff.mp ho).1).trans ho

theorem setSlot_frame : Safe Any (setSlot r i v) s fun _ s' => ∀ q, q ≠ r → s'.objects[q]? = s.objects[q]? := by
  refine .look_bind (fun x _ => ?_) fun _ => trivial
  by_cases inside : i < x.2.length ∧ x.1 ≠ .environment
  · simp only [if_pos inside]
    refine .replace fun q ne => ?_
    exact List.getElem?_set_ne (Ne.symm ne)
  · simp only [if_neg inside]
    exact .throw trivial

theorem items_bind {β : Type} {k : List Ref → StoreM β} : items r >>= k = look Obj.items? r >>= fun x => k x.2 := by
  unfold items
  rw [bind_assoc]
  rfl

theorem duplicate_appends : Safe Any (duplicate r) s fun _ s' => Appends s s' := by
  refine .look_bind (fun t _ => .look_bind (fun v _ => ?_) fun _ => trivial) fun _ => trivial
  exact .add appends_push

theorem fillSlots_frame {f : Ref → StoreM Ref} (frame : ∀ v s, Safe Any (f v) s fun _ s' => Appends s s') :
    Safe Any (fillSlots f r i xs) s fun _ s' => ∀ q o, q ≠ r → s.objects[q]? = some o → s'.objects[q]? = some o := by
  induction xs generalizing s i with
  | nil => exact .pure fun _ _ _ ho => ho
  | cons v rest ih =>
    refine (frame v s).bind fun x s₁ f₁ => setSlot_frame.bind fun _ s₂ f₂ => ih.weaken fun _ s₃ f₃ q o ne ho => ?_
    exact f₃ q o ne ((f₂ q ne).trans (f₁ q o ho))

theorem copyWithin_appends : Safe Any (copyWithin n π r) s fun _ s' => Appends s s' := by
  induction n generalizing π r s with
  | zero => exact .throw trivial
  | succ n ih =>
    refine .look_bind (fun t _ => ?_) fun _ => trivial
    split
    case h_4 =>
      by_cases inside : r ∈ π
      · rw [if_pos inside]
        exact Safe.bind (A := Any) (Q := fun _ _ => False) (.throw trivial) fun _ _ no => no.elim
      · rw [if_neg inside]
        rw [items_bind]
        refine .look_bind (fun x _ => ?_) fun _ => trivial
        refine Safe.bind (Q := fun q s' => q = s.objects.length ∧ Appends s s') (.withRoots (.add ⟨rfl, ?_⟩)) ?_
        · exact appends_push
        rintro _ s₁ ⟨rfl, f₁⟩
        refine Safe.bind (Q := fun _ s' => Appends s s') (.withRoots ((fillSlots_frame fun v s => ih).weaken ?_))
          fun _ s₂ f₂ => .pure f₂
        intro _ s₂ f₂ q o ho
        exact f₂ q o (Nat.ne_of_lt (List.getElem?_eq_some_iff.mp ho).1) (f₁ q o ho)
    case h_5 => exact .pure .refl
    all_goals exact duplicate_appends

/-! ### Apart from older arrays -/

/-- No array older than `k` is part of the value. -/
def Store.Apart (s : Store) (k : Nat) (v : Ref) : Prop := ∀ a : Ref, a < k → s.IsTag a .array → ¬s.Within a v

namespace Store

theorem within_iff_of_other (k : s.IsTag v t) (other : t ≠ .array) : s.Within a v ↔ a = v := by
  constructor
  · intro within
    rcases within.cases_tail with same | ⟨b, _, nests⟩
    · exact same.symm
    · obtain ⟨xs, ho, _⟩ := nests
      exact absurd (k.unique (show s.IsTag v .array from ⟨_, ho, rfl⟩)) other
  · rintro rfl
    exact .refl

/-- What is not an array is apart from all arrays. -/
theorem apart_of_other (known : s.IsTag v t) (other : t ≠ .array) (k : Nat) : s.Apart k v := by
  intro a _ array within
  cases (within_iff_of_other known other).mp within
  exact other (known.unique array)

/-- Parts of a known value stay what they are while only new objects are made. -/
theorem Typed.within_appends (typed : s.Typed) (f : Appends s s') (known : s.Known v) (within : s'.Within a v) : s.Within a v := by
  induction within using Relation.ReflTransGen.head_induction_on with
  | refl => exact .refl
  | head nests _ ih =>
    obtain ⟨xs, ho, hx⟩ := nests
    obtain ⟨o, there⟩ := typed.within_known ih known
    have same := f _ _ there
    rw [ho] at same
    cases same
    exact .head ⟨xs, there, hx⟩ ih

theorem Apart.appends (apart : s.Apart k v) (typed : s.Typed) (f : Appends s s') (known : s.Known v) (old : k ≤ s.objects.length) :
    s'.Apart k v := by
  intro a ha array within
  have within := typed.within_appends f known within
  obtain ⟨o, ho⟩ := known_iff.mpr (Nat.lt_of_lt_of_le ha old)
  obtain ⟨o', ho', tag⟩ := array
  rw [f a o ho] at ho'
  cases ho'
  exact apart a ha ⟨o, ho, tag⟩ within

/-- A value that an array is no part of is the same when the array has changed. -/
theorem within_set (hr : s.Known r) (clear : ¬s.Within r v) (within : (s.set r o).Within a v) : s.Within a v := by
  induction within using Relation.ReflTransGen.head_induction_on with
  | refl => exact .refl
  | @head b c nests _ ih =>
    obtain ⟨xs, ho, hx⟩ := nests
    rw [getElem?_set hr] at ho
    split at ho
    next e =>
      subst e
      exact absurd ih clear
    next => exact .head ⟨xs, ho, hx⟩ ih

end Store

/-! ### Copies -/

/-- The arrays that a value being copied is part of: all different, older than `k`. -/
structure Path (s : Store) (k : Nat) (π : List Ref) (r : Ref) : Prop where
  nodup : π.Nodup
  old : ∀ p ∈ π, p < k
  part : ∀ p ∈ π, Relation.TransGen s.Nests r p

theorem Path.length_le (path : Path s k π r) : π.length ≤ k := by
  have sub : π ⊆ List.range k := fun p hp => List.mem_range.mpr (path.old p hp)
  simpa using (List.subperm_of_subset path.nodup sub).length_le

theorem Path.not_mem (path : Path s k π r) (typed : s.Typed) : r ∉ π := by
  intro hr
  have wf : WellFounded (Relation.TransGen s.Nests) := WellFounded.transGen ⟨typed.nested⟩
  exact wf.irrefl.irrefl r (path.part r hr)

theorem Path.cons (path : Path s k π r) (typed : s.Typed) (old : r < k) (nests : s.Nests x r) : Path s k (r :: π) x where
  nodup := List.nodup_cons.mpr ⟨path.not_mem typed, path.nodup⟩
  old := by
    intro p hp
    rcases List.mem_cons.mp hp with rfl | hp
    · exact old
    · exact path.old p hp
  part := by
    intro p hp
    rcases List.mem_cons.mp hp with rfl | hp
    · exact .single nests
    · exact .head nests (path.part p hp)

theorem Path.appends (path : Path s k π r) (f : Appends s s') : Path s' k π r where
  nodup := path.nodup
  old := path.old
  part := fun p hp => Relation.TransGen.mono (fun _ _ ⟨xs, ho, hx⟩ => ⟨xs, f _ _ ho, hx⟩) _ _ (path.part p hp)

/-- A copy: known, and apart from all older arrays. -/
structure Copied (s : Store) (v : Ref) (s' : Store) : Prop where
  known : s'.Known v
  apart : s'.Apart s.objects.length v
  appends : Appends s s'

theorem Quiet.duplicate (typed : s.Typed) {w : Word} (ho : s.objects[r]? = some (.number t w)) :
    Quiet F (duplicate r) s fun v s' => Copied s v s' := by
  have kind := typed.good r _ ho
  refine (Observes.tag ho).bind fun t' same => (Observes.word ho).bind fun w' same' => ?_
  subst same same'
  refine (add typed kind rfl).weaken ?_
  rintro v _ _ ⟨there, _, rfl⟩
  refine ⟨⟨_, there⟩, Store.apart_of_other ⟨_, there, rfl⟩ ?_ _, appends_push⟩
  rintro rfl
  simp [Obj.Good] at kind

/-- While the slots of a new array are filled: nothing older is changed, and the items so far are apart from the array
and all older ones. -/
structure Filling (s₀ : Store) (out n : Nat) (s : Store) : Prop where
  new : s₀.objects.length = out
  older : Appends s₀ s
  items : ∃ ys, s.objects[out]? = some (.sequence .array ys) ∧ ys.length = n ∧ ∀ y ∈ ys, s.Known y ∧ s.Apart (out + 1) y

theorem Filling.isArray {s₀ : Store} (filling : Filling s₀ out n s) : s.IsTag out .array := by
  obtain ⟨ys, ho, _⟩ := filling.items
  exact ⟨_, ho, rfl⟩

theorem Filling.appends {s₀ : Store} (filling : Filling s₀ out n s) (typed : s.Typed) (f : Appends s s') : Filling s₀ out n s' := by
  obtain ⟨ys, ho, length, items⟩ := filling.items
  refine ⟨filling.new, filling.older.trans f, ys, f _ _ ho, length, fun y hy => ?_⟩
  obtain ⟨known, apart⟩ := items y hy
  refine ⟨?_, apart.appends typed f known (Store.known_iff.mp ⟨_, ho⟩)⟩
  obtain ⟨o, there⟩ := known
  exact ⟨o, f y o there⟩

/-- The next slot is filled. -/
theorem Filling.store {s₀ : Store} (filling : Filling s₀ out n s) (ho : s.objects[out]? = some (.sequence .array ys))
    (known : s.Known v) (apart : s.Apart (out + 1) v) : Filling s₀ out n (s.set out (.sequence .array (ys.set i v))) := by
  obtain ⟨zs, ho', length, items⟩ := filling.items
  rw [ho] at ho'
  cases ho'
  have here : s.Known out := ⟨_, ho⟩
  have grows : s.Grows (s.set out (.sequence .array (ys.set i v))) :=
    .set ho (by simp [Obj.frozen])
  have kept {y : Ref} (apart : s.Apart (out + 1) y) : (s.set out (.sequence .array (ys.set i v))).Apart (out + 1) y := by
    intro a ha array within
    refine apart a ha ?_ (Store.within_set here (apart out (Nat.lt_succ_self _) filling.isArray) within)
    by_cases e : a = out
    · exact e ▸ filling.isArray
    · obtain ⟨o, there, tag⟩ := array
      rw [Store.getElem?_set here, if_neg e] at there
      exact ⟨o, there, tag⟩
  refine ⟨filling.new, fun q o there => ?_, ys.set i v, ?_, List.length_set.trans length, fun y hy => ?_⟩
  · rw [Store.getElem?_set here, if_neg]
    · exact filling.older q o there
    · rintro rfl
      exact absurd (Store.known_iff.mp ⟨o, there⟩) (Nat.not_lt.mpr (Nat.le_of_eq filling.new))
  · rw [Store.getElem?_set here, if_pos rfl]
  · rcases List.mem_or_eq_of_mem_set hy with old | rfl
    · exact ⟨(items y old).1.grow grows, kept (items y old).2⟩
    · exact ⟨known.grow grows, kept apart⟩

theorem Filling.copied {s₀ : Store} (filling : Filling s₀ out n s) : Copied s₀ out s := by
  obtain ⟨ys, ho, _, items⟩ := filling.items
  refine ⟨⟨_, ho⟩, fun a ha array within => ?_, filling.older⟩
  rcases within.cases_tail with rfl | ⟨y, within, nests⟩
  · exact absurd ha (Nat.not_lt.mpr (Nat.le_of_eq filling.new))
  · obtain ⟨zs, ho', hy⟩ := nests
    rw [ho] at ho'
    cases ho'
    exact (items y hy).2 a (Nat.lt_succ_of_lt (filling.new ▸ ha)) array within

/-- Filling slots with copies. -/
theorem Quiet.fillSlots {s₀ : Store} {f : Ref → StoreM Ref} (typed : s.Typed) (filling : Filling s₀ out n s) (bound : i + xs.length ≤ n)
    (copy : ∀ v ∈ xs, ∀ s, s.Typed → Appends s₀ s → Quiet F (f v) s fun x s' => Copied s x s') :
    Quiet F (fillSlots f out i xs) s fun _ s' => Filling s₀ out n s' := by
  induction xs generalizing s i with
  | nil => exact pure typed filling
  | cons v rest ih =>
    simp only [List.length_cons] at bound
    refine bind (copy v List.mem_cons_self s typed filling.older) fun x s₁ calm copied => ?_
    have filling₁ := filling.appends typed copied.appends
    obtain ⟨ys, ho, length, _⟩ := filling₁.items
    have old : out < s.objects.length := Store.known_iff.mp filling.isArray.known
    have apart : s₁.Apart (out + 1) x := fun a ha => copied.apart a (Nat.lt_of_lt_of_le ha old)
    refine bind (setSlot calm.typed ho (.inl rfl) (by omega) ⟨copied.known, apart out (Nat.lt_succ_self _)⟩) ?_
    rintro _ _ calm' rfl
    exact ih calm'.typed (filling₁.store ho copied.known apart) (by omega) fun v hv => copy v (List.mem_cons_of_mem _ hv)

/-- The objects older than `k` have only such items. -/
structure Closed (s : Store) (k : Nat) : Prop where
  there : k ≤ s.objects.length
  items : ∀ x v, v < k → s.Nests x v → x < k

theorem Closed.appends (closed : Closed s k) (f : Appends s s') : Closed s' k where
  there := by
    by_contra short
    have short := Nat.not_le.mp short
    obtain ⟨o, ho⟩ := Store.known_iff.mpr (Nat.lt_of_lt_of_le short closed.there)
    exact Nat.lt_irrefl _ (Store.known_iff.mp ⟨o, f _ o ho⟩)
  items := by
    rintro x v hv ⟨xs, ho, hx⟩
    obtain ⟨o, there⟩ := Store.known_iff.mpr (Nat.lt_of_lt_of_le hv closed.there)
    have same := f v o there
    rw [ho] at same
    cases same
    exact closed.items x v hv ⟨xs, there, hx⟩

theorem Quiet.copyWithin (typed : s.Typed) (older : r < k) (path : Path s k π r) (closed : Closed s k)
    (fuel : k + 1 ≤ n + π.length) : Quiet F (copyWithin n π r) s fun v s' => Copied s v s' := by
  induction n generalizing s r π with
  | zero =>
    have := path.length_le
    omega
  | succ n ih =>
    obtain ⟨o, ho⟩ := Store.known_iff.mpr (Nat.lt_of_lt_of_le older closed.there)
    refine (Observes.tag ho).bind ?_
    rintro _ rfl
    have kind : s.IsTag r o.tag := ⟨o, ho, rfl⟩
    have number {t : Tag} (k : s.IsTag r t) (small : t = .int ∨ t = .float ∨ t = .bool) :
        Quiet F (Ideal.duplicate r) s fun v s' => Copied s v s' := by
      have : ∃ w, s.objects[r]? = some (.number t w) := by
        rcases small with rfl | rfl | rfl <;> exact typed.canonical k
      exact duplicate typed this.choose_spec
    split
    next tag => exact number (tag ▸ kind) (.inl rfl)
    next tag => exact number (tag ▸ kind) (.inr (.inl rfl))
    next tag => exact number (tag ▸ kind) (.inr (.inr rfl))
    next tag =>
      obtain ⟨xs, there⟩ := typed.canonical (t := .array) (tag ▸ kind)
      rw [if_neg (path.not_mem typed)]
      refine (Observes.items there).bind fun ys same => ?_
      subst same
      refine bind (P := fun out s₁ => Filling s out ys.length s₁) ?_ fun out s₁ calm filling => ?_
      · refine withRoots (fun typed => (zeros typed (.inl rfl) _).weaken ?_) typed ?_
        · rintro out _ _ ⟨made, rfl, rfl⟩
          refine ⟨rfl, appends_push, _, made, List.length_replicate, fun y hy => ?_⟩
          cases (List.mem_replicate.mp hy).2
          have nil := typed.nil.grow (Store.Grows.push (s := { s with temporaries := s.temporaries ++ [r] })
            (o := .sequence .array (List.replicate ys.length 0)))
          exact ⟨nil.known, Store.apart_of_other nil (by decide) _⟩
        · exact fun out s₁ filling => ⟨filling.new, filling.older, filling.items⟩
      refine bind (P := fun _ s₂ => Filling s out ys.length s₂) ?_ fun _ s₂ calm' filling' => ?_
      · refine withRoots (fun typed' => ?_) calm.typed fun _ s₂ filling => ⟨filling.new, filling.older, filling.items⟩
        refine fillSlots typed' ⟨filling.new, filling.older, filling.items⟩ (by omega) fun v hv s₂ typed₂ f => ?_
        have nests : s.Nests v r := ⟨ys, there, hv⟩
        refine ih typed₂ (closed.items v r older nests) ((path.cons typed older nests).appends f) (closed.appends f) ?_
        rw [List.length_cons]
        omega
      · exact pure calm'.typed filling'.copied
    next other =>
      exact pure typed ⟨⟨o, ho⟩, Store.apart_of_other kind other _, .refl⟩

/-- A copy of a known value. -/
theorem Quiet.copy (typed : s.Typed) (known : s.Known r) : Quiet F (copy r) s fun v s' => Copied s v s' := by
  refine Safe.congr (copyWithin (k := s.objects.length) (π := []) typed (Store.known_iff.mp known)
    ⟨List.nodup_nil, fun _ no => absurd no List.not_mem_nil, fun _ no => absurd no List.not_mem_nil⟩ ⟨le_rfl, ?_⟩ le_rfl) rfl
  exact fun x v _ nests => Store.known_iff.mp (typed.item_known nests)

end FiberMachine.Ideal
