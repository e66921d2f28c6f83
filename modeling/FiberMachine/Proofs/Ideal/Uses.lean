import Mathlib.Data.List.Induction
import Mathlib.Data.List.Nodup
import Mathlib.Data.List.Perm.Subperm
import FiberMachine.Proofs.Ideal.Leading
import FiberMachine.Proofs.Ideal.Wiring

/-!
# What becomes of values

Arrays are values: a copy is made of an array before it is stored in a slot, an element or a buffer, or offered by a request. So a copy is
used at most once in each of these ways, and what an action has in hand are the uses that it may still make of its copies. Actions that
store nothing leave all that as it is.
-/

namespace FiberMachine.Ideal

set_option synthInstance.maxSize 1000

/-- A value is stored in a slot, an element or a buffer, or it is what a request offers. -/
inductive Use where
  | storing (v : Ref)
  | offering (v : Ref)
deriving DecidableEq

def Use.value : Use → Ref
  | .storing v | .offering v => v

/-- The values in the slots of a frame, the elements of an array or a buffer. -/
def Obj.stored : Obj → List Ref
  | .sequence t xs => if t = .environment then [] else xs
  | .channel k => k.buffer
  | _ => []

/-- The value that a request offers. -/
def Obj.offered : Obj → List Ref
  | .request p => if p.direction = .send then [p.value] else []
  | _ => []

open Classical in
/-- The uses that an object makes of values. What is stored in an object that is gone does not count. -/
noncomputable def Obj.uses (gone : Prop) (o : Obj) : List Use :=
  (if gone then [] else o.stored.map .storing) ++ o.offered.map .offering

variable {τ α β : Type} {view : τ → Store} {G : Ref → Prop} {s s' s'' : Store} {r c d x g q env v array : Ref} {o old : Obj} {f : Fiber}
  {A B C H K : List Use} {w : Word} {l xs : List Ref} {i j n m : Nat} {t t' : Tag} {u : Direction} {z z' : Int} {a? b? : Option Int} {b : Bool}

/-- An object that stores nothing. -/
theorem Obj.uses_eq {gone : Prop} (stored : o.stored = []) : o.uses gone = o.offered.map .offering := by
  rw [Obj.uses, stored]
  split <;> rfl

theorem Obj.uses_eq_nil {gone : Prop} (stored : o.stored = []) (offered : o.offered = []) : o.uses gone = [] := by
  rw [Obj.uses_eq stored, offered]
  rfl

/-- What the items of a sequence make of uses. -/
theorem Obj.uses_sequence {gone : Prop} : ((Obj.sequence t xs).uses gone).Subperm (xs.map Use.storing) := by
  rw [Obj.uses, show (Obj.sequence t xs).offered = [] from rfl, List.map_nil, List.append_nil, Obj.stored]
  split
  · exact List.nil_subperm
  · split
    · exact List.nil_subperm
    · exact .refl _

/-! ### Lists of lists -/

section

variable {γ : Type} {L : List (List γ)} {ys zs : List γ} {y : γ}

theorem count_flatten_set [BEq γ] (hi : L[i]? = some ys) :
    (L.set i zs).flatten.count y + ys.count y = L.flatten.count y + zs.count y := by
  induction L generalizing i with
  | nil => cases hi
  | cons head rest ih =>
    cases i with
    | zero =>
      cases hi
      simp only [List.set_cons_zero, List.flatten_cons, List.count_append]
      omega
    | succ i =>
      have := ih hi
      simp only [List.set_cons_succ, List.flatten_cons, List.count_append]
      omega

variable [BEq γ] [LawfulBEq γ]

/-- What two of the lists have in common occurs twice. -/
theorem two_le_count_flatten (hi : L[i]? = some ys) (hj : L[j]? = some zs) (apart : i < j) (left : y ∈ ys) (right : y ∈ zs) :
    2 ≤ L.flatten.count y := by
  induction L generalizing i j with
  | nil => cases hi
  | cons head rest ih =>
    obtain ⟨j, rfl⟩ := Nat.exists_eq_succ_of_ne_zero (Nat.ne_of_gt (Nat.zero_lt_of_lt apart))
    rw [List.flatten_cons, List.count_append]
    cases i with
    | zero =>
      cases hi
      have first := List.count_pos_iff.mpr left
      have later : zs ∈ rest := List.mem_of_getElem? hj
      have second := List.count_pos_iff.mpr (List.mem_flatten.mpr ⟨zs, later, right⟩)
      exact Nat.add_le_add first second
    | succ i => exact Nat.le_add_left_of_le (ih hi hj (Nat.lt_of_succ_lt_succ apart))

/-- What stands in two places occurs twice. -/
theorem two_le_count (hi : ys[i]? = some y) (hj : ys[j]? = some y) (apart : i < j) : 2 ≤ ys.count y := by
  have single {k : Nat} (hk : ys[k]? = some y) : (ys.map fun z => [z])[k]? = some [y] := by rw [List.getElem?_map, hk]; rfl
  have twice := two_le_count_flatten (single hi) (single hj) apart List.mem_cons_self List.mem_cons_self
  rwa [← List.flatMap_def, List.flatMap_singleton'] at twice

end

/-! ### The uses of values -/

namespace Store

/-- The uses that the objects make of values. What is stored in those in `G` does not count. -/
noncomputable def uses (G : Ref → Prop) (s : Store) : List Use := (s.objects.mapIdx fun r o => o.uses (G r)).flatten

theorem uses_push : (s.push o).uses G = s.uses G ++ o.uses (G s.objects.length) := by
  rw [uses, push, List.mapIdx_append, List.flatten_append]
  simp [uses]

theorem count_uses_set (ho : s.objects[r]? = some old) (y : Use) :
    ((s.set r o).uses G).count y + (old.uses (G r)).count y = (s.uses G).count y + (o.uses (G r)).count y := by
  rw [uses, set, List.mapIdx_set]
  exact count_flatten_set (by rw [List.getElem?_mapIdx, ho]; rfl)

theorem uses_forget {G' : Ref → Prop} (more : ∀ r, G r → G' r) : (s.uses G').Sublist (s.uses G) := by
  unfold uses
  induction s.objects using List.reverseRecOn with
  | nil => exact .refl _
  | append_singleton l o ih =>
    simp only [List.mapIdx_append, List.flatten_append]
    refine ih.append ?_
    simp only [List.mapIdx_cons, List.mapIdx_nil, List.flatten_cons, List.flatten_nil, List.append_nil, Obj.uses]
    refine List.Sublist.append_right ?_ _
    split
    · exact List.nil_sublist _
    next kept => rw [if_neg fun gone => kept (more _ gone)]

/-- A value that is stored is stored in an object that is not gone. -/
theorem stored_of_mem_uses (stored : .storing v ∈ s.uses G) : ∃ r o, s.objects[r]? = some o ∧ ¬G r ∧ v ∈ o.stored := by
  obtain ⟨l, hl, hv⟩ := List.mem_flatten.mp stored
  obtain ⟨r, inside, rfl⟩ := List.mem_mapIdx.mp hl
  refine ⟨r, _, List.getElem?_eq_getElem inside, ?_⟩
  rcases List.mem_append.mp hv with hv | hv
  · split at hv
    · cases hv
    next kept => exact ⟨kept, by simpa using hv⟩
  · simp at hv

/-- Every array is stored at most once and offered at most once, and that includes the uses `H` that may still be made. -/
structure Sole (G : Ref → Prop) (s : Store) (H : List Use) : Prop where
  nil : s.IsTag unassigned .unassigned
  known : ∀ y ∈ s.uses G ++ H, s.Known y.value
  once : ∀ y : Use, s.IsTag y.value .array → (s.uses G ++ H).count y ≤ 1

namespace Sole

/-- There may be fewer uses, of the same objects. -/
theorem less (sole : s.Sole G H) (tags : ∀ v t, s'.IsTag v t ↔ s.IsTag v t)
    (fewer : ∀ y, (s'.uses G ++ K).count y ≤ (s.uses G ++ H).count y) : s'.Sole G K where
  nil := (tags _ _).mpr sole.nil
  known := by
    intro y hy
    have there := (List.count_pos_iff.mpr hy).trans_le (fewer y)
    obtain ⟨o, ho⟩ := sole.known y (List.count_pos_iff.mp there)
    exact ((tags _ o.tag).mpr ⟨o, ho, rfl⟩).known
  once := fun y array => (fewer y).trans (sole.once y ((tags _ _).mp array))

theorem mono (sole : s.Sole G H) (fewer : K.Subperm H) : s.Sole G K :=
  sole.less (fun _ _ => .rfl) fun y => by
    have := fewer.count_le y
    simp only [List.count_append]
    omega

/-- The objects are the same. -/
theorem reroot (sole : s.Sole G H) (objects : s'.objects = s.objects) : s'.Sole G H := by
  refine sole.less (fun v t => ?_) fun y => ?_
  · rw [IsTag, IsTag, objects]
  · rw [uses, uses, objects]

/-- In the place of every object there is one of its kind that makes the same uses. -/
theorem congr (sole : s.Sole G H) (tags : ∀ x : Ref, s'.objects[x]?.map Obj.tag = s.objects[x]?.map Obj.tag)
    (uses : ∀ x : Ref, s'.objects[x]?.map (Obj.uses (G x)) = s.objects[x]?.map (Obj.uses (G x))) : s'.Sole G H := by
  refine sole.less (fun v t => ?_) fun y => Nat.le_of_eq ?_
  · have isTag (s : Store) : s.IsTag v t ↔ s.objects[v]?.map Obj.tag = some t := Option.map_eq_some_iff.symm
    rw [isTag, isTag, tags]
  · have all : (s'.objects.mapIdx fun r o => o.uses (G r)) = s.objects.mapIdx fun r o => o.uses (G r) :=
      List.ext_getElem? fun x => by
        rw [List.getElem?_mapIdx, List.getElem?_mapIdx]
        exact uses x
    rw [Store.uses, all, Store.uses]

/-- What is not stored yet may be stored. -/
theorem fresh (sole : s.Sole G []) (known : s.Known v) (new : s.IsTag v .array → .storing v ∉ s.uses G) : s.Sole G [.storing v] where
  nil := sole.nil
  known := by
    intro y hy
    rcases List.mem_append.mp hy with old | new
    · exact sole.known y (List.mem_append_left _ old)
    · rwa [List.mem_singleton.mp new]
  once := by
    intro y array
    have before := sole.once y array
    rw [List.append_nil] at before
    rw [List.count_append]
    by_cases same : y = .storing v
    · subst same
      rw [List.count_eq_zero.mpr (new array), List.count_singleton_self]
    · rwa [List.count_eq_zero.mpr fun hy => same (List.mem_singleton.mp hy)]

/-- More objects may be gone. -/
theorem forget {G' : Ref → Prop} (sole : s.Sole G H) (more : ∀ r, G r → G' r) : s.Sole G' H where
  nil := sole.nil
  known := fun y hy => sole.known y ((List.Sublist.append_right (uses_forget more) H).subset hy)
  once := fun y array => ((List.Sublist.append_right (uses_forget more) H).count_le y).trans (sole.once y array)

/-- One object is replaced by another of its kind. -/
theorem set (sole : s.Sole G (A ++ H)) (ho : s.objects[r]? = some old) (tag : o.tag = old.tag)
    (fewer : (B ++ o.uses (G r)).Subperm (A ++ old.uses (G r))) : (s.set r o).Sole G (B ++ H) := by
  refine sole.less (fun v t => ?_) fun y => ?_
  · rw [IsTag, IsTag, getElem?_set ⟨old, ho⟩]
    split
    next same => simp [same, ho, tag]
    next => rfl
  · have both := fewer.count_le y
    have changed := count_uses_set (G := G) (o := o) ho y
    simp only [List.count_append] at both ⊢
    omega

/-- A new object may be used itself. -/
theorem push (sole : s.Sole G (A ++ H)) (fewer : (o.uses (G s.objects.length)).Subperm A) :
    (s.push o).Sole G (.storing s.objects.length :: .offering s.objects.length :: H) := by
  have inside (y : Use) (hy : y ∈ s.uses G ++ (A ++ H)) : y.value < s.objects.length := known_iff.mp (sole.known y hy)
  have total (y : Use) : ((s.push o).uses G ++ H).count y ≤ (s.uses G ++ (A ++ H)).count y := by
    have := fewer.count_le y
    simp only [uses_push, List.count_append]
    omega
  have split (y : Use) : ((s.push o).uses G ++ .storing s.objects.length :: .offering s.objects.length :: H).count y =
      ((s.push o).uses G ++ H).count y + [Use.storing s.objects.length, .offering s.objects.length].count y := by
    simp only [List.count_append, List.count_cons, List.count_nil]
    omega
  refine ⟨sole.nil.grow .push, fun y hy => ?_, fun y array => ?_⟩
  · have there := List.count_pos_iff.mpr hy
    rw [split] at there
    by_cases new : y ∈ [Use.storing s.objects.length, .offering s.objects.length]
    · have last : y.value = s.objects.length := by
        rcases List.mem_pair.mp new with rfl | rfl <;> rfl
      rw [known_iff, last, Store.push, List.length_append]
      exact Nat.lt_succ_self _
    · rw [List.count_eq_zero.mpr new] at there
      exact (sole.known y (List.count_pos_iff.mp (there.trans_le (total y)))).grow .push
  · rw [split]
    by_cases old : y.value < s.objects.length
    · have other : y ∉ [Use.storing s.objects.length, .offering s.objects.length] := by
        intro new
        rcases List.mem_pair.mp new with rfl | rfl <;> exact Nat.lt_irrefl _ old
      rw [List.count_eq_zero.mpr other]
      obtain ⟨o', ho', is⟩ := array
      rw [getElem?_push, if_neg (Nat.ne_of_lt old)] at ho'
      exact (total y).trans (sole.once y ⟨o', ho', is⟩)
    · have none : (s.uses G ++ (A ++ H)).count y = 0 := List.count_eq_zero.mpr fun hy => old (inside y hy)
      have few := total y
      have one : [Use.storing s.objects.length, .offering s.objects.length].count y ≤ 1 :=
        List.nodup_iff_count_le_one.mp (by simp) y
      omega

/-- What is no array may be used more often. -/
theorem plain (sole : s.Sole G H) (other : ∀ y ∈ K, ∃ t, s.IsTag y.value t ∧ t ≠ .array) : s.Sole G (K ++ H) where
  nil := sole.nil
  known := by
    intro y hy
    rcases List.mem_append.mp hy with old | hy
    · exact sole.known y (List.mem_append_left _ old)
    rcases List.mem_append.mp hy with new | old
    · obtain ⟨t, is, _⟩ := other y new
      exact is.known
    · exact sole.known y (List.mem_append_right _ old)
  once := by
    intro y array
    have none : K.count y = 0 := List.count_eq_zero.mpr fun hy => by
      obtain ⟨t, is, no⟩ := other y hy
      exact no (is.unique array)
    have := sole.once y array
    simp only [List.count_append, none] at this ⊢
    omega

/-- What may be used again may be used besides others. -/
theorem append (sole : s.Sole G H) (again : s.Sole G (A ++ K)) (apart : ∀ y ∈ A, s.IsTag y.value .array → y ∉ H) : s.Sole G (A ++ H) where
  nil := sole.nil
  known := by
    intro z hz
    rcases List.mem_append.mp hz with old | hz
    · exact sole.known z (List.mem_append_left _ old)
    rcases List.mem_append.mp hz with more | old
    · exact again.known z (List.mem_append_right _ (List.mem_append_left _ more))
    · exact sole.known z (List.mem_append_right _ old)
  once := by
    intro z array
    have before := sole.once z array
    have besides := again.once z array
    simp only [List.count_append] at before besides ⊢
    by_cases more : z ∈ A
    · have none : H.count z = 0 := List.count_eq_zero.mpr (apart z more array)
      omega
    · have none : A.count z = 0 := List.count_eq_zero.mpr more
      omega

/-- No array is stored in two places. -/
theorem stored_once {r' : Ref} {o' : Obj} (sole : s.Sole G H) (array : s.IsTag v .array) (ho : s.objects[r]? = some o)
    (ho' : s.objects[r']? = some o') (live : ¬G r) (live' : ¬G r') (hi : o.stored[i]? = some v) (hj : o'.stored[j]? = some v) :
    r = r' ∧ i = j := by
  have at_ {q k : Nat} {o : Obj} (ho : s.objects[q]? = some o) (live : ¬G q) (hk : o.stored[k]? = some v) :
      (s.objects.mapIdx fun r o => o.uses (G r))[q]? = some (o.uses (G q)) ∧ (o.uses (G q))[k]? = some (.storing v) := by
    refine ⟨by rw [List.getElem?_mapIdx, ho]; rfl, ?_⟩
    rw [Obj.uses, if_neg live, List.getElem?_append_left, List.getElem?_map, hk]
    · rfl
    · rw [List.length_map]
      exact (List.getElem?_eq_some_iff.mp hk).1
  obtain ⟨here, first⟩ := at_ ho live hi
  obtain ⟨there, second⟩ := at_ ho' live' hj
  have once : (s.uses G).count (.storing v) ≤ 1 :=
    (List.Sublist.count_le _ (List.sublist_append_left _ H)).trans (sole.once (.storing v) array)
  have twice (no : 2 ≤ (s.uses G).count (.storing v)) : False := absurd (no.trans once) (by decide)
  have same : r = r' := by
    rcases Nat.lt_trichotomy r r' with less | same | more
    · exact (twice (two_le_count_flatten here there less (List.mem_of_getElem? first) (List.mem_of_getElem? second))).elim
    · exact same
    · exact (twice (two_le_count_flatten there here more (List.mem_of_getElem? second) (List.mem_of_getElem? first))).elim
  subst same
  cases ho.symm.trans ho'
  have part : (o.uses (G r)).count (.storing v) ≤ (s.uses G).count (.storing v) :=
    (List.sublist_flatten_of_mem (List.mem_of_getElem? here)).count_le _
  refine ⟨rfl, ?_⟩
  rcases Nat.lt_trichotomy i j with less | same | more
  · exact (twice ((two_le_count first second less).trans part)).elim
  · exact same
  · exact (twice ((two_le_count second first more).trans part)).elim

/-- Requests that offer the same array are the same. -/
theorem offered_once {q' : Ref} {p p' : Request} (sole : s.Sole G H) (hp : s.IsRequest q p) (hp' : s.IsRequest q' p')
    (send : p.direction = .send) (send' : p'.direction = .send) (same : p.value = p'.value) (array : s.IsTag p.value .array) : q = q' := by
  have at_ {x : Nat} {k : Request} (hk : s.IsRequest x k) (send : k.direction = .send) (same : p.value = k.value) :
      (s.objects.mapIdx fun r o => o.uses (G r))[x]? = some ((Obj.request k).uses (G x)) ∧ .offering p.value ∈ (Obj.request k).uses (G x) := by
    refine ⟨by rw [List.getElem?_mapIdx, show s.objects[x]? = _ from hk]; rfl, List.mem_append_right _ ?_⟩
    simp [Obj.offered, send, same]
  obtain ⟨here, first⟩ := at_ hp send rfl
  obtain ⟨there, second⟩ := at_ hp' send' same
  have once : (s.uses G).count (.offering p.value) ≤ 1 :=
    (List.Sublist.count_le _ (List.sublist_append_left _ H)).trans (sole.once (.offering p.value) array)
  rcases Nat.lt_trichotomy q q' with less | same | more
  · exact absurd ((two_le_count_flatten here there less first second).trans once) (by decide)
  · exact same
  · exact absurd ((two_le_count_flatten there here more second first).trans once) (by decide)

end Sole

/-- Of the uses that may be made, `A` are spent, and `B` may be made instead. No request waits that has not waited before. -/
structure Spends (G : Ref → Prop) (s : Store) (A : List Use) (s' : Store) (B : List Use) : Prop where
  sole : ∀ H, s.Sole G (A ++ H) → s'.Sole G (B ++ H)
  waiters : ∀ d, ∀ q ∈ s'.waiters d, q ∈ s.waiters d

namespace Spends

theorem refl : s.Spends G A s A := ⟨fun _ sole => sole, fun _ _ hq => hq⟩

theorem trans (first : s.Spends G A s' B) (next : s'.Spends G B s'' C) : s.Spends G A s'' C :=
  ⟨fun H sole => next.sole H (first.sole H sole), fun d q hq => first.waiters d q (next.waiters d q hq)⟩

/-- Other uses do not matter. -/
theorem frame (spends : s.Spends G A s' B) (K : List Use) : s.Spends G (A ++ K) s' (B ++ K) := by
  refine ⟨fun H sole => ?_, spends.waiters⟩
  rw [List.append_assoc] at sole ⊢
  exact spends.sole (K ++ H) sole

theorem weaken (spends : s.Spends G A s' B) (fewer : C.Subperm B) : s.Spends G A s' C :=
  ⟨fun H sole => (spends.sole H sole).mono ((List.subperm_append_right H).mpr fewer), spends.waiters⟩

/-- More may be spent. -/
theorem strengthen (spends : s.Spends G A s' B) (more : A.Subperm C) : s.Spends G C s' B :=
  ⟨fun H sole => spends.sole H (sole.mono ((List.subperm_append_right H).mpr more)), spends.waiters⟩

theorem reroot (spends : s.Spends G A s' B) (objects : s''.objects = s'.objects) : s.Spends G A s'' B := by
  refine ⟨fun H sole => (spends.sole H sole).reroot objects, fun d q hq => spends.waiters d q ?_⟩
  rwa [Store.waiters, wiring, objects] at hq

theorem of_objects (objects : s'.objects = s.objects) : s.Spends G A s' A := refl.reroot objects

theorem set (ho : s.objects[r]? = some old) (tag : o.tag = old.tag) (fewer : (B ++ o.uses (G r)).Subperm (A ++ old.uses (G r)))
    (waiters : ∀ q ∈ o.wiring.waiters, q ∈ old.wiring.waiters) : s.Spends G A (s.set r o) B := by
  refine ⟨fun H sole => sole.set ho tag fewer, fun d q hq => ?_⟩
  rw [Store.waiters, wiring_set ⟨old, ho⟩] at hq
  split at hq
  next same =>
    rw [Store.waiters, same, wiring_of ho]
    exact waiters q hq
  next => exact hq

/-- An object is replaced by one that stores and offers the same, or nothing. -/
theorem set_plain (ho : s.objects[r]? = some old) (tag : o.tag = old.tag) (stored : o.stored = []) (offered : o.offered = [])
    (waiters : ∀ q ∈ o.wiring.waiters, q ∈ old.wiring.waiters) : s.Spends G [] (s.set r o) [] := by
  refine set ho tag ?_ waiters
  rw [Obj.uses_eq_nil stored offered]
  exact List.nil_subperm

/-- A channel is left with other requests. -/
theorem set_channel {k : Duct} {l : List Ref} (ho : s.objects[d]? = some (.channel k)) (waiters : ∀ q ∈ l, q ∈ k.waiters) :
    s.Spends G [] (s.set d (.channel { k with waiters := l })) [] := set ho rfl (.refl _) waiters

theorem push (fewer : (o.uses (G s.objects.length)).Subperm A) (waiters : o.wiring.waiters = []) :
    s.Spends G A (s.push o) [.storing s.objects.length, .offering s.objects.length] := by
  refine ⟨fun H sole => sole.push fewer, fun d q hq => ?_⟩
  rw [Store.waiters, wiring, getElem?_push] at hq
  split at hq
  next => exact absurd (waiters ▸ hq) List.not_mem_nil
  next => exact hq

end Spends

end Store

/-- Of the uses that may be made, the action spends `A`, and `B` may be made instead. -/
def Spending {τ α : Type} (G : Ref → Prop) (view : τ → Store) (m : EStateM Lapse τ α) (A : List Use) (B : α → List Use) : Prop :=
  ∀ t, Safe Any m t fun a t' => (view t).Spends G A (view t') (B a)

/-- The action spends nothing. -/
class Sparing {τ α : Type} (G : Ref → Prop) (view : τ → Store) (m : EStateM Lapse τ α) : Prop where
  spending : Spending G view m [] fun _ => []

namespace Spending

variable {m : EStateM Lapse τ α} {D : α → List Use} {E : β → List Use}

theorem pure {a : α} : Spending G view (pure a : EStateM Lapse τ α) (D a) D := fun _ => .pure .refl

theorem bind {k : α → EStateM Lapse τ β} (first : Spending G view m A D) (next : ∀ a, Spending G view (k a) (D a) E) :
    Spending G view (m >>= k) A E := fun t =>
  (first t).bind fun a t' before => (next a t').weaken fun _ _ after => before.trans after

theorem frame (spending : Spending G view m A D) (K : List Use) : Spending G view m (A ++ K) fun a => D a ++ K :=
  fun t => (spending t).weaken fun _ _ spends => spends.frame K

/-- Less is left, or more is spent. -/
theorem weaken {D' : α → List Use} (spending : Spending G view m A D) (more : A.Subperm C) (fewer : ∀ a, (D' a).Subperm (D a)) :
    Spending G view m C D' := fun t => (spending t).weaken fun a _ spends => (spends.weaken (fewer a)).strengthen more

/-- An action that spends nothing leaves what there is. -/
theorem spare [spares : Sparing G view m] : Spending G view m A fun _ => A := spares.spending.frame A

theorem spared {m : StoreM α} [Sparing G id m] : Safe Any m s fun _ s' => s.Spends G A s' A := (spare (A := A) (m := m) : Spending G id m A _) s

/-- The last action. -/
theorem last (spending : Spending G view m A D) (more : A.Subperm C) : Spending G view m C fun _ => [] :=
  spending.weaken more fun _ => List.nil_subperm

theorem withRoots {m : StoreM α} (inner : Spending G id m A D) : Spending G id (withRoots xs m) A D := fun s =>
  Safe.withRoots ((inner { s with temporaries := s.temporaries ++ xs }).weaken fun _ _ spends => by
    have before : s.Spends G A { s with temporaries := s.temporaries ++ xs } A := .of_objects rfl
    exact (before.trans spends).reroot rfl)

theorem onStore {m : StoreM α} (inner : Spending G id m A D) : Spending G Engine.store (liftM m : EngineM α) A D :=
  fun e => Engine.safe_store (inner e.store)

/-- What is made may be stored and offered, if it stores and offers nothing itself and nothing waits for it. -/
theorem make (uses : ∀ gone, o.uses gone = []) (waiters : o.wiring.waiters = []) :
    Spending G id (add o) [] fun x => [.storing x, .offering x] :=
  fun _ => Safe.add (.push (by rw [uses]) waiters)

end Spending

namespace Sparing

instance pure (a : α) : Sparing G view (pure a : EStateM Lapse τ α) := ⟨fun _ => .pure .refl⟩

instance throw (l : Lapse) : Sparing G view (throw l : EStateM Lapse τ α) := ⟨fun _ => trivial⟩

theorem bind {m : EStateM Lapse τ β} {k : β → EStateM Lapse τ α} [first : Sparing G view m] (next : ∀ b, Sparing G view (k b)) :
    Sparing G view (m >>= k) :=
  ⟨first.spending.bind fun b => (next b).spending⟩

instance {m : EStateM Lapse τ β} {k : β → EStateM Lapse τ α} [Sparing G view m] [next : ∀ b, Sparing G view (k b)] :
    Sparing G view (m >>= k) := bind next

instance map {h : α → β} {m : EStateM Lapse τ α} [Sparing G view m] : Sparing G view (h <$> m) := by
  rw [map_eq_pure_bind]
  infer_instance

instance ite {p : Prop} [Decidable p] {first second : EStateM Lapse τ α} [yes : Sparing G view first] [no : Sparing G view second] :
    Sparing G view (if p then first else second) := by
  split
  · exact yes
  · exact no

instance forM {h : β → EStateM Lapse τ PUnit} {ys : List β} [∀ b, Sparing G view (h b)] : Sparing G view (ys.forM h) := by
  induction ys <;> unfold List.forM <;> infer_instance

instance mapM {h : β → EStateM Lapse τ α} {ys : List β} [∀ b, Sparing G view (h b)] : Sparing G view (ys.mapM h) := by
  induction ys with
  | nil => exact pure []
  | cons b rest ih =>
    rw [List.mapM_cons]
    infer_instance

/-- What an object is decides how it is replaced. -/
theorem look_bind {see : Obj → Option β} {k : β → StoreM α}
    (next : ∀ s b, s.objects[r]?.bind see = some b → Safe Any (k b) s fun _ s' => s.Spends G [] s' []) : Sparing G id (look see r >>= k) :=
  ⟨fun s => Safe.look_bind (fun b seen => next s b seen) fun _ => trivial⟩

instance look {see : Obj → Option α} : Sparing G id (look see r) := ⟨fun _ => Safe.look (fun _ _ => .refl) fun _ => trivial⟩

/-- An object is replaced first. -/
theorem replacing {k : StoreM α} [rest : Sparing G id k] (spends : s.Spends G [] (s.set r o) []) :
    Safe Any (do replace r o; k) s fun _ s' => s.Spends G [] s' [] :=
  Safe.bind (Safe.replace (R := fun _ s' => s.Spends G [] s' []) spends) fun _ s₁ before =>
    (rest.spending s₁).weaken fun _ _ after => before.trans after

/-- An object is made that stores and offers nothing, and for which nothing waits. -/
theorem make (uses : ∀ gone, o.uses gone = []) (waiters : o.wiring.waiters = []) : Sparing G id (add o) :=
  ⟨(Spending.make uses waiters).last (.refl _)⟩

/-- Only the roots change. -/
theorem rerooting {h : Store → Store} (objects : ∀ s, (h s).objects = s.objects) : Sparing G id (modify h : StoreM PUnit) :=
  ⟨fun s => Safe.of_ok (show (modify h : StoreM PUnit) s = .ok ⟨⟩ (h s) from rfl) (.of_objects (objects s))⟩

instance withRoots {m : StoreM α} [inner : Sparing G id m] : Sparing G id (withRoots xs m) := ⟨inner.spending.withRoots⟩

instance onStore {m : StoreM α} [inner : Sparing G id m] : Sparing G Engine.store (liftM m : EngineM α) := ⟨inner.spending.onStore⟩

/-! ### Objects -/

instance (cause : HeapError) : Sparing G id (reject cause : StoreM α) := throw _

instance : Sparing G id (wild : StoreM α) := throw _

instance : Sparing G id (fault : StoreM α) := throw _

instance : Sparing G id (tag r) := by unfold tag; infer_instance

instance : Sparing G id (expect r t) := by unfold expect; infer_instance

instance : Sparing G id (expectListable n) := by unfold expectListable; infer_instance

instance : Sparing G id (pushRoot r) := rerooting fun _ => rfl

instance : Sparing G id (registerContext c) := rerooting fun _ => rfl

instance : Sparing G id (expectRegistered c) := ⟨fun s => by
  refine Safe.weaken (Guiding.expectRegistered_same.relax fun _ _ => trivial) ?_
  rintro _ _ rfl
  exact .refl⟩

instance : Sparing G id (within z n) := by unfold within; infer_instance

instance : Sparing G id (word r) := by unfold word; infer_instance

instance {y : Int64} : Sparing G id (newInt y) := make (fun _ => Obj.uses_eq_nil rfl rfl) rfl

instance {y : Binary64} : Sparing G id (newFloat y) := make (fun _ => Obj.uses_eq_nil rfl rfl) rfl

instance {y : Bool} : Sparing G id (newBool y) := make (fun _ => Obj.uses_eq_nil rfl rfl) rfl

instance : Sparing G id (int r) := by unfold int; infer_instance

instance : Sparing G id (float r) := by unfold float; infer_instance

instance : Sparing G id (bool r) := by unfold bool; infer_instance

instance : Sparing G id (expectInt r) := by unfold expectInt; infer_instance

instance : Sparing G id (expectBool r) := by unfold expectBool; infer_instance

instance : Sparing G id (bytes r) := by unfold bytes; infer_instance

instance {bs : List UInt8} : Sparing G id (newText bs) := make (fun _ => Obj.uses_eq_nil rfl rfl) rfl

instance : Sparing G id (byteAt r z) := by unfold byteAt; infer_instance

instance : Sparing G id (items r) := by unfold items; infer_instance

instance : Sparing G id (getItem r z) := by unfold getItem; infer_instance

instance : Sparing G id (extend env x) :=
  have (l : List Ref) : Sparing G id (newSequence .environment l) := make (fun _ => Obj.uses_eq_nil rfl rfl) rfl
  by unfold extend; infer_instance

instance : Sparing G id (frame env n) := by unfold frame; infer_instance

instance : Sparing G id (lookup env i j) := by unfold lookup; infer_instance

instance : Sparing G id (sliceOf r) := by unfold sliceOf; infer_instance

instance : Sparing G id (itemsBehind array) := by unfold itemsBehind; infer_instance

instance : Sparing G id (window array i j) :=
  have : Sparing G id (add (.slice array i j)) := make (fun _ => Obj.uses_eq_nil rfl rfl) rfl
  by unfold window; infer_instance

instance : Sparing G id (sliceLength r) := by unfold sliceLength; infer_instance

instance : Sparing G id (sliceCapacity r) := by unfold sliceCapacity; infer_instance

instance : Sparing G id (elements r) := by unfold elements; infer_instance

instance : Sparing G id (slicePosition r z) := by unfold slicePosition; infer_instance

instance : Sparing G id (sliceGet r z) := by unfold sliceGet; infer_instance

instance : Sparing G id (checkBounds z z' n) := by unfold checkBounds; infer_instance

instance : Sparing G id (ofSlice r a? b?) := by unfold ofSlice; infer_instance

instance : Sparing G id (ofArray r a? b?) := by unfold ofArray; infer_instance

instance : Sparing G id (code r) := by unfold code; infer_instance

instance : Sparing G id (newCode i j env n) := make (fun _ => Obj.uses_eq_nil rfl rfl) rfl

instance : Sparing G id (methodOf r) := by unfold methodOf; infer_instance

instance {name : String} : Sparing G id (newMethod r name) :=
  have (x : Ref) : Sparing G id (add (.method r x)) := make (fun _ => Obj.uses_eq_nil rfl rfl) rfl
  by unfold newMethod; infer_instance

instance {pc : Option Nat} : Sparing G id (newMarker pc) := make (fun _ => Obj.uses_eq_nil rfl rfl) rfl

instance : Sparing G id (target r) := by unfold target; infer_instance

/-! ### Contexts -/

instance : Sparing G id (fiber c) := by unfold fiber; infer_instance

instance update {h : Fiber → Fiber} : Sparing G id (update c h) := look_bind fun _ _ seen =>
  Safe.replace (.set_plain (object_of_fiber seen) rfl rfl rfl fun _ no => absurd no List.not_mem_nil)

instance : Sparing G id (newContext n env i) := make (fun _ => Obj.uses_eq_nil rfl rfl) rfl

instance : Sparing G id (setPc c n) := by unfold setPc; infer_instance

instance : Sparing G id (setEnvironment c env) := by unfold setEnvironment; infer_instance

instance : Sparing G id (setBlocked c b) := by unfold setBlocked; infer_instance

instance : Sparing G id (pushOperand c v) := by unfold pushOperand; infer_instance

instance : Sparing G id (pushReturn c v) := by unfold pushReturn; infer_instance

instance : Sparing G id (popOperand c) := look_bind fun _ _ seen => by
  split
  · trivial
  · exact replacing (.set_plain (object_of_fiber seen) rfl rfl rfl fun _ no => absurd no List.not_mem_nil)

instance : Sparing G id (popReturn c) := look_bind fun _ _ seen => by
  split
  · trivial
  · exact replacing (.set_plain (object_of_fiber seen) rfl rfl rfl fun _ no => absurd no List.not_mem_nil)

instance : Sparing G id (peekOperand c) := look_bind fun s _ _ => by
  split
  · trivial
  · exact Safe.pure .refl

instance : Sparing G id (enterEnvironment c env) := by unfold enterEnvironment; infer_instance

/-! ### Channels and wait groups -/

instance : Sparing G id (request q) := by unfold request; infer_instance

instance : Sparing G id (duct d) := by unfold duct; infer_instance

instance : Sparing G id (newChannel n) := make (fun _ => Obj.uses_eq_nil rfl rfl) rfl

instance : Sparing G id (takeWaiter d u) := look_bind fun s _ seen => by
  refine Safe.skip (a := s) rfl ?_
  split
  · exact replacing (.set_channel (object_of_duct seen) fun _ hq => List.mem_of_mem_eraseP hq)
  · trivial

instance : Sparing G id (withdraw q) :=
  have (p : Request) : Sparing G id (do
      let k ← duct p.channel
      replace p.channel (.channel { k with waiters := k.waiters.erase q })) :=
    look_bind fun _ _ seen => Safe.replace (.set_channel (object_of_duct seen) fun _ hq => List.mem_of_mem_erase hq)
  by unfold withdraw; infer_instance

instance : Sparing G id (cancelWaits c) := by unfold cancelWaits; infer_instance

instance : Sparing G id (opposes c u l) := by
  induction l with
  | nil => exact pure false
  | cons q rest ih => unfold opposes; infer_instance

instance : Sparing G id (group g) := by unfold group; infer_instance

instance : Sparing G id newGroup := make (fun _ => Obj.uses_eq_nil rfl rfl) rfl

instance : Sparing G id (releaseFrom g n) := by
  induction n with
  | zero => exact pure []
  | succ n ih =>
    refine look_bind fun _ _ seen => ?_
    split
    · exact .pure .refl
    · exact replacing (.set_plain (object_of_group seen) rfl rfl rfl fun _ no => absurd no List.not_mem_nil)

instance {delta : Int64} : Sparing G id (addToGroup g delta) := look_bind fun s p seen => by
  obtain ⟨counter, waiters⟩ := p
  dsimp only
  split
  · trivial
  split
  · trivial
  · exact replacing (.set_plain (object_of_group seen) rfl rfl rfl fun _ no => absurd no List.not_mem_nil)

instance : Sparing G id (waitFor g c) := look_bind fun s p seen => by
  obtain ⟨counter, waiters⟩ := p
  dsimp only
  split
  · exact .pure .refl
  refine Safe.bind (Guiding.expectRegistered_same.relax fun _ _ => trivial) ?_
  rintro _ t rfl
  have before : t.Spends G [] { t with temporaries := t.temporaries ++ [g, c] } [] := .of_objects rfl
  have enter : Safe Any (Ideal.withRoots [g, c] do
      replace g (.waitGroup counter (waiters ++ [c]))
      Ideal.update c fun f => { f with waits := f.waits ++ [g] }) t fun _ s' => t.Spends G [] s' [] :=
    Safe.withRoots (Safe.weaken
      (replacing (o := .waitGroup counter (waiters ++ [c])) (.set_plain (object_of_group seen) rfl rfl rfl fun _ no => absurd no List.not_mem_nil))
      fun _ _ spends => (before.trans spends).reroot rfl)
  have rest : Sparing G id (do
      setBlocked c true
      return true) := inferInstance
  exact Safe.bind enter fun _ s₁ spends => (rest.spending s₁).weaken fun _ _ after => spends.trans after

instance : Sparing G id (displayWithin n r) := by
  induction n generalizing r with
  | zero => unfold displayWithin; infer_instance
  | succ n ih =>
    unfold displayWithin
    refine bind fun t => ?_
    split <;> infer_instance

end Sparing

/-! ### Storing -/

/-- The values `l` are stored in a sequence. -/
theorem Store.Spends.set_items {ys : List Ref} (ho : s.objects[r]? = some (.sequence t xs)) (fewer : ys.Subperm (l ++ xs)) :
    s.Spends G (l.map .storing) (s.set r (.sequence t ys)) [] := by
  refine .set ho rfl ?_ fun _ no => absurd no List.not_mem_nil
  simp only [Obj.uses, Obj.stored, Obj.offered, List.map_nil, List.append_nil, List.nil_append]
  split
  · exact List.nil_subperm
  split
  · exact List.nil_subperm
  · rw [← List.map_append]
    exact fewer.map fun _ _ => Use.storing.inj

namespace Spending

theorem setSlot : Spending G id (setSlot r i v) [.storing v] fun _ => [] := by
  refine fun s => Safe.look_bind (fun p seen => ?_) fun _ => trivial
  obtain ⟨t, xs⟩ := p
  dsimp only
  split
  next inside =>
    refine Safe.replace (.set_items (l := [v]) (object_of_items seen) ?_)
    exact (List.set_perm_cons_eraseIdx inside.1 v).subperm.trans ((List.eraseIdx_sublist ..).cons_cons v).subperm
  next => trivial

theorem putItems : Spending G id (putItems r i l) (l.map .storing) fun _ => [] := by
  refine fun s => Safe.look_bind (fun p seen => ?_) fun _ => trivial
  obtain ⟨t, xs⟩ := p
  dsimp only
  split
  next inside =>
    refine Safe.replace (.set_items (object_of_items seen) ?_)
    have rest : (xs.take i ++ xs.drop (i + l.length)).Sublist xs := by
      conv => rhs; rw [← List.take_append_drop i xs]
      refine (List.Sublist.refl _).append ?_
      rw [← List.drop_drop]
      exact List.drop_sublist ..
    rw [List.append_assoc]
    exact (List.perm_append_comm_assoc ..).subperm.trans ((List.Sublist.refl l).append rest).subperm
  next => trivial

/-- A sequence is made of values that may be stored. -/
theorem newSequence : Spending G id (newSequence t xs) (xs.map .storing) fun x => [.storing x, .offering x] :=
  fun _ => Safe.add (.push Obj.uses_sequence rfl)

/-- A sequence is made of unassigned items. -/
theorem zeros : Spending G id (Ideal.newSequence t (List.replicate n 0)) [] fun x => [.storing x, .offering x] := by
  refine fun s => (newSequence s).weaken fun x s' spends => ⟨fun H sole => spends.sole H (sole.plain fun y hy => ?_), spends.waiters⟩
  obtain ⟨v, hv, rfl⟩ := List.mem_map.mp hy
  rw [List.eq_of_mem_replicate hv]
  exact ⟨_, sole.nil, by decide⟩

theorem setItem : Spending G id (setItem r z v) [.storing v] fun _ => [] := .bind .spare fun _ => .bind .spare fun _ => setSlot

theorem assign : Spending G id (assign env i j v) [.storing v] fun _ => [] := .bind .spare fun _ => setItem

theorem sliceSet : Spending G id (sliceSet r z v) [.storing v] fun _ => [] := .bind .spare fun _ => setSlot

/-! ### Copying -/

theorem duplicate : Spending G id (duplicate r) [] fun x => [.storing x, .offering x] :=
  .bind .spare fun _ => .bind .spare fun _ => .make (fun _ => Obj.uses_eq_nil rfl rfl) rfl

theorem fillSlots {h : Ref → StoreM Ref} (each : ∀ v, Spending G id (h v) [] fun x => [.storing x, .offering x]) :
    Spending G id (fillSlots h r i xs) [] fun _ => [] := by
  induction xs generalizing i with
  | nil => exact pure (D := fun _ => [])
  | cons v rest ih => exact .bind (each v) fun x => .bind (setSlot.last (List.Sublist.subperm (by simp))) fun _ => ih

/-- What is copied may be stored and offered. -/
theorem copyWithin : Spending G id (copyWithin n xs r) [] fun x => [.storing x, .offering x] := by
  induction n generalizing xs r with
  | zero => exact fun _ => trivial
  | succ n ih =>
    refine fun s => (tag_seen.relax fun _ _ => trivial).bind ?_
    rintro t s ⟨rfl, is⟩
    split
    · exact duplicate s
    · exact duplicate s
    · exact duplicate s
    · have array : Spending G id (do
          let ys ← items r
          let out ← Ideal.withRoots [r] (Ideal.newSequence .array (List.replicate ys.length 0))
          Ideal.withRoots [r, out] (Ideal.fillSlots (Ideal.copyWithin n (r :: xs)) out 0 ys)
          return out) [] fun x => [.storing x, .offering x] :=
        .bind .spare fun ys => .bind zeros.withRoots fun out => .bind ((fillSlots fun _ => ih).withRoots.frame _) fun _ => pure
      split
      · trivial
      · exact array s
    next array =>
      exact .pure ⟨fun H sole => sole.plain fun y hy => ⟨t, by rcases List.mem_pair.mp hy with rfl | rfl <;> exact is, array⟩, fun _ _ hq => hq⟩

theorem copy : Spending G id (copy r) [] fun x => [.storing x, .offering x] := fun s => copyWithin s

end Spending

end FiberMachine.Ideal
