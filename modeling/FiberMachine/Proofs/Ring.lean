import Mathlib.Data.List.Chain
import Mathlib.Data.List.Nodup

/-!
# Circular doubly linked lists

A ring is a list without repetition in which each member links forward to the one after it, the last
one to the first, and backward to the one before it. The links are two functions on addresses, so
nothing here depends on how they are stored. `push` and `unlink` are the two edits that the free
lists see.
-/

namespace FiberMachine

/-- `y` comes right after `x`. -/
def Linked (next previous : Nat → Nat) (x y : Nat) : Prop := next x = y ∧ previous y = x

/-- The members of a circular list in the order of the links, from the first one on. -/
structure Ring (next previous : Nat → Nat) (xs : List Nat) : Prop where
  nodup : xs.Nodup
  linked : ∀ x ∈ xs.head?, (xs ++ [x]).IsChain (Linked next previous)

namespace Ring

variable {next previous next' previous' : Nat → Nat} {xs l r : List Nat} {a x y : Nat}

theorem empty (next previous : Nat → Nat) : Ring next previous [] :=
  ⟨List.nodup_nil, by simp⟩

theorem singleton (hn : next a = a) (hp : previous a = a) : Ring next previous [a] :=
  ⟨List.nodup_singleton a, by simp [Linked, hn, hp]⟩

/-- A ring stays one while the links of its members do. -/
theorem congr (h : Ring next previous xs) (hn : ∀ y ∈ xs, next' y = next y)
    (hp : ∀ y ∈ xs, previous' y = previous y) : Ring next' previous' xs := by
  refine ⟨h.nodup, fun x hx => ?_⟩
  have member {y : Nat} (hy : y ∈ xs ++ [x]) : y ∈ xs := by
    rcases List.mem_append.mp hy with hy | hy
    · exact hy
    · rw [List.mem_singleton.mp hy]
      exact List.mem_of_mem_head? hx
  refine (h.linked x hx).imp_of_mem_imp fun u v hu hv link => ?_
  exact ⟨(hn u (member hu)).trans link.1, (hp v (member hv)).trans link.2⟩

theorem next_getLast (h : Ring next previous (x :: l)) (hy : y ∈ (x :: l).getLast?) :
    next y = x ∧ previous x = y := by
  have link := (List.isChain_append.mp (h.linked x rfl)).2.2 y hy x rfl
  exact ⟨link.1, link.2⟩

/-- After the last member comes the first one. -/
theorem next_last {p : List Nat} (h : Ring next previous (p ++ [a])) (hx : x ∈ (p ++ [a]).head?) : next a = x :=
  ((List.isChain_append.mp (h.linked x hx)).2.2 a (by simp) x rfl).1

/-- After another member comes the one behind it, which is not the first one. -/
theorem next_inner {p : List Nat} (h : Ring next previous (p ++ a :: y :: r)) (hx : x ∈ (p ++ a :: y :: r).head?) :
    next a = y ∧ y ≠ x := by
  refine ⟨(h.linked x hx).left_of_append.right_of_append.rel.1, ?_⟩
  have nodup := h.nodup
  cases p with
  | nil => simp at hx; grind
  | cons z p => simp at hx; grind [List.nodup_append]

/-- Every member stands between two members, which may be the same one or itself. -/
theorem neighbours (h : Ring next previous xs) (ha : a ∈ xs) :
    ∃ u ∈ xs, ∃ v ∈ xs, Linked next previous u a ∧ Linked next previous a v := by
  obtain ⟨l, r, rfl⟩ := List.append_of_mem ha
  obtain ⟨x, hx⟩ : ∃ x, x ∈ (l ++ a :: r).head? := ⟨_, List.head?_eq_some_head (by simp)⟩
  have chain := h.linked x hx
  rw [List.append_assoc] at chain
  obtain ⟨v, hv, after⟩ : ∃ v ∈ l ++ a :: r, Linked next previous a v := by
    have tail := chain.right_of_append
    cases r with
    | nil => exact ⟨x, List.mem_of_mem_head? hx, tail.rel⟩
    | cons y s => exact ⟨y, by simp, tail.rel⟩
  obtain ⟨u, hu, before⟩ : ∃ u ∈ l ++ a :: r, Linked next previous u a := by
    rcases List.eq_nil_or_concat l with rfl | ⟨l', z, rfl⟩
    · -- the first member comes after the last one
      obtain rfl : a = x := by simpa using hx
      obtain ⟨w, hw⟩ : ∃ w, w ∈ (a :: r).getLast? := ⟨_, List.getLast?_eq_some_getLast (by simp)⟩
      exact ⟨w, List.mem_of_mem_getLast? hw, h.next_getLast hw⟩
    · refine ⟨z, by simp, ?_⟩
      rw [List.concat_eq_append, List.append_assoc] at chain
      exact chain.right_of_append.rel
  exact ⟨u, hu, v, hv, before, after⟩

theorem next_mem (h : Ring next previous xs) (ha : a ∈ xs) : next a ∈ xs := by
  obtain ⟨_, _, v, hv, _, after⟩ := h.neighbours ha
  rwa [after.1]

theorem previous_mem (h : Ring next previous xs) (ha : a ∈ xs) : previous a ∈ xs := by
  obtain ⟨u, hu, _, _, before, _⟩ := h.neighbours ha
  rwa [before.2]

theorem previous_next (h : Ring next previous xs) (ha : a ∈ xs) : previous (next a) = a := by
  obtain ⟨_, _, v, _, _, after⟩ := h.neighbours ha
  rw [after.1, after.2]

theorem next_previous (h : Ring next previous xs) (ha : a ∈ xs) : next (previous a) = a := by
  obtain ⟨u, _, _, _, before, _⟩ := h.neighbours ha
  rw [before.2, before.1]

/-- A member that comes right after itself is alone. -/
theorem eq_singleton (h : Ring next previous xs) (ha : a ∈ xs) (self : next a = a) : xs = [a] := by
  obtain ⟨l, r, rfl⟩ := List.append_of_mem ha
  have nodup := h.nodup
  cases l with
  | nil =>
    cases r with
    | nil => rfl
    | cons y s =>
      have after : next a = y := (h.linked a rfl).rel.1
      grind
  | cons x l =>
    have chain := h.linked x rfl
    rw [List.append_assoc] at chain
    have tail := chain.right_of_append
    cases r with
    | nil =>
      have after : next a = x := tail.rel.1
      grind
    | cons y s =>
      have after : next a = y := tail.rel.1
      grind [List.nodup_append]

/-- After the first member of several comes the first one of the rest. -/
theorem head?_tail (h : Ring next previous (a :: l)) (ne : next a ≠ a) : l.head? = some (next a) := by
  cases l with
  | nil => exact absurd (h.linked a rfl).rel.1 ne
  | cons y s => simp [(show next a = y from (h.linked a rfl).rel.1)]

/-- A new member at the end of a ring that is not empty. -/
theorem push (h : Ring next previous (x :: l)) (ha : a ∉ x :: l)
    (last : next' (previous x) = a) (new : previous' a = previous x)
    (close : next' a = x) (first : previous' x = a)
    (hn : ∀ y ∈ x :: l, y ≠ previous x → next' y = next y)
    (hp : ∀ y ∈ x :: l, y ≠ x → previous' y = previous y) :
    Ring next' previous' (x :: l ++ [a]) := by
  refine ⟨List.nodup_append.mpr ⟨h.nodup, List.nodup_singleton a, by grind⟩, fun z hz => ?_⟩
  obtain rfl : x = z := by simpa using hz
  have old := h.linked x rfl
  have fresh : x ∉ l := (List.nodup_cons.mp h.nodup).1
  have body : (x :: l).IsChain (Linked next' previous') := by
    refine old.left_of_append.imp_of_mem_tail_imp fun u v hu hv link => ?_
    have hv : v ∈ l := hv
    have nv : v ≠ x := fun e => fresh (e ▸ hv)
    have nu : u ≠ previous x := by
      rintro rfl
      exact nv (link.1.symm.trans (h.next_previous List.mem_cons_self))
    exact ⟨(hn u hu nu).trans link.1, (hp v (List.mem_cons_of_mem x hv) nv).trans link.2⟩
  rw [List.append_assoc]
  refine body.append ?_ ?_
  · simp [Linked, close, first]
  · intro u hu v hv
    obtain rfl : a = v := by simpa using hv
    rw [← (h.next_getLast hu).2]
    exact ⟨last, new⟩

/-- Taking out a member that is not the only one. -/
theorem unlink (h : Ring next previous (l ++ a :: r)) (ne : next a ≠ a)
    (back : next' (previous a) = next a) (forth : previous' (next a) = previous a)
    (hn : ∀ y ∈ l ++ r, y ≠ previous a → next' y = next y)
    (hp : ∀ y ∈ l ++ r, y ≠ next a → previous' y = previous y) :
    Ring next' previous' (l ++ r) := by
  have nodup := h.nodup
  have apart : a ∉ l ++ r := by grind [List.nodup_append]
  have member : a ∈ l ++ a :: r := by simp
  refine ⟨by grind [List.nodup_append], fun x hx => ?_⟩
  have xmem : x ∈ l ++ r := List.mem_of_mem_head? hx
  -- neighbours of which the second does not follow `a` are still neighbours afterwards
  have keep {u v : Nat} (hu : u ∈ l ++ r) (hv : v ∈ l ++ r) (nv : v ≠ next a)
      (link : Linked next previous u v) : Linked next' previous' u v := by
    have nu : u ≠ previous a := by
      rintro rfl
      exact apart ((link.1.symm.trans (h.next_previous member)) ▸ hv)
    exact ⟨(hn u hu nu).trans link.1, (hp v hv nv).trans link.2⟩
  have bridge : Linked next' previous' (previous a) (next a) := ⟨back, forth⟩
  cases l with
  | nil =>
    cases r with
    | nil => exact absurd ((h.linked a rfl).rel.1) ne
    | cons y s =>
      obtain rfl : y = x := by simpa using hx
      have old := h.linked a rfl
      have ey : next a = y := old.rel.1
      have body := old.tail.left_of_append
      refine (body.imp_of_mem_tail_imp fun u v hu hv link => ?_).append (by simp) ?_
      · have hv : v ∈ s := hv
        exact keep hu (List.mem_cons_of_mem y hv) (by grind) link
      · intro u hu v hv
        obtain rfl : y = v := by simpa using hv
        have : previous a = u := (h.next_getLast (by simpa using hu)).2
        rw [← this]
        exact ey ▸ bridge
  | cons z l =>
    obtain rfl : z = x := by simpa using hx
    have old := h.linked z rfl
    rw [List.append_assoc] at old ⊢
    obtain ⟨front, back, joint⟩ := List.isChain_append.mp old
    -- `next a` is the first of what follows
    have ends : next a ∈ (r ++ [z]).head? := by
      cases r <;> simp [(show next a = _ from back.rel.1)]
    have starts : previous a ∈ (z :: l).getLast? := by
      obtain ⟨u, hu⟩ : ∃ u, u ∈ (z :: l).getLast? := ⟨_, List.getLast?_eq_some_getLast (by simp)⟩
      have := (joint u hu a rfl).2
      rwa [this]
    refine List.IsChain.append ?_ ?_ ?_
    · refine front.imp_of_mem_tail_imp fun u v hu hv link => ?_
      have hv : v ∈ l := hv
      exact keep (by grind) (by grind) (by cases r <;> grind) link
    · have tail : (r ++ [z]).IsChain (Linked next previous) := back.tail
      have distinct : (r ++ [z]).Nodup := by grind [List.nodup_append]
      refine tail.imp_of_mem_tail_imp fun u v hu hv link => ?_
      exact keep (by grind) (by cases r <;> grind) (by cases r <;> grind) link
    · intro u hu v hv
      obtain rfl : u = previous a := by grind
      obtain rfl : v = next a := by grind
      exact bridge

end Ring

end FiberMachine
