import FiberMachine.Heap.Allocation
import FiberMachine.Proofs.Arena

/-!
# Splitting, merging and the free lists

Taking a block from the free lists splits a larger one as far as needed; giving one back merges it
with its buddy as long as the buddy is free. In between exactly one block is in hand. Both leave
the arena in agreement with a plan in which the same other blocks are taken.
-/

namespace FiberMachine

namespace Plan

/-- No block is in hand. -/
def Settled (P : Plan) : Prop := ∀ a l, P a ≠ some ⟨l, .held⟩

/-- No block but the one at `a` is in hand. -/
def OnlyHeld (P : Plan) (a : Nat) : Prop := ∀ b l, P b = some ⟨l, .held⟩ → b = a

/-- No two buddies of one level are both free. -/
def Coalesced (P : Plan) : Prop := ∀ a l, P a = some ⟨l, .free⟩ → P (a ^^^ 2 ^ l) ≠ some ⟨l, .free⟩

/-- The plan with a block in hand of level `l + 1` cut into two. -/
def cut (P : Plan) (a l : Nat) : Plan := (P.set a ⟨l, .held⟩).set (a + 2 ^ l) ⟨l, .held⟩

/-- The plan with the block in hand at `a` joined to the one right after it. -/
def join (P : Plan) (a l : Nat) : Plan :=
  Function.update (P.set a ⟨l + 1, .held⟩) (a + 2 ^ l) none

variable {P Q : Plan} {a b l m : Nat} {u : Use}

theorem Settled.only (h : P.Settled) (a : Nat) : P.OnlyHeld a := fun b l hb => absurd hb (h b l)

theorem Coalesced.of_free (h : P.Coalesced) (free : ∀ a l, Q a = some ⟨l, .free⟩ → P a = some ⟨l, .free⟩) : Q.Coalesced :=
  fun a l ha hb => h a l (free a l ha) (free _ l hb)

theorem Coalesced.set (h : P.Coalesced) (hu : u ≠ .free) : (P.set a ⟨l, u⟩).Coalesced := by
  refine h.of_free fun b m hb => ?_
  by_cases e : b = a
  · subst e
    rw [set_self] at hb
    cases hb
    exact absurd rfl hu
  · rwa [set_of_ne e] at hb

theorem Coalesced.cut (h : P.Coalesced) : (P.cut a l).Coalesced := (h.set (u := .held) nofun).set nofun

theorem Coalesced.join (h : P.Coalesced) : (P.join a l).Coalesced := by
  refine (h.set nofun : (P.set a ⟨l + 1, .held⟩).Coalesced).of_free fun b m hb => ?_
  by_cases e : b = a + 2 ^ l
  · subst e
    simp [Plan.join] at hb
  · rwa [Plan.join, Function.update_of_ne e] at hb

/-- A block whose buddy is not free may become free. -/
theorem Coalesced.set_free (h : P.Coalesced) (alone : P (a ^^^ 2 ^ l) ≠ some ⟨l, .free⟩) : (P.set a ⟨l, .free⟩).Coalesced := by
  intro b m hb hc
  by_cases e : b = a
  · subst e
    rw [set_self] at hb
    cases hb
    have ne : b ^^^ 2 ^ l ≠ b := fun e => by
      have := congrArg (b ^^^ ·) e
      simp only [Nat.xor_xor_cancel_left, Nat.xor_self] at this
      exact (Nat.two_pow_pos l).ne' this
    exact alone (by rwa [set_of_ne ne] at hc)
  · rw [set_of_ne e] at hb
    by_cases e' : b ^^^ 2 ^ m = a
    · subst e'
      rw [set_self] at hc
      cases hc
      rw [Nat.xor_xor_cancel_right] at alone
      exact alone hb
    · rw [set_of_ne e'] at hc
      exact h b m hb hc

theorem levels_cut : (P.cut a l).levels = Tiling.split P.levels a l := by
  funext b
  by_cases e : b = a + 2 ^ l
  · subst e
    simp [cut, levels, Tiling.split]
  · by_cases e' : b = a
    · subst e'
      simp [cut, levels, Tiling.split, set_of_ne e]
    · simp [cut, levels, Tiling.split, set_of_ne e, set_of_ne e', e, e']

theorem levels_join : (P.join a l).levels = Tiling.join P.levels a l := by
  funext b
  by_cases e : b = a + 2 ^ l
  · subst e
    simp [join, levels, Tiling.join]
  · by_cases e' : b = a
    · subst e'
      have := Nat.two_pow_pos l
      simp [join, levels, Tiling.join]
    · simp [join, levels, Tiling.join, set_of_ne e', e, e']

/-- Setting the only block in hand to another use settles the plan. -/
theorem OnlyHeld.settled (h : P.OnlyHeld a) (hu : u ≠ .held) : (P.set a ⟨l, u⟩).Settled := by
  intro b m hb
  by_cases e : b = a
  · subst e
    rw [set_self] at hb
    cases hb
    exact hu rfl
  · rw [set_of_ne e] at hb
    exact e (h b m hb)

end Plan

namespace Arena

variable {h : Heap} {P Q : Plan} {R : Nat → List Nat} {a b l m n : Nat} {u : Use}

/-- Another plan for the same heap. -/
theorem replan (A : Arena h P R) (tiling : Tiling h.levels Q.levels)
    (free : ∀ a l, Q a = some ⟨l, .free⟩ ↔ P a = some ⟨l, .free⟩)
    (taken : ∀ a l, Q a = some ⟨l, .taken⟩ → P a = some ⟨l, .taken⟩) : Arena h Q R where
  capacity := A.capacity
  levels_le := A.levels_le
  lists := A.lists
  tiling := tiling
  free := fun ha => A.free ((free _ _).mp ha)
  taken := fun ha => A.taken (taken _ _ ha)
  first := A.first
  ring := A.ring
  members := fun hl => (A.members hl).trans (free _ _).symm

/-- A taken block comes into hand. -/
theorem hold (A : Arena h P R) (ha : P a = some ⟨l, .taken⟩) : Arena h (P.set a ⟨l, .held⟩) R := by
  refine A.replan ?_ ?_ ?_
  · rw [Plan.levels_set ha]
    exact A.tiling
  · intro b m
    by_cases e : b = a
    · subst e
      simp [ha]
    · rw [Plan.set_of_ne e]
  · intro b m hb
    by_cases e : b = a
    · subst e
      simp at hb
    · rwa [Plan.set_of_ne e] at hb

theorem no_block_inside {s t : Slot} (A : Arena h P R) (ha : P a = some s) (ne : a < b)
    (lt : b < a + 2 ^ s.level) : P b ≠ some t := by
  intro hb
  have := A.eq_of_start ha hb ne.le lt
  omega

/-- A block in hand is cut into two. -/
theorem cut (A : Arena h P R) (ha : P a = some ⟨l + 1, .held⟩) :
    Arena h (P.cut a l) R ∧ P.SameTaken (P.cut a l) := by
  have pos := Nat.two_pow_pos l
  have twice : 2 ^ (l + 1) = 2 ^ l + 2 ^ l := by omega
  have upper (t : Slot) : P (a + 2 ^ l) ≠ some t :=
    A.no_block_inside ha (by omega) (show _ < _ + 2 ^ (l + 1) by omega)
  have same (b : Nat) {v : Use} (hv : v ≠ .held) (m : Nat) :
      P.cut a l b = some ⟨m, v⟩ ↔ P b = some ⟨m, v⟩ := by
    by_cases e : b = a + 2 ^ l
    · subst e
      simp [Plan.cut, hv.symm, upper]
    · by_cases e' : b = a
      · subst e'
        simp [Plan.cut, Plan.set_of_ne e, ha, hv.symm]
      · simp [Plan.cut, Plan.set_of_ne e, Plan.set_of_ne e']
  refine ⟨A.replan ?_ (fun b m => same b (by decide) m) (fun b m => (same b (by decide) m).mp),
    fun b m => same b (by decide) m⟩
  rw [Plan.levels_cut]
  exact A.tiling.split_tiling (Plan.levels_eq ha)

/-- Two buddies in hand are joined. -/
theorem join (A : Arena h P R) (ha : P a = some ⟨l, .held⟩) (hb : P (a + 2 ^ l) = some ⟨l, .held⟩)
    (aligned : 2 ^ (l + 1) ∣ a) : Arena h (P.join a l) R ∧ P.SameTaken (P.join a l) := by
  have same (b : Nat) {v : Use} (hv : v ≠ .held) (m : Nat) :
      P.join a l b = some ⟨m, v⟩ ↔ P b = some ⟨m, v⟩ := by
    by_cases e : b = a + 2 ^ l
    · subst e
      simp [Plan.join, hb, hv.symm]
    · by_cases e' : b = a
      · subst e'
        simp [Plan.join, ha, hv.symm]
      · simp [Plan.join, Plan.set_of_ne e', e]
  refine ⟨A.replan ?_ (fun b m => same b (by decide) m) (fun b m => (same b (by decide) m).mp),
    fun b m => same b (by decide) m⟩
  rw [Plan.levels_join]
  exact A.tiling.join_tiling (Plan.levels_eq ha) (Plan.levels_eq hb) aligned

end Arena

/-- How far free-list surgery has come: the heap agrees with some plan in which the same blocks are
taken as in `P` and the only block in hand is the one of level `l` at `a`; no buddies have become free together. -/
structure InHand (P : Plan) (h h' : Heap) (a l : Nat) : Prop where
  frame : Frame P h h'
  arena : ∃ Q R, Arena h' Q R ∧ P.SameTaken Q ∧ (P.Coalesced → Q.Coalesced) ∧ Q.OnlyHeld a ∧ Q a = some ⟨l, .held⟩

/-- Free-list surgery that is over: no block is in hand any more. -/
structure PutBack (P : Plan) (h h' : Heap) : Prop where
  frame : Frame P h h'
  arena : ∃ Q R, Arena h' Q R ∧ P.SameTaken Q ∧ (P.Coalesced → Q.Coalesced) ∧ Q.Settled

namespace Arena

variable {h : Heap} {P Q : Plan} {R : Nat → List Nat} {a b l m n : Nat} {u : Use}

theorem inHand (A : Arena h P R) (only : P.OnlyHeld a) (ha : P a = some ⟨l, .held⟩) :
    InHand P h h a l := ⟨Frame.refl P h, P, R, A, .refl P, id, only, ha⟩

end Arena

namespace InHand

variable {h h' : Heap} {P : Plan} {a l n : Nat}

/-- The block in hand, whose buddy is not free, goes to its free list. -/
theorem push (s : InHand P h h' a l) (alone : ¬(h'.freeAt (a ^^^ 2 ^ l) = true ∧ h'.levelAt (a ^^^ 2 ^ l) = l)) :
    ∃ h'', Heap.pushFree a l h' = .ok () h'' ∧ PutBack P h h'' := by
  obtain ⟨frame, Q, R, A, same, apart, only, ha⟩ := s
  obtain ⟨h'', run, A', frame'⟩ := A.push ha
  refine ⟨h'', run, frame.trans frame' same, _, _, A', ?_, fun c => ?_, only.settled (by decide)⟩
  · exact same.trans (Plan.sameTaken_set ha nofun nofun)
  · exact (apart c).set_free fun hb => alone (A.free hb)

/-- The upper halves of the block in hand go to the free lists. -/
theorem split (s : InHand P h h' a (l + n)) :
    ∃ h'', Heap.splitFree a l n h' = .ok () h'' ∧ InHand P h h'' a l := by
  induction n generalizing h' with
  | zero => exact ⟨h', rfl, s⟩
  | succ n ih =>
    obtain ⟨frame, Q, R, A, same, apart, only, ha⟩ := s
    have pos := Nat.two_pow_pos (l + n)
    obtain ⟨A₁, same₁⟩ : Arena h' (Q.cut a (l + n)) R ∧ Q.SameTaken (Q.cut a (l + n)) := A.cut ha
    have upper : Q.cut a (l + n) (a + 2 ^ (l + n)) = some ⟨l + n, .held⟩ := by simp [Plan.cut]
    have lower : Q.cut a (l + n) a = some ⟨l + n, .held⟩ := by
      rw [Plan.cut, Plan.set_of_ne (by omega), Plan.set_self]
    obtain ⟨h₂, run, A₂, frame₂⟩ := A₁.push upper
    have same₂ := same.trans (same₁.trans (Plan.sameTaken_set (t := ⟨l + n, .free⟩) upper nofun nofun))
    -- the upper half is the buddy of the lower one, which stays in hand
    have aligned : 2 ^ (l + n + 1) ∣ a := A.tiling.aligned (Plan.levels_eq ha)
    have buddy : (a + 2 ^ (l + n)) ^^^ 2 ^ (l + n) = a := by
      rw [← Tiling.buddy_lower aligned, Nat.xor_xor_cancel_right]
    have apart₂ (c : P.Coalesced) : ((Q.cut a (l + n)).set (a + 2 ^ (l + n)) ⟨l + n, .free⟩).Coalesced := by
      refine (apart c).cut.set_free ?_
      rw [buddy, lower]
      nofun
    have remaining : InHand P h h₂ a (l + n) := by
      refine ⟨frame.trans frame₂ (same.trans same₁), _, _, A₂, same₂, apart₂, fun b m hb => ?_, ?_⟩
      · by_cases e : b = a + 2 ^ (l + n)
        · subst e
          simp at hb
        · by_cases e' : b = a
          · exact e'
          · rw [Plan.set_of_ne e, Plan.cut, Plan.set_of_ne e, Plan.set_of_ne e'] at hb
            exact only b m hb
      · rwa [Plan.set_of_ne (by omega)]
    obtain ⟨h'', rest, done⟩ := ih remaining
    refine ⟨h'', ?_, done⟩
    have words : levelWords (l + n) = 2 ^ (l + n) := levelWords_eq _
    simp only [Heap.splitFree, HeapM.run_bind, words, run, rest]

/-- The block in hand is merged with its buddy as long as that is free. -/
theorem merge (s : InHand P h h' a l) (levels : l + n = h'.levels) :
    ∃ a' l' h'', Heap.mergeFree a l n h' = .ok (a', l') h'' ∧ InHand P h h'' a' l' ∧
      ¬(h''.freeAt (a' ^^^ 2 ^ l') = true ∧ h''.levelAt (a' ^^^ 2 ^ l') = l') := by
  induction n generalizing h' a l with
  | zero =>
    refine ⟨a, l, h', rfl, s, fun alone => ?_⟩
    obtain ⟨_, Q, R, A, _, _, _, ha⟩ := s
    -- the block is the whole arena, whose buddy is beyond the end
    have within := A.tiling.within (Plan.levels_eq ha)
    dsimp only at within
    obtain rfl : l = h'.levels := levels
    obtain rfl : a = 0 := by omega
    rw [Nat.zero_xor, Heap.freeAt_of_le A.capacity.le] at alone
    cases alone.1
  | succ n ih =>
    obtain ⟨frame, Q, R, A, same, apart, only, ha⟩ := s
    have words : levelWords l = 2 ^ l := levelWords_eq _
    have tile : Q.levels a = some l := Plan.levels_eq ha
    obtain ⟨m, hm, hb⟩ := A.tiling.buddy tile (by omega)
    obtain ⟨v, hb⟩ := Plan.eq_of_levels hb
    have inside := A.lt_capacity hb
    have ne := Tiling.buddy_ne (A.tiling.aligned tile)
    have stop : InHand P h h' a l := ⟨frame, Q, R, A, same, apart, only, ha⟩
    by_cases free : v = .free ∧ m = l
    · obtain ⟨rfl, rfl⟩ := free
      obtain ⟨header, level⟩ := A.free hb
      obtain ⟨h₁, run, A₁, frame₁⟩ := A.unlink hb
      have same₁ := same.trans (Plan.sameTaken_set hb (t := ⟨m, .held⟩) nofun nofun)
      have levels₁ := frame₁.rest.levels
      have apart₁ (c : P.Coalesced) : (Q.set (a ^^^ 2 ^ m) ⟨m, .held⟩).Coalesced := (apart c).set nofun
      generalize hP₁ : Q.set (a ^^^ 2 ^ m) ⟨m, .held⟩ = Q₁ at A₁ same₁ apart₁
      have hbuddy : Q₁ (a ^^^ 2 ^ m) = some ⟨m, .held⟩ := by rw [← hP₁, Plan.set_self]
      have hself : Q₁ a = some ⟨m, .held⟩ := by rw [← hP₁, Plan.set_of_ne ne.symm, ha]
      have held (b k : Nat) (h : Q₁ b = some ⟨k, .held⟩) : b = a ∨ b = a ^^^ 2 ^ m := by
        by_cases e : b = a ^^^ 2 ^ m
        · exact .inr e
        · rw [← hP₁, Plan.set_of_ne e] at h
          exact .inl (only b k h)
      -- the lower of the two buddies is where the merged block starts
      have merged : InHand P h h₁ (min a (a ^^^ 2 ^ m)) (m + 1) := by
        have pos := Nat.two_pow_pos m
        rcases Tiling.buddy_cases (A.tiling.aligned tile) with ⟨d, e⟩ | ⟨d, e⟩
        · rw [e] at hbuddy held ⊢
          obtain ⟨A₂, same₂⟩ := A₁.join hself hbuddy d
          rw [Nat.min_eq_left (by omega)]
          refine ⟨frame.trans frame₁ same, _, _, A₂, same₁.trans same₂, fun c => (apart₁ c).join, ?_, by simp [Plan.join]⟩
          intro b k hb
          by_cases eb : b = a + 2 ^ m
          · subst eb
            simp [Plan.join] at hb
          · by_cases ea : b = a
            · exact ea
            · simp [Plan.join, eb, Plan.set_of_ne ea] at hb
              exact (held b k hb).resolve_right eb
        · generalize hc : a ^^^ 2 ^ m = c at *
          subst e
          obtain ⟨A₂, same₂⟩ := A₁.join hbuddy hself d
          rw [Nat.min_eq_right (by omega)]
          refine ⟨frame.trans frame₁ same, _, _, A₂, same₁.trans same₂, fun c => (apart₁ c).join, ?_, by simp [Plan.join]⟩
          intro b k hb
          by_cases eb : b = c + 2 ^ m
          · subst eb
            simp [Plan.join] at hb
          · by_cases ea : b = c
            · exact ea
            · simp [Plan.join, eb, Plan.set_of_ne ea] at hb
              exact (held b k hb).resolve_left eb
      obtain ⟨a', l', h'', rest, done⟩ := ih merged (by rw [levels₁]; omega)
      refine ⟨a', l', h'', ?_, done⟩
      simp [Heap.mergeFree, HeapM.run_bind, HeapM.run_lift, words, Heap.isFree_eq inside, header,
        Heap.level_eq inside, level, run, rest]
    · cases v with
      | free =>
        obtain ⟨header, level⟩ := A.free hb
        have other : ¬m = l := fun e => free ⟨rfl, e⟩
        refine ⟨a, l, h', ?_, stop, fun alone => other (level.symm.trans alone.2)⟩
        simp [Heap.mergeFree, HeapM.run_bind, HeapM.run_lift, words, Heap.isFree_eq inside, header,
          Heap.level_eq inside, level, other, HeapM.run_pure]
      | taken =>
        have header := (A.taken hb).1
        refine ⟨a, l, h', ?_, stop, fun alone => Bool.false_ne_true (header.symm.trans alone.1)⟩
        simp [Heap.mergeFree, HeapM.run_bind, HeapM.run_lift, words, Heap.isFree_eq inside, header, HeapM.run_pure]
      | held => exact absurd (only _ _ hb) ne

end InHand

namespace Arena

variable {h : Heap} {P Q : Plan} {R : Nat → List Nat} {a b l m n : Nat} {u : Use}

/-- A free block is taken off its list and split down to the level asked for. -/
theorem take (A : Arena h P R) (settled : P.Settled) (ha : P a = some ⟨l + n, .free⟩) :
    ∃ h₁ h₂, Heap.unlinkFree a (l + n) h = .ok () h₁ ∧ Heap.splitFree a l n h₁ = .ok () h₂ ∧
      InHand P h h₂ a l := by
  obtain ⟨h₁, run, A₁, frame₁⟩ := A.unlink ha
  have same := Plan.sameTaken_set ha (t := ⟨l + n, .held⟩) nofun nofun
  have inHand : InHand P h h₁ a (l + n) := by
    refine ⟨frame₁, _, _, A₁, same, fun c => c.set nofun, ?_, Plan.set_self⟩
    intro b k hb
    by_cases e : b = a
    · exact e
    · rw [Plan.set_of_ne e] at hb
      exact absurd hb (settled b k)
  obtain ⟨h₂, run', done⟩ := inHand.split
  exact ⟨h₁, h₂, run, run', done⟩

/-- The search for a free block finds the first block of the lowest list that has one. -/
theorem takeFrom (A : Arena h P R) (settled : P.Settled) (levels : l + m + n = h.levels + 1) :
    (Heap.takeFreeFrom l m n h = .ok none h ∧ ∀ k, m ≤ k → l + k ≤ h.levels → R (l + k) = []) ∨
    ∃ a k h', Heap.takeFreeFrom l m n h = .ok (some a) h' ∧ InHand P h h' a l ∧
      (R (l + k)).head? = some a ∧ m ≤ k ∧ l + k ≤ h.levels ∧ ∀ i, m ≤ i → i < k → R (l + i) = [] := by
  induction n generalizing m with
  | zero => exact .inl ⟨rfl, fun k _ _ => by omega⟩
  | succ n ih =>
    have inside : l + m ≤ h.levels := by omega
    have first := Heap.firstFree_eq (A.first inside)
    cases hR : R (l + m) with
    | nil =>
      have step : Heap.takeFreeFrom l m (n + 1) h = Heap.takeFreeFrom l (m + 1) n h := by
        simp only [Heap.takeFreeFrom, HeapM.run_bind, HeapM.run_lift, first, hR, List.head?_nil]
      have skip {k : Nat} (hk : m ≤ k) (ne : R (l + k) ≠ []) : m + 1 ≤ k := by
        rcases Nat.eq_or_lt_of_le hk with rfl | lt
        · exact absurd hR ne
        · exact lt
      rcases ih (m := m + 1) (by omega) with ⟨run, empty⟩ | ⟨a, k, h', run, done, head, hk, hk', empty⟩
      · left
        refine ⟨step.trans run, fun k hk hk' => ?_⟩
        by_contra ne
        exact ne (empty k (skip hk ne) hk')
      · right
        refine ⟨a, k, h', step.trans run, done, head, by omega, hk', fun i hi hik => ?_⟩
        by_contra ne
        exact ne (empty i (skip hi ne) hik)
    | cons a rest =>
      right
      have ha : P a = some ⟨l + m, .free⟩ := (A.members inside).mp (by simp [hR])
      obtain ⟨h₁, h₂, unlink, split, done⟩ := A.take settled ha
      refine ⟨a, m, h₂, ?_, done, by simp [hR], le_rfl, inside, fun i _ _ => by omega⟩
      simp only [Heap.takeFreeFrom, HeapM.run_bind, HeapM.run_lift, first, hR, List.head?_cons, unlink,
        split, HeapM.run_pure]

/-- A block is given back and merged with its free buddies. -/
theorem release (A : Arena h P R) (settled : P.Settled) (ha : P a = some ⟨l, .taken⟩) :
    ∃ h', Heap.release a h = .ok () h' ∧ PutBack (P.set a ⟨l, .held⟩) h h' := by
  have inside := A.lt_capacity ha
  have level := (A.taken ha).2
  have hl := A.level_le ha
  have start : InHand (P.set a ⟨l, .held⟩) h h a l := by
    refine (A.hold ha).inHand ?_ Plan.set_self
    intro b k hb
    by_cases e : b = a
    · exact e
    · rw [Plan.set_of_ne e] at hb
      exact absurd hb (settled b k)
  obtain ⟨a', l', h₁, run, merged, alone⟩ := start.merge (n := h.levels - l) (by dsimp at hl; omega)
  obtain ⟨h₂, run', done⟩ := merged.push alone
  refine ⟨h₂, ?_, done⟩
  simp only [Heap.release, HeapM.run_bind, HeapM.run_lift, HeapM.run_get, Heap.level_eq inside, level,
    run, run']

end Arena

end FiberMachine
