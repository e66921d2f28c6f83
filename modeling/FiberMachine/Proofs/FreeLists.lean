import Mathlib.Data.List.Perm.Subperm
import FiberMachine.Proofs.FreeLink
import FiberMachine.Proofs.Ring

/-!
# Free lists as sequences

`h.Lists R` states that the free list of each level `l` is the sequence `R l`, read from the first free
block along the links. It says nothing about the partition, so it also holds between the steps of a split
or a merge, when a block is on no list and not allocated. `pushFree` and `unlinkFree` are two edits of
such sequences: one appends, the other erases, and only the headers next to the edit are written.
-/

namespace FiberMachine.Heap

/-- The free list of each level `l` is the ring `R l`, whose members carry headers of free blocks of that level. -/
structure Lists (h : Heap) (R : Nat → List Addr) : Prop where
  capacity_le : h.capacity ≤ linkLimit
  levels_le : h.levels ≤ maxLevel
  size : h.freeLists.size = h.levels + 1
  first : ∀ {l}, l ≤ h.levels → h.freeLists[l]? = some (R l).head?
  ring : ∀ {l}, l ≤ h.levels → Ring h.nextAt h.previousAt (R l)
  members : ∀ {l a}, l ≤ h.levels → a ∈ R l → a < h.capacity ∧ h.freeAt a = true ∧ h.levelAt a = l

/-- The addresses from `a` on along the links, up to the one that leads back to `first`, and at most `n` of them. -/
def linksFrom (h : Heap) (first a : Addr) : Nat → List Addr
  | 0 => []
  | n + 1 => a :: if h.nextAt a = first then [] else h.linksFrom first (h.nextAt a) n

/-- The free list of a level as a sequence. No list is longer than the arena. -/
def freeList (h : Heap) (l : Nat) : List Addr :=
  match h.freeLists[l]? with
  | some (some first) => h.linksFrom first first h.capacity
  | _ => []

/-- Apart from the heads of the lists, only the header at `a` and links in the headers `near` it have changed. -/
structure Spliced (h h' : Heap) (a : Addr) (near : List Addr) : Prop where
  rest : h.Rest h'
  capacity : h'.capacity = h.capacity
  header : ∀ b, b ≠ a → h'.freeAt b = h.freeAt b ∧ h'.levelAt b = h.levelAt b
  words : ∀ x, x ≠ a → x ∉ near → h'.wordAt x = h.wordAt x

namespace Lists

variable {h h' : Heap} {R : Nat → List Addr} {xs near : List Addr} {a b l m : Nat}

theorem lt_linkLimit (lists : h.Lists R) (hl : l ≤ h.levels) (ha : a ∈ R l) : a < linkLimit :=
  Nat.lt_of_lt_of_le (lists.members hl ha).1 lists.capacity_le

/-- From a member of a ring on, the links run through the rest of the ring. -/
theorem linksFrom_eq {p post : List Addr} {f n : Nat} (ring : Ring h.nextAt h.previousAt (p ++ a :: post))
    (first : f ∈ (p ++ a :: post).head?) (room : post.length < n) : h.linksFrom f a n = a :: post := by
  induction post generalizing a p n with
  | nil =>
    obtain ⟨n, rfl⟩ : ∃ k, n = k + 1 := ⟨n - 1, by simp at room; omega⟩
    rw [linksFrom, if_pos (ring.next_last first)]
  | cons b post ih =>
    obtain ⟨n, rfl⟩ : ∃ k, n = k + 1 := ⟨n - 1, by simp at room; omega⟩
    obtain ⟨next, more⟩ := ring.next_inner first
    have rest := ih (a := b) (p := p ++ [a]) (n := n) (by simpa using ring) (by simpa using first) (by simpa using room)
    rw [linksFrom, next, if_neg more, rest]

theorem length_le (lists : h.Lists R) (hl : l ≤ h.levels) : (R l).length ≤ h.capacity := by
  have inside : R l ⊆ List.range h.capacity := fun a ha => List.mem_range.mpr (lists.members hl ha).1
  have := (List.subperm_of_subset (lists.ring hl).nodup inside).length_le
  rwa [List.length_range] at this

/-- The sequences are what one finds along the links. -/
theorem freeList_eq (lists : h.Lists R) (hl : l ≤ h.levels) : h.freeList l = R l := by
  have length := lists.length_le hl
  have ring := lists.ring hl
  rw [freeList, lists.first hl]
  cases hR : R l with
  | nil => rfl
  | cons f rest =>
    rw [hR] at ring length
    exact linksFrom_eq (p := []) ring rfl length

theorem listed (lists : h.Lists R) : h.Lists h.freeList where
  capacity_le := lists.capacity_le
  levels_le := lists.levels_le
  size := lists.size
  first hl := lists.freeList_eq hl ▸ lists.first hl
  ring hl := lists.freeList_eq hl ▸ lists.ring hl
  members hl ha := lists.members hl (lists.freeList_eq hl ▸ ha)

/-- No block is on two lists. -/
theorem eq_of_mem (lists : h.Lists R) (hl : l ≤ h.levels) (hm : m ≤ h.levels) (ha : a ∈ R l) (hb : a ∈ R m) : m = l :=
  (lists.members hm hb).2.2.symm.trans (lists.members hl ha).2.2

/-- The list of one level becomes `xs`, by an edit that stays within the list. -/
theorem relist (lists : h.Lists R) (hl : l ≤ h.levels) (spliced : h.Spliced h' a near) (within : ∀ x ∈ near, x ∈ R l)
    (elsewhere : ∀ m ≤ h.levels, m ≠ l → a ∉ R m) (size : h'.freeLists.size = h.freeLists.size)
    (first : h'.freeLists[l]? = some xs.head?) (firsts : ∀ m, m ≠ l → h'.freeLists[m]? = h.freeLists[m]?)
    (ring : Ring h'.nextAt h'.previousAt xs)
    (members : ∀ b ∈ xs, b < h.capacity ∧ h'.freeAt b = true ∧ h'.levelAt b = l) :
    h'.Lists (Function.update R l xs) := by
  have levels := spliced.rest.levels
  -- the members of another list are neither the block nor next to it
  have other {m b : Nat} (hm : m ≤ h.levels) (e : m ≠ l) (hb : b ∈ R m) : b ≠ a ∧ b ∉ near :=
    ⟨fun same => elsewhere m hm e (same ▸ hb), fun hn => e (lists.eq_of_mem hl hm (within b hn) hb)⟩
  refine ⟨spliced.capacity ▸ lists.capacity_le, levels ▸ lists.levels_le, by rw [size, levels, lists.size], ?_, ?_, ?_⟩
  · intro m hm
    by_cases e : m = l
    · subst e
      rw [Function.update_self]
      exact first
    · rw [Function.update_of_ne e, firsts m e]
      exact lists.first (levels ▸ hm)
  · intro m hm
    by_cases e : m = l
    · subst e
      rw [Function.update_self]
      exact ring
    · rw [Function.update_of_ne e]
      have same (b : Nat) (hb : b ∈ R m) : h'.wordAt b = h.wordAt b := by
        obtain ⟨ne, out⟩ := other (levels ▸ hm) e hb
        exact spliced.words b ne out
      exact (lists.ring (levels ▸ hm)).congr (fun b hb => by rw [nextAt, nextAt, same b hb])
        fun b hb => by rw [previousAt, previousAt, same b hb]
  · intro m b hm hb
    rw [spliced.capacity]
    by_cases e : m = l
    · subst e
      rw [Function.update_self] at hb
      exact members b hb
    · rw [Function.update_of_ne e] at hb
      obtain ⟨ne, _⟩ := other (levels ▸ hm) e hb
      rw [(spliced.header b ne).1, (spliced.header b ne).2]
      exact lists.members (levels ▸ hm) hb

/-- A block becomes the only member of an empty list. -/
theorem push_nil (lists : h.Lists R) (hl : l ≤ h.levels) (ha : a < h.capacity) (unlisted : ∀ m ≤ h.levels, a ∉ R m)
    (hR : R l = []) : ∃ h', pushFree a l h = .ok () h' ∧ h'.Lists (Function.update R l [a]) ∧ h.Spliced h' a [] := by
  have hl' : l ≤ maxLevel := hl.trans lists.levels_le
  have hal : a < linkLimit := Nat.lt_of_lt_of_le ha lists.capacity_le
  have first : h.freeLists[l]? = some none := by rw [lists.first hl, hR]; rfl
  have inside : l < h.freeLists.size := by rw [lists.size]; omega
  have spliced : h.Spliced (h.started a l) a [] := by
    refine ⟨rest_started, capacity_started, fun b hb => ?_, fun x hx _ => wordAt_started_of_ne hx.symm⟩
    rw [freeAt_started ha, levelAt_started ha hl', if_neg hb.symm, if_neg hb.symm]
    exact ⟨rfl, rfl⟩
  refine ⟨_, pushFree_eq_of_none ha first, ?_, spliced⟩
  refine lists.relist hl spliced (by simp) (fun m hm _ => unlisted m hm) (by simp) (by simp [inside]) (fun m hm => by simp [hm.symm])
    (.singleton (nextAt_started ha hal) (previousAt_started ha hal)) fun b hb => ?_
  obtain rfl : b = a := by simpa using hb
  rw [freeAt_started ha, levelAt_started ha hl', if_pos rfl, if_pos rfl]
  exact ⟨ha, rfl, rfl⟩

/-- A block is put between the last and the first member, which may be the same. -/
theorem push_cons {f : Nat} {fs : List Addr} (lists : h.Lists R) (hl : l ≤ h.levels) (ha : a < h.capacity)
    (unlisted : ∀ m ≤ h.levels, a ∉ R m) (hR : R l = f :: fs) :
    ∃ h', pushFree a l h = .ok () h' ∧ h'.Lists (Function.update R l (f :: fs ++ [a])) ∧ h.Spliced h' a [f, h.previousAt f] := by
  have hl' : l ≤ maxLevel := hl.trans lists.levels_le
  have hal : a < linkLimit := Nat.lt_of_lt_of_le ha lists.capacity_le
  have fresh := unlisted l hl
  have ring : Ring h.nextAt h.previousAt (f :: fs) := hR ▸ lists.ring hl
  have hf : f ∈ R l := by simp [hR]
  have hp : h.previousAt f ∈ R l := hR ▸ ring.previous_mem List.mem_cons_self
  have inside {b : Nat} (hb : b ∈ R l) : b < h.capacity := (lists.members hl hb).1
  have other {b : Nat} (hb : b ∈ R l) : a ≠ b := fun e => fresh (e ▸ hb)
  have hfl := lists.lt_linkLimit hl hf
  have hpl := lists.lt_linkLimit hl hp
  have next {b : Nat} := nextAt_appended (b := b) (l := l) ha (inside hp) (inside hf) hal hfl
  have previous {b : Nat} := previousAt_appended (b := b) (l := l) ha (inside hp) (inside hf) hal hpl
  have free {b : Nat} := freeAt_appended (b := b) (l := l) ha (inside hp) (inside hf)
  have level {b : Nat} := levelAt_appended (b := b) ha (inside hp) (inside hf) hl'
  have first : h.freeLists[l]? = some (some f) := by rw [lists.first hl, hR]; rfl
  have spliced : h.Spliced (h.appended a (h.previousAt f) f l) a [f, h.previousAt f] := by
    refine ⟨rest_appended, capacity_appended, fun b hb => ?_, fun x hx out => ?_⟩
    · rw [free, level, if_neg hb.symm, if_neg hb.symm]
      exact ⟨rfl, rfl⟩
    · simp only [List.mem_cons, List.not_mem_nil, or_false, not_or] at out
      exact wordAt_appended_of_ne hx.symm (Ne.symm out.2) (Ne.symm out.1)
  refine ⟨_, pushFree_eq_of_some ha (inside hf) (other hf) (inside hp) first, ?_, spliced⟩
  refine lists.relist hl spliced (by simp [hf, hp]) (fun m hm _ => unlisted m hm) (by simp) (by simpa using first) (fun m _ => by simp) ?_
    fun b hb => ?_
  · apply ring.push (hR ▸ fresh)
    · rw [next, if_neg (other hp), if_pos rfl]
    · rw [previous, if_neg (other hf).symm, if_pos rfl]
    · rw [next, if_pos rfl]
    · rw [previous, if_pos rfl]
    · intro y hy hyp
      rw [next, if_neg (other (hR ▸ hy)), if_neg hyp.symm]
    · intro y hy hyf
      rw [previous, if_neg hyf.symm, if_neg (other (hR ▸ hy))]
  · rw [free, level]
    by_cases e : a = b
    · rw [if_pos e, if_pos e]
      exact ⟨e ▸ ha, rfl, rfl⟩
    · rw [if_neg e, if_neg e]
      refine lists.members hl (hR ▸ ?_)
      rcases List.mem_append.mp hb with hb | hb
      · exact hb
      · exact absurd (List.mem_singleton.mp hb).symm e

/-- Appending a block that is on no list. -/
theorem push (lists : h.Lists R) (hl : l ≤ h.levels) (ha : a < h.capacity) (unlisted : ∀ m ≤ h.levels, a ∉ R m) :
    ∃ h', pushFree a l h = .ok () h' ∧ h'.Lists (Function.update R l (R l ++ [a])) ∧
      h.Spliced h' a ((R l).head?.toList ++ (R l).getLast?.toList) := by
  cases hR : R l with
  | nil => exact lists.push_nil hl ha unlisted hR
  | cons f fs =>
    have ring : Ring h.nextAt h.previousAt (f :: fs) := hR ▸ lists.ring hl
    have last : (f :: fs).getLast? = some (h.previousAt f) := by
      obtain ⟨z, hz⟩ : ∃ z, (f :: fs).getLast? = some z := ⟨_, List.getLast?_eq_some_getLast (by simp)⟩
      rw [hz, (ring.next_getLast hz).2]
    rw [last]
    exact lists.push_cons hl ha unlisted hR

/-- The only member of a list leaves it empty. -/
theorem unlink_only (lists : h.Lists R) (hl : l ≤ h.levels) (ha : a ∈ R l) (only : h.nextAt a = a) :
    ∃ h', unlinkFree a l h = .ok () h' ∧ h'.Lists (Function.update R l ((R l).erase a)) ∧
      h.Spliced h' a [h.previousAt a, h.nextAt a] := by
  have ring := lists.ring hl
  have size : l < h.freeLists.size := by rw [lists.size]; omega
  have near : ∀ x ∈ [h.previousAt a, h.nextAt a], x ∈ R l := by simp [ring.next_mem ha, ring.previous_mem ha]
  have none_left : (R l).erase a = [] := by rw [ring.eq_singleton ha only, List.erase_cons_head]
  have spliced : h.Spliced (h.withFirst l none) a [h.previousAt a, h.nextAt a] :=
    ⟨rest_withFirst, rfl, fun _ _ => ⟨rfl, rfl⟩, fun _ _ _ => rfl⟩
  refine ⟨_, unlinkFree_eq_of_only (lists.members hl ha).1 only (lists.first hl), ?_, spliced⟩
  refine lists.relist hl spliced near (fun m hm e hb => e (lists.eq_of_mem hl hm ha hb)) (by simp) (by simp [size, none_left])
    (fun m hm => by simp [hm.symm]) ?_ (by simp [none_left])
  rw [none_left]
  exact Ring.empty _ _

/-- The neighbours of a member are linked to each other. -/
theorem unlink_more (lists : h.Lists R) (hl : l ≤ h.levels) (ha : a ∈ R l) (more : h.nextAt a ≠ a) :
    ∃ h', unlinkFree a l h = .ok () h' ∧ h'.Lists (Function.update R l ((R l).erase a)) ∧
      h.Spliced h' a [h.previousAt a, h.nextAt a] := by
  have inside {b : Nat} (hb : b ∈ R l) : b < h.capacity := (lists.members hl hb).1
  have ring := lists.ring hl
  obtain ⟨before, after, split⟩ := List.append_of_mem ha
  have erased : (R l).erase a = before ++ after := by
    have := ring.nodup
    rw [split] at this ⊢
    rw [List.erase_append_right _ (by grind [List.nodup_append]), List.erase_cons_head]
  have size : l < h.freeLists.size := by rw [lists.size]; omega
  have hn := ring.next_mem ha
  have hp := ring.previous_mem ha
  have hnl := lists.lt_linkLimit hl hn
  have hpl := lists.lt_linkLimit hl hp
  have next {b : Nat} := nextAt_bridged (b := b) (inside hp) (inside hn) hnl
  have previous {b : Nat} := previousAt_bridged (b := b) (inside hp) (inside hn) hpl
  have free {b : Nat} := freeAt_bridged (b := b) (inside hp) (inside hn)
  have level {b : Nat} := levelAt_bridged (b := b) (inside hp) (inside hn)
  have spliced : h.Spliced ((h.bridged (h.previousAt a) (h.nextAt a)).withFirst l
      (if (R l).head? = some a then some (h.nextAt a) else (R l).head?)) a [h.previousAt a, h.nextAt a] := by
    refine ⟨rest_bridged.trans rest_withFirst, capacity_bridged, fun b _ => ⟨free, level⟩, fun x _ out => ?_⟩
    simp only [List.mem_cons, List.not_mem_nil, or_false, not_or] at out
    exact wordAt_bridged_of_ne (Ne.symm out.1) (Ne.symm out.2)
  refine ⟨_, unlinkFree_eq_of_more (inside ha) more (inside hn) (inside hp) (lists.first hl), ?_, spliced⟩
  refine lists.relist hl spliced (by simp [hn, hp]) (fun m hm e hb => e (lists.eq_of_mem hl hm ha hb)) (by simp) ?_
    (fun m hm => by simp [hm.symm]) ?_ fun b hb => ?_
  · rw [erased, split]
    rw [split] at ring
    cases before with
    | nil => simp [size, ring.head?_tail more]
    | cons z before =>
      have : z ≠ a := by
        have := ring.nodup
        grind [List.nodup_append]
      simp [size, this]
  · rw [erased]
    rw [split] at ring
    apply ring.unlink more
    · exact next.trans (if_pos rfl)
    · exact previous.trans (if_pos rfl)
    · exact fun y _ hy => next.trans (if_neg hy.symm)
    · exact fun y _ hy => previous.trans (if_neg hy.symm)
  · obtain ⟨within, isFree, atLevel⟩ := lists.members hl (List.mem_of_mem_erase hb)
    exact ⟨within, free.trans isFree, level.trans atLevel⟩

/-- Erasing a member. -/
theorem unlink (lists : h.Lists R) (hl : l ≤ h.levels) (ha : a ∈ R l) :
    ∃ h', unlinkFree a l h = .ok () h' ∧ h'.Lists (Function.update R l ((R l).erase a)) ∧
      h.Spliced h' a [h.previousAt a, h.nextAt a] := by
  by_cases only : h.nextAt a = a
  · exact lists.unlink_only hl ha only
  · exact lists.unlink_more hl ha only

end Lists

end FiberMachine.Heap
