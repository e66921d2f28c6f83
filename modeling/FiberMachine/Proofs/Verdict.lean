import Mathlib.Data.List.Perm.Subperm
import FiberMachine.Proofs.Workload

/-!
# What the validator accepts

The validator may be given any memory whatever, so it is told here what it does with forged headers, links and list heads. It accepts a
heap exactly when the walk by header levels tiles the arena with aligned blocks and the links from each list head close a ring of
headers that look like free blocks of that level, as many as the partition has. It does not ask whether a member of the ring is
the start of a block, and it follows links without asking whether they lead out of the memory: such an address is a fault.
-/

namespace FiberMachine

namespace Ring

variable {next previous : Nat → Nat} {f : Nat} {rest : List Nat}

/-- Links that lead from the first member back to it, and not earlier, make a ring: the member before another one is determined, so a
member that came twice would lead back to the first one before the end. -/
theorem of_chain (chain : (f :: rest ++ [f]).IsChain (Linked next previous)) (once : f ∉ rest) : Ring next previous (f :: rest) := by
  have link (i : Nat) (hi : i < rest.length) (hi' : i < (f :: rest).length) : previous rest[i] = (f :: rest)[i] := by
    have linked := (List.isChain_iff_getElem.mp chain.left_of_append) i (by simpa using hi)
    simpa using linked.2
  have apart (i j : Nat) (hj : j < (f :: rest).length) (lt : i < j) : (f :: rest)[i] ≠ (f :: rest)[j] := by
    induction i generalizing j with
    | zero =>
      obtain ⟨j, rfl⟩ := Nat.exists_eq_succ_of_ne_zero (Nat.ne_of_gt lt)
      intro same
      rw [List.getElem_cons_zero, List.getElem_cons_succ] at same
      exact once (same ▸ List.getElem_mem _)
    | succ i ih =>
      obtain ⟨j, rfl⟩ := Nat.exists_eq_succ_of_ne_zero (Nat.ne_of_gt (Nat.lt_of_le_of_lt (Nat.zero_le _) lt))
      have hj' : j < rest.length := Nat.lt_of_succ_lt_succ hj
      have lt' : i < j := Nat.lt_of_succ_lt_succ lt
      intro same
      rw [List.getElem_cons_succ, List.getElem_cons_succ] at same
      refine ih j (Nat.lt_of_succ_lt hj) lt' ?_
      rw [← link i (Nat.lt_trans lt' hj'), ← link j hj', same]
  refine ⟨List.pairwise_iff_getElem.mpr fun i j hi hj lt => apart i j hj lt, fun x hx => ?_⟩
  cases Option.some.inj hx
  exact chain

end Ring

/-- A pass over a list succeeds if every step does, and otherwise fails as the first step that fails. -/
theorem HeapReader.run_forM_cases {α : Type} (f : α → HeapReader Unit) (xs : List α) (h : Heap) :
    ((forM xs f : HeapReader Unit) h = .ok () ∧ ∀ x ∈ xs, f x h = .ok ()) ∨
      ∃ x ∈ xs, ∃ e, f x h = .error e ∧ (forM xs f : HeapReader Unit) h = .error e := by
  induction xs with
  | nil => exact .inl ⟨rfl, fun _ no => absurd no List.not_mem_nil⟩
  | cons x xs ih =>
    have step : (forM (x :: xs) f : HeapReader Unit) h = (f x >>= fun _ => (forM xs f : HeapReader Unit)) h := rfl
    rw [step, HeapReader.run_bind]
    cases run : f x h with
    | error e => exact .inr ⟨x, List.mem_cons_self, e, run, rfl⟩
    | ok =>
      rcases ih with ⟨rest, each⟩ | ⟨y, hy, e, failed, rest⟩
      · exact .inl ⟨rest, List.forall_mem_cons.mpr ⟨run, each⟩⟩
      · exact .inr ⟨y, List.mem_cons_of_mem x hy, e, failed, rest⟩

namespace Heap

variable {h : Heap} {l a f n k : Nat} {b : Block} {e : HeapFailure}

/-! ### Reading anywhere -/

theorem lt_of_free (free : h.freeAt a = true) : a < h.capacity := by
  by_contra beyond
  rw [freeAt_of_le (Nat.not_lt.mp beyond)] at free
  cases free

/-- The validator says what is wrong. -/
def Condemned {α : Type} (verdict : Except HeapFailure α) : Prop := ∃ detail, verdict = .error (.error (.corrupted detail))

/-! ### One member -/

/-- The header at `a` looks like that of a free block of level `l`. -/
def LooksFree (h : Heap) (l a : Nat) : Prop := h.freeAt a = true ∧ h.levelAt a = l

instance : Decidable (h.LooksFree l a) := inferInstanceAs (Decidable (_ ∧ _))

/-- A member is tested to the end, or found wanting, or it is the first to lead out of the memory. -/
theorem checkMember_cases (l a : Nat) (h : Heap) :
    (checkMember l a h = .ok (h.nextAt a) ∧ h.LooksFree l a ∧ h.previousAt (h.nextAt a) = a) ∨
      Condemned (checkMember l a h) ∨
      h.capacity ≤ a ∧ checkMember l a h = .error (.fault (.outsideMemory a)) ∨
      h.LooksFree l a ∧ h.capacity ≤ h.nextAt a ∧ checkMember l a h = .error (.fault (.outsideMemory (h.nextAt a))) := by
  by_cases inside : a < h.capacity
  · by_cases looks : h.LooksFree l a
    · obtain ⟨free, level⟩ := looks
      by_cases next : h.nextAt a < h.capacity
      · by_cases back : h.previousAt (h.nextAt a) = a
        · exact .inl ⟨checkMember_eq inside free level next back, ⟨free, level⟩, back⟩
        · refine .inr (.inl ⟨s!"broken links at {a}", ?_⟩)
          simp [checkMember, HeapReader.run_bind, HeapReader.run_map, isFree_eq inside, free, level_eq inside, level, nextFree_eq inside,
            previousFree_eq next, back, corrupted, HeapReader.run_reject]
      · refine .inr (.inr (.inr ⟨⟨free, level⟩, Nat.not_lt.mp next, ?_⟩))
        simp [checkMember, HeapReader.run_bind, HeapReader.run_map, isFree_eq inside, free, level_eq inside, level, nextFree_eq inside,
          previousFree, field_of_le _ (Nat.not_lt.mp next)]
    · refine .inr (.inl ⟨s!"free list {l} holds block {a}", ?_⟩)
      rw [LooksFree, not_and_or] at looks
      by_cases free : h.freeAt a = true
      · have level : h.levelAt a ≠ l := looks.resolve_left (not_not.mpr free)
        simp [checkMember, HeapReader.run_bind, HeapReader.run_map, isFree_eq inside, free, level_eq inside, level, corrupted,
          HeapReader.run_reject]
      · simp [checkMember, HeapReader.run_bind, isFree_eq inside, free, corrupted, HeapReader.run_reject, HeapReader.run_pure]
  · refine .inr (.inr (.inl ⟨Nat.not_lt.mp inside, ?_⟩))
    simp [checkMember, HeapReader.run_bind, isFree, field_of_le _ (Nat.not_lt.mp inside)]

/-! ### One list -/

/-- Where a list leads out of the memory: at its head, or at a link from a header that looks free. -/
def LeadsOut (h : Heap) (l : Nat) (first : Option Addr) (a : Nat) : Prop :=
  h.capacity ≤ a ∧ (first = some a ∨ ∃ b, h.LooksFree l b ∧ h.nextAt b = a)

/-- The walk over a list is accepted when the links close it, found wanting, or leads out of the memory. -/
theorem checkMembers_cases (l f a n : Nat) (h : Heap) :
    (∃ rest, checkMembers l f a n h = .ok (rest.length + 1) ∧ rest.length < n ∧ f ∉ rest ∧
        (a :: rest ++ [f]).IsChain (Linked h.nextAt h.previousAt) ∧ ∀ b ∈ a :: rest, h.LooksFree l b) ∨
      Condemned (checkMembers l f a n h) ∨
      ∃ b, h.LeadsOut l (some a) b ∧ checkMembers l f a n h = .error (.fault (.outsideMemory b)) := by
  induction n generalizing a with
  | zero =>
    rcases checkMember_cases l a h with ⟨run, _⟩ | ⟨detail, run⟩ | ⟨out, run⟩ | ⟨looks, out, run⟩
    · refine .inr (.inl ⟨s!"free list {l} is cyclic", ?_⟩)
      simp only [checkMembers, HeapReader.run_bind, run, corrupted, HeapReader.run_reject]
    · exact .inr (.inl ⟨detail, by simp only [checkMembers, HeapReader.run_bind, run]⟩)
    · exact .inr (.inr ⟨a, ⟨out, .inl rfl⟩, by simp only [checkMembers, HeapReader.run_bind, run]⟩)
    · exact .inr (.inr ⟨_, ⟨out, .inr ⟨a, looks, rfl⟩⟩, by simp only [checkMembers, HeapReader.run_bind, run]⟩)
  | succ n ih =>
    rcases checkMember_cases l a h with ⟨run, looks, back⟩ | ⟨detail, run⟩ | ⟨out, run⟩ | ⟨looks, out, run⟩
    · by_cases last : h.nextAt a = f
      · refine .inl ⟨[], ?_, Nat.succ_pos n, List.not_mem_nil, ?_, ?_⟩
        · simp [checkMembers, HeapReader.run_bind, run, last, HeapReader.run_pure]
        · simpa [Linked, last] using last ▸ back
        · simpa using looks
      · have step : checkMembers l f a (n + 1) h = ((· + 1) <$> checkMembers l f (h.nextAt a) n) h := by
          simp [checkMembers, HeapReader.run_bind, HeapReader.run_map, run, last]
        rcases ih (h.nextAt a) with ⟨rest, found, room, once, chain, each⟩ | ⟨detail, found⟩ | ⟨b, out, found⟩
        · refine .inl ⟨h.nextAt a :: rest, ?_, Nat.succ_lt_succ room, ?_, ?_, ?_⟩
          · rw [step, HeapReader.run_map, found, List.length_cons]
          · rw [List.mem_cons, not_or]
            exact ⟨fun same => last same.symm, once⟩
          · exact List.isChain_cons_cons.mpr ⟨⟨rfl, back⟩, chain⟩
          · exact List.forall_mem_cons.mpr ⟨looks, each⟩
        · exact .inr (.inl ⟨detail, by rw [step, HeapReader.run_map, found]⟩)
        · refine .inr (.inr ⟨b, ⟨out.1, .inr ?_⟩, by rw [step, HeapReader.run_map, found]⟩)
          rcases out.2 with first | later
          · exact ⟨a, looks, Option.some.inj first⟩
          · exact later
    · exact .inr (.inl ⟨detail, by simp only [checkMembers, HeapReader.run_bind, run]⟩)
    · exact .inr (.inr ⟨a, ⟨out, .inl rfl⟩, by simp only [checkMembers, HeapReader.run_bind, run]⟩)
    · exact .inr (.inr ⟨_, ⟨out, .inr ⟨a, looks, rfl⟩⟩, by simp only [checkMembers, HeapReader.run_bind, run]⟩)

/-- The number of free blocks of a level in the partition. -/
def freeCount (h : Heap) (l : Nat) : Nat := h.blocks.countP fun b => b.free && b.level == l

/-- From the given head the links close a ring of headers that look like free blocks of level `l`, as many as there are in the
partition. -/
structure ListedAs (h : Heap) (l : Nat) (ring : List Addr) : Prop where
  closed : Ring h.nextAt h.previousAt ring
  looks : ∀ a ∈ ring, h.LooksFree l a
  count : ring.length = h.freeCount l

/-- A list is accepted exactly when it is a ring of the right length; else it is found wanting, or it leads out of the memory. -/
theorem checkFreeList_cases (l : Nat) (first : Option Addr) (h : Heap) :
    (checkFreeList h.blocks l first h = .ok () ∧ ∃ ring, first = ring.head? ∧ h.ListedAs l ring) ∨
      Condemned (checkFreeList h.blocks l first h) ∨
      ∃ b, h.LeadsOut l first b ∧ checkFreeList h.blocks l first h = .error (.fault (.outsideMemory b)) := by
  have counted : (h.blocks.countP fun b => b.free && b.level == l) = h.freeCount l := rfl
  cases first with
  | none =>
    by_cases none : 0 = h.freeCount l
    · refine .inl ⟨?_, [], rfl, .empty _ _, fun _ no => absurd no List.not_mem_nil, none⟩
      simp [checkFreeList, HeapReader.run_pure, counted, ← none]
    · refine .inr (.inl ⟨s!"free list {l} has {0} blocks, partition has {h.freeCount l}", ?_⟩)
      simp [checkFreeList, counted, none, corrupted, HeapReader.run_reject]
  | some a =>
    rcases checkMembers_cases l a a (h.freeCount l) h with ⟨rest, run, room, once, chain, looks⟩ | ⟨detail, run⟩ | ⟨b, out, run⟩
    · by_cases same : rest.length + 1 = h.freeCount l
      · refine .inl ⟨?_, a :: rest, rfl, .of_chain chain once, looks, same⟩
        simp [checkFreeList, HeapReader.run_bind, HeapReader.run_pure, counted, run, same]
      · refine .inr (.inl ⟨s!"free list {l} has {rest.length + 1} blocks, partition has {h.freeCount l}", ?_⟩)
        simp [checkFreeList, HeapReader.run_bind, counted, run, same, corrupted, HeapReader.run_reject]
    · exact .inr (.inl ⟨detail, by simp only [checkFreeList, HeapReader.run_bind, counted, run]⟩)
    · exact .inr (.inr ⟨b, out, by simp only [checkFreeList, HeapReader.run_bind, counted, run]⟩)

/-! ### Blocks -/

/-- A block passes its test, or the validator says what is wrong. -/
theorem checkBlock_cases (levels : Nat) (b : Block) (h : Heap) :
    (checkBlock levels b h = .ok () ∧ b.level ≤ levels ∧ b.words ∣ b.addr) ∨ Condemned (checkBlock levels b h) := by
  by_cases level : levels < b.level
  · exact .inr ⟨s!"block {b.addr} has level {b.level}", by simp [checkBlock, level, corrupted, HeapReader.run_bind, HeapReader.run_reject]⟩
  · by_cases aligned : b.addr % b.words = 0
    · exact .inl ⟨by simp [checkBlock, level, aligned, HeapReader.run_pure], Nat.not_lt.mp level, Nat.dvd_of_mod_eq_zero aligned⟩
    · refine .inr ⟨s!"block {b.addr} not aligned to {b.words} words", ?_⟩
      simp [checkBlock, level, aligned, corrupted, HeapReader.run_reject]

/-! ### The verdict -/

/-- What the validator asks of a heap. -/
structure Accepted (h : Heap) : Prop where
  aligned : ∀ b ∈ h.blocks, b.level ≤ h.levels ∧ b.words ∣ b.addr
  ends : Block.total h.blocks = h.capacity
  lists : ∀ l < h.freeLists.size, ∃ ring : List Addr, h.freeLists[l]? = some ring.head? ∧ h.ListedAs l ring

namespace Accepted

variable (accepted : h.Accepted)
include accepted

/-- Every block of an accepted heap lies in the arena. -/
theorem within (hb : b ∈ h.blocks) : b.addr + b.words ≤ h.capacity := by
  have inside := ((blocksFrom_tiles h 0 h.capacity).1 b hb).2
  rwa [Nat.zero_add, show h.blocksFrom 0 h.capacity = h.blocks from rfl, accepted.ends] at inside

/-- Every word of an accepted heap is in exactly one block. -/
theorem tiles {x : Nat} (hx : x < h.capacity) : ∃! b, b ∈ h.blocks ∧ b.addr ≤ x ∧ x < b.addr + b.words := by
  refine (blocksFrom_tiles h 0 h.capacity).2 x (Nat.zero_le x) ?_
  rwa [Nat.zero_add, show h.blocksFrom 0 h.capacity = h.blocks from rfl, accepted.ends]

end Accepted

/-- A list whose members are all starts of blocks holds the free blocks of its level, each once. -/
theorem ListedAs.mem_iff {ring : List Addr} (listed : h.ListedAs l ring) (starts : ∀ a ∈ ring, ∃ b ∈ h.blocks, b.addr = a) :
    a ∈ ring ↔ ∃ b ∈ h.blocks, b.addr = a ∧ b.level = l ∧ b.free = true := by
  have free : ring ⊆ (h.blocks.filter fun b => b.free && b.level == l).map Block.addr := by
    intro a ha
    obtain ⟨b, hb, rfl⟩ := starts a ha
    obtain ⟨free, level⟩ := listed.looks _ ha
    have header := ofHeader_of_mem_blocks hb
    refine List.mem_map.mpr ⟨b, List.mem_filter.mpr ⟨hb, ?_⟩, rfl⟩
    rw [header]
    exact Bool.and_eq_true_iff.mpr ⟨free, beq_iff_eq.mpr level⟩
  have count : ((h.blocks.filter fun b => b.free && b.level == l).map Block.addr).length = ring.length := by
    rw [List.length_map, ← List.countP_eq_length_filter, listed.count, freeCount]
  have perm := (List.subperm_of_subset listed.closed.nodup free).perm_of_length_le (Nat.le_of_eq count)
  rw [perm.mem_iff, List.mem_map]
  refine exists_congr fun b => ?_
  simp [List.mem_filter, and_assoc, and_comm]

/-- The validator accepts, says what is wrong, or is led out of the memory by the head of a list or by the link of a header that looks
free. -/
theorem check_cases (h : Heap) : (check h = .ok () ∧ h.Accepted) ∨ Condemned (check h) ∨
    ∃ l first a, h.freeLists[l]? = some first ∧ h.LeadsOut l first a ∧ check h = .error (.fault (.outsideMemory a)) := by
  rcases HeapReader.run_forM_cases (checkBlock h.levels) h.blocks h with ⟨blocks, passed⟩ | ⟨b, _, e, failed, blocks⟩
  · by_cases ends : Block.total h.blocks = h.capacity
    · have rest : check h = (forM (List.range h.freeLists.size) fun lvl => do checkFreeList h.blocks lvl (← firstFree lvl) :
          HeapReader Unit) h := by
        simp [check, HeapReader.run_bind, HeapReader.run_itself, blocks, ends]
      rcases HeapReader.run_forM_cases (fun lvl => do checkFreeList h.blocks lvl (← firstFree lvl)) (List.range h.freeLists.size) h with
        ⟨lists, each⟩ | ⟨l, hl, e, failed, lists⟩
      · refine .inl ⟨rest.trans lists, fun b hb => ?_, ends, fun l hl => ?_⟩
        · rcases checkBlock_cases h.levels b h with ⟨_, fits⟩ | ⟨detail, no⟩
          · exact fits
          · rw [passed b hb] at no
            cases no
        · have first : h.freeLists[l]? = some h.freeLists[l] := Array.getElem?_eq_getElem hl
          have run := each l (List.mem_range.mpr hl)
          simp only [HeapReader.run_bind, firstFree_eq first] at run
          rcases checkFreeList_cases l h.freeLists[l] h with ⟨_, ring, head, listed⟩ | ⟨detail, no⟩ | ⟨a, _, no⟩
          · exact ⟨ring, by rw [first, head], listed⟩
          all_goals
            rw [run] at no
            cases no
      · have hl := List.mem_range.mp hl
        have first : h.freeLists[l]? = some h.freeLists[l] := Array.getElem?_eq_getElem hl
        simp only [HeapReader.run_bind, firstFree_eq first] at failed
        rw [rest, lists, ← failed]
        rcases checkFreeList_cases l h.freeLists[l] h with ⟨run, _⟩ | condemned | ⟨a, out, run⟩
        · rw [run] at failed
          cases failed
        · exact .inr (.inl condemned)
        · exact .inr (.inr ⟨l, _, a, first, out, run⟩)
    · refine .inr (.inl ⟨s!"partition ends at {Block.total h.blocks} of {h.capacity}", ?_⟩)
      simp [check, HeapReader.run_bind, HeapReader.run_itself, blocks, ends, corrupted, HeapReader.run_reject]
  · refine .inr (.inl ?_)
    have stops : check h = .error e := by
      simp [check, HeapReader.run_bind, HeapReader.run_itself, blocks]
    rcases checkBlock_cases h.levels b h with ⟨run, _⟩ | ⟨detail, run⟩
    · rw [run] at failed
      cases failed
    · rw [run] at failed
      cases failed
      exact ⟨detail, stops⟩

/-- A list that is a ring of the right length passes. -/
theorem ListedAs.checkFreeList {ring : List Addr} (listed : h.ListedAs l ring) : Heap.checkFreeList h.blocks l ring.head? h = .ok () := by
  have counted : (h.blocks.countP fun b => b.free && b.level == l) = h.freeCount l := rfl
  have count := listed.count
  cases ring with
  | nil =>
    rw [List.length_nil] at count
    simp [Heap.checkFreeList, HeapReader.run_pure, counted, ← count]
  | cons f rest =>
    have good : ∀ b ∈ f :: rest, b < h.capacity ∧ h.freeAt b = true ∧ h.levelAt b = l := fun b hb =>
      ⟨lt_of_free (listed.looks b hb).1, listed.looks b hb⟩
    have walk := checkMembers_eq (p := []) (n := (f :: rest).length) listed.closed rfl good (by simp)
    rw [List.length_cons] at count walk
    simp [Heap.checkFreeList, HeapReader.run_bind, HeapReader.run_pure, counted, ← count, walk]

/-- The validator accepts a heap if and only if the walk by header levels tiles the arena and each list is a ring of headers that look
free, as many as the partition has. -/
theorem check_iff : check h = .ok () ↔ h.Accepted := by
  refine ⟨fun run => ?_, fun accepted => ?_⟩
  · rcases check_cases h with ⟨_, accepted⟩ | ⟨_, no⟩ | ⟨_, _, _, _, _, no⟩
    · exact accepted
    all_goals
      rw [run] at no
      cases no
  · have blocks : (forM h.blocks (checkBlock h.levels) : HeapReader Unit) h = .ok () := by
      refine HeapReader.run_forM_ok fun b hb => ?_
      obtain ⟨level, aligned⟩ := accepted.aligned b hb
      simp [checkBlock, HeapReader.run_pure, Nat.not_lt.mpr level, Nat.mod_eq_zero_of_dvd aligned]
    have lists : (forM (List.range h.freeLists.size) fun lvl => do checkFreeList h.blocks lvl (← firstFree lvl) : HeapReader Unit) h =
        .ok () := by
      refine HeapReader.run_forM_ok fun l hl => ?_
      obtain ⟨ring, first, listed⟩ := accepted.lists l (List.mem_range.mp hl)
      simp only [HeapReader.run_bind, firstFree_eq first, listed.checkFreeList]
    simp [check, HeapReader.run_bind, HeapReader.run_itself, blocks, accepted.ends, lists]

/-! ### Forged headers -/

/-- The header of a free block with these neighbours. -/
def linkedHeader (lvl prev next : Nat) : Word :=
  Header.next.set (UInt64.ofNat next) (Header.previous.set (UInt64.ofNat prev) (Header.fresh true lvl))

/-- What operations leave of a new heap of 64 words, whether they are allowed or not. -/
def forged (ops : List Operation) : Heap :=
  match create 64 (.start none) with
  | .ok new => new.afterAll ops
  | .error _ => bare 6 (.start none)

/-- The last payload word of the block at 8 becomes a header from which the word after the block is written: the header of the free
block at 16, whose link leads out of the memory. -/
def straying : Heap := forged [.allocateTagged .bytes 7, .write 8 6 10, .write 15 0 (linkedHeader 4 16 268435455)]

/-- The validator does not say that a link is wrong that leads out of the memory. -/
theorem check_faults : check straying = .error (.fault (.outsideMemory 268435455)) := by decide +kernel

/-- Four blocks of 8 words are allocated and the second one is released, so there are two free blocks of that level. The links of the one at
40, which is the head of the list, are made to lead to a payload word of the block at 8 that looks free and leads back. -/
def misled : Heap := forged [.allocateTagged .bytes 7, .allocateTagged .bytes 7, .allocateTagged .bytes 7, .allocateTagged .bytes 7, .release 16,
  .write 32 6 10, .write 39 0 (linkedHeader 3 9 9), .write 8 0 (linkedHeader 3 40 40)]

/-- The validator accepts a list with a member that is not a block, although a free block of the level is on no list. -/
theorem check_accepts_impostor : check misled = .ok () ∧ misled.ListedAs 3 [40, 9] ∧ misled.freeLists[3]? = some (some 40) ∧
    (¬∃ b ∈ misled.blocks, b.addr = 9) ∧ ∃ b ∈ misled.blocks, b.addr = 16 ∧ b.level = 3 ∧ b.free = true := by
  have chain : ([40, 9] ++ [40]).IsChain (Linked misled.nextAt misled.previousAt) := by
    unfold Linked
    decide +kernel
  exact ⟨by decide +kernel, ⟨.of_chain chain (by decide), by decide +kernel, by decide +kernel⟩, by decide +kernel, by decide +kernel,
    by decide +kernel⟩

end Heap

end FiberMachine
