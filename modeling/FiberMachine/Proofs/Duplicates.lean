import FiberMachine.Proofs.Making

/-!
# Duplicates of boxes

A duplicate of a block without references is a new block of the same kind with the same payload. The tag is
read from the original after the allocation, so the original has to be protected until then.
-/

namespace FiberMachine

namespace Heap

variable {h h' : Heap} {a i k m n src : Nat} {t u : Tag} {L : Nat → Prop} {c : Nat → Word}

theorem Fresh.copyWords (f : Fresh h L h' a t n c) (layout : t.layout = .fields []) (b : h.Is src u m) (live : L src)
    (within : i + k ≤ n) (source : i + k ≤ m) :
    ∃ h'', Heap.copyWords a src i k h' = .ok () h'' ∧
      Fresh h L h'' a t n fun j => if i ≤ j ∧ j < i + k then h.cell src j else c j := by
  induction k generalizing i h' c with
  | zero =>
    refine ⟨h', rfl, f.evolves, f.is, fun j hj => ?_, f.since⟩
    rw [if_neg (by omega), f.cells j hj]
  | succ k ih =>
    have kept := f.evolves.kept src live id
    have read : Heap.read src i h' = .ok (h.cell src i) := by
      rw [f.evolves.tidy.sound.read_eq (kept.is b) (by omega), kept.cell (Nat.lt_of_lt_of_le (by omega) b.room)]
    have write := f.evolves.tidy.sound.write_eq f.is (show i < n by omega) (w := h.cell src i)
    have put := f.put layout (show i < n by omega) (w := h.cell src i) fun no => absurd no List.not_mem_nil
    obtain ⟨h'', run, f'⟩ := ih put (show i + 1 + k ≤ n by omega) (by omega)
    refine ⟨h'', ?_, f'.evolves, f'.is, fun j hj => ?_, f'.since⟩
    · simp only [Heap.copyWords, HeapM.run_bind, HeapM.run_lift, read, write, run]
    · rw [f'.cells j hj, Function.update_apply]
      by_cases first : j = i
      · subst first
        rw [if_neg (by omega), if_pos rfl, if_pos (by omega)]
      · by_cases later : i + 1 ≤ j ∧ j < i + 1 + k
        · rw [if_pos later, if_pos (by omega)]
        · rw [if_neg later, if_neg first, if_neg (by omega)]

/-- The payload of a new block becomes that of the original. -/
theorem Fresh.copy (f : Fresh h L h' a t (h.room src) c) (layout : t.layout = .fields []) (b : h.Is src u m) (live : L src) :
    ∃ h'', Heap.copy a src h' = .ok () h'' ∧ Fresh h L h'' a t (h.room src) (h.cell src) := by
  have ne : a ≠ src := fun eq => f.new (eq ▸ live)
  have kept := f.evolves.kept src live id
  have payload {x : Nat} (hx : h'.Allocated x) : Heap.payloadWords x h' = .ok (h'.room x) := by
    rw [payloadWords_eq (f.evolves.tidy.sound.lt_capacity hx), room]
  have least : min (h'.room a) (h'.room src) = h.room src := by
    rw [kept.room]
    exact Nat.min_eq_right f.is.room
  have all : h.Is src u (h.room src) := ⟨b.allocated, b.tag, le_rfl⟩
  obtain ⟨h'', run, f'⟩ := f.copyWords layout all live (i := 0) (k := h.room src) (by omega) (by omega)
  refine ⟨h'', ?_, f'.evolves, f'.is, fun j hj => ?_, f'.since⟩
  · simp only [Heap.copy, ne, ne_eq, not_false_eq_true, if_true, HeapM.run_bind, HeapM.run_lift, payload f.is.allocated,
      payload kept.allocated, least, run]
  · rw [f'.cells j hj, if_pos (by omega)]

theorem levelFor_two_pow {l : Nat} : levelFor (2 ^ l) = l := by
  refine Nat.le_antisymm (levelFor_le.mpr (levelWords_eq l).ge) ?_
  have := levelFor_le.mp (le_refl (levelFor (2 ^ l)))
  rw [levelWords_eq] at this
  exact (Nat.pow_le_pow_iff_right (by decide)).mp this

/-- A block of the same size and kind is made while the original is protected; then the payload is copied. -/
theorem Tidy.allocateLike_spec (tidy : h.Tidy) (b : h.Is src t n) (fits : t.Fits (h.room src)) :
    Starved (Heap.duplicate src) h [src] ∨
      ∃ a h', Heap.duplicate src h = (Heap.copy a src >>= fun _ => pure a : HeapM Nat) h' ∧
        Fresh h (h.Live [src]) h' a t (h.room src) (fun _ => 0) ∧ h'.room a = h.room src := by
  have good : ∀ r ∈ [src], h.Allocated r := by simpa using b.allocated
  have tidy' := tidy.rooting good
  have words : h.room src + 1 = 2 ^ h.levelAt src := by
    have := Nat.two_pow_pos (h.levelAt src)
    rw [room]
    omega
  have small : ¬wordLimit ≤ 2 ^ h.levelAt src := by
    have : h.room src < 268435456 := tidy.sound.room_lt b.allocated
    change ¬18446744073709551616 ≤ 2 ^ h.levelAt src
    omega
  have unfolded (x : Heap) : Heap.duplicate src x = (do
      let words ← (Heap.blockWords src : HeapM Nat)
      let dst ← withRoots [src] (Heap.allocate words)
      Heap.setTag dst (← Heap.tag src)
      Heap.copy dst src
      return dst : HeapM Nat) x := rfl
  have size := blockWords_eq (tidy.sound.lt_capacity b.allocated)
  obtain ⟨k, maybe, _, outcome⟩ := tidy'.sound.allocate (fun _ => tidy'.consistent.traceable : Heap.RunsCollector _ (2 ^ h.levelAt src) → _)
  rcases outcome with failed | ⟨a, g, run, placed, sound⟩
  · obtain ⟨m, k, full, e⟩ : Starved (withRoots [src] (Heap.allocate (2 ^ h.levelAt src))) h [src] :=
      withRoots_starved tidy good ⟨_, _, failed, maybe.evolves tidy'⟩
    exact .inl ⟨m, k, by simp only [unfolded, HeapM.run_bind, HeapM.run_lift, size, full], e⟩
  right
  -- The same allocation with the tag set under protection is one that is known to be fresh.
  have inside : a < g.capacity := sound.lt_capacity ((placed.allocated a).mpr (.inr rfl))
  have tagged : Heap.setTag a t g = .ok () (g.store a (Header.tag.set (UInt64.ofNat t.number) (g.wordAt a))) :=
    setField_eq Header.tag inside
  have made : Heap.allocateTagged t (h.room src) (h.rooting [src]) =
      .ok a (g.store a (Header.tag.set (UInt64.ofNat t.number) (g.wordAt a))) := by
    simp only [Heap.allocateTagged, words, small, if_false, HeapM.run_bind, run, tagged, HeapM.run_pure]
  have live : (h.rooting [src]).Reachable src := by
    refine .start ?_
    rw [roots_rooting]
    exact List.mem_append_right _ (List.mem_singleton_self src)
  have kept : Kept (h.rooting [src]) k src := maybe.kept tidy' live
  have kept' : Kept k g src := ⟨(placed.allocated src).mpr (.inl kept.allocated), placed.words src kept.allocated⟩
  have room := (tidy'.allocateTagged_room made).1
  rw [words, levelFor_two_pow] at room
  rcases tidy.allocateRooted good fits with ⟨m, h', full⟩ | ⟨a', h', run', f⟩
  · unfold withRoots at full
    rw [show ({ h with temporaries := h.temporaries ++ [src] } : Heap) = h.rooting [src] from rfl, made] at full
    cases full
  · unfold withRoots at run'
    rw [show ({ h with temporaries := h.temporaries ++ [src] } : Heap) = h.rooting [src] from rfl, made] at run'
    cases run'
    have alloc : withRoots [src] (Heap.allocate (2 ^ h.levelAt src)) h = .ok a { g with temporaries := g.temporaries.shrink h.temporaries.size } := by
      unfold withRoots
      rw [show ({ h with temporaries := h.temporaries ++ [src] } : Heap) = h.rooting [src] from rfl, run]
    have same : Heap.tag src { g with temporaries := g.temporaries.shrink h.temporaries.size } = .ok t := by
      refine (tag_eq (sound.lt_capacity kept'.allocated)).trans ?_
      rw [show Heap.tagAt _ src = g.tagAt src from rfl, kept'.tagAt, kept.tagAt]
      exact congrArg _ b.tag
    have set : Heap.setTag a t { g with temporaries := g.temporaries.shrink h.temporaries.size } = .ok () _ := setField_eq Header.tag inside
    refine ⟨a, _, ?_, f, by rw [Heap.room]; exact room⟩
    simp only [unfolded, HeapM.run_bind, HeapM.run_lift, size, alloc, same, set]
    rfl

theorem Tidy.allocateLike (tidy : h.Tidy) (b : h.Is src t n) (fits : t.Fits (h.room src)) :
    NoMemory (Heap.duplicate src) h ∨
      ∃ a h', Heap.duplicate src h = (Heap.copy a src >>= fun _ => pure a : HeapM Nat) h' ∧
        Fresh h (h.Live [src]) h' a t (h.room src) (fun _ => 0) ∧ h'.room a = h.room src :=
  (tidy.allocateLike_spec b fits).imp_left Starved.noMemory

theorem Tidy.duplicate_spec (tidy : h.Tidy) (b : h.Is src t n) (layout : t.layout = .fields []) :
    Starved (Heap.duplicate src) h [src] ∨ ∃ a h', Heap.duplicate src h = .ok a h' ∧
      Fresh h (h.Live [src]) h' a t (h.room src) (h.cell src) := by
  rcases tidy.allocateLike_spec b (Tag.fits_fields layout (by simp)) with full | ⟨a, h₁, run, f, -⟩
  · exact .inl full
  · right
    obtain ⟨h₂, copied, f⟩ := f.copy layout b (.extra (by simp))
    exact ⟨a, h₂, by simp only [run, HeapM.run_bind, copied, HeapM.run_pure], f⟩

theorem Tidy.duplicate (tidy : h.Tidy) (b : h.Is src t n) (layout : t.layout = .fields []) :
    NoMemory (Heap.duplicate src) h ∨ ∃ a h', Heap.duplicate src h = .ok a h' ∧
      Fresh h (h.Live [src]) h' a t (h.room src) (h.cell src) :=
  (tidy.duplicate_spec b layout).imp_left Starved.noMemory

end Heap

end FiberMachine
