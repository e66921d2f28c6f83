import FiberMachine.Object.Sequence
import FiberMachine.Proofs.Making

/-!
# Sequences as lists

A counted block that holds the addresses `xs` behaves as the list `xs`: reading answers an item of the
list, writing replaces one, and everything else in the heap stays.
-/

namespace FiberMachine

namespace Heap

/-- The counted block at `a` holds the addresses `xs`. -/
structure IsSeq (h : Heap) (a : Nat) (t : Tag) (xs : List Nat) : Prop where
  is : h.Is a t (1 + xs.length)
  counted : t.layout = .counted
  length : h.ref a 0 = xs.length
  item : ∀ i (hi : i < xs.length), h.ref a (1 + i) = xs[i]

variable {h h' : Heap} {a b d x i j n : Nat} {t u : Tag} {xs ys values rs : List Nat} {L : Nat → Prop}

theorem Alters.writes_trans {P : Nat → Prop} {h'' : Heap} (e : Alters h h.Allocated h' P [])
    (f : Alters h' h'.Allocated h'' P []) : Alters h h.Allocated h'' P [] :=
  (e.mutate f).weaken (fun _ hb => hb) (fun _ _ hp => hp.elim id id) fun _ hb => hb

theorem Evolves.writes_trans {P : Nat → Prop} {h'' : Heap} (e : Evolves h h.Allocated h' P [])
    (f : Evolves h' h'.Allocated h'' P []) : Evolves h h.Allocated h'' P [] :=
  (e.mutate f).weaken (fun _ hb => hb) (fun _ _ hp => hp.elim id id) fun _ hb => hb

namespace IsSeq

theorem kept (s : h.IsSeq a t xs) (k : Kept h h' a) : h'.IsSeq a t xs where
  is := k.is s.is
  counted := s.counted
  length := by
    rw [k.ref (Nat.lt_of_lt_of_le (by omega) s.is.room)]
    exact s.length
  item := by
    intro i hi
    rw [k.ref (Nat.lt_of_lt_of_le (by omega) s.is.room)]
    exact s.item i hi

theorem child (s : h.IsSeq a t xs) (tidy : h.Tidy) (hx : x ∈ xs) : h.Child a x := by
  obtain ⟨i, hi, rfl⟩ := List.mem_iff_getElem.mp hx
  rw [← s.item i hi]
  exact tidy.child_item s.is s.counted (s.length ▸ hi)

/-- What a sequence refers to. -/
theorem child_mem (s : h.IsSeq a t xs) (tidy : h.Tidy) (child : h.Child a b) : b ∈ xs := by
  rw [tidy.child_iff s.is.allocated, childrenAt_eq, s.is.tag, s.counted, s.length] at child
  obtain ⟨i, hi, rfl⟩ := List.mem_map.mp child
  have hi := List.mem_range.mp hi
  rw [s.item i hi]
  exact List.getElem_mem hi

theorem allocated (s : h.IsSeq a t xs) (tidy : h.Tidy) (hx : x ∈ xs) : h.Allocated x :=
  tidy.consistent.child a x s.is.allocated (s.child tidy hx)

theorem small (s : h.IsSeq a t xs) (tidy : h.Tidy) : xs.length < linkLimit := by
  have := tidy.sound.room_lt s.is.allocated
  have := s.is.room
  omega

/-- A block holds one list only. -/
theorem unique (s : h.IsSeq a t xs) (r : h.IsSeq a u ys) : xs = ys := by
  have length : xs.length = ys.length := s.length.symm.trans r.length
  refine List.ext_getElem length fun i hi hi' => ?_
  rw [← s.item i hi, r.item i hi']

/-! ### Reading -/

theorem length_eq (s : h.IsSeq a t xs) (tidy : h.Tidy) : Sequence.length a h = .ok xs.length := by
  rw [Sequence.length, tidy.sound.readNat_eq s.is (by omega), s.length]

theorem slot_eq (s : h.IsSeq a t xs) (tidy : h.Tidy) (hi : i < xs.length) : Sequence.slot a i h = .ok xs[i] := by
  rw [Sequence.slot, tidy.sound.readNat_eq s.is (by omega), s.item i hi]

theorem readNats_eq (s : h.IsSeq a t xs) (tidy : h.Tidy) (within : i + n ≤ xs.length) :
    readNats a (1 + i) n h = .ok ((xs.drop i).take n) := by
  induction n generalizing i with
  | zero => simp [readNats, HeapReader.run_pure]
  | succ n ih =>
    have first := s.slot_eq tidy (show i < xs.length by omega)
    have rest := ih (show i + 1 + n ≤ xs.length by omega)
    rw [Sequence.slot] at first
    rw [List.drop_eq_getElem_cons (show i < xs.length by omega), List.take_succ_cons]
    simp only [readNats, HeapReader.run_bind, first, HeapReader.run_pure, rest, Nat.add_assoc 1 i 1]

theorem toList_eq (s : h.IsSeq a t xs) (tidy : h.Tidy) : Sequence.toList a h = .ok xs := by
  have small : xs.length < 268435456 := s.small tidy
  have listable : xs.length * 8 < hostLimit := by
    unfold hostLimit
    omega
  have items := s.readNats_eq tidy (i := 0) (n := xs.length) (by omega)
  have count := s.length_eq tidy
  rw [Sequence.length] at count
  simp only [Nat.add_zero, List.drop_zero, List.take_length] at items
  simp only [Sequence.toList, countedReferences, HeapReader.run_bind, count, expectListable, expectRoom, listable,
    if_true, HeapReader.run_pure, items]

theorem position_eq (s : h.IsSeq a t xs) (tidy : h.Tidy) (index : Int) :
    Sequence.position a index h =
      if index < 0 ∨ (xs.length : Int) ≤ index then .error (.error (.indexOutOfRange index xs.length))
      else .ok index.toNat := by
  simp only [Sequence.position, HeapReader.run_bind, s.length_eq tidy]
  split <;> rfl

theorem get_eq (s : h.IsSeq a t xs) (tidy : h.Tidy) (index : Int) :
    Sequence.get a index h =
      if index < 0 ∨ (xs.length : Int) ≤ index then .error (.error (.indexOutOfRange index xs.length))
      else .ok (xs.getD index.toNat 0) := by
  simp only [Sequence.get, HeapReader.run_bind, s.position_eq tidy]
  by_cases out : index < 0 ∨ (xs.length : Int) ≤ index
  · simp only [out, if_true]
  · have inside : index.toNat < xs.length := by omega
    simp only [out, if_false, s.slot_eq tidy inside, List.getD_eq_getElem _ _ inside]

/-! ### Writing -/

/-- An item is replaced by the address of an allocated block. -/
theorem placeSlot (s : h.IsSeq a t xs) (tidy : h.Tidy) (hi : i < xs.length) (hx : h.Allocated x) :
    ∃ h', Sequence.setSlot a i x h = .ok () h' ∧ Alters h h.Allocated h' (· = a) [] ∧ h'.stats = h.stats ∧
      h'.IsSeq a t (xs.set i x) := by
  have sound := tidy.sound
  have small := sound.toNat_ofNat hx
  have room : 1 + i < h.room a := Nat.lt_of_lt_of_le (by omega) s.is.room
  have tidy' : (h.put a (1 + i) (UInt64.ofNat x)).Tidy :=
    tidy.put_item s.is s.counted (by omega) fun _ => small.symm ▸ hx
  have at_ (j : Nat) : (h.put a (1 + i) (UInt64.ofNat x)).ref a j = if j = 1 + i then x else h.ref a j := by
    rw [ref, sound.cell_put s.is.allocated room]
    split
    · exact small
    · rfl
  refine ⟨_, sound.write_eq s.is (by omega), tidy.alters_put s.is (by omega) tidy', rfl, {
    is := ?_
    counted := s.counted
    length := ?_
    item := fun j hj => ?_ }⟩
  · rw [List.length_set]
    exact (sound.is_put s.is.allocated room).mpr s.is
  · rw [at_, if_neg (by omega), List.length_set]
    exact s.length
  · rw [List.length_set] at hj
    rw [at_, List.getElem_set]
    by_cases e : i = j
    · subst e
      rw [if_pos rfl, if_pos rfl]
    · rw [if_neg (by omega), if_neg e]
      exact s.item j hj

end IsSeq

/-- The list with the items from position `i` on replaced. -/
def splice (xs : List Nat) (i : Nat) : List Nat → List Nat
  | [] => xs
  | v :: vs => splice (xs.set i v) (i + 1) vs

@[simp] theorem length_splice : (splice xs i values).length = xs.length := by
  induction values generalizing xs i with
  | nil => rfl
  | cons v vs ih => rw [splice, ih, List.length_set]

theorem splice_eq (within : i + values.length ≤ xs.length) :
    splice xs i values = xs.take i ++ values ++ xs.drop (i + values.length) := by
  induction values generalizing xs i with
  | nil => simp [splice]
  | cons v vs ih =>
    rw [List.length_cons] at within
    rw [splice, ih (by rw [List.length_set]; omega)]
    have front : (xs.set i v).take (i + 1) = xs.take i ++ [v] := by
      rw [List.take_succ_eq_append_getElem (by rw [List.length_set]; omega), List.getElem_set_self,
        List.take_set_of_le le_rfl]
    have back : (xs.set i v).drop (i + 1 + vs.length) = xs.drop (i + (vs.length + 1)) := by
      rw [List.drop_set_of_lt (by omega), show i + 1 + vs.length = i + (vs.length + 1) by omega]
    rw [front, back, List.length_cons]
    simp only [List.append_assoc, List.singleton_append]

namespace IsSeq

theorem placeSlots (s : h.IsSeq a t xs) (tidy : h.Tidy) (within : i + values.length ≤ xs.length)
    (good : ∀ v ∈ values, h.Allocated v) :
    ∃ h', Sequence.setSlots a i values h = .ok () h' ∧ Alters h h.Allocated h' (· = a) [] ∧ h'.stats = h.stats ∧
      h'.IsSeq a t (splice xs i values) := by
  induction values generalizing h xs i with
  | nil => exact ⟨h, rfl, (Alters.refl tidy (.all tidy)).weaken (fun _ hb => hb) (fun _ _ no => no.elim) fun _ hb => hb, rfl, s⟩
  | cons v vs ih =>
    rw [List.length_cons] at within
    obtain ⟨h₁, run, e, stats, s₁⟩ := s.placeSlot tidy (show i < xs.length by omega) (good v List.mem_cons_self)
    obtain ⟨h₂, run', e', stats', s₂⟩ := ih s₁ e.tidy (i := i + 1) (by rw [List.length_set]; omega) fun w hw =>
      (e.stays w (good w (List.mem_cons_of_mem v hw))).1
    refine ⟨h₂, ?_, e.writes_trans e', stats'.trans stats, s₂⟩
    rw [Sequence.setSlot] at run
    rw [Sequence.setSlots] at run' ⊢
    simp only [writeNats, HeapM.run_bind, run]
    exact run'

/-- The items of a sequence that is not an environment may change. -/
theorem free (s : h.IsSeq a t xs) (ne : t ≠ .environment) : t.fixes 1 = false := by
  have counted := s.counted
  cases t with
  | frame | array => rfl
  | environment => exact absurd rfl ne
  | _ => cases counted

/-- When only items of an array or a frame change, everything lasts. -/
theorem evolves (s : h.IsSeq a t xs) (e : Alters h h.Allocated h' (· = a) []) (stats : h'.stats = h.stats) (s' : h'.IsSeq a t ys)
    (same : ys.length = xs.length) (free : t.fixes 1 = false) : Evolves h h.Allocated h' (· = a) [] where
  toAlters := e
  lasts := by
    refine .stays (fun b hb => ?_) stats
    by_cases eq : b = a
    · subst eq
      refine ⟨(e.stays b hb).1, (e.stays b hb).2, fun i _ fixes => ?_⟩
      rw [s.is.tag] at fixes
      obtain rfl : i = 0 := Tag.fixes_counted s.counted free fixes
      exact UInt64.toNat_inj.mp (s'.length.trans (same.trans s.length.symm))
    · exact (e.kept b hb eq).stable

theorem setSlot (s : h.IsSeq a t xs) (tidy : h.Tidy) (hi : i < xs.length) (hx : h.Allocated x) (free : t.fixes 1 = false := by rfl) :
    ∃ h', Sequence.setSlot a i x h = .ok () h' ∧ Evolves h h.Allocated h' (· = a) [] ∧
      h'.IsSeq a t (xs.set i x) := by
  obtain ⟨h', run, e, stats, s'⟩ := s.placeSlot tidy hi hx
  exact ⟨h', run, s.evolves e stats s' List.length_set free, s'⟩

theorem setSlots (s : h.IsSeq a t xs) (tidy : h.Tidy) (within : i + values.length ≤ xs.length)
    (good : ∀ v ∈ values, h.Allocated v) (free : t.fixes 1 = false := by rfl) :
    ∃ h', Sequence.setSlots a i values h = .ok () h' ∧ Evolves h h.Allocated h' (· = a) [] ∧
      h'.IsSeq a t (splice xs i values) := by
  obtain ⟨h', run, e, stats, s'⟩ := s.placeSlots tidy within good
  exact ⟨h', run, s.evolves e stats s' length_splice free, s'⟩

/-- Items are copied from another sequence. -/
theorem copySlots (s : h.IsSeq a t xs) (r : h.IsSeq d u ys) (tidy : h.Tidy) (ne : d ≠ a)
    (source : j + n ≤ ys.length) (within : i + n ≤ xs.length) (free : t.fixes 1 = false := by rfl) :
    ∃ h', Sequence.copySlots d j a i n h = .ok () h' ∧ Evolves h h.Allocated h' (· = a) [] ∧
      h'.IsSeq a t (splice xs i ((ys.drop j).take n)) := by
  induction n generalizing h xs i j with
  | zero => exact ⟨h, rfl, (Evolves.refl tidy (.all tidy)).weaken (fun _ hb => hb) (fun _ _ no => no.elim) fun _ hb => hb, s⟩
  | succ n ih =>
    have hj : j < ys.length := by omega
    have read := r.slot_eq tidy hj
    obtain ⟨h₁, run, e, s₁⟩ := s.setSlot tidy (show i < xs.length by omega) (r.allocated tidy (List.getElem_mem hj)) free
    obtain ⟨h₂, run', e', s₂⟩ := ih s₁ (r.kept (e.kept d r.is.allocated ne)) e.tidy (i := i + 1) (j := j + 1) (by omega)
      (by rw [List.length_set]; omega)
    refine ⟨h₂, ?_, e.writes_trans e', ?_⟩
    · simp only [Sequence.copySlots, HeapM.run_bind, HeapM.run_lift, read, run, run']
    · rwa [List.drop_eq_getElem_cons hj, List.take_succ_cons, splice]

end IsSeq

/-! ### Making sequences -/

theorem Fresh.isSeq (f : Fresh h L h' a t (n + 1) fun _ => 0) (counted : t.layout = .counted) (small : n < 2 ^ 64) :
    ∃ h'', writeNat a 0 n h' = .ok () h'' ∧ Evolves h L h'' (fun _ => False) [a] ∧ Since h h'' a ∧
      h''.IsSeq a t (List.replicate n 0) := by
  have tidy := f.evolves.tidy
  have s := tidy.sound
  have room : 0 < h'.room a := Nat.lt_of_lt_of_le (Nat.succ_pos n) f.is.room
  have count : (UInt64.ofNat n).toNat = n := by rw [UInt64.toNat_ofNat', Nat.mod_eq_of_lt small]
  have zero (i : Nat) (hi : i < n) : h'.ref a (1 + i) = 0 := by
    rw [ref, f.cells (1 + i) (by omega)]
    rfl
  have tidy' := tidy.put_count f.is counted count zero
  have e := f.evolves.toAlters.mutate (tidy.alters_put f.is (Nat.succ_pos n) tidy')
  have since : Since h (h'.put a 0 (UInt64.ofNat n)) a :=
    f.since.only (fun b hb ne => (s.kept_put f.is.allocated room hb ne).stable) rfl
  have at_ (j : Nat) : (h'.put a 0 (UInt64.ofNat n)).ref a j = if j = 0 then n else h'.ref a j := by
    rw [ref, s.cell_put f.is.allocated room]
    split
    · exact count
    · rfl
  refine ⟨_, s.writeNat_eq f.is (Nat.succ_pos n) n, ⟨e.weaken (fun _ hb => hb) ?_ fun _ hb => hb, since.lasts⟩, since, {
    is := ?_
    counted := counted
    length := ?_
    item := fun i hi => ?_ }⟩
  · rintro b hb (no | rfl)
    · exact no
    · exact f.new hb
  · rw [List.length_replicate, Nat.add_comm]
    exact (s.is_put f.is.allocated room).mpr f.is
  · rw [at_, if_pos rfl, List.length_replicate]
  · rw [List.length_replicate] at hi
    rw [at_, if_neg (by omega), zero i hi, List.getElem_replicate]

theorem Tidy.createSeq_spec (tidy : h.Tidy) (counted : t.layout = .counted) (n : Nat) :
    Starved (Sequence.create t n) h [] ∨ ∃ a h', Sequence.create t n h = .ok a h' ∧
      Evolves h (h.Live []) h' (fun _ => False) [a] ∧ Since h h' a ∧ h'.IsSeq a t (List.replicate n 0) := by
  by_cases large : wordLimit ≤ n + 1
  · left
    refine ⟨n, h, ?_, .refl tidy (.live tidy (by simp))⟩
    simp only [Sequence.create, HeapM.run_bind, large, if_true, HeapM.run_lift, HeapReader.run_reject]
  · have small : n < 2 ^ 64 := by
      have : ¬18446744073709551616 ≤ n + 1 := large
      omega
    have fits : t.Fits (n + 1) := by
      rw [Tag.Fits, counted]
      exact Nat.succ_pos n
    rcases tidy.allocateTagged_spec fits with ⟨m, h', run, e⟩ | ⟨a, h', run, f⟩
    · left
      refine ⟨m, h', ?_, e⟩
      simp only [Sequence.create, HeapM.run_bind, large, if_false, run]
    · right
      obtain ⟨h'', run', e, since, s⟩ := f.isSeq counted small
      refine ⟨a, h'', ?_, e, since, s⟩
      simp only [Sequence.create, HeapM.run_bind, large, if_false, HeapM.run_pure, run, run']

theorem Tidy.createSeq (tidy : h.Tidy) (counted : t.layout = .counted) (n : Nat) :
    NoMemory (Sequence.create t n) h ∨ ∃ a h', Sequence.create t n h = .ok a h' ∧
      Evolves h (h.Live []) h' (fun _ => False) [a] ∧ Since h h' a ∧ h'.IsSeq a t (List.replicate n 0) :=
  (tidy.createSeq_spec counted n).imp_left Starved.noMemory

theorem Tidy.createRooted_spec (tidy : h.Tidy) (good : ∀ r ∈ rs, h.Allocated r) (counted : t.layout = .counted) (n : Nat) :
    Starved (withRoots rs (Sequence.create t n)) h rs ∨ ∃ a h', withRoots rs (Sequence.create t n) h = .ok a h' ∧
      Evolves h (h.Live rs) h' (fun _ => False) [a] ∧ Since h h' a ∧ h'.IsSeq a t (List.replicate n 0) := by
  rcases (tidy.rooting good).createSeq_spec counted n with full | ⟨a, h', run, e, since, s⟩
  · exact .inl (withRoots_starved tidy good full)
  · right
    have e := e.weaken (fun b hb => (live_rooting tidy good).mpr hb) (fun _ _ no => no) fun _ hb => hb
    obtain ⟨h'', run, same, stats, e⟩ := withRoots_ok run e
    exact ⟨a, h'', run, e, since.from_rooting.only (fun b hb _ => (same.kept hb).stable) stats, s.kept (same.kept s.is.allocated)⟩

theorem Tidy.createRooted (tidy : h.Tidy) (good : ∀ r ∈ rs, h.Allocated r) (counted : t.layout = .counted) (n : Nat) :
    NoMemory (withRoots rs (Sequence.create t n)) h ∨ ∃ a h', withRoots rs (Sequence.create t n) h = .ok a h' ∧
      Evolves h (h.Live rs) h' (fun _ => False) [a] ∧ Since h h' a ∧ h'.IsSeq a t (List.replicate n 0) :=
  (tidy.createRooted_spec good counted n).imp_left Starved.noMemory

theorem splice_replicate : splice (List.replicate values.length 0) 0 values = values := by
  rw [splice_eq (by simp)]
  simp

/-- A new sequence is filled with addresses that were protected while it was allocated. -/
theorem Tidy.fillSeq_spec (tidy : h.Tidy) (good : ∀ r ∈ rs, h.Allocated r) (counted : t.layout = .counted)
    (live : ∀ v ∈ values, h.Live rs v) {m : HeapM Nat} (eq : ∀ g : Heap, m g = (do
      let a ← withRoots rs (Sequence.create t values.length)
      Sequence.setSlots a 0 values
      return a : HeapM Nat) g) :
    Starved m h rs ∨ ∃ a h', m h = .ok a h' ∧ Evolves h (h.Live rs) h' (fun _ => False) [a] ∧ h'.IsSeq a t values := by
  rcases tidy.createRooted_spec good counted values.length with ⟨k, h', run, e⟩ | ⟨a, h₁, run, e, since, s⟩
  · left
    exact ⟨k, h', by rw [eq, HeapM.run_bind, run], e⟩
  · right
    obtain ⟨h₂, run', e', stats, s'⟩ := s.placeSlots e.tidy (i := 0) (by simp) fun v hv => (e.stays v (live v hv)).1
    rw [splice_replicate] at s'
    have since' : Since h h₂ a := since.only (fun b hb ne => (e'.kept b hb ne).stable) stats
    refine ⟨a, h₂, ?_, ⟨(e.toAlters.mutate e').weaken (fun _ hb => hb) ?_ fun _ hb => hb, since'.lasts⟩, s'⟩
    · rw [eq]
      simp only [HeapM.run_bind, run, run', HeapM.run_pure]
    · rintro b hb (no | rfl)
      · exact no
      · exact (e.new b (List.mem_singleton_self b)).2 hb

theorem Tidy.fillSeq (tidy : h.Tidy) (good : ∀ r ∈ rs, h.Allocated r) (counted : t.layout = .counted)
    (live : ∀ v ∈ values, h.Live rs v) {m : HeapM Nat} (eq : ∀ g : Heap, m g = (do
      let a ← withRoots rs (Sequence.create t values.length)
      Sequence.setSlots a 0 values
      return a : HeapM Nat) g) :
    NoMemory m h ∨ ∃ a h', m h = .ok a h' ∧ Evolves h (h.Live rs) h' (fun _ => False) [a] ∧ h'.IsSeq a t values :=
  (tidy.fillSeq_spec good counted live eq).imp_left Starved.noMemory

end Heap

end FiberMachine
