import FiberMachine.Object.Text
import FiberMachine.Proofs.Making

/-!
# Strings as lists of bytes

Packing up to eight bytes into a word loses none of them, so a string that was made of some bytes reads
as these bytes, and its length and each single byte agree with the list.
-/

namespace FiberMachine

namespace Text

theorem byteOf_zero (w : Word) (b : UInt8) : byteOf ((w <<< 8) ||| b.toUInt64) 0 = b := by
  unfold byteOf
  apply UInt8.eq_of_toBitVec_eq
  apply BitVec.eq_of_getLsbD_eq
  intro j hj
  simp [hj]

theorem byteOf_succ (w : Word) (b : UInt8) {i : Nat} (hi : i + 1 < 8) :
    byteOf ((w <<< 8) ||| b.toUInt64) (i + 1) = byteOf w i := by
  unfold byteOf
  apply UInt8.eq_of_toBitVec_eq
  apply BitVec.eq_of_getLsbD_eq
  intro j hj
  have here : 8 * i % 64 = 8 * i := by omega
  have there : 8 * (i + 1) % 64 = 8 * (i + 1) := by omega
  have inside : 8 * (i + 1) + j < 64 := by omega
  have above : ¬8 * (i + 1) + j < 8 := by omega
  have back : 8 * (i + 1) + j - 8 = 8 * i + j := by omega
  have none : b.toBitVec.getLsbD (8 * (i + 1) + j) = false := BitVec.getLsbD_of_ge _ _ (by omega)
  simp [hj, here, there, inside, above, back, none, -BitVec.getLsbD_eq_getElem]

theorem byteOf_packWord {bytes : List UInt8} {i : Nat} (hi : i < bytes.length) (small : i < 8) :
    byteOf (packWord bytes) i = bytes[i] := by
  induction bytes generalizing i with
  | nil => cases hi
  | cons b bytes ih =>
    cases i with
    | zero => exact byteOf_zero _ b
    | succ i =>
      refine (byteOf_succ (packWord bytes) b small).trans ?_
      exact ih (by simpa using hi) (by omega)

theorem unpackWord_eq (w : Word) : unpackWord w = (List.range 8).map (byteOf w) := rfl

theorem wordsFor_le {n k : Nat} : wordsFor n ≤ k ↔ n ≤ 8 * k := by
  unfold wordsFor
  omega

theorem lt_wordsFor {n i : Nat} (hi : i < n) : i / 8 < wordsFor n := by
  unfold wordsFor
  omega

end Text

namespace Heap

/-- The string at `a`, with its bytes in the block at `d`, is `bs`. -/
structure IsText (h : Heap) (a d : Nat) (bs : List UInt8) : Prop where
  is : h.Is a .string 2
  length : h.ref a Text.lengthField = bs.length
  stored : h.ref a Text.bytesField = d
  empty : bs = [] → d = unassigned
  block : bs ≠ [] → h.Is d .bytes (Text.wordsFor bs.length)
  byte : ∀ i (hi : i < bs.length), Text.byteOf (h.cell d (i / 8)) (i % 8) = bs[i]

variable {h h' : Heap} {a d i k m n : Nat} {t : Tag} {bs : List UInt8} {L : Nat → Prop} {c : Nat → Word}

namespace IsText

theorem child (s : h.IsText a d bs) (tidy : h.Tidy) : h.Child a d := by
  rw [← s.stored]
  exact tidy.child_field s.is (π := [1]) rfl (by decide)

theorem kept (s : h.IsText a d bs) (k : Kept h h' a) (k' : Kept h h' d) : h'.IsText a d bs where
  is := k.is s.is
  length := (k.ref (Nat.lt_of_lt_of_le (by decide) s.is.room)).trans s.length
  stored := (k.ref (Nat.lt_of_lt_of_le (by decide) s.is.room)).trans s.stored
  empty := s.empty
  block := fun some => k'.is (s.block some)
  byte := by
    intro i hi
    have some : bs ≠ [] := by
      rintro rfl
      cases hi
    rw [k'.cell (Nat.lt_of_lt_of_le (Text.lt_wordsFor hi) (s.block some).room)]
    exact s.byte i hi

theorem small (s : h.IsText a d bs) (tidy : h.Tidy) : bs.length < 8 * linkLimit := by
  by_cases e : bs = []
  · subst e
    decide
  · have := tidy.sound.room_lt (s.block e).allocated
    have := (s.block e).room
    have := Text.wordsFor_le.mp (s.block e).room
    omega

/-! ### Reading -/

theorem length_eq (s : h.IsText a d bs) (tidy : h.Tidy) : Text.length a h = .ok bs.length := by
  rw [Text.length, tidy.sound.readNat_eq s.is (by decide), s.length]

theorem byteAt_eq (s : h.IsText a d bs) (tidy : h.Tidy) (hi : i < bs.length) : Text.byteAt a i h = .ok bs[i] := by
  have some : bs ≠ [] := by
    rintro rfl
    cases hi
  have stored : readNat a Text.bytesField h = .ok d := by
    rw [tidy.sound.readNat_eq s.is (by decide), s.stored]
  simp only [Text.byteAt, HeapReader.run_bind, stored, tidy.sound.read_eq (s.block some) (Text.lt_wordsFor hi),
    HeapReader.run_pure, s.byte i hi]

theorem get_eq (s : h.IsText a d bs) (tidy : h.Tidy) (index : Int) :
    Text.get a index h = if index < 0 ∨ (bs.length : Int) ≤ index then
        .error (.error (.indexOutOfRange index bs.length))
      else .ok (bs.getD index.toNat 0) := by
  simp only [Text.get, HeapReader.run_bind, s.length_eq tidy]
  by_cases out : index < 0 ∨ (bs.length : Int) ≤ index
  · simp only [out, if_true, HeapReader.run_bind, HeapReader.run_reject]
  · have inside : index.toNat < bs.length := by omega
    simp only [out, if_false, s.byteAt_eq tidy inside, List.getD_eq_getElem _ _ inside]

end IsText

theorem Tidy.unpackFrom_eq (tidy : h.Tidy) (b : h.Is d t n) (within : i + m ≤ n) :
    Text.unpackFrom d i m h =
      .ok ((List.range (8 * m)).map fun j => Text.byteOf (h.cell d (i + j / 8)) (j % 8)) := by
  induction m generalizing i with
  | zero => rfl
  | succ m ih =>
    have first := tidy.sound.read_eq b (show i < n by omega)
    have rest := ih (show i + 1 + m ≤ n by omega)
    simp only [Text.unpackFrom, HeapReader.run_bind, first, rest, HeapReader.run_pure, Text.unpackWord_eq]
    rw [show 8 * (m + 1) = 8 + 8 * m by omega, List.range_add, List.map_append, List.map_map]
    congr 2
    refine List.map_congr_left fun j _ => ?_
    simp only [Function.comp_apply]
    rw [show i + (8 + j) / 8 = i + 1 + j / 8 by omega, show (8 + j) % 8 = j % 8 by omega]

theorem IsText.bytes_eq (s : h.IsText a d bs) (tidy : h.Tidy) : Text.bytes a h = .ok bs := by
  have small : bs.length < 8 * 268435456 := s.small tidy
  have listable : bs.length * 1 < hostLimit := by
    unfold hostLimit
    omega
  have stored : readNat a Text.bytesField h = .ok d := by
    rw [tidy.sound.readNat_eq s.is (by decide), s.stored]
  by_cases e : bs.length = 0
  · cases List.length_eq_zero_iff.mp e
    simp only [Text.bytes, HeapReader.run_bind, s.length_eq tidy]
    rfl
  · have some : bs ≠ [] := fun nil => e (by rw [nil]; rfl)
    have unpacked := tidy.unpackFrom_eq (s.block some) (i := 0) (m := Text.wordsFor bs.length) (by omega)
    have enough : bs.length ≤ 8 * Text.wordsFor bs.length := Text.wordsFor_le.mp le_rfl
    simp only [Text.bytes, HeapReader.run_bind, s.length_eq tidy, expectRoom, listable, if_true, HeapReader.run_pure, e,
      if_false, stored, unpacked]
    congr 1
    refine List.ext_getElem (by simp; omega) fun i hi hi' => ?_
    simp only [List.getElem_take, List.getElem_map, List.getElem_range, Nat.zero_add]
    exact s.byte i hi'

/-! ### Making strings -/

theorem Fresh.writeBytes {l : List UInt8} (f : Fresh h L h' d .bytes n c) (within : i + m ≤ n) :
    ∃ h'', Text.writeBytes d i l m h' = .ok () h'' ∧ Fresh h L h'' d .bytes n fun j =>
      if i ≤ j ∧ j < i + m then Text.packWord ((l.drop (8 * (j - i))).take 8) else c j := by
  induction m generalizing i l h' c with
  | zero =>
    refine ⟨h', rfl, f.evolves, f.is, fun j hj => ?_, f.since⟩
    rw [if_neg (by omega), f.cells j hj]
  | succ m ih =>
    have put := f.put (π := []) rfl (show i < n by omega) (w := Text.packWord (l.take 8)) fun no =>
      absurd no List.not_mem_nil
    obtain ⟨h'', run, f'⟩ := ih put (l := l.drop 8) (show i + 1 + m ≤ n by omega)
    refine ⟨h'', ?_, f'.evolves, f'.is, fun j hj => ?_, f'.since⟩
    · have write := f.evolves.tidy.sound.write_eq f.is (show i < n by omega) (w := Text.packWord (l.take 8))
      simp only [Text.writeBytes, HeapM.run_bind, write, run]
    · rw [f'.cells j hj, Function.update_apply, List.drop_drop]
      by_cases first : j = i
      · subst first
        rw [if_neg (by omega), if_pos rfl, if_pos (by omega), Nat.sub_self, Nat.mul_zero, List.drop_zero]
      · by_cases later : i + 1 ≤ j ∧ j < i + 1 + m
        · rw [if_pos later, if_pos (by omega)]
          congr 3
          omega
        · rw [if_neg later, if_neg first, if_neg (by omega)]

/-- A block for the bytes is made, unless there are none. -/
theorem Tidy.makeStored (tidy : h.Tidy) (bs : List UInt8) :
    NoMemory (Text.newBytes bs) h ∨ ∃ d h₁, Text.newBytes bs h = .ok d h₁ ∧
      Evolves h (h.Live []) h₁ (fun _ => False) (if bs = [] then [] else [d]) ∧ h₁.Allocated d ∧
      (bs = [] → d = unassigned) ∧ (bs ≠ [] → h₁.Is d .bytes (Text.wordsFor bs.length)) ∧
      ∀ i (hi : i < bs.length), Text.byteOf (h₁.cell d (i / 8)) (i % 8) = bs[i] := by
  by_cases e : bs = []
  · right
    subst e
    refine ⟨unassigned, h, rfl, ?_, tidy.sound.sentinel, fun _ => rfl, fun no => absurd rfl no, fun i hi => by cases hi⟩
    exact .refl tidy (.live tidy (by simp))
  · have nonempty : bs.isEmpty = false := by simpa using e
    rcases tidy.allocateTagged (t := .bytes) (n := Text.wordsFor bs.length) (Tag.fits_fields rfl (by simp)) with
      ⟨m, h', run⟩ | ⟨d, h', run, f⟩
    · left
      refine ⟨m, h', ?_⟩
      simp only [Text.newBytes, nonempty, Bool.false_eq_true, if_false, HeapM.run_bind, run]
    · right
      obtain ⟨h₁, run', f'⟩ := f.writeBytes (i := 0) (m := Text.wordsFor bs.length) (l := bs) (by omega)
      refine ⟨d, h₁, ?_, ?_, f'.is.allocated, fun no => absurd no e, fun _ => f'.is, fun i hi => ?_⟩
      · simp only [Text.newBytes, nonempty, Bool.false_eq_true, if_false, HeapM.run_bind, run, run', HeapM.run_pure]
      · rw [if_neg e]
        exact f'.evolves
      · have word := Text.lt_wordsFor hi
        have shorter : i % 8 < ((bs.drop (8 * (i / 8))).take 8).length := by
          simp only [List.length_take, List.length_drop]
          omega
        rw [f'.cells _ word, if_pos (by omega), Nat.sub_zero, Text.byteOf_packWord shorter (by omega),
          List.getElem_take, List.getElem_drop]
        congr 1
        omega

/-- A new string has the bytes that it was made of. -/
theorem Tidy.makeText (tidy : h.Tidy) (bs : List UInt8) :
    NoMemory (Text.ofBytes bs) h ∨ ∃ a d h', Text.ofBytes bs h = .ok a h' ∧
      Evolves h (h.Live []) h' (fun _ => False) (a :: if bs = [] then [] else [d]) ∧ h'.IsText a d bs := by
  have eq : Text.ofBytes bs = Text.newBytes bs >>= fun d =>
      withRoots [d] (Heap.allocateTagged .string 2) >>= fun a =>
        writes a [(0, UInt64.ofNat bs.length), (1, UInt64.ofNat d)] >>= fun _ => pure a := by
    simp only [Text.ofBytes, writes, bind_assoc, pure_bind]
    rfl
  rw [eq]
  rcases tidy.makeStored bs with full | ⟨d, h₁, run, e, hd, empty, block, byte⟩
  · exact .inl (full.bind _)
  · have good : ∀ r ∈ [d], h₁.Allocated r := by simp [hd]
    have same := e.tidy.sound.toNat_ofNat hd
    have ld : h₁.Live [d] d := .extra (by simp)
    have small : (UInt64.ofNat bs.length).toNat = bs.length := by
      rw [UInt64.toNat_ofNat', Nat.mod_eq_of_lt]
      by_cases nil : bs = []
      · subst nil
        decide
      · have := Text.wordsFor_le.mp (block nil).room
        have limit : h₁.room d < 268435456 := e.tidy.sound.room_lt (block nil).allocated
        omega
    rcases make_fields (t := .string) (π := [1]) rfl
      (e.tidy.allocateRooted good (t := .string) (n := 2) (Tag.fits_fields rfl (by decide)))
      (ω := [(0, UInt64.ofNat bs.length), (1, UInt64.ofNat d)]) (by simp [same]) with full | ⟨a, h₂, run', f⟩
    · exact .inl (.after run full)
    · right
      have kd : Kept h₁ h₂ d := f.evolves.kept d ld id
      refine ⟨a, d, h₂, (run_after run _).trans run', ?_, f.is, ?_, ?_, empty, fun some => kd.is (block some),
        fun i hi => ?_⟩
      · have both := e.trans f.evolves (fun b hb => e.live tidy (by simp) (fun _ _ no => no) (by simp) hb) fun b hb => by
          split at hb
          · cases hb
          · exact List.mem_singleton.mp hb ▸ ld
        refine both.weaken (fun _ hb => hb) (fun _ _ no => no.elim id id) fun b hb => ?_
        rw [List.mem_append, List.mem_singleton]
        exact (List.mem_cons.mp hb).symm
      · rw [ref, f.cells _ (by decide)]
        exact small
      · rw [ref, f.cells _ (by decide)]
        exact same
      · have some : bs ≠ [] := by
          rintro rfl
          cases hi
        rw [kd.cell (Nat.lt_of_lt_of_le (Text.lt_wordsFor hi) (block some).room)]
        exact byte i hi

end Heap

end FiberMachine
