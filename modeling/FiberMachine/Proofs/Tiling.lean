import Mathlib.Data.Nat.Bitwise
import Mathlib.Logic.Function.Basic
import Mathlib.Tactic.Ring

/-!
# Tilings by buddies

A tiling divides the addresses below `2 ^ n` into blocks of `2 ^ l` addresses that start at a multiple
of their size. It is given by the level of the block that starts at an address, if one does. The
buddy of a block is the other half of the block that the two would make together. Splitting a block
into buddies and merging two buddies lead from tilings to tilings.
-/

namespace FiberMachine

/-- The blocks of an arena of `2 ^ n` addresses. -/
structure Tiling (n : Nat) (S : Nat → Option Nat) : Prop where
  aligned : ∀ {a l}, S a = some l → 2 ^ l ∣ a
  within : ∀ {a l}, S a = some l → a + 2 ^ l ≤ 2 ^ n
  apart : ∀ {a l b m}, S a = some l → S b = some m → a < b → a + 2 ^ l ≤ b
  covers : ∀ {x}, x < 2 ^ n → ∃ a l, S a = some l ∧ a ≤ x ∧ x < a + 2 ^ l

namespace Tiling

variable {n : Nat} {S : Nat → Option Nat} {a b x l m : Nat}

theorem lt_capacity (t : Tiling n S) (ha : S a = some l) : a < 2 ^ n := by
  have := t.within ha
  have := Nat.two_pow_pos l
  omega

theorem level_le (t : Tiling n S) (ha : S a = some l) : l ≤ n := by
  have := t.within ha
  exact (Nat.pow_le_pow_iff_right (by decide)).mp (show 2 ^ l ≤ 2 ^ n by omega)

/-- Blocks that share an address are one block. -/
theorem eq_of_mem (t : Tiling n S) (ha : S a = some l) (hb : S b = some m)
    (hax : a ≤ x) (hxa : x < a + 2 ^ l) (hbx : b ≤ x) (hxb : x < b + 2 ^ m) : a = b := by
  rcases lt_trichotomy a b with h | h | h
  · have := t.apart ha hb h
    omega
  · exact h
  · have := t.apart hb ha h
    omega

/-- After a block comes the next block or the end. -/
theorem next (t : Tiling n S) (ha : S a = some l) (h : a + 2 ^ l < 2 ^ n) :
    ∃ m, S (a + 2 ^ l) = some m := by
  obtain ⟨c, m, hc, hcx, hxc⟩ := t.covers h
  rcases lt_trichotomy a c with hac | hac | hac
  · have := t.apart ha hc hac
    obtain rfl : c = a + 2 ^ l := by omega
    exact ⟨m, hc⟩
  · subst hac
    rw [ha] at hc
    cases hc
    omega
  · have := t.apart hc ha hac
    have := Nat.two_pow_pos l
    omega

theorem start (t : Tiling n S) : ∃ m, S 0 = some m := by
  obtain ⟨c, m, hc, hcx, _⟩ := t.covers (Nat.two_pow_pos n)
  obtain rfl : c = 0 := by omega
  exact ⟨m, hc⟩

/-! ### Buddies -/

/-- The buddy of a block of level `l` lies right after it or right before it. -/
theorem buddy_cases (h : 2 ^ l ∣ a) :
    (2 ^ (l + 1) ∣ a ∧ a ^^^ 2 ^ l = a + 2 ^ l) ∨
      (2 ^ (l + 1) ∣ a ^^^ 2 ^ l ∧ a = (a ^^^ 2 ^ l) + 2 ^ l) := by
  obtain ⟨q, rfl⟩ := h
  have shift (x : Nat) : 2 ^ l * x = x <<< l := by rw [Nat.shiftLeft_eq, Nat.mul_comm]
  have flip : 2 ^ l * q ^^^ 2 ^ l = 2 ^ l * (q ^^^ 1) := by
    have one : 2 ^ l = 1 <<< l := by rw [Nat.shiftLeft_eq, Nat.one_mul]
    rw [shift (q ^^^ 1), Nat.shiftLeft_xor_distrib, ← shift, ← one]
  rw [flip, pow_succ]
  rcases Nat.even_or_odd q with hq | hq
  · left
    obtain ⟨r, hr⟩ := hq
    rw [Nat.xor_one_of_even ⟨r, hr⟩]
    exact ⟨⟨r, by rw [hr]; ring⟩, by ring⟩
  · right
    obtain ⟨r, hr⟩ := hq
    rw [Nat.xor_one_of_odd ⟨r, hr⟩]
    refine ⟨⟨r, ?_⟩, ?_⟩
    · rw [hr, Nat.add_sub_cancel]
      ring
    · rw [hr, Nat.add_sub_cancel]
      ring

/-- The buddy of a lower half is the upper one. -/
theorem buddy_lower (d : 2 ^ (l + 1) ∣ a) : a ^^^ 2 ^ l = a + 2 ^ l := by
  rcases buddy_cases ((pow_dvd_pow 2 l.le_succ).trans d) with ⟨_, e⟩ | ⟨d', e⟩
  · exact e
  · have half : 2 ^ (l + 1) ∣ 2 ^ l := (Nat.dvd_add_right d').mp (e ▸ d)
    exact absurd ((Nat.pow_dvd_pow_iff_le_right (by decide)).mp half) (Nat.not_succ_le_self l)

theorem buddy_ne (h : 2 ^ l ∣ a) : a ^^^ 2 ^ l ≠ a := by
  have := Nat.two_pow_pos l
  rcases buddy_cases h with ⟨_, e⟩ | ⟨_, e⟩ <;> omega

/-- A block that is not the whole arena has a buddy inside, where a block starts that is no larger
than it. -/
theorem buddy (t : Tiling n S) (ha : S a = some l) (hl : l < n) :
    ∃ m ≤ l, S (a ^^^ 2 ^ l) = some m := by
  have pos := Nat.two_pow_pos l
  have fits : 2 ^ (l + 1) ∣ 2 ^ n := Nat.pow_dvd_pow 2 hl
  have twice : 2 ^ (l + 1) = 2 * 2 ^ l := by rw [pow_succ, Nat.mul_comm]
  have := t.within ha
  -- the lower of the two is a multiple of their joint size, so both lie inside the arena
  obtain ⟨low, hlow, hal, hbl⟩ : ∃ low, 2 ^ (l + 1) ∣ low ∧ (a = low ∨ a = low + 2 ^ l) ∧
      (a ^^^ 2 ^ l = low ∨ a ^^^ 2 ^ l = low + 2 ^ l) := by
    rcases buddy_cases (t.aligned ha) with ⟨d, e⟩ | ⟨d, e⟩
    · exact ⟨a, d, .inl rfl, .inr e⟩
    · exact ⟨_, d, .inr e, .inl rfl⟩
  have room : low + 2 ^ (l + 1) ≤ 2 ^ n := by
    obtain ⟨q, rfl⟩ := hlow
    obtain ⟨r, hr⟩ := fits
    rw [hr, ← Nat.mul_succ]
    apply Nat.mul_le_mul_left
    have : 2 ^ (l + 1) * q < 2 ^ (l + 1) * r := by omega
    exact Nat.lt_of_mul_lt_mul_left this
  obtain ⟨c, m, hc, hcx, hxc⟩ := t.covers (show a ^^^ 2 ^ l < 2 ^ n by omega)
  have ne := buddy_ne (t.aligned ha)
  have small : m ≤ l := by
    -- a larger block would reach over both buddies
    by_contra large
    have d : 2 ^ (l + 1) ∣ c := (Nat.pow_dvd_pow 2 (by omega)).trans (t.aligned hc)
    have wide : 2 ^ (l + 1) ∣ 2 ^ m := Nat.pow_dvd_pow 2 (by omega)
    have : c ≤ low ∧ low + 2 ^ (l + 1) ≤ c + 2 ^ m := by
      obtain ⟨q, rfl⟩ := hlow
      obtain ⟨r, rfl⟩ := d
      obtain ⟨s, hs⟩ := wide
      rw [hs] at hxc ⊢
      have h1 : 2 ^ (l + 1) * r < 2 ^ (l + 1) * (q + 1) := by rw [Nat.mul_succ]; omega
      have h2 : 2 ^ (l + 1) * q < 2 ^ (l + 1) * (r + s) := by rw [Nat.mul_add]; omega
      have h1 := Nat.lt_of_mul_lt_mul_left h1
      have h2 := Nat.lt_of_mul_lt_mul_left h2
      have h3 := Nat.mul_le_mul_left (2 ^ (l + 1)) (show r ≤ q by omega)
      have h4 := Nat.mul_le_mul_left (2 ^ (l + 1)) (show q + 1 ≤ r + s by omega)
      rw [Nat.mul_succ, Nat.mul_add] at h4
      omega
    have := t.eq_of_mem ha hc (x := a) le_rfl (by omega) (by omega) (by omega)
    subst this
    rw [ha] at hc
    cases hc
    omega
  refine ⟨m, small, ?_⟩
  have d : 2 ^ m ∣ a ^^^ 2 ^ l := by
    have : 2 ^ m ∣ low := (Nat.pow_dvd_pow 2 (by omega)).trans hlow
    have : 2 ^ m ∣ 2 ^ l := Nat.pow_dvd_pow 2 small
    rcases hbl with e | e <;> rw [e]
    · assumption
    · exact Nat.dvd_add ‹2 ^ m ∣ low› this
  have : c = a ^^^ 2 ^ l := by
    have e := Nat.sub_mod_eq_zero_of_mod_eq
      ((Nat.mod_eq_zero_of_dvd d).trans (Nat.mod_eq_zero_of_dvd (t.aligned hc)).symm)
    rw [Nat.mod_eq_of_lt (by omega)] at e
    omega
  rw [← this]
  exact hc

/-! ### Splitting and merging -/

/-- The tiling with a block of level `l + 1` at `a` cut into two of level `l`. -/
def split (S : Nat → Option Nat) (a l : Nat) : Nat → Option Nat :=
  Function.update (Function.update S a (some l)) (a + 2 ^ l) (some l)

/-- The tiling with the two blocks of level `l` at `a` and right after it joined. -/
def join (S : Nat → Option Nat) (a l : Nat) : Nat → Option Nat :=
  Function.update (Function.update S a (some (l + 1))) (a + 2 ^ l) none

theorem split_cases (h : split S a l b = some m) :
    ((b = a ∨ b = a + 2 ^ l) ∧ m = l) ∨ (b ≠ a ∧ b ≠ a + 2 ^ l ∧ S b = some m) := by
  by_cases h1 : b = a + 2 ^ l
  · subst h1
    simp [split] at h
    exact .inl ⟨.inr rfl, h.symm⟩
  · by_cases h2 : b = a
    · subst h2
      simp [split] at h
      exact .inl ⟨.inl rfl, h.symm⟩
    · exact .inr ⟨h2, h1, by simpa [split, h1, h2] using h⟩

theorem join_cases (h : join S a l b = some m) :
    (b = a ∧ m = l + 1) ∨ (b ≠ a ∧ b ≠ a + 2 ^ l ∧ S b = some m) := by
  by_cases h1 : b = a + 2 ^ l
  · subst h1
    simp [join] at h
  · by_cases h2 : b = a
    · subst h2
      simp [join] at h
      exact .inl ⟨rfl, h.symm⟩
    · exact .inr ⟨h2, h1, by simpa [join, h1, h2] using h⟩

theorem split_lower : split S a l a = some l := by
  have := Nat.two_pow_pos l
  simp [split]

theorem split_upper : split S a l (a + 2 ^ l) = some l := by simp [split]

theorem join_self : join S a l a = some (l + 1) := by
  have := Nat.two_pow_pos l
  simp [join]

theorem split_tiling (t : Tiling n S) (ha : S a = some (l + 1)) : Tiling n (split S a l) where
  aligned := by
    intro b m hb
    have d : 2 ^ l ∣ a := (Nat.pow_dvd_pow 2 (Nat.le_succ l)).trans (t.aligned ha)
    obtain ⟨rfl | rfl, rfl⟩ | ⟨_, _, hb⟩ := split_cases hb
    · exact d
    · exact Nat.dvd_add d (Nat.dvd_refl _)
    · exact t.aligned hb
  within := by
    intro b m hb
    have := t.within ha
    rw [pow_succ] at this
    obtain ⟨rfl | rfl, rfl⟩ | ⟨_, _, hb⟩ := split_cases hb
    · omega
    · omega
    · exact t.within hb
  apart := by
    intro b m c k hb hc lt
    have pos := Nat.two_pow_pos l
    have twice : 2 ^ (l + 1) = 2 ^ l + 2 ^ l := by omega
    obtain ⟨eb, em⟩ | ⟨nb, _, sb⟩ := split_cases hb <;>
      obtain ⟨ec, ek⟩ | ⟨nc, _, sc⟩ := split_cases hc
    · subst em
      omega
    · subst em
      have := t.apart ha sc
      have := t.apart sc ha
      have := Nat.two_pow_pos k
      omega
    · have := t.apart ha sb
      have := t.apart sb ha
      have := Nat.two_pow_pos m
      omega
    · exact t.apart sb sc lt
  covers := by
    intro x hx
    obtain ⟨b, m, hb, hbx, hxb⟩ := t.covers hx
    by_cases e : b = a
    · subst e
      rw [ha] at hb
      cases hb
      rw [pow_succ] at hxb
      by_cases up : b + 2 ^ l ≤ x
      · exact ⟨b + 2 ^ l, l, split_upper, up, by omega⟩
      · exact ⟨b, l, split_lower, hbx, by omega⟩
    · have ne : b ≠ a + 2 ^ l := by
        intro e'
        have := Nat.two_pow_pos l
        have := Nat.two_pow_pos m
        have inside := t.eq_of_mem ha hb (x := b) (by omega) (by omega) le_rfl (by omega)
        exact e inside.symm
      exact ⟨b, m, by simp [split, e, ne, hb], hbx, hxb⟩

theorem join_tiling (t : Tiling n S) (ha : S a = some l) (hb : S (a + 2 ^ l) = some l)
    (d : 2 ^ (l + 1) ∣ a) : Tiling n (join S a l) where
  aligned := by
    intro b m h
    obtain ⟨rfl, rfl⟩ | ⟨_, _, h⟩ := join_cases h
    · exact d
    · exact t.aligned h
  within := by
    intro b m h
    obtain ⟨rfl, rfl⟩ | ⟨_, _, h⟩ := join_cases h
    · have := t.within hb
      rw [pow_succ]
      omega
    · exact t.within h
  apart := by
    intro b m c k h h' lt
    have pos := Nat.two_pow_pos l
    obtain ⟨rfl, rfl⟩ | ⟨nb, nb', sb⟩ := join_cases h <;>
      obtain ⟨rfl, rfl⟩ | ⟨nc, nc', sc⟩ := join_cases h'
    · omega
    · have := t.apart ha sc lt
      have := t.apart hb sc
      rw [pow_succ]
      omega
    · exact t.apart sb ha lt
    · exact t.apart sb sc lt
  covers := by
    intro x hx
    obtain ⟨b, m, h, hbx, hxb⟩ := t.covers hx
    by_cases e : b = a
    · subst e
      rw [ha] at h
      cases h
      exact ⟨b, l + 1, join_self, hbx, by rw [pow_succ]; omega⟩
    · by_cases e' : b = a + 2 ^ l
      · subst e'
        rw [hb] at h
        cases h
        exact ⟨a, l + 1, join_self, by omega, by rw [pow_succ]; omega⟩
      · exact ⟨b, m, by simp [join, e, e', h], hbx, hxb⟩

/-- The whole arena as one block. -/
theorem whole (n : Nat) : Tiling n (Function.update (fun _ => none) 0 (some n)) := by
  have only {a l : Nat} (h : Function.update (fun _ => none) 0 (some n) a = some l) :
      a = 0 ∧ l = n := by
    by_cases e : a = 0
    · subst e
      simpa [eq_comm] using h
    · simp [e] at h
  refine ⟨?_, ?_, ?_, ?_⟩
  · intro a l h
    obtain ⟨rfl, rfl⟩ := only h
    exact Nat.dvd_zero _
  · intro a l h
    obtain ⟨rfl, rfl⟩ := only h
    omega
  · intro a l b m h h' lt
    obtain ⟨rfl, rfl⟩ := only h
    obtain ⟨rfl, rfl⟩ := only h'
    omega
  · intro x hx
    exact ⟨0, n, by simp, Nat.zero_le x, by omega⟩

end Tiling

end FiberMachine
