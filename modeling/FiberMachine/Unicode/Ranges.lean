/-!
# Sets of code points

A property of characters is given by the ranges of the code points that have it. The ranges are
closed, ascending and apart, so a search may stop at the first range that begins beyond the code
point in question.
-/

namespace FiberMachine

/-- Closed ranges of code points. -/
abbrev Ranges := List (Nat × Nat)

namespace Ranges

/-- Whether a code point is in one of the ranges, which must be ascending. -/
def contains : Ranges → Nat → Bool
  | [], _ => false
  | (first, last) :: rest, n => first ≤ n && (n ≤ last || contains rest n)

/-- Whether every range begins at `least` or later and leaves a gap before the next one. -/
def ascendingFrom (least : Nat) : Ranges → Bool
  | [] => true
  | (first, last) :: rest => least ≤ first && first ≤ last && ascendingFrom (last + 2) rest

/-- Whether the ranges are ascending and apart. -/
def ascending (rs : Ranges) : Bool := rs.ascendingFrom 0

/-- The number of code points in the ranges. -/
def count : Ranges → Nat
  | [] => 0
  | (first, last) :: rest => last + 1 - first + count rest

theorem ascendingFrom_le {least : Nat} {rs : Ranges} (h : rs.ascendingFrom least = true) :
    ∀ r ∈ rs, least ≤ r.1 := by
  induction rs generalizing least with
  | nil => simp
  | cons r rest ih =>
    simp only [ascendingFrom, Bool.and_eq_true, decide_eq_true_eq] at h
    intro s hs
    rcases List.mem_cons.1 hs with rfl | hs
    · exact h.1.1
    · have := ih h.2 s hs
      omega

/-- Stopping early misses nothing in ascending ranges. -/
theorem contains_iff {rs : Ranges} (h : rs.ascending = true) (n : Nat) :
    rs.contains n = true ↔ ∃ r ∈ rs, r.1 ≤ n ∧ n ≤ r.2 := by
  unfold ascending at h
  generalize 0 = least at h
  induction rs generalizing least with
  | nil => simp [contains]
  | cons r rest ih =>
    simp only [ascendingFrom, Bool.and_eq_true, decide_eq_true_eq] at h
    have later := ascendingFrom_le h.2
    simp only [contains, Bool.and_eq_true, Bool.or_eq_true, decide_eq_true_eq, List.mem_cons,
      exists_eq_or_imp, ih _ h.2]
    constructor
    · rintro ⟨h1, h2 | h2⟩
      · exact .inl ⟨h1, h2⟩
      · exact .inr h2
    · rintro (h1 | ⟨s, hs, h1⟩)
      · exact ⟨h1.1, .inl h1.2⟩
      · have := later s hs
        exact ⟨by omega, .inr ⟨s, hs, h1⟩⟩

end Ranges

end FiberMachine
