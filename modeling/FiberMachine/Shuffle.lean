/-!
# Shuffling

A generator is one word of state that every draw moves on by a fixed step; the word drawn mixes
both halves of a 128-bit product. Numbers below a bound are drawn without bias: a draw whose
product with the bound falls into the incomplete last stretch is rejected. `shuffle` exchanges each
position with one drawn from those up to it, so every order can come out.
-/

namespace FiberMachine

/-- The number of different words, and of states of a generator. -/
def stateCount : Nat := 0x10000000000000000

/-- The state of a pseudo-random generator. -/
structure Generator where
  state : UInt64
  deriving DecidableEq

namespace Generator

/-- The distance between consecutive states. -/
def increment : UInt64 := 0x2d358dccaa6c78a5

/-- The mask whose exclusive or with the state is its factor in the product. -/
def mixer : UInt64 := 0x8bb84b93962eacc9

/-- Draw a word. -/
def next (g : Generator) : UInt64 × Generator :=
  let s := g.state + increment
  let product := s.toNat * (s ^^^ mixer).toNat
  (UInt64.ofNat product ^^^ UInt64.ofNat (product / stateCount), ⟨s⟩)

/-- Draw words until one is accepted, at most `n` times. -/
def drawBelow (bound rejected : Nat) (g : Generator) : Nat → Nat × Generator
  | 0 => (0, g)
  | n + 1 =>
    let (word, g) := g.next
    let product := word.toNat * bound
    if product % stateCount < rejected then drawBelow bound rejected g n
    else (product / stateCount, g)

/-- Draw a number below a positive bound. The states repeat only after that many draws. -/
@[irreducible] def below (g : Generator) (bound : Nat) : Nat × Generator :=
  drawBelow bound ((stateCount - bound) % bound) g stateCount

/-- Exchange each of the `n` positions from `i` on with one drawn from those up to it. -/
def shuffleFrom {α : Type} (xs : Array α) (g : Generator) (i : Nat) : Nat → Array α × Generator
  | 0 => (xs, g)
  | n + 1 =>
    let drawn := g.below (i + 1)
    shuffleFrom (xs.swapIfInBounds i drawn.1) drawn.2 (i + 1) n

/-- A list in a drawn order. -/
def shuffle {α : Type} (g : Generator) (xs : List α) : List α × Generator :=
  let shuffled := shuffleFrom xs.toArray g 1 (xs.length - 1)
  (shuffled.1.toList, shuffled.2)

theorem shuffleFrom_perm {α : Type} (xs : Array α) (g : Generator) (i n : Nat) :
    (shuffleFrom xs g i n).1.toList.Perm xs.toList := by
  induction n generalizing xs g i with
  | zero => exact .refl _
  | succ n ih =>
    unfold shuffleFrom
    refine (ih _ _ _).trans ?_
    rw [Array.swapIfInBounds]
    split
    · split
      · exact (Array.swap_perm _ _).toList
      · exact .refl _
    · exact .refl _

/-- A shuffle only changes the order. -/
theorem shuffle_perm {α : Type} (g : Generator) (xs : List α) : (g.shuffle xs).1.Perm xs :=
  shuffleFrom_perm xs.toArray g 1 (xs.length - 1)

end Generator

end FiberMachine
