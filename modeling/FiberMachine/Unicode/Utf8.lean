/-!
# Reading UTF-8

A byte string is read as text even if it is not UTF-8. A sequence that breaks off, because a byte
cannot continue it or because the string ends, reads as one replacement character, and so does a
byte that can start nothing; reading goes on with the byte that did not fit.
-/

namespace FiberMachine.Utf8

/-- The character that stands for bytes that are not text. -/
def replacement : Char := '\uFFFD'

/-- A multi-byte sequence of which some bytes have been read. -/
structure Sequence where
  /-- The bits read so far. -/
  value : Nat
  /-- The range of the next byte. -/
  low : Nat
  high : Nat
  /-- How many bytes follow the next one. -/
  more : Nat

/-- What a byte does at its place. -/
inductive Progress where
  /-- It completes a character. -/
  | done (c : Char)
  /-- It is part of a sequence that goes on. -/
  | wait (s : Sequence)
  /-- It does not fit. -/
  | misfit

/-- A byte at the start of a character. The ranges exclude overlong forms, surrogates and code
points beyond the last one. -/
def start (b : Nat) : Progress :=
  if b < 0x80 then .done (Char.ofNat b)
  else if b < 0xC2 then .misfit
  else if b < 0xE0 then .wait ⟨b - 0xC0, 0x80, 0xBF, 0⟩
  else if b = 0xE0 then .wait ⟨0, 0xA0, 0xBF, 1⟩
  else if b = 0xED then .wait ⟨0xD, 0x80, 0x9F, 1⟩
  else if b < 0xF0 then .wait ⟨b - 0xE0, 0x80, 0xBF, 1⟩
  else if b = 0xF0 then .wait ⟨0, 0x90, 0xBF, 2⟩
  else if b < 0xF4 then .wait ⟨b - 0xF0, 0x80, 0xBF, 2⟩
  else if b = 0xF4 then .wait ⟨4, 0x80, 0x8F, 2⟩
  else .misfit

/-- A byte after the first ones of a sequence. -/
def Sequence.continue (s : Sequence) (b : Nat) : Progress :=
  if s.low ≤ b ∧ b ≤ s.high then
    let value := s.value * 64 + (b - 0x80)
    match s.more with
    | 0 => .done (Char.ofNat value)
    | n + 1 => .wait ⟨value, 0x80, 0xBF, n⟩
  else .misfit

/-- Read the rest of a byte string, possibly inside a sequence. -/
def scan (open? : Option Sequence) : List UInt8 → List Char
  | [] => if open?.isSome then [replacement] else []
  | b :: rest =>
    let broken := if open?.isSome then [replacement] else []
    match open?.elim .misfit (·.continue b.toNat), start b.toNat with
    | .done c, _ => c :: scan none rest
    | .wait s, _ => scan (some s) rest
    | .misfit, .done c => broken ++ c :: scan none rest
    | .misfit, .wait s => broken ++ scan (some s) rest
    | .misfit, .misfit => broken ++ replacement :: scan none rest

/-- The text that a byte string is shown as. -/
def decodeLossy (bytes : List UInt8) : String := String.ofList (scan none bytes)

end FiberMachine.Utf8
