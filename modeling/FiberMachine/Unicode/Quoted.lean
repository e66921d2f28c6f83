import FiberMachine.Unicode.Extender
import FiberMachine.Unicode.Invisible
import FiberMachine.Unicode.Unassigned

/-!
# Quoted text

A quoted text stands in double quotes. Tabs, line ends, null characters, quotes and backslashes are
written with a backslash and a letter; other code points that are no character, would not be seen or
would attach themselves to the character before them are written as hexadecimal numbers.
-/

namespace FiberMachine.Quoted

/-- Whether a character is written as its code point. -/
def isUnseen (c : Char) : Bool :=
  CodePoint.isInvisible c || CodePoint.isUnassigned c || CodePoint.isExtender c

/-- Letters, digits, signs and the space of plain text are written as they are. -/
theorem isUnseen_of_plain {c : Char} (h : 0x20 ≤ c.toNat ∧ c.toNat < 0x7F) :
    isUnseen c = false := by
  have table : ∀ n < 0x7F, 0x20 ≤ n →
      (CodePoint.controls.contains n || CodePoint.formats.contains n
        || CodePoint.separators.contains n || CodePoint.fillers.contains n
        || CodePoint.privateUse.contains n || CodePoint.unassigned.contains n
        || CodePoint.extenders.contains n) = false := by
    decide +kernel
  exact table c.toNat h.2 h.1

/-- The hexadecimal digits of a number, lower case and without leading zeros. -/
def hex (n : Nat) : String := String.ofList (Nat.toDigits 16 n)

/-- One character inside quotes. -/
def escape (c : Char) : String :=
  match c with
  | '\t' => "\\t"
  | '\r' => "\\r"
  | '\n' => "\\n"
  | '"' => "\\\""
  | '\\' => "\\\\"
  | '\x00' => "\\0"
  | c => if isUnseen c then "\\u\x7b" ++ hex c.toNat ++ "\x7d" else c.toString

/-- A text in double quotes. -/
def quote (s : String) : String := "\"" ++ String.join (s.toList.map escape) ++ "\""

end FiberMachine.Quoted
