import FiberMachine.Unicode.Ranges

/-!
# Characters without a shape

The controls, the format characters, the separators other than the plain space, the letters that
stand for the absence of one, and the code points left to private agreement, as of version 17.0 of
the Unicode standard.
-/

namespace FiberMachine.CodePoint

/-- Controls. -/
def controls : Ranges :=
  [(0x0, 0x1F), (0x7F, 0x9F)]

/-- Format characters, which change how the text around them is shown. -/
def formats : Ranges :=
  [(0xAD, 0xAD), (0x600, 0x605), (0x61C, 0x61C), (0x6DD, 0x6DD), (0x70F, 0x70F), (0x890, 0x891),
   (0x8E2, 0x8E2), (0x180E, 0x180E), (0x200B, 0x200F), (0x202A, 0x202E), (0x2060, 0x2064),
   (0x2066, 0x206F), (0xFEFF, 0xFEFF), (0xFFF9, 0xFFFB), (0x110BD, 0x110BD), (0x110CD, 0x110CD),
   (0x13430, 0x1343F), (0x1BCA0, 0x1BCA3), (0x1D173, 0x1D17A), (0xE0001, 0xE0001),
   (0xE0020, 0xE007F)]

/-- Separators of words, lines and paragraphs without the plain space. -/
def separators : Ranges :=
  [(0xA0, 0xA0), (0x1680, 0x1680), (0x2000, 0x200A), (0x2028, 0x2029), (0x202F, 0x202F),
   (0x205F, 0x205F), (0x3000, 0x3000)]

/-- Letters that fill the place of a missing one and are not shown: those with the property
Default_Ignorable_Code_Point. -/
def fillers : Ranges :=
  [(0x115F, 0x1160), (0x3164, 0x3164), (0xFFA0, 0xFFA0)]

/-- Code points to which no standard gives a character. -/
def privateUse : Ranges :=
  [(0xE000, 0xF8FF), (0xF0000, 0xFFFFD), (0x100000, 0x10FFFD)]

/-- Whether a character has no shape of its own. -/
def isInvisible (c : Char) : Bool :=
  controls.contains c.toNat || formats.contains c.toNat || separators.contains c.toNat
    || fillers.contains c.toNat || privateUse.contains c.toNat

theorem controls_ascending : controls.ascending = true := by decide
theorem formats_ascending : formats.ascending = true := by decide
theorem separators_ascending : separators.ascending = true := by decide
theorem fillers_ascending : fillers.ascending = true := by decide
theorem privateUse_ascending : privateUse.ascending = true := by decide

end FiberMachine.CodePoint
