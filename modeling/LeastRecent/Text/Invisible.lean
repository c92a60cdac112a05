import LeastRecent.Text.Ranges

/-!
# Code points that cannot be seen

Control characters, every space other than the ordinary one, the separators of lines and paragraphs, format characters
(also those that are drawn around the digits behind them), the fillers that hold the place of a missing letter, and the
code points kept for surrogates and for private use. Whatever a display may silently leave out is here, or among the
combining marks or the unassigned code points.
-/

namespace LeastRecent.Text

/-- Control, space, separator, format, filler, surrogate and private-use code points, without the ordinary space. -/
def invisible : Ranges :=
  [(0x0000, 0x001F), (0x007F, 0x00A0), (0x00AD, 0x00AD), (0x0600, 0x0605), (0x061C, 0x061C), (0x06DD, 0x06DD),
   (0x070F, 0x070F), (0x0890, 0x0891), (0x08E2, 0x08E2), (0x115F, 0x1160), (0x1680, 0x1680), (0x180E, 0x180E),
   (0x2000, 0x200F), (0x2028, 0x202F), (0x205F, 0x2064), (0x2066, 0x206F), (0x3000, 0x3000), (0x3164, 0x3164),
   (0xD800, 0xF8FF), (0xFEFF, 0xFEFF), (0xFFA0, 0xFFA0), (0xFFF9, 0xFFFB), (0x110BD, 0x110BD), (0x110CD, 0x110CD),
   (0x13430, 0x1343F), (0x1BCA0, 0x1BCA3), (0x1D173, 0x1D17A), (0xE0001, 0xE0001), (0xE0020, 0xE007F),
   (0xF0000, 0xFFFFD), (0x100000, 0x10FFFD)]

/-- The ranges are disjoint and in increasing order. -/
theorem invisible_ordered : invisible.ordered = true := by
  decide +kernel

/-- The visible part of ASCII is not among them. -/
theorem covers_invisible_of_ascii {n : Nat} (h : 0x20 ≤ n) (h' : n < 0x7F) : invisible.covers n = false := by
  have key : ∀ r ∈ invisible, r.2 < 0x20 ∨ 0x7F ≤ r.1 := by decide
  rw [Bool.eq_false_iff]
  intro hc
  obtain ⟨r, hr, h1, h2⟩ := (Ranges.covers_iff invisible_ordered).mp hc
  have := key r hr
  omega

end LeastRecent.Text
