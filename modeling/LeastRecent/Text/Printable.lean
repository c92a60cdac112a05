import LeastRecent.Text.CombiningMarks
import LeastRecent.Text.Invisible
import LeastRecent.Text.Unassigned

/-!
# Characters that are shown as they are

A character is *plain* if it has a visible form of its own: it is assigned, it can be seen, and it does not attach to
the character before it. The visible part of ASCII is plain (`isPlain_of_ascii`).
-/

namespace LeastRecent.Text

/-- `c` has a visible form of its own. -/
def isPlain (c : Char) : Bool :=
  !(invisible.covers c.toNat || combiningMarks.covers c.toNat || unassigned.covers c.toNat)

/-- A character is plain exactly if no table lists it. -/
theorem isPlain_iff {c : Char} : isPlain c = true ↔
    ∀ r ∈ invisible ++ combiningMarks ++ unassigned, ¬ (r.1 ≤ c.toNat ∧ c.toNat ≤ r.2) := by
  have h1 := Ranges.covers_iff (n := c.toNat) invisible_ordered
  have h2 := Ranges.covers_iff (n := c.toNat) combiningMarks_ordered
  have h3 := Ranges.covers_iff (n := c.toNat) unassigned_ordered
  rw [isPlain, Bool.not_eq_true', Bool.eq_false_iff, Ne, Bool.or_eq_true, Bool.or_eq_true, h1, h2, h3]
  simp only [List.mem_append, not_or, not_exists, not_and, or_imp, forall_and]

/-- The space and the visible characters of ASCII are plain. -/
theorem isPlain_of_ascii {c : Char} (h : 0x20 ≤ c.toNat) (h' : c.toNat < 0x7F) : isPlain c = true := by
  simp [isPlain, covers_invisible_of_ascii h h', covers_combiningMarks_of_ascii (Nat.lt_succ_of_lt h'),
    covers_unassigned_of_ascii (Nat.lt_succ_of_lt h')]

end LeastRecent.Text
