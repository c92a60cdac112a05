import LeastRecent.Datum.Text

/-!
# Keys that compare up to spelling

A key is a datum under a mode that says which spellings are equal: every datum only to itself, strings up to the case
of ASCII letters, or integers up to their remainder by eight. A key keeps the spelling that it was given; comparison
looks at the canonical form (`beq_iff`), so key equality is an equivalence.
-/

namespace LeastRecent

/-- Which spellings of a key are equal. -/
inductive KeyMode
  | exact
  /-- Strings that differ in the case of ASCII letters only are equal. -/
  | caseless
  /-- Integers with the same remainder by eight are equal. -/
  | modEight

/-- The spelling that stands for all spellings equal to it; only the outermost datum is looked at. -/
def KeyMode.canon : KeyMode → Datum → Datum
  | .caseless, .string s => .string (s.map Char.toLower)
  | .modEight, .int n => .int (n % 8)
  | _, d => d

/-- A key, spelled as given. -/
structure Key (m : KeyMode) where
  spelling : Datum

namespace Key

variable {m : KeyMode}

/-- The canonical form of the spelling. -/
def canon (k : Key m) : Datum := m.canon k.spelling

instance : BEq (Key m) := ⟨fun a b => decide (a.canon = b.canon)⟩

/-- Keys are equal if their canonical forms are. -/
theorem beq_iff {a b : Key m} : (a == b) = true ↔ a.canon = b.canon := decide_eq_true_iff

instance : EquivBEq (Key m) where
  rfl := beq_iff.mpr rfl
  symm h := beq_iff.mpr (beq_iff.mp h).symm
  trans h h' := beq_iff.mpr ((beq_iff.mp h).trans (beq_iff.mp h'))

instance : ToString (Key m) := ⟨fun k => k.spelling.text⟩

end Key
end LeastRecent
