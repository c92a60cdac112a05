/-!
# Sets of code points

A set of code points is given by its closed ranges, disjoint and in increasing order. Looking a code point up stops at
the first range that ends at it or after it; in an ordered list this finds the range that holds it, if there is one
(`covers_iff`).
-/

namespace LeastRecent.Text

/-- A set of code points as closed ranges. -/
abbrev Ranges := List (Nat × Nat)

namespace Ranges

/-- The ranges are not empty, disjoint and in increasing order. -/
def ordered : Ranges → Bool
  | [] => true
  | [r] => decide (r.1 ≤ r.2)
  | r :: s :: t => decide (r.1 ≤ r.2) && decide (r.2 < s.1) && ordered (s :: t)

/-- `n` is in the first range that does not end before it. -/
def covers (t : Ranges) (n : Nat) : Bool :=
  match t.find? fun r => decide (n ≤ r.2) with
  | some r => decide (r.1 ≤ n)
  | none => false

/-- In an ordered list no later range begins before the end of the first one. -/
theorem ordered_lt : ∀ {t : Ranges} {r : Nat × Nat}, ordered (r :: t) = true → ∀ s ∈ t, r.2 < s.1
  | [], _, _, s, hs => by cases hs
  | q :: t, r, h, s, hs => by
    simp only [ordered, Bool.and_eq_true, decide_eq_true_eq] at h
    rcases List.mem_cons.mp hs with rfl | hs
    · exact h.1.2
    · have hq : q.1 ≤ q.2 := by
        cases t with
        | nil => simpa [ordered] using h.2
        | cons p t => simp only [ordered, Bool.and_eq_true, decide_eq_true_eq] at h; exact h.2.1.1
      have := ordered_lt h.2 s hs
      omega

/-- The tail of an ordered list is ordered. -/
theorem ordered_tail {r : Nat × Nat} {t : Ranges} (h : ordered (r :: t) = true) : ordered t = true := by
  cases t with
  | nil => rfl
  | cons s t => simp only [ordered, Bool.and_eq_true] at h; exact h.2

/-- In an ordered list a code point is found exactly if one of the ranges holds it. -/
theorem covers_iff {n : Nat} : ∀ {t : Ranges}, t.ordered = true →
    (t.covers n = true ↔ ∃ r ∈ t, r.1 ≤ n ∧ n ≤ r.2)
  | [], _ => by simp [covers]
  | r :: t, h => by
    by_cases hn : n ≤ r.2
    · have hc : covers (r :: t) n = decide (r.1 ≤ n) := by simp [covers, hn]
      rw [hc, decide_eq_true_eq]
      refine ⟨fun h1 => ⟨r, List.mem_cons_self, h1, hn⟩, ?_⟩
      rintro ⟨s, hs, h1, h2⟩
      rcases List.mem_cons.mp hs with rfl | hs
      · exact h1
      · have := ordered_lt h s hs
        omega
    · have hc : covers (r :: t) n = covers t n := by simp [covers, hn]
      rw [hc, covers_iff (ordered_tail h)]
      constructor
      · rintro ⟨s, hs, h12⟩
        exact ⟨s, List.mem_cons_of_mem _ hs, h12⟩
      · rintro ⟨s, hs, h1, h2⟩
        rcases List.mem_cons.mp hs with rfl | hs
        · exact absurd h2 hn
        · exact ⟨s, hs, h1, h2⟩

/-- A code point before all ranges is in none of them. -/
theorem covers_of_lt {t : Ranges} {m n : Nat} (h : ∀ r ∈ t, m ≤ r.1) (hn : n < m) : t.covers n = false := by
  unfold covers
  cases hf : t.find? fun r => decide (n ≤ r.2) with
  | none => rfl
  | some r =>
    have := h r (List.mem_of_find?_eq_some hf)
    simp only [decide_eq_false_iff_not]
    omega

end Ranges
end LeastRecent.Text
