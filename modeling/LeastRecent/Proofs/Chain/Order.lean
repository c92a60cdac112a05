import LeastRecent.Chain.Node
import Mathlib.Data.List.Basic

/-!
# The order of all nodes ever linked

A new node is linked right behind a live one, so all nodes ever linked stand in one order, deleted ones included.
Positions in it are compared by `List.idxOf`; `insertBehind` is what an insertion does to it
(`idxOf_insertBehind`, `idxOf_insertBehind_self`).
-/

namespace LeastRecent.Chain

/-! ## Insertion behind a node -/

/-- The node `n` is put right behind `a`. -/
def insertBehind (a n : NodeId) : List NodeId → List NodeId
  | [] => []
  | x :: xs => if x = a then x :: n :: xs else x :: insertBehind a n xs

variable {a n x : NodeId} {order : List NodeId}

/-- An insertion behind a node that is there splits the order at this node. -/
theorem insertBehind_split (ha : a ∈ order) :
    ∃ l r, order = l ++ a :: r ∧ a ∉ l ∧ insertBehind a n order = l ++ a :: n :: r := by
  induction order with
  | nil => cases ha
  | cons y ys ih =>
    by_cases hy : y = a
    · exact ⟨[], ys, by rw [hy]; rfl, List.not_mem_nil, by simp [insertBehind, hy]⟩
    · have ha' : a ∈ ys := by
        rcases List.mem_cons.mp ha with h | h
        · exact absurd h.symm hy
        · exact h
      obtain ⟨l, r, h₁, h₂, h₃⟩ := ih ha'
      refine ⟨y :: l, r, by rw [h₁]; rfl, ?_, by simp [insertBehind, hy, h₃]⟩
      intro h
      rcases List.mem_cons.mp h with h | h
      · exact hy h.symm
      · exact h₂ h

theorem insertBehind_perm (ha : a ∈ order) : (insertBehind a n order).Perm (n :: order) := by
  obtain ⟨l, r, h₁, -, h₃⟩ := insertBehind_split (n := n) ha
  rw [h₃, h₁]
  exact ((List.Perm.swap n a r).append_left l).trans List.perm_middle

theorem mem_insertBehind (ha : a ∈ order) : x ∈ insertBehind a n order ↔ x = n ∨ x ∈ order := by
  rw [(insertBehind_perm ha).mem_iff, List.mem_cons]

theorem nodup_insertBehind (ha : a ∈ order) (hn : n ∉ order) (h : order.Nodup) : (insertBehind a n order).Nodup :=
  (insertBehind_perm ha).nodup_iff.mpr (List.nodup_cons.mpr ⟨hn, h⟩)

/-- The new node comes next to the one it was put behind. -/
theorem idxOf_insertBehind_self (ha : a ∈ order) (hn : n ∉ order) :
    (insertBehind a n order).idxOf n = order.idxOf a + 1 := by
  obtain ⟨l, r, h₁, h₂, h₃⟩ := insertBehind_split (n := n) ha
  have hl : n ∉ l := fun h => hn (by rw [h₁]; exact List.mem_append_left _ h)
  have hna : ¬a = n := fun h => hn (h ▸ ha)
  have hb : (a == n) = false := by simp [hna]
  rw [h₃, h₁, List.idxOf_append, List.idxOf_append, if_neg hl, if_neg h₂, List.idxOf_cons, List.idxOf_cons_self,
    List.idxOf_cons_self, hb, cond_false]
  omega

/-- The nodes behind move up by one, the others stay where they are. -/
theorem idxOf_insertBehind (ha : a ∈ order) (hn : n ∉ order) (hx : x ∈ order) :
    (insertBehind a n order).idxOf x =
      if order.idxOf x ≤ order.idxOf a then order.idxOf x else order.idxOf x + 1 := by
  obtain ⟨l, r, h₁, h₂, h₃⟩ := insertBehind_split (n := n) ha
  have hxn : ¬n = x := fun h => hn (h ▸ hx)
  rw [h₃, h₁, List.idxOf_append, List.idxOf_append, List.idxOf_append, if_neg h₂, List.idxOf_cons_self]
  by_cases hl : x ∈ l
  · rw [if_pos hl, if_pos hl, if_pos]
    have := List.idxOf_lt_length_of_mem hl
    omega
  · rw [if_neg hl, if_neg hl, List.idxOf_cons, List.idxOf_cons, List.idxOf_cons]
    by_cases hax : a = x
    · simp [hax]
    · have h₁ : (a == x) = false := by simp [hax]
      have h₂ : (n == x) = false := by simp [hxn]
      simp only [h₁, h₂, cond_false]
      rw [if_neg (by omega)]
      omega

/-- An insertion keeps the nodes that were there in their order. -/
theorem idxOf_insertBehind_lt {y : NodeId} (ha : a ∈ order) (hn : n ∉ order) (hx : x ∈ order) (hy : y ∈ order) :
    (insertBehind a n order).idxOf x < (insertBehind a n order).idxOf y ↔ order.idxOf x < order.idxOf y := by
  rw [idxOf_insertBehind ha hn hx, idxOf_insertBehind ha hn hy]
  split <;> split <;> omega

theorem insertBehind_append {l r : List NodeId} (ha : a ∈ l) :
    insertBehind a n (l ++ r) = insertBehind a n l ++ r := by
  induction l with
  | nil => cases ha
  | cons y ys ih =>
    by_cases hy : y = a
    · simp [insertBehind, hy]
    · have ha' : a ∈ ys := by
        rcases List.mem_cons.mp ha with h | h
        · exact absurd h.symm hy
        · exact h
      simp [insertBehind, hy, ih ha']

/-! ## What comes before and after a node -/

theorem mem_drop_iff (h : order.Nodup) {k : Nat} : x ∈ order.drop k ↔ x ∈ order ∧ k ≤ order.idxOf x := by
  constructor
  · intro hx
    obtain ⟨i, hi, rfl⟩ := List.mem_iff_getElem.mp hx
    rw [List.getElem_drop, h.idxOf_getElem]
    exact ⟨List.getElem_mem _, Nat.le_add_right k i⟩
  · rintro ⟨hx, hk⟩
    have hlt := List.idxOf_lt_length_of_mem hx
    have hpos : order.idxOf x - k < (order.drop k).length := by
      rw [List.length_drop]
      omega
    have hget : (order.drop k)[order.idxOf x - k] = x := by
      simp only [List.getElem_drop, Nat.add_sub_cancel' hk, List.getElem_idxOf]
    rw [← hget]
    exact List.getElem_mem _

theorem drop_idxOf (hx : x ∈ order) : order.drop (order.idxOf x) = x :: order.drop (order.idxOf x + 1) := by
  have hlt := List.idxOf_lt_length_of_mem hx
  rw [List.drop_eq_getElem_cons hlt, List.getElem_idxOf hlt]

theorem take_idxOf_succ (hx : x ∈ order) : order.take (order.idxOf x + 1) = order.take (order.idxOf x) ++ [x] := by
  have hlt := List.idxOf_lt_length_of_mem hx
  rw [List.take_succ_eq_append_getElem hlt, List.getElem_idxOf hlt]

/-- Nothing counts between two positions. -/
theorem filter_between {p : NodeId → Bool} {i j : Nat} (h : order.Nodup)
    (hno : ∀ z ∈ order, i ≤ order.idxOf z → order.idxOf z < j → p z = false) :
    ((order.take j).drop i).filter p = [] := by
  rw [List.filter_eq_nil_iff]
  intro z hz
  obtain ⟨htake, hle⟩ := (mem_drop_iff (h.sublist (List.take_sublist _ _))).mp hz
  have hmem : z ∈ order := List.mem_of_mem_take htake
  have hsame : (order.take j).idxOf z = order.idxOf z := by
    conv => rhs; rw [← List.take_append_drop j order]
    rw [List.idxOf_append, if_pos htake]
  rw [hno z hmem (hsame ▸ hle) ((List.mem_take_iff_idxOf_lt hmem).mp htake)]
  exact Bool.false_ne_true

section Filter

variable {p : NodeId → Bool} {y : NodeId} (h : order.Nodup) (hlt : order.idxOf x < order.idxOf y)
  (hno : ∀ z ∈ order, order.idxOf x < order.idxOf z → order.idxOf z < order.idxOf y → p z = false)
include h hlt hno

/-- Of the nodes behind `x`, the first that counts is `y`. -/
theorem filter_drop_idxOf (hy : y ∈ order) (hp : p y = true) :
    (order.drop (order.idxOf x + 1)).filter p = y :: (order.drop (order.idxOf y + 1)).filter p := by
  have hsplit : order.drop (order.idxOf x + 1) =
      (order.take (order.idxOf y)).drop (order.idxOf x + 1) ++ y :: order.drop (order.idxOf y + 1) := by
    have hle : order.idxOf x + 1 ≤ (order.take (order.idxOf y)).length := by
      have := List.idxOf_lt_length_of_mem hy
      rw [List.length_take]
      omega
    rw [← drop_idxOf hy, ← List.drop_append_of_le_length hle, List.take_append_drop]
  rw [hsplit, List.filter_append, filter_between h hno, List.nil_append, List.filter_cons, if_pos hp]

/-- Of the nodes before `y`, the last that counts is `x`. -/
theorem filter_take_idxOf (hx : x ∈ order) (hp : p x = true) :
    (order.take (order.idxOf y)).filter p = (order.take (order.idxOf x)).filter p ++ [x] := by
  have hsplit : order.take (order.idxOf y) =
      order.take (order.idxOf x + 1) ++ (order.take (order.idxOf y)).drop (order.idxOf x + 1) := by
    conv => lhs; rw [← List.take_append_drop (order.idxOf x + 1) (order.take (order.idxOf y))]
    rw [List.take_take, Nat.min_eq_left hlt]
  rw [hsplit, List.filter_append, filter_between h hno, List.append_nil, take_idxOf_succ hx, List.filter_append,
    List.filter_cons, if_pos hp, List.filter_nil]

end Filter

end LeastRecent.Chain
