import LeastRecent.Proofs.Chain.Recent

/-!
# The last live entry

An operation spares the chain (`Spares`) if it marks no node as evicted and the last live entry (`coldest?`) stays the
last for as long as it lives. Everything spares the chain but the mark that an eviction makes: walks and links
(`Alike.spares`), an insertion in front (`Sound.spares_grows`), and a deletion, whatever node it is that goes
(`Sound.spares_buries`).
-/

namespace LeastRecent.Chain

variable {α : Type} {c c' c'' : Chain α} {order held held' : List NodeId} {x : NodeId}

/-- The last live entry, nearest to the trailer. -/
def coldest? (c : Chain α) : Option NodeId := c.recent.getLast?

/-- In an empty chain nothing is evicted. -/
theorem isEvicted_empty (p : Policy) (x : NodeId) : (Chain.empty p : Chain α).isEvicted x = false := by
  match x with
  | 0 => rfl
  | 1 => rfl
  | x + 2 =>
    rw [isEvicted, node_of_size_le (Nat.le_add_left 2 x)]
    rfl

/-- What is live now was never deleted. -/
theorem Ages.live (a : Ages c c') (h : c'.isDeleted x = false) : c.isDeleted x = false := by
  cases hd : c.isDeleted x with
  | false => rfl
  | true =>
    rw [a.deleted x (lt_size_of_deleted hd) hd] at h
    cases h

/-- Nothing is evicted, and the last live entry stays the last as long as it lives. -/
structure Spares (c c' : Chain α) : Prop where
  ages : Ages c c'
  evicted : ∀ x, c'.isEvicted x = c.isEvicted x
  coldest : ∀ x, c.coldest? = some x → c'.isDeleted x = false → c'.coldest? = some x

theorem Spares.refl (c : Chain α) : Spares c c := ⟨Ages.refl c, fun _ => rfl, fun _ hx _ => hx⟩

theorem Spares.trans (h : Spares c c') (h' : Spares c' c'') : Spares c c'' where
  ages := h.ages.trans h'.ages
  evicted x := (h'.evicted x).trans (h.evicted x)
  coldest x hx hl := h'.coldest x (h.coldest x hx (h'.ages.live hl)) hl

/-- Walks and links change nothing that matters. -/
theorem Alike.spares (a : Alike c c') (hr : c'.recent = c.recent) : Spares c c' where
  ages := a.ages
  evicted := a.evicted
  coldest x hx _ := by rw [coldest?, hr]; exact hx

namespace Sound

/-- When a node goes, the last of the others stays the last. -/
theorem spares_buries (h : Sound c order held) (h' : Sound c' order held') (b : Buries c c' x) : Spares c c' where
  ages := b.ages
  evicted := b.evicted
  coldest y hy hl := by
    have hne : y ≠ x := by
      rintro rfl
      rw [b.deleted, if_pos rfl] at hl
      cases hl
    obtain ⟨l, hsplit⟩ := List.getLast?_eq_some_iff.mp hy
    rw [coldest?, h.recent_buries h' b, hsplit, List.filter_append, List.filter_cons, decide_eq_false hne]
    exact List.getLast?_concat ..

/-- A node that comes in front is the last only if there was none. -/
theorem spares_grows {a : α} (h : Sound c order held) (h' : Sound c' (insertBehind header c.size order) held')
    (g : Grows c c' a) : Spares c c' where
  ages := g.ages
  evicted y := by
    rcases Nat.lt_trichotomy y c.size with hy | rfl | hy
    · exact g.evicted y hy
    · rw [g.unmarked, isEvicted, node_of_size_le (Nat.le_refl _)]
      rfl
    · rw [isEvicted, isEvicted, node_of_size_le (Nat.le_of_lt hy), node_of_size_le (g.size ▸ hy)]
  coldest y hy _ := by
    obtain ⟨l, hsplit⟩ := List.getLast?_eq_some_iff.mp hy
    rw [coldest?, h.recent_grows h' g, hsplit, ← List.cons_append]
    exact List.getLast?_concat ..

end Sound

end LeastRecent.Chain
