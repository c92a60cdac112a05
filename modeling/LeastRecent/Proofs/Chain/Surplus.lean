import LeastRecent.Proofs.Chain.Sound

/-!
# Links that can be given back in any order

In general a release may retire a node, and others in its wake, so that the order of releases matters. A release that
leaves a link only counts down (`release_eq_lower`). A list of nodes that all keep a link can thus be given back in any
order: the chain becomes the same one (`releaseAll_perm`), and nothing is retired (`retired_releaseAll`). In a sound chain
this is so of owned nodes that are live, since the chain has a link on them as well (`Sound.two_le_links`).
-/

namespace LeastRecent.Chain

variable {α : Type} {c : Chain α} {order held xs ys : List NodeId} {x : NodeId}

/-- The count of `x` goes down by one, and nothing follows from it. -/
def lower (c : Chain α) (x : NodeId) : Chain α := c.modify x fun n => { n with links := n.links - 1 }

theorem retired_lower (c : Chain α) (x : NodeId) : (c.lower x).retired = c.retired := rfl

/-- Chains are equal if all their nodes are, the limbo and the fault. -/
theorem eq_of_nodes {c' : Chain α} (hs : c.size = c'.size) (hn : ∀ x, c.node x = c'.node x) (hl : c.limbo = c'.limbo)
    (hf : c.fault = c'.fault) : c = c' := by
  have hnodes : c.nodes = c'.nodes := by
    apply Array.ext hs
    intro i h₁ h₂
    have hi := hn i
    simpa [node, Array.getD, h₁, h₂] using hi
  cases c
  cases c'
  cases hnodes
  cases hl
  cases hf
  rfl

/-- A node that was never linked has no count to lower, and stays what it is. -/
theorem node_lower (c : Chain α) (x y : NodeId) :
    (c.lower x).node y = if y = x then { c.node x with links := (c.node x).links - 1 } else c.node y := by
  rcases Nat.lt_or_ge x c.size with hx | hx
  · exact node_modify c x y _ hx
  · rw [lower, node_modify_of_size_le hx]
    split
    · next he => rw [he, node_of_size_le hx]; rfl
    · rfl

/-- It does not matter which of two counts goes down first. -/
theorem lower_right_comm (c : Chain α) (x y : NodeId) : (c.lower x).lower y = (c.lower y).lower x := by
  refine eq_of_nodes (by simp only [lower, size_modify]) (fun z => ?_) rfl rfl
  simp only [node_lower]
  grind

/-- If a link is left, a release does no more than count. -/
theorem release_eq_lower (h : 2 ≤ (c.node x).links) : c.release x = c.lower x := by
  obtain ⟨k, hk⟩ := Nat.exists_eq_add_of_le' h
  have hx : x < c.size := lt_size_of_links (by omega)
  have hrelease : c.release x = c.modify x fun n => { n with links := k + 1 } := by
    unfold release release? releaseWithin
    rw [hk]
  rw [hrelease]
  refine eq_of_nodes (by rw [lower, size_modify, size_modify]) (fun y => ?_) rfl rfl
  rw [lower, node_modify c x y _ hx, node_modify c x y _ hx, hk]
  rfl

/-- If each node of the list is left a link, the counts go down and that is all. -/
theorem releaseAll_eq_foldl (hn : xs.Nodup) (h : ∀ x ∈ xs, 2 ≤ (c.node x).links) : c.releaseAll xs = xs.foldl lower c := by
  induction xs generalizing c with
  | nil => rfl
  | cons x xs ih =>
    obtain ⟨hx, hn⟩ := List.nodup_cons.mp hn
    have hlt : x < c.size := lt_size_of_links fun h₀ => absurd (h x List.mem_cons_self) (by rw [h₀]; decide)
    have hrest (y : NodeId) (hy : y ∈ xs) : 2 ≤ ((c.lower x).node y).links := by
      have hne : y ≠ x := fun he => hx (he ▸ hy)
      rw [lower, node_modify c x y _ hlt, if_neg hne]
      exact h y (List.mem_cons_of_mem _ hy)
    show (c.release x).releaseAll xs = xs.foldl lower (c.lower x)
    rw [release_eq_lower (h x List.mem_cons_self)]
    exact ih hn hrest

/-- **In any order** links can be given back that are not the last ones. -/
theorem releaseAll_perm (hp : xs.Perm ys) (hn : xs.Nodup) (h : ∀ x ∈ xs, 2 ≤ (c.node x).links) :
    c.releaseAll xs = c.releaseAll ys := by
  rw [releaseAll_eq_foldl hn h, releaseAll_eq_foldl (hp.nodup_iff.mp hn) fun y hy => h y (hp.mem_iff.mpr hy)]
  exact hp.foldl_eq' (fun x _ y _ c => lower_right_comm c x y) c

/-- Nothing is retired by them. -/
theorem retired_releaseAll (hn : xs.Nodup) (h : ∀ x ∈ xs, 2 ≤ (c.node x).links) :
    (c.releaseAll xs).retired = c.retired := by
  rw [releaseAll_eq_foldl hn h]
  clear hn h
  induction xs generalizing c with
  | nil => rfl
  | cons x xs ih => exact ih.trans (retired_lower c x)

/-- A live node that is owned has a link of the chain as well. -/
theorem Sound.two_le_links (h : Sound c order held) (hx : x ∈ held) (hd : c.isDeleted x = false) :
    2 ≤ (c.node x).links := by
  obtain ⟨linked, j, hc⟩ := h.counted
  have hlinked : x ∈ linked := j.live x (h.held_mem hx) hd
  have h₁ := List.count_pos_iff.mpr hlinked
  have h₂ := List.count_pos_iff.mpr hx
  rw [hc.links x (hc.lt x (List.mem_append_left _ hlinked)), List.count_append]
  omega

end LeastRecent.Chain
