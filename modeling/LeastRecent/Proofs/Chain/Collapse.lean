import LeastRecent.Proofs.Chain.Dismantling
import LeastRecent.Proofs.Chain.Neat
import LeastRecent.Proofs.Chain.Surplus

/-!
# A neat chain goes from its end

When a neat chain is taken apart and nobody owns its nodes, each entry that is parted with is kept by the hint of the one
behind it, so that nothing is retired at first (`foldl_part_of_spare`). Only when the trailer gives up its hint the last
entry goes, and with it the hint at the one before, and so on up to the header (`Counted.retired_line`). So the live
entries are retired from the last to the first (`Sound.retired_dismantle`).
-/

namespace LeastRecent.Chain

variable {α : Type} {c : Chain α} {order bare held tokens xs : List NodeId} {x y : NodeId}

/-- To part with a live node that keeps a link is to forget a pointer and to count. -/
theorem part_of_spare (hd : c.isDeleted x = false) (h : 2 ≤ (c.node x).links) : c.part x = (c.forget x).lower x := by
  rw [part, hd, if_neg Bool.false_ne_true]
  refine release_eq_lower ?_
  rw [(counts_forget c x x).2.1]
  exact h

theorem counts_part (hd : c.isDeleted x = false) (h : 2 ≤ (c.node x).links) (y : NodeId) :
    ((c.part x).node y).prev = (c.node y).prev ∧ (y ≠ x → ((c.part x).node y).links = (c.node y).links) := by
  obtain ⟨-, hlinks, hprev⟩ := counts_forget c x y
  rw [part_of_spare hd h, node_lower]
  constructor
  · split
    · next he => rw [he, (counts_forget c x x).2.2]
    · exact hprev
  · intro hne
    rw [if_neg hne, hlinks]

/-- Nothing goes and no hint is lost when nodes are parted with that keep a link. -/
theorem foldl_part_of_spare (hn : xs.Nodup) (h : ∀ x ∈ xs, c.isDeleted x = false ∧ 2 ≤ (c.node x).links) :
    (xs.foldl part c).retired = c.retired ∧ ∀ y, ((xs.foldl part c).node y).prev = (c.node y).prev := by
  induction xs generalizing c with
  | nil => exact ⟨rfl, fun _ => rfl⟩
  | cons x xs ih =>
    obtain ⟨hx, hn⟩ := List.nodup_cons.mp hn
    obtain ⟨hd, hlinks⟩ := h x List.mem_cons_self
    have hcounts := counts_part hd hlinks
    have hrest (y : NodeId) (hy : y ∈ xs) : (c.part x).isDeleted y = false ∧ 2 ≤ ((c.part x).node y).links := by
      have hne : y ≠ x := fun he => hx (he ▸ hy)
      obtain ⟨hyd, hyl⟩ := h y (List.mem_cons_of_mem _ hy)
      rw [(hcounts y).2 hne, isDeleted, Node.isDeleted, next_part, if_neg fun he => hne he.1]
      exact ⟨hyd, hyl⟩
    obtain ⟨hretired, hprev⟩ := ih hn hrest
    refine ⟨hretired.trans ?_, fun y => (hprev y).trans (hcounts y).1⟩
    rw [part_of_spare hd hlinks]
    rfl

/-- A node with one more token stays when a token is given back. -/
theorem Counted.retired_spare (h : Counted bare c (x :: tokens)) (hx : x ∈ tokens) (fuel : Nat) :
    (c.releaseWithin (fuel + 1) (some x)).retired = c.retired := by
  have hlinks : 2 ≤ (c.node x).links := by
    have hpos := List.count_pos_iff.mpr hx
    rw [h.links x (h.lt x List.mem_cons_self), List.count_cons_self]
    omega
  obtain ⟨k, hk⟩ := Nat.exists_eq_add_of_le' hlinks
  rw [Chain.releaseWithin, hk]
  rfl

/-- Without hints at it and with no token but one, a node has one link. -/
theorem Counted.last_link (h : Counted bare c (x :: tokens)) (hx : x ∉ tokens) (hhint : ∀ y, (c.node y).prev ≠ some x) :
    (c.node x).links = 1 := by
  have hnone : c.hints.count (some x) = 0 := by
    refine List.count_eq_zero.mpr fun hm => ?_
    obtain ⟨y, -, hy⟩ := List.mem_map.mp hm
    exact hhint y hy
  rw [h.links x (h.lt x List.mem_cons_self), List.count_cons_self, List.count_eq_zero.mpr hx, hnone]

/-- The nodes `xs`, each kept by the hint of the one before in the list alone, go one after another once nothing keeps
the first. The header, at which the last of them hints, stays. -/
theorem Counted.retired_line (fuel : Nat) (hr : Ranked c order) (hb : xs.length < fuel)
    (h : Counted bare c ((xs ++ [header]).head?.toList ++ tokens)) (hh : header ∈ tokens) (hn : (xs ++ [header]).Nodup)
    (hxs : ∀ x ∈ xs, x ∉ tokens) (hline : (xs ++ [header]).IsChain fun y x => (c.node y).prev = some x)
    (hinj : ∀ x y z, (c.node y).prev = some x → (c.node z).prev = some x → y = z)
    (hfirst : ∀ x, (xs ++ [header]).head? = some x → ∀ y, (c.node y).prev ≠ some x) :
    (c.releaseWithin fuel (xs ++ [header]).head?).retired = c.retired ++ xs := by
  induction fuel generalizing c xs with
  | zero => omega
  | succ fuel ih =>
    cases xs with
    | nil =>
      rw [List.append_nil]
      exact Counted.retired_spare h hh fuel
    | cons x xs =>
      replace h : Counted bare c (x :: tokens) := h
      obtain ⟨hx, hn⟩ := List.nodup_cons.mp hn
      have h₁ : (c.node x).links = 1 := h.last_link (hxs x List.mem_cons_self) (hfirst x rfl)
      obtain ⟨p, hp⟩ : ∃ p, (xs ++ [header]).head? = some p := by
        cases xs <;> exact ⟨_, rfl⟩
      have hprev : (c.node x).prev = some p := (List.isChain_cons.mp hline).1 p hp
      have hloose := h.frees_expire h₁
      have hkeep (y : NodeId) (hy : y ≠ x) : ((c.expire x).node y).prev = (c.node y).prev := by
        rw [h.node_expire h₁, if_neg hy]
      have hretired : (c.expire x).retired = c.retired ++ [x] := by
        rw [h.expire_eq h₁]
        rfl
      have hcascade : c.releaseWithin (fuel + 1) (some x) = (c.expire x).releaseWithin fuel (xs ++ [header]).head? := by
        rw [Chain.releaseWithin, h₁, hp, ← hprev]
        rfl
      have hcounted : Counted bare (c.expire x) ((xs ++ [header]).head?.toList ++ tokens) := by
        rw [hp, ← hprev]
        exact h.expire h₁ hr
      have hline' : (xs ++ [header]).IsChain fun y z => ((c.expire x).node y).prev = some z := by
        refine List.IsChain.imp_of_mem_imp (fun y z hy _ hyz => ?_) (List.isChain_cons.mp hline).2
        rw [hkeep y fun he => hx (he ▸ hy), hyz]
      have hinj' (z y y' : NodeId) (hy : ((c.expire x).node y).prev = some z)
          (hy' : ((c.expire x).node y').prev = some z) : y = y' := hinj z y y' (hloose.hint y z hy) (hloose.hint y' z hy')
      -- only the node that went had a hint at the next one
      have hfirst' (z : NodeId) (hz : (xs ++ [header]).head? = some z) (y : NodeId) :
          ((c.expire x).node y).prev ≠ some z := by
        intro hy
        rw [hp] at hz
        cases hz
        obtain rfl := hinj p y x (hloose.hint y p hy) hprev
        rw [h.node_expire h₁, if_pos rfl] at hy
        cases hy
      have hrest := ih (hr.frees hloose) (Nat.lt_of_succ_lt_succ hb) hcounted hn
        (fun y hy => hxs y (List.mem_cons_of_mem _ hy)) hline' hinj' hfirst'
      show (c.releaseWithin (fuel + 1) (some x)).retired = _
      rw [hcascade, hrest, hretired, List.append_assoc, List.singleton_append]

/-- When nothing has a token but the sentinels, the trailer brings down all the nodes that hints lead back to from it. -/
theorem Counted.retired_untie (h : Counted [header] c [trailer, header]) (hr : Ranked c order) (hb : xs.length ≤ c.size)
    (hn : (trailer :: (xs ++ [header])).Nodup)
    (hline : (trailer :: (xs ++ [header])).IsChain fun y x => (c.node y).prev = some x)
    (hinj : ∀ x y z, (c.node y).prev = some x → (c.node z).prev = some x → y = z) :
    c.untie.retired = c.retired ++ xs := by
  obtain ⟨ht, hn⟩ := List.nodup_cons.mp hn
  obtain ⟨hlast, hline⟩ := List.isChain_cons.mp hline
  have hfirst : (c.node trailer).prev = (xs ++ [header]).head? := by
    cases hh : (xs ++ [header]).head? with
    | none => simp at hh
    | some x => exact hlast x hh
  obtain ⟨hc, s⟩ := h.unhint hr List.mem_cons_self
  have hnode (y : NodeId) := node_modify c trailer y (fun n => { n with prev := none }) (h.lt trailer List.mem_cons_self)
  rw [hfirst] at hc
  rw [untie, hfirst]
  refine hc.retired_line _ (hr.sheds s) (by rw [size_modify]; omega) (by simp) hn (fun x hx hm => ?_) ?_
    (fun x y z hy hz => hinj x y z (s.hint y x hy) (s.hint z x hz)) fun x hx y hy => ?_
  · rcases List.mem_cons.mp hm with rfl | hm
    · exact ht (List.mem_append_left _ hx)
    · exact (List.nodup_append.mp hn).2.2 x hx header List.mem_cons_self (List.mem_singleton.mp hm)
  · refine List.IsChain.imp_of_mem_imp (fun y z hy _ hyz => ?_) hline
    have hne : y ≠ trailer := fun he => ht (he ▸ hy)
    rw [hnode, if_neg hne, hyz]
  · obtain rfl := hinj x y trailer (s.hint y x hy) (hfirst.trans hx)
    rw [hnode, if_pos rfl] at hy
    cases hy

/-! ## Neat chains -/

/-- In a neat and tidy chain each hint comes from the node that is pointed at. -/
theorem Sound.next_of_prev (h : Sound c order held) (hn : Neat c) (ht : Tidy c) (hy : (c.node y).prev = some x) :
    (c.node x).next = .node y := by
  obtain ⟨linked, -, hc⟩ := h.counted
  have hlt : y < c.size := lt_size_of_prev hy
  have h₀ : y ≠ header := h.laid.ne_header (h.laid.hint y x hy).2
  have hl : c.isDeleted y = false := by
    rw [← Bool.not_eq_true, ← ht.retired y hlt, hc.retired]
    rintro ⟨-, hlinks⟩
    rw [(hc.unhinted y hlt).mpr (Or.inr hlinks)] at hy
    cases hy
  obtain ⟨p, hp, hprev⟩ := h.exists_before hn ((h.laid.mem y).mpr hlt) hl h₀
  rw [hy] at hprev
  cases hprev
  exact hp

/-- A live entry has a link of the chain and one of the hint behind it. -/
theorem Sound.two_le_links_of_neat (h : Sound c order held) (hn : Neat c) (hx : x ∈ c.recent) :
    2 ≤ (c.node x).links := by
  obtain ⟨hd, hs⟩ := h.mem_recent.mp hx
  obtain ⟨linked, j, hc⟩ := h.counted
  have hlt : x < c.size := lt_size_of_not_isSentinel hs
  have hm : x ∈ order := (h.laid.mem x).mpr hlt
  have ht : x ≠ trailer := by
    rintro rfl
    rw [(h.laid.isSentinel_iff hm).mpr (Or.inr rfl)] at hs
    cases hs
  obtain ⟨f, hf⟩ := h.laid.next_of_live hm hd ht
  have hprev := (hn x f hf).2
  have hhint : 0 < c.hints.count (some x) :=
    List.count_pos_iff.mpr (List.mem_map.mpr ⟨f, List.mem_range.mpr (lt_size_of_prev hprev), hprev⟩)
  have hlink := List.count_pos_iff.mpr (j.live x hm hd)
  rw [hc.links x hlt, List.count_append]
  omega

/-- **A neat chain that nobody owns goes from its last entry to its first.** -/
theorem Sound.retired_dismantle (h : Sound c order []) (hn : Neat c) :
    c.dismantle.retired = c.retired ++ c.recent.reverse := by
  have ht : Tidy c := h.tidy_of_neat hn fun x hx => by cases hx
  obtain ⟨linked, j, hc⟩ := h.counted
  rw [List.append_nil] at hc
  obtain ⟨xs, hspine, hperm, he⟩ := h.laid.dismantle_eq j
  obtain rfl : xs = c.recent := List.append_cancel_right (List.cons.inj (hspine.symm.trans ht.spine)).2
  have hback : trailer :: (c.recent.reverse ++ [header]) = c.spine.reverse := by
    rw [ht.spine]
    simp
  have hline : (trailer :: (c.recent.reverse ++ [header])).IsChain fun y x => (c.node y).prev = some x := by
    rw [hback, List.isChain_reverse]
    exact ht.hints
  have hnodup : (trailer :: (c.recent.reverse ++ [header])).Nodup := by
    obtain ⟨_, -, -, -, hlinked⟩ := h.laid.spine j
    rw [hback, (List.reverse_perm _).nodup_iff]
    exact hlinked.nodup_iff.mpr j.nodup
  -- nothing goes while the entries are parted with, nor is a hint lost
  obtain ⟨hretired, hprev⟩ := foldl_part_of_spare h.nodup_recent fun x hx =>
    ⟨(h.mem_recent.mp hx).1, h.two_le_links_of_neat hn hx⟩
  obtain ⟨hc₁, s⟩ := (hc.perm hperm).foldl_part h.laid.ranked
  have hlength : c.recent.reverse.length ≤ (c.recent.foldl part c).size := by
    rw [List.length_reverse, s.size, ← h.laid.ranked.length, h.recent]
    exact List.length_filter_le _ _
  simp only [← hprev] at hline
  rw [he, ← hretired]
  refine hc₁.retired_untie (h.laid.ranked.sheds s) hlength hnodup hline fun x y z hy hz => ?_
  rw [hprev] at hy hz
  exact Next.node.inj ((h.next_of_prev hn ht hy).symm.trans (h.next_of_prev hn ht hz))

end LeastRecent.Chain
