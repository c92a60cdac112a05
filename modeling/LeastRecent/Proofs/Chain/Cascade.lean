import LeastRecent.Proofs.Chain.Sound

/-!
# One link less, exactly

A link that is given back retires the nodes that nothing else keeps: the node itself, if that was its last link, then
the node that its hint was at, and so on back along the hints (`Unravels`). The first node with another link stops this
and only loses one. Nothing else changes (`GivesBack`), so that a link taken and given back at once leaves no trace
(`release_acquire`).
-/

namespace LeastRecent.Chain

variable {α : Type} {c c' : Chain α} {order held tokens xs : List NodeId} {x y last : NodeId}

/-- From `x` back along the hints the nodes `xs` have no link but one, and the node `last` before them has more. -/
inductive Unravels (c : Chain α) : NodeId → List NodeId → NodeId → Prop
  | stop {x : NodeId} (h : 2 ≤ (c.node x).links) : Unravels c x [] x
  | step {x b last : NodeId} {xs : List NodeId} (h : (c.node x).links = 1) (hb : (c.node x).prev = some b)
    (hrest : Unravels c b xs last) : Unravels c x (x :: xs) last

/-- `c'` is `c` with the nodes `xs` retired and one link less on `last`. -/
structure GivesBack (c c' : Chain α) (xs : List NodeId) (last : NodeId) : Prop where
  size : c'.size = c.size
  gone : ∀ y ∈ xs, c'.node y = { c.node y with links := 0, prev := none }
  less : (c.node last).links = (c'.node last).links + 1 ∧
    c'.node last = { c.node last with links := (c'.node last).links }
  others : ∀ y, y ∉ xs → y ≠ last → c'.node y = c.node y
  retired : c'.retired = c.retired ++ xs
  policy : c'.limbo.policy = c.limbo.policy
  fault : c'.fault = c.fault

namespace Unravels

/-- The nodes on the way all have links. -/
theorem links_ne_zero (h : Unravels c x xs last) : (∀ y ∈ xs, (c.node y).links = 1) ∧ 2 ≤ (c.node last).links := by
  induction h with
  | stop h => exact ⟨fun y hy => (by cases hy), h⟩
  | step h _ _ ih => exact ⟨List.forall_mem_cons.mpr ⟨h, ih.1⟩, ih.2⟩

/-- Only the nodes on the way matter. -/
theorem congr (h : Unravels c x xs last) (hn : ∀ y ∈ xs, c'.node y = c.node y) (hl : c'.node last = c.node last) :
    Unravels c' x xs last := by
  induction h with
  | stop h => exact .stop (by rw [hl]; exact h)
  | step h hb _ ih =>
    obtain ⟨hfirst, hrest⟩ := List.forall_mem_cons.mp hn
    exact .step (by rw [hfirst]; exact h) (by rw [hfirst]; exact hb) (ih hrest hl)

/-- The node given is retired just if that was its last link. -/
theorem mem_iff (h : Unravels c x xs last) : x ∈ xs ↔ (c.node x).links = 1 := by
  refine ⟨fun hx => h.links_ne_zero.1 x hx, fun hx => ?_⟩
  cases h with
  | stop h =>
    rw [hx] at h
    exact absurd h (by decide)
  | step => exact List.mem_cons_self

end Unravels

/-! ## What a release does -/

/-- A node with another link only loses one. -/
theorem givesBack_modify (hx : x < c.size) {k : Nat} (hk : (c.node x).links = k + 2) :
    GivesBack c (c.modify x fun n => { n with links := k + 1 }) [] x where
  size := size_modify c x _
  gone y hy := by cases hy
  less := by simp [node_modify c x x _ hx, hk]
  others y _ hy := by rw [node_modify c x y _ hx, if_neg hy]
  retired := (List.append_nil _).symm
  policy := rfl
  fault := rfl

/-- A node with its last link is retired first, and then what only its hint kept. -/
theorem GivesBack.expire {bare : List NodeId} (h : Counted bare c (x :: tokens)) (h₁ : (c.node x).links = 1)
    (g : GivesBack (c.expire x) c' xs last) (hx : x ∉ xs) (hlast : x ≠ last) : GivesBack c c' (x :: xs) last := by
  have hn (y : NodeId) := h.node_expire h₁ y
  have hother (y : NodeId) (hy : y ≠ x) : (c.expire x).node y = c.node y := by rw [hn, if_neg hy]
  have he := h.expire_eq h₁
  refine ⟨?_, List.forall_mem_cons.mpr ⟨?_, fun y hy => ?_⟩, ?_, fun y hy hyl => ?_, ?_, ?_, ?_⟩
  · exact g.size.trans (h.frees_expire h₁).size
  · rw [g.others x hx hlast, hn, if_pos rfl]
  · rw [g.gone y hy, hother y fun hyx => hx (hyx ▸ hy)]
  · have hless := g.less
    rw [hother last (Ne.symm hlast)] at hless
    exact hless
  · obtain ⟨hyx, hyxs⟩ := not_or.mp (mt List.mem_cons.mpr hy)
    rw [g.others y hyxs hyl, hother y hyx]
  · have hr : (c.expire x).retired = c.retired ++ [x] := by rw [he]; rfl
    rw [g.retired, hr, List.append_assoc]
    rfl
  · rw [g.policy, he]
  · rw [g.fault, he]
    rfl

/-- Within its bound a release follows the hints to the first node with another link. The header has one, being linked,
so the hints do not run out. -/
theorem Counted.unravels : ∀ (fuel : Nat) {c : Chain α} {tokens : List NodeId} (x : NodeId), Ranked c order →
    Counted [header] c (x :: tokens) → header ∈ tokens → order.idxOf x < fuel →
    ∃ xs last, Unravels c x xs last ∧ GivesBack c (c.releaseWithin fuel (some x)) xs last
  | 0, _, _, _, _, _, _, hb => absurd hb (Nat.not_lt_zero _)
  | fuel + 1, c, tokens, x, hr, h, hheader, hb => by
    have hx : x < c.size := h.lt x List.mem_cons_self
    have hne := h.links_ne_zero List.mem_cons_self
    unfold Chain.releaseWithin
    split
    · next h₀ => exact absurd h₀ hne
    · next h₁ =>
      -- its own token and that of the chain are two
      have hnot : x ≠ header := by
        rintro rfl
        have htwo := h.links header hx
        rw [h₁, List.count_cons_self] at htwo
        have := List.count_pos_iff.mpr hheader
        omega
      obtain ⟨b, hb'⟩ : ∃ b, (c.node x).prev = some b := by
        refine Option.ne_none_iff_exists'.mp fun hnone => ?_
        rcases (h.unhinted x hx).mp hnone with hm | h₀
        · exact hnot (List.mem_singleton.mp hm)
        · exact hne h₀
      have hf := h.frees_expire h₁
      have hc := h.expire h₁ hr
      rw [hb', Option.toList_some, List.singleton_append] at hc
      obtain ⟨xs, last, hu, hg⟩ := Counted.unravels fuel b (hr.frees hf) hc hheader
        (by have := (hr.hint x b hb').2; omega)
      -- the node just retired is not met again
      have hself : ((c.expire x).node x).links = 0 := by rw [h.node_expire h₁, if_pos rfl]
      have hnotin : x ∉ xs := fun hm => by
        have := hu.links_ne_zero.1 x hm
        omega
      have hlast : x ≠ last := fun he => by
        have := hu.links_ne_zero.2
        rw [← he] at this
        omega
      refine ⟨x :: xs, last, .step h₁ hb' (hu.congr (fun y hy => ?_) ?_), ?_⟩
      · have hyx : y ≠ x := fun he => hnotin (he ▸ hy)
        rw [h.node_expire h₁, if_neg hyx]
      · rw [h.node_expire h₁, if_neg (Ne.symm hlast)]
      · rw [hb']
        exact hg.expire h h₁ hnotin hlast
    · next k hk => exact ⟨[], x, .stop (by omega), givesBack_modify hx hk⟩

/-- **A link that is given back** retires what nothing else keeps, back along the hints, and changes nothing else. -/
theorem Sound.release_unravels (h : Sound c order (x :: held)) :
    ∃ xs last, Unravels c x xs last ∧ GivesBack c (c.release x) xs last := by
  obtain ⟨linked, j, hc⟩ := h.counted
  have hx : x ∈ order := h.held_mem List.mem_cons_self
  have hlt := h.laid.ranked.idxOf_lt hx
  exact Counted.unravels (c.size + 1) x h.laid.ranked (hc.perm List.perm_middle)
    (List.mem_append_left _ (j.live _ h.laid.header_mem h.laid.start)) (by omega)

/-! ## A link taken and given back -/

/-- Two changes of a node that undo each other. -/
theorem modify_modify {f g : Node α → Node α} (h : g (f (c.node x)) = c.node x) :
    (c.modify x f).modify x g = c := by
  have hnodes : (c.nodes.modify x f).modify x g = c.nodes := by
    refine Array.ext (by simp) fun i h₁ h₂ => ?_
    have hi : i < c.nodes.size := h₂
    rw [Array.getElem_modify, Array.getElem_modify]
    by_cases hix : x = i
    · subst hix
      have hget : c.node x = c.nodes[x] := by simp [node, Array.getD, hi]
      rw [hget] at h
      simpa using h
    · simp [hix]
  show { c with nodes := (c.nodes.modify x f).modify x g } = c
  rw [hnodes]

/-- **A link taken and given back** at once leaves the chain as it was. -/
theorem release_acquire (hc : c.acquire x = some c') : c'.release x = c := by
  unfold acquire at hc
  split at hc
  · cases hc
  · next hl =>
    cases hc
    obtain ⟨k, hk⟩ := Nat.exists_eq_add_one_of_ne_zero hl
    have hx : x < c.size := lt_size_of_links hl
    have hlinks : ((c.modify x fun n => { n with links := n.links + 1 }).node x).links = k + 2 := by
      rw [node_modify c x x _ hx, if_pos rfl, hk]
    simp only [release, release?, releaseWithin, hlinks]
    exact modify_modify (by rw [← hk])

end LeastRecent.Chain
