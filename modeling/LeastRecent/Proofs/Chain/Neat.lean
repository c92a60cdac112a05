import LeastRecent.Proofs.Chain.Healing

/-!
# A neat chain

In a neat chain each pointer leads to a live node, and that hints back at the node that points at it (`Neat`). The live
nodes are right one after another then, so the chain is healed (`Sound.healed_of_neat`), and tidy if nothing deleted is
held from outside (`Sound.tidy_of_neat`). What nothing interrupts keeps a chain neat: links that are given back
(`Sound.neat_loosens`), an insertion (`Sound.neat_finishInsert`), a deletion from its beginning to its end
(`Sound.neat_finishDelete`). A search back from the trailer has nothing to repair (`Sound.back_of_neat`).
-/

namespace LeastRecent.Chain

variable {α : Type} {c c' : Chain α} {order order' held held' : List NodeId} {x y f p : NodeId}

/-- Each pointer leads to a live node, which hints back. -/
def Neat (c : Chain α) : Prop := ∀ x f, (c.node x).next = .node f → c.isDeleted f = false ∧ (c.node f).prev = some x

theorem neat_empty (p : Policy) : Neat (Chain.empty p : Chain α) := by
  intro x f hx
  match x with
  | 0 =>
    cases hx
    exact ⟨rfl, rfl⟩
  | 1 => cases hx
  | x + 2 =>
    rw [node_of_size_le (Nat.le_add_left 2 x)] at hx
    cases hx

namespace Neat

/-- Only pointers and hints matter. -/
theorem congr (hn : Neat c) (h : ∀ y, (c'.node y).next = (c.node y).next ∧ (c'.node y).prev = (c.node y).prev) :
    Neat c' := by
  intro x f hx
  rw [(h x).1] at hx
  rw [isDeleted, Node.isDeleted, (h f).1, (h f).2]
  exact hn x f hx

/-- Two nodes do not point at the same one. -/
theorem inj (hn : Neat c) (hx : (c.node x).next = .node f) (hy : (c.node y).next = .node f) : x = y :=
  Option.some.inj ((hn x f hx).2.symm.trans (hn y f hy).2)

theorem markEvicted (hn : Neat c) (x : NodeId) : Neat (c.markEvicted x) :=
  hn.congr fun y => ⟨frame_modify Node.next x y fun _ => rfl, frame_modify Node.prev x y fun _ => rfl⟩

theorem acquire (hn : Neat c) (h : c.acquire x = some c') : Neat c' := hn.congr (node_acquire h)

end Neat

/-! ## Neat and healed -/

/-- A live node but the trailer points at a node behind it. -/
theorem Laid.next_of_live (h : Laid c order) (hx : x ∈ order) (hl : c.isDeleted x = false) (ht : x ≠ trailer) :
    ∃ f, (c.node x).next = .node f := by
  obtain ⟨f, -, hf, -⟩ := h.next x hx ht
  rw [isDeleted, Node.isDeleted] at hl
  cases he : (c.node x).next with
  | nothing =>
    rw [he] at hf
    cases hf
  | node g => exact ⟨g, rfl⟩
  | marker g =>
    rw [he] at hl
    cases hl

namespace Sound

theorem healed_of_neat (h : Sound c order held) (hn : Neat c) (i : Nat) : Healed c order i := by
  intro y f hy hl _ hf
  have ht : y ≠ trailer := by
    rintro rfl
    by_cases hft : f = trailer
    · exact Nat.lt_irrefl _ (hft ▸ hf.lt)
    · exact Nat.lt_asymm hf.lt (h.laid.idxOf_lt_trailer hf.mem hft)
  obtain ⟨g, hnext⟩ := h.laid.next_of_live hy hl ht
  obtain ⟨-, hg, hlt, hd⟩ := h.laid.of_next hnext
  obtain ⟨hgl, hprev⟩ := hn y g hnext
  obtain rfl : g = f := IsNext.unique ⟨hg, hgl, hlt, hd⟩ hf
  exact ⟨hnext, hprev⟩

theorem neat_of_healed (h : Sound c order held) (hh : Healed c order (order.idxOf trailer)) : Neat c := by
  intro x f hx
  have hm : x ∈ order := (h.laid.of_next hx).1
  have ht : x ≠ trailer := by
    rintro rfl
    rw [h.laid.stop] at hx
    cases hx
  obtain ⟨g, hg⟩ := h.exists_next hm ht
  obtain ⟨hnext, hprev⟩ := hh x g hm (isDeleted_of_next hx) (h.laid.idxOf_lt_trailer hm ht) hg
  rw [hx] at hnext
  cases hnext
  exact ⟨hg.live, hprev⟩

/-- A walk from the header leaves a neat chain, whatever it was like before. -/
theorem neat_walk (h : Sound c order held) : Neat (c.walk header).1 :=
  (h.walk h.laid.header_mem).1.neat_of_healed h.healed_walk

theorem tidy_of_neat (h : Sound c order held) (hn : Neat c) (hheld : ∀ x ∈ held, c.isDeleted x = false) : Tidy c :=
  h.tidy_of_healed (h.healed_of_neat hn _) hheld

/-- A live node but the header hints at the node that points at it. -/
theorem exists_before (h : Sound c order held) (hn : Neat c) (hx : x ∈ order) (hl : c.isDeleted x = false)
    (h₀ : x ≠ header) : ∃ p, (c.node p).next = .node x ∧ (c.node x).prev = some p := by
  obtain ⟨-, -, hprev, hfound⟩ := h.predecessor hx
  obtain ⟨p, hp⟩ := hfound hl h₀
  have hb := hprev p hp
  exact ⟨p, h.healed_of_neat hn (order.idxOf x) p x hb.mem hb.live hb.lt ⟨hx, hl, hb.lt, hb.between⟩⟩

/-- The hint of the trailer is right, so a step back from there repairs nothing. -/
theorem back_of_neat (h : Sound c order held) (hn : Neat c) : (c.back trailer).1 = c := by
  obtain ⟨p, hnext, hprev⟩ := h.exists_before hn h.laid.trailer_mem h.laid.trailer_live (by decide)
  obtain ⟨n, hsize⟩ := Nat.exists_eq_add_one_of_ne_zero (Nat.ne_of_gt h.laid.size_pos)
  have hpred : c.predecessor trailer = (c, some p) := by
    rw [Chain.predecessor, hsize, Chain.predecessorFrom, hprev]
    exact if_pos hnext
  rw [Chain.back, hpred]

/-! ## What keeps a chain neat -/

/-- Live nodes keep their hints when links are given back. -/
theorem neat_loosens (h : Sound c' order held) (hn : Neat c) (l : Loosens c c') : Neat c' := by
  intro x f hx
  obtain ⟨-, hf, hlt, -⟩ := h.laid.of_next hx
  obtain ⟨hl, hprev⟩ := hn x f ((l.next x).symm.trans hx)
  have hl' : c'.isDeleted f = false := by
    rw [isDeleted, Node.isDeleted, l.next]
    exact hl
  obtain ⟨b, hb⟩ := Option.ne_none_iff_exists'.mp (h.prev_ne_none hf hl' (h.laid.ne_header hlt))
  exact ⟨hl', by rw [hb, ← l.prev f b hb, hprev]⟩

end Sound

/-- The chain is neat but for the hint of `f`, the node behind `p`. -/
structure NeatBut (c : Chain α) (p f : NodeId) : Prop where
  pointer : (c.node p).next = .node f
  live : c.isDeleted f = false
  others : ∀ y g, y ≠ p → (c.node y).next = .node g → g ≠ f ∧ c.isDeleted g = false ∧ (c.node g).prev = some y

/-- Then it is enough to set this hint; some links may be given back after that. -/
theorem Sound.neat_setHint (h : Sound c' order held) (hb : NeatBut c p f) (l : Loosens (c.setHint f p) c') : Neat c' := by
  obtain ⟨hnext, hhints⟩ := frame_setHint c f p
  have hpoint (y : NodeId) : (c'.node y).next = (c.node y).next := (l.next y).trans (hnext y)
  have hdel (y : NodeId) : c'.isDeleted y = c.isDeleted y := by rw [isDeleted, isDeleted, Node.isDeleted, hpoint]; rfl
  have hhint (y : NodeId) (hy : y ∈ order) (hl : c.isDeleted y = false) (h₀ : y ≠ header) :
      ∃ b, (c'.node y).prev = some b ∧ ((c.setHint f p).node y).prev = some b := by
    obtain ⟨b, hb⟩ := Option.ne_none_iff_exists'.mp (h.prev_ne_none hy ((hdel y).trans hl) h₀)
    exact ⟨b, hb, l.prev y b hb⟩
  have hlinks (y : NodeId) (hy : y ∈ order) (hl : c.isDeleted y = false) : ((c.setHint f p).node y).links ≠ 0 := by
    have hle := l.links y
    have hne := h.links_of_live hy ((hdel y).trans hl)
    omega
  intro y g hy
  obtain ⟨hym, hgm, hlt, -⟩ := h.laid.of_next hy
  have hg₀ : g ≠ header := h.laid.ne_header hlt
  rw [hpoint] at hy
  rw [hdel]
  by_cases hyp : y = p
  · subst hyp
    rw [hb.pointer] at hy
    cases hy
    obtain ⟨b, hb', hset⟩ := hhint f hgm hb.live hg₀
    have hright : ((c.setHint f y).node f).prev = some y :=
      prev_setHint (hlinks f hgm hb.live) (hlinks y hym (isDeleted_of_next hb.pointer)) (by rw [hset]; simp)
    exact ⟨hb.live, hb'.trans (hset.symm.trans hright)⟩
  · obtain ⟨hgf, hgl, hprev⟩ := hb.others y g hyp hy
    obtain ⟨b, hb', hset⟩ := hhint g hgm hgl hg₀
    exact ⟨hgl, by rw [hb', ← hhints g hgf b hset, hprev]⟩

/-- A new node is linked between `p` and `f`. -/
theorem Neat.link {a : α} (hn : Neat c) (hp : (c.node p).next = .node f) : NeatBut (c.link p f a) c.size f := by
  have hlt : p < c.size := lt_size_of_next hp
  obtain ⟨hfl, hfp⟩ := hn p f hp
  have hne (g : NodeId) (y : NodeId) (hg : (c.node g).prev = some y) : g ≠ c.size := Nat.ne_of_lt (lt_size_of_prev hg)
  have hold (g y : NodeId) (hg : (c.node g).prev = some y) : ((c.link p f a).node g).prev = some y := by
    rw [(counts_link hlt (lt_size_of_prev hg)).2, hg]
  refine ⟨by rw [node_link_size hlt], by rw [isDeleted_link hp, if_neg (hne f p hfp), hfl], fun y g hy hg => ?_⟩
  rw [node_link hlt, if_neg hy] at hg
  split at hg
  · next he =>
    cases hg
    exact ⟨(hne f p hfp).symm, by rw [isDeleted_link hp, if_pos rfl], by rw [node_link_size hlt, he]⟩
  · next he =>
    obtain ⟨hgl, hgp⟩ := hn y g hg
    refine ⟨?_, by rw [isDeleted_link hp, if_neg (hne g y hgp), hgl], hold g y hgp⟩
    rintro rfl
    exact he (hn.inj hg hp)

/-- **An insertion keeps a chain neat.** -/
theorem Sound.neat_finishInsert {a : α} (h : Sound (c.finishInsert p a).1 order held) (hn : Neat c) :
    Neat (c.finishInsert p a).1 := by
  unfold Chain.finishInsert at h ⊢
  split at h
  · next f hf => exact h.neat_setHint (hn.link hf) (Loosens.refl _)
  · exact h.neat_loosens hn (loosens_release c p)

/-- The node `x` between `p` and `f` is deleted and passed over. -/
theorem Neat.skip (hn : Neat c) (hp : (c.node p).next = .node x) (hx : (c.node x).next = .node f) (hpx : p ≠ x)
    (hpf : p ≠ f) (hxf : x ≠ f) : NeatBut ((c.mark x f).swing p f) p f := by
  have hnode (y : NodeId) : (((c.mark x f).swing p f).node y).next =
      (if y = p then .node f else if y = x then .marker f else (c.node y).next) ∧
      (((c.mark x f).swing p f).node y).prev = (c.node y).prev := by
    have hsize : p < (c.mark x f).size := by
      rw [mark, size_modify]
      exact lt_size_of_next hp
    rw [swing, node_modify _ p y _ hsize, node_mark hx, node_mark hx]
    grind
  have hlive (g : NodeId) (hg : c.isDeleted g = false) (hgx : g ≠ x) :
      ((c.mark x f).swing p f).isDeleted g = false := by
    rw [isDeleted, Node.isDeleted, (hnode g).1, if_neg hgx]
    split
    · rfl
    · exact hg
  refine ⟨by rw [(hnode p).1, if_pos rfl], hlive f (hn x f hx).1 hxf.symm, fun y g hy hg => ?_⟩
  rw [(hnode y).1, if_neg hy] at hg
  split at hg
  · cases hg
  · next hyx =>
    obtain ⟨hgl, hgp⟩ := hn y g hg
    refine ⟨?_, hlive g hgl ?_, (hnode g).2.trans hgp⟩
    · rintro rfl
      exact hyx (hn.inj hg hx)
    · rintro rfl
      exact hy (hn.inj hg hp)

/-- **A deletion that nothing interrupts keeps a chain neat.** -/
theorem Sound.neat_finishDelete {cut : Cut} (h : Sound c order held) (hn : Neat c) (hb : c.beginDelete x = some cut)
    (h' : Sound (c.finishDelete cut).1 order' held') : Neat (c.finishDelete cut).1 := by
  unfold Chain.beginDelete at hb
  split at hb
  · cases hb
  · next hs =>
    split at hb
    · next f hf =>
      cases hb
      obtain ⟨hxm, hfm, hxf, -⟩ := h.laid.of_next hf
      have h₀ : x ≠ header := by
        rintro rfl
        exact hs ((h.laid.isSentinel_iff hxm).mpr (Or.inl rfl))
      obtain ⟨p, hp, hprev⟩ := h.exists_before hn hxm (isDeleted_of_next hf) h₀
      obtain ⟨-, -, hpx, -⟩ := h.laid.of_next hp
      have hne (y z : NodeId) (hlt : order.idxOf y < order.idxOf z) : y ≠ z := by
        rintro rfl
        exact Nat.lt_irrefl _ hlt
      have hpoint : ((c.mark x f).node p).next = .node x := by
        rw [node_mark hf, if_neg (hne p x hpx), hp]
      -- the hint is right, so the node is unlinked at once
      have he : (c.finishDelete ⟨x, (c.node x).prev, f⟩).1 =
          (((c.mark x f).swing p f).setHint f p).release x := by
        unfold Chain.finishDelete
        rw [if_pos hf, hprev]
        exact if_pos hpoint
      rw [he] at h' ⊢
      exact h'.neat_setHint (hn.skip hp hf (hne p x hpx) (hne p f (Nat.lt_trans hpx hxf)) (hne x f hxf))
        (loosens_release _ x)
    · cases hb

end LeastRecent.Chain
