import Mathlib.Logic.Relation
import LeastRecent.Proofs.Chain.Unlinking

/-!
# The order in which all nodes ever linked stand

The nodes of a chain are linked one after the other, each between a live node and its successor. The order that this
gives to all nodes ever linked, deleted and retired ones included, is the chronicle of the chain (`Chronicle`). In it
every pointer leads forward and every hint backward (`Backward`), so hints never lead around in a circle.

A chain may be laid out in more than one order, since a deleted node that is not linked any more may stand in several
places. The nodes that are linked stand in one order, whatever the layout (`Joined.idxOf_lt`), so that a chain which is
sound in one layout is sound in each (`Sound.relay`).
-/

namespace LeastRecent.Chain

open Function (update)

variable {α : Type} {c : Chain α} {order order' linked held : List NodeId} {x y b : NodeId}

/-! ## Other layouts -/

/-- The pointers of linked nodes lead from one to the next, so that their order is the same in each layout. -/
theorem Joined.idxOf_lt (j : Joined c order linked) (h : Laid c order) (h' : Laid c order') (n : Nat) :
    ∀ {x : NodeId}, x ∈ linked → y ∈ linked → order.idxOf x < order.idxOf y → order.idxOf y ≤ order.idxOf x + n →
      order'.idxOf x < order'.idxOf y := by
  induction n with
  | zero =>
    intro x _ _ hlt hle
    omega
  | succ n ih =>
    intro x hx hy hlt hle
    have ht : x ≠ trailer := by
      rintro rfl
      rcases Decidable.em (y = trailer) with rfl | hne
      · omega
      · exact Nat.lt_asymm hlt (h.idxOf_lt_trailer (j.mem y hy) hne)
    obtain ⟨f, -, hf, hxf, -⟩ := h.next x (j.mem x hx) ht
    obtain ⟨g, -, hg, hxg, -⟩ := h'.next x ((h'.mem x).mpr ((h.mem x).mp (j.mem x hx))) ht
    obtain rfl : f = g := Option.some.inj (hf.symm.trans hg)
    obtain ⟨hfl, hmin⟩ := j.next x hx f hf
    rcases Nat.lt_or_eq_of_le (hmin y hy hlt) with hfy | hfy
    · exact Nat.lt_trans hxg (ih hfl hy hfy (by omega))
    · rwa [← (List.idxOf_inj (j.mem f hfl)).mp hfy]

/-- What is linked in one layout is linked in each. -/
theorem Joined.relay (j : Joined c order linked) (h : Laid c order) (h' : Laid c order') : Joined c order' linked := by
  have hmem {x : NodeId} : x ∈ order' ↔ x ∈ order := (h'.mem x).trans (h.mem x).symm
  have hmono {x y : NodeId} (hx : x ∈ linked) (hy : y ∈ linked) (hlt : order.idxOf x < order.idxOf y) :
      order'.idxOf x < order'.idxOf y := j.idxOf_lt h h' (order.idxOf y) hx hy hlt (Nat.le_add_left _ _)
  refine ⟨j.nodup, fun x hx => hmem.mpr (j.mem x hx), fun x hx hl => j.live x (hmem.mp hx) hl, fun x hx f hf => ?_⟩
  obtain ⟨hfl, hmin⟩ := j.next x hx f hf
  refine ⟨hfl, fun y hy hlt => ?_⟩
  -- a linked node behind `x` in one layout is behind it in the other
  rcases Nat.lt_trichotomy (order.idxOf x) (order.idxOf y) with hxy | hxy | hxy
  · rcases Nat.lt_or_eq_of_le (hmin y hy hxy) with hfy | hfy
    · exact Nat.le_of_lt (hmono hfl hy hfy)
    · rw [(List.idxOf_inj (j.mem f hfl)).mp hfy]
  · rw [(List.idxOf_inj (j.mem x hx)).mp hxy] at hlt
    exact absurd hlt (Nat.lt_irrefl _)
  · exact absurd (hmono hy hx hxy) (Nat.lt_asymm hlt)

/-- A sound chain is sound in each of its layouts. -/
theorem Sound.relay (h : Sound c order held) (h' : Laid c order') : Sound c order' held := by
  obtain ⟨linked, j, hc⟩ := h.counted
  exact ⟨h', linked, j.relay h.laid h', hc⟩

/-! ## Hints lead backward -/

/-- The hint of `x` is at `b`. -/
def HintAt (c : Chain α) (x b : NodeId) : Prop := (c.node x).prev = some b

/-- All nodes ever linked stand in `order`, and hints lead backward in it: the header and the retired nodes have none,
every other node has one, at a node that stands before it. -/
structure Backward (c : Chain α) (order : List NodeId) : Prop where
  nodup : order.Nodup
  all : ∀ x, x ∈ order ↔ x < c.size
  hinted : ∀ x < c.size, x ≠ header → x ∉ c.retired → ∃ b, HintAt c x b
  earlier : ∀ x b, HintAt c x b → b ∈ order ∧ order.idxOf b < order.idxOf x
  unhinted : ∀ x, x = header ∨ x ∈ c.retired → (c.node x).prev = none
  acyclic : ∀ x, ¬Relation.TransGen (HintAt c) x x

/-- Where hints lead, one after the other, is further back. -/
theorem Laid.hints_lt (h : Laid c order) (hb : Relation.TransGen (HintAt c) x b) : order.idxOf b < order.idxOf x := by
  induction hb with
  | single hb => exact (h.hint x _ hb).2
  | tail _ hb ih => exact Nat.lt_trans (h.hint _ _ hb).2 ih

/-- The hints of a sound chain lead backward. -/
theorem Sound.backward (h : Sound c order held) : Backward c order := by
  obtain ⟨linked, -, hc⟩ := h.counted
  have hsize : 0 < c.size := h.laid.size_pos
  refine ⟨h.laid.nodup, h.laid.mem, fun x hx h₀ hr => ?_, h.laid.hint, fun x hx => ?_, fun x hx =>
    Nat.lt_irrefl _ (h.laid.hints_lt hx)⟩
  · refine Option.ne_none_iff_exists'.mp fun hn => ?_
    rcases (hc.unhinted x hx).mp hn with hm | hl
    · exact h₀ (List.mem_singleton.mp hm)
    · exact hr ((hc.retired x).mpr ⟨hx, hl⟩)
  · rcases hx with rfl | hx
    · exact (hc.unhinted header hsize).mpr (Or.inl List.mem_cons_self)
    · obtain ⟨hx, hl⟩ := (hc.retired x).mp hx
      exact (hc.unhinted x hx).mpr (Or.inr hl)

/-! ## The chronicle -/

/-- From `c` to `c'` a node was linked between `after` and its successor, and `order` became `order'`; or no node was
linked, and the order stayed as it was. -/
def Extends (c c' : Chain α) (order order' : List NodeId) : Prop :=
  (c'.size = c.size ∧ order' = order) ∨
    ∃ after f, c'.size = c.size + 1 ∧ c.pointers after = .node f ∧ c'.pointers after = .node c.size ∧
      c'.pointers c.size = .node f ∧ order' = insertBehind after c.size order

/-- The history of the chains `chain 0`, `chain 1` and so on: first there are the sentinels, and each node that is linked
takes the place in the order that it takes in the chain. Hints lead backward in it at all times. -/
structure Chronicle (chain : Nat → Chain α) (order : Nat → List NodeId) : Prop where
  start : order 0 = [header, trailer]
  grows : ∀ n, Extends (chain n) (chain (n + 1)) (order n) (order (n + 1))
  backward : ∀ n, Backward (chain n) (order n)

/-- A new node stands between the node that it was put behind and its successor. -/
theorem extends_insert {c' : Chain α} {after f : NodeId} (hf : c.pointers after = .node f)
    (hsize : c'.size = c.size + 1)
    (hq : c'.pointers = update (update c.pointers c.size (.node f)) after (.node c.size)) :
    Extends c c' order (insertBehind after c.size order) := by
  have hne : c.size ≠ after := Nat.ne_of_gt (lt_size_of_next hf)
  refine Or.inr ⟨after, f, hsize, hf, ?_, ?_, rfl⟩
  · rw [hq, Function.update_self]
  · rw [hq, Function.update_of_ne hne, Function.update_self]

namespace Session

open Interleave (Machine)

variable {κ ν : Type} [ToString κ] [ToString ν]

/-- **The tombstones of a session are its chronicle**, whatever interrupts what. -/
theorem chronicle (p : Policy) (script : Interleave.Script (Request κ ν)) :
    Chronicle (fun n => (moment p script n).state.chain) fun n => (tombstones p script n).order := by
  have hsound (n : Nat) := (kept_moment p script n).sound
  have hlength (n : Nat) : (tombstones p script n).order.length = (moment p script n).state.chain.size :=
    (hsound n).laid.ranked.length
  refine ⟨rfl, fun n => ?_, fun n => (hsound n).backward⟩
  have hfollows := (kept_moment p script n).step.2
  obtain ⟨xs, hr⟩ := rewires_moment p script n
  -- what is left of the step is told by the number of nodes
  have hsame (ho : (tombstones p script (n + 1)).order = (tombstones p script n).order) :
      Extends (moment p script n).state.chain (moment p script (n + 1)).state.chain (tombstones p script n).order
        (tombstones p script (n + 1)).order := by
    refine Or.inl ⟨?_, ho⟩
    rw [← hlength, ← hlength, ho]
  cases hm : (moment p script n).move with
  | rest => exact hsame (by rw [tombstones, hm])
  | start r => exact hsame (by rw [tombstones, hm])
  | resume stage =>
    have ht : tombstones p script (n + 1) = inscribe (tombstones p script n) (moment p script n).state stage := by
      rw [tombstones, hm]
    rw [hm] at hr
    simp only [hm] at hfollows
    rw [← ht] at hfollows
    cases stage with
    | cutting cut =>
      rcases hfollows with ⟨-, -, -, ht'⟩ | ⟨-, -, ht'⟩
      · exact hsame (by rw [ht']; rfl)
      · exact hsame (by rw [ht'])
    | inserting after e =>
      rcases hfollows with ⟨-, -, -, ht', -, hnew, -⟩ | ⟨-, -, ht'⟩
      · have ho : (tombstones p script (n + 1)).order =
            insertBehind after (moment p script n).state.chain.size (tombstones p script n).order := by rw [ht']; rfl
        obtain ⟨-, ⟨hsize, -⟩ | ⟨f, hf, hsize, hq⟩⟩ := hr
        · obtain ⟨-, -, hs, -⟩ := Machine.step_resume system hm
          rw [← hs] at hnew
          exact absurd (lt_size_of_carried hnew) (Nat.not_lt_of_le (Nat.le_of_eq hsize))
        · rw [ho]
          exact extends_insert hf hsize hq
      · exact hsame (by rw [ht'])

end Session
end LeastRecent.Chain
