import LeastRecent.Proofs.Chain.Walks

/-!
# The spine of a chain, and what each link stands for

The spine is the nodes that the header leads to, through pointers and markers: the nodes that are still linked
(`Sound.mem_spine`, `mem_spine_iff`). From each of them a `Path` leads to the trailer.

`Accounted` tells for each node why it has the links that it has: one for being on the spine, one for its owner, one for
each hint at it, of a node or of one that is about to be linked. Every sound chain is accounted for
(`Sound.accounted`).
-/

namespace LeastRecent.Chain

variable {α : Type} {c c' : Chain α} {order linked held xs : List NodeId} {x y f : NodeId}

/-- The nodes from `x` on, through pointers and markers; there are no more than the first argument says. -/
def trail (c : Chain α) : Nat → NodeId → List NodeId
  | 0, _ => []
  | fuel + 1, x =>
    match (c.node x).next.node? with
    | none => [x]
    | some f => x :: c.trail fuel f

/-- The nodes that are linked, deleted or not, from the header on. -/
def spine (c : Chain α) : List NodeId := c.trail c.size header

/-- Pointers and markers lead from the header to a node. -/
inductive Reachable (c : Chain α) : NodeId → Prop
  | header : Reachable c header
  | next {x f : NodeId} (h : Reachable c x) (hf : (c.node x).next.node? = some f) : Reachable c f

/-! ## Paths to the trailer -/

/-- From `x` pointers and markers lead to the trailer, along the nodes `xs`, of which `x` is the first. -/
inductive Path (c : Chain α) : NodeId → List NodeId → Prop
  | stop : Path c trailer []
  | step {x f : NodeId} {xs : List NodeId} (hx : x ≠ trailer) (hn : (c.node x).next.node? = some f)
    (h : Path c f xs) : Path c x (x :: xs)

/-- Only the pointers of the nodes passed matter. -/
theorem Path.congr (h : Path c x xs) (hn : ∀ y ∈ xs, (c'.node y).next = (c.node y).next) : Path c' x xs := by
  induction h with
  | stop => exact .stop
  | step hx hf h ih =>
    refine .step hx ?_ (ih fun y hy => hn y (List.mem_cons_of_mem _ hy))
    rw [hn _ List.mem_cons_self]
    exact hf

/-- A path is what a trail passes, which then ends at the trailer. -/
theorem Path.trail_eq (h : Path c x xs) (ht : (c.node trailer).next = .nothing) :
    ∀ fuel, xs.length < fuel → c.trail fuel x = xs ++ [trailer] := by
  induction h with
  | stop =>
    intro fuel hb
    obtain ⟨n, rfl⟩ := Nat.exists_eq_add_one_of_ne_zero (Nat.ne_of_gt hb)
    simp [trail, ht, Next.node?]
  | step hx hf h ih =>
    intro fuel hb
    obtain ⟨n, rfl⟩ := Nat.exists_eq_add_one_of_ne_zero (Nat.ne_of_gt (Nat.lt_of_le_of_lt (Nat.zero_le _) hb))
    rw [List.length_cons] at hb
    simp only [trail, hf, List.cons_append]
    rw [ih n (by omega)]

/-- From a linked node a path leads along the linked nodes behind it. -/
theorem Laid.path (h : Laid c order) (j : Joined c order linked) : ∀ (n : Nat) (x : NodeId), x ∈ linked →
    c.size ≤ n + order.idxOf x → ∃ xs, Path c x xs ∧ xs.Nodup ∧ xs.length + order.idxOf x < c.size ∧
      ∀ z, z ∈ xs ↔ z ∈ linked ∧ order.idxOf x ≤ order.idxOf z ∧ z ≠ trailer
  | 0, x, hx, hb => by
    have := h.idxOf_lt (j.mem x hx)
    omega
  | n + 1, x, hx, hb => by
    have hxm := j.mem x hx
    have hlt := h.idxOf_lt hxm
    by_cases ht : x = trailer
    · refine ⟨[], ht ▸ .stop, List.nodup_nil, by rw [List.length_nil]; omega, fun z => ?_⟩
      refine ⟨fun hz => (by cases hz), fun ⟨hz, h₁, h₂⟩ => ?_⟩
      have := h.idxOf_lt_trailer (j.mem z hz) h₂
      rw [ht] at h₁
      omega
    · obtain ⟨f, -, hn, hxf, -⟩ := h.next x hxm ht
      obtain ⟨hf, hmin⟩ := j.next x hx f hn
      obtain ⟨xs, hp, hnd, hlen, hxs⟩ := Laid.path h j n f hf (by omega)
      refine ⟨x :: xs, .step ht hn hp, List.nodup_cons.mpr ⟨fun hm => ?_, hnd⟩, ?_, fun z => ?_⟩
      · have := ((hxs x).mp hm).2.1
        omega
      · rw [List.length_cons]
        omega
      · rw [List.mem_cons, hxs]
        constructor
        · rintro (rfl | ⟨hz, h₁, h₂⟩)
          · exact ⟨hx, Nat.le_refl _, ht⟩
          · exact ⟨hz, by omega, h₂⟩
        · rintro ⟨hz, h₁, h₂⟩
          rcases Nat.lt_or_eq_of_le h₁ with h₃ | h₃
          · exact Or.inr ⟨hz, hmin z hz h₃, h₂⟩
          · exact Or.inl ((List.idxOf_inj (j.mem z hz)).mp h₃.symm)

/-! ## The spine -/

theorem Joined.header_mem (j : Joined c order linked) (h : Laid c order) : header ∈ linked :=
  j.live _ h.header_mem h.start

theorem Joined.trailer_mem (j : Joined c order linked) (h : Laid c order) : trailer ∈ linked :=
  j.live _ h.trailer_mem h.trailer_live

/-- The spine goes along the linked nodes, each once. -/
theorem Laid.spine (h : Laid c order) (j : Joined c order linked) :
    ∃ xs, Path c header xs ∧ xs.length < c.size ∧ c.spine = xs ++ [trailer] ∧ c.spine.Perm linked := by
  obtain ⟨xs, hp, hnd, hlen, hxs⟩ := h.path j c.size header (j.header_mem h) (Nat.le_add_right _ _)
  have hspine : c.spine = xs ++ [trailer] := hp.trail_eq h.stop c.size (by omega)
  refine ⟨xs, hp, by omega, hspine, ?_⟩
  rw [hspine]
  refine (List.perm_ext_iff_of_nodup (List.nodup_append.mpr ⟨hnd, List.pairwise_singleton _ _, ?_⟩) j.nodup).mpr fun z => ?_
  · intro z hz y hy he
    rw [List.mem_singleton.mp hy] at he
    exact ((hxs z).mp hz).2.2 he
  · rw [List.mem_append, hxs, List.mem_singleton, h.idxOf_header]
    constructor
    · rintro (⟨hz, -⟩ | rfl)
      · exact hz
      · exact j.trailer_mem h
    · intro hz
      by_cases ht : z = trailer
      · exact Or.inr ht
      · exact Or.inl ⟨hz, Nat.zero_le _, ht⟩

theorem Joined.mem_spine (j : Joined c order linked) (h : Laid c order) : x ∈ c.spine ↔ x ∈ linked := by
  obtain ⟨xs, -, -, -, hp⟩ := h.spine j
  exact hp.mem_iff

/-- A trail leads to reachable nodes only. -/
theorem reachable_of_mem_trail : ∀ (fuel : Nat) {x : NodeId}, Reachable c x → y ∈ c.trail fuel x → Reachable c y
  | 0, _, _, hy => by cases hy
  | fuel + 1, x, hx, hy => by
    unfold trail at hy
    split at hy
    · rw [List.mem_singleton.mp hy]
      exact hx
    · next f hf =>
      rcases List.mem_cons.mp hy with rfl | hy
      · exact hx
      · exact reachable_of_mem_trail fuel (hx.next hf) hy

namespace Sound

theorem mem_spine_iff (h : Sound c order held) : x ∈ c.spine ↔ Reachable c x := by
  refine ⟨reachable_of_mem_trail c.size .header, fun hx => ?_⟩
  obtain ⟨linked, j, -⟩ := h.counted
  rw [j.mem_spine h.laid]
  induction hx with
  | header => exact j.header_mem h.laid
  | next _ hf ih => exact (j.next _ ih _ hf).1

/-- Live nodes are linked. -/
theorem isDeleted_of_not_reachable (h : Sound c order held) (hx : x < c.size) (hr : ¬ Reachable c x) :
    c.isDeleted x = true := by
  obtain ⟨linked, j, -⟩ := h.counted
  cases hd : c.isDeleted x with
  | true => rfl
  | false =>
    have hm : x ∈ c.spine := (j.mem_spine h.laid).mpr (j.live x ((h.laid.mem x).mpr hx) hd)
    exact absurd (h.mem_spine_iff.mp hm) hr

end Sound

/-! ## Links and what they stand for -/

/-- The nodes that were not retired and whose hint is at `x`. -/
def pointing (c : Chain α) (x : NodeId) : List NodeId :=
  (List.range c.size).filter fun n => !decide (n ∈ c.retired) && decide ((c.node n).prev = some x)

/-- Each link of each node is accounted for. The nodes in `owners` have one for their owner, and a node has one for each
time that it occurs in `anchors`: for the hint of a new node that is not linked yet. The nodes without links are those
that were retired. -/
structure Accounted (c : Chain α) (owners anchors : List NodeId) : Prop where
  reachable : ∀ x, x ∈ c.spine ↔ Reachable c x
  links : ∀ x < c.size, (c.node x).links = (if x ∈ c.spine then 1 else 0) + (if x ∈ owners then 1 else 0) +
    (c.pointing x).length + anchors.count x
  sentinels : ∀ x, x = header ∨ x = trailer →
    x < c.size ∧ (c.node x).links = 1 + (c.pointing x).length + anchors.count x
  retired : ∀ x, x ∈ c.retired ↔ x < c.size ∧ (c.node x).links = 0
  clean : c.fault = none

/-- The hints at a node are those of nodes that were not retired. -/
theorem Counted.length_pointing {bare tokens : List NodeId} (h : Counted bare c tokens) (x : NodeId) :
    (c.pointing x).length = c.hints.count (some x) := by
  rw [hints, List.count_eq_countP, List.countP_map, List.countP_eq_length_filter, pointing]
  refine congrArg List.length (List.filter_congr fun n hn => ?_)
  show (!decide (n ∈ c.retired) && decide ((c.node n).prev = some x)) = ((c.node n).prev == some x)
  by_cases hr : n ∈ c.retired
  · obtain ⟨hlt, h₀⟩ := (h.retired n).mp hr
    rw [(h.unhinted n hlt).mpr (Or.inr h₀)]
    simp
  · rw [decide_eq_false hr, Bool.not_false, Bool.true_and]
    exact (Bool.beq_eq_decide_eq _ _).symm

/-- A sound chain is accounted for, if nobody owns a sentinel or a node twice. -/
theorem Sound.accounted {owners anchors : List NodeId} (h : Sound c order held) (hp : held.Perm (owners ++ anchors))
    (hn : owners.Nodup) (hs : ∀ x ∈ owners, c.isSentinel x = false) : Accounted c owners anchors := by
  obtain ⟨linked, j, hc⟩ := h.counted
  have hlinks (x : NodeId) (hx : x < c.size) : (c.node x).links = (if x ∈ c.spine then 1 else 0) +
      (if x ∈ owners then 1 else 0) + (c.pointing x).length + anchors.count x := by
    rw [hc.links x hx, hc.length_pointing, List.count_append, hp.count_eq, List.count_append, j.nodup.count, hn.count]
    simp only [j.mem_spine h.laid]
    omega
  refine ⟨fun x => h.mem_spine_iff, hlinks, fun x hx => ?_, hc.retired, hc.clean⟩
  have hlinked : x ∈ c.spine := by
    rw [j.mem_spine h.laid]
    rcases hx with rfl | rfl
    · exact j.header_mem h.laid
    · exact j.trailer_mem h.laid
  have hm := j.mem x ((j.mem_spine h.laid).mp hlinked)
  have hlt : x < c.size := (h.laid.mem x).mp hm
  have howned : x ∉ owners := fun ho => by
    have := hs x ho
    rw [(h.laid.isSentinel_iff hm).mpr hx] at this
    cases this
  refine ⟨hlt, ?_⟩
  rw [hlinks x hlt, if_pos hlinked, if_neg howned]

end LeastRecent.Chain
