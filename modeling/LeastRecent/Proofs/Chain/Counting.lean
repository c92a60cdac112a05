import LeastRecent.Proofs.Chain.Layout

/-!
# Links are counted exactly

`Counted bare c tokens`: the link count of each node is the number of its tokens and of the hints at it, the nodes
without links are those in limbo, and no rule was broken. A token is a reason to keep a node that is not a hint: the
chain has one on each linked node, an owner on what it owns, a suspended insertion on the node before it. The nodes in
`bare` have no hint although they have links: the header, and once the chain was taken apart the trailer as well.

An operation that takes or gives back links changes the tokens alike (`Counted.acquire`, `Counted.release`); a hint that
is moved turns one token into another (`Counted.moveHint`). Hints point backward, so a run of retirements ends within
the bound that `release` has.
-/

namespace LeastRecent.Chain

variable {α : Type} {c c' : Chain α} {order bare tokens tokens' : List NodeId} {x y f : NodeId}

/-- Each node has as many links as tokens and hints. -/
structure Counted (bare : List NodeId) (c : Chain α) (tokens : List NodeId) : Prop where
  links : ∀ x < c.size, (c.node x).links = tokens.count x + c.hints.count (some x)
  lt : ∀ x ∈ tokens, x < c.size
  retired : ∀ x, x ∈ c.retired ↔ x < c.size ∧ (c.node x).links = 0
  nodup : c.retired.Nodup
  clean : c.fault = none
  unhinted : ∀ x < c.size, (c.node x).prev = none ↔ x ∈ bare ∨ (c.node x).links = 0

namespace Counted

/-- The order of the tokens does not matter. -/
theorem perm (h : Counted bare c tokens) (hp : tokens.Perm tokens') : Counted bare c tokens' where
  links x hx := by rw [← hp.count_eq]; exact h.links x hx
  lt x hx := h.lt x (hp.mem_iff.mpr hx)
  retired := h.retired
  nodup := h.nodup
  clean := h.clean
  unhinted := h.unhinted

theorem links_ne_zero (h : Counted bare c tokens) (hx : x ∈ tokens) : (c.node x).links ≠ 0 := by
  have := List.count_pos_iff.mpr hx
  rw [h.links x (h.lt x hx)]
  omega

/-- Links are taken or given back, but neither the first nor the last one of a node, and no hint is moved. -/
theorem of_hints_same (h : Counted bare c tokens) (hs : c'.size = c.size)
    (hp : ∀ y, (c'.node y).prev = (c.node y).prev) (hr : c'.retired = c.retired) (hf : c'.fault = c.fault)
    (hl : ∀ y < c.size, (c'.node y).links + tokens.count y = (c.node y).links + tokens'.count y)
    (hz : ∀ y < c.size, (c'.node y).links = 0 ↔ (c.node y).links = 0) (hlt : ∀ y ∈ tokens', y < c.size) :
    Counted bare c' tokens' where
  links y hy := by
    rw [hs] at hy
    have h₁ := hl y hy
    have h₂ := h.links y hy
    rw [hints_congr hs hp]
    omega
  lt y hy := by rw [hs]; exact hlt y hy
  retired y := by
    rw [hr, hs, h.retired]
    exact and_congr_right fun hy => (hz y hy).symm
  nodup := by rw [hr]; exact h.nodup
  clean := by rw [hf]; exact h.clean
  unhinted y hy := by
    rw [hs] at hy
    rw [hp, hz y hy]
    exact h.unhinted y hy

/-- Neither links nor hints changed. -/
theorem of_links_same (h : Counted bare c tokens) (hs : c'.size = c.size) (hp : ∀ y, (c'.node y).prev = (c.node y).prev)
    (hl : ∀ y, (c'.node y).links = (c.node y).links) (hr : c'.retired = c.retired) (hf : c'.fault = c.fault) :
    Counted bare c' tokens :=
  h.of_hints_same hs hp hr hf (fun y _ => by rw [hl]) (fun y _ => by rw [hl]) h.lt

end Counted

/-! ## One more link -/

theorem acquire_eq_none (h : c.acquire x = none) : (c.node x).links = 0 := by
  unfold acquire at h
  split at h
  · assumption
  · cases h

/-- A link that is taken is a token. -/
theorem Counted.acquire (h : Counted bare c tokens) (hx : x < c.size) (hc : c.acquire x = some c') :
    Counted bare c' (x :: tokens) ∧ Steady c c' ∧ ∀ y, (c'.node y).prev = (c.node y).prev := by
  unfold Chain.acquire at hc
  split at hc
  · cases hc
  · next hl =>
    cases hc
    have hn (y : NodeId) := node_modify c x y (fun n => { n with links := n.links + 1 }) hx
    have hp (y : NodeId) : ((c.modify x fun n => { n with links := n.links + 1 }).node y).prev = (c.node y).prev :=
      frame_modify Node.prev x y fun _ => rfl
    refine ⟨h.of_hints_same (size_modify c x _) hp rfl rfl ?_ ?_ ?_, Steady.modify fun n => ⟨rfl, rfl, rfl⟩, hp⟩
    · intro y _
      rw [hn, List.count_cons]
      by_cases he : y = x
      · rw [if_pos he, he]
        simp only [beq_self_eq_true, if_true]
        omega
      · rw [if_neg he, if_neg (by simp [Ne.symm he])]
        omega
    · intro y _
      rw [hn]
      split
      · next he => rw [he]; exact ⟨fun h₀ => absurd h₀ (Nat.succ_ne_zero _), fun h₀ => absurd h₀ hl⟩
      · rfl
    · intro y hy
      rcases List.mem_cons.mp hy with rfl | hy
      · exact hx
      · exact h.lt y hy

/-! ## One link less -/

/-- Links were given back, and with them some hints. -/
structure Frees (c c' : Chain α) : Prop extends Steady c c' where
  hint : ∀ y b, (c'.node y).prev = some b → (c.node y).prev = some b

theorem Frees.refl (c : Chain α) : Frees c c := ⟨Steady.refl c, fun _ _ => id⟩

theorem Frees.trans {c'' : Chain α} (h : Frees c c') (h' : Frees c' c'') : Frees c c'' :=
  ⟨h.toSteady.trans h'.toSteady, fun y b hb => h.hint y b (h'.hint y b hb)⟩

theorem Ranked.frees (h : Ranked c order) (f : Frees c c') : Ranked c' order := h.of_hints f.size f.hint

theorem Laid.frees (h : Laid c order) (f : Frees c c') : Laid c' order :=
  h.steady f.toSteady fun x b hb => Or.inl (f.hint x b hb)

/-- The node `x` lost its last link. -/
def expire (c : Chain α) (x : NodeId) : Chain α := (c.modify x fun n => { n with links := 0, prev := none }).retire x

/-- A node that is not in limbo yet can be retired. -/
theorem retire_of_not_mem (h : x ∉ c.retired) :
    c.retire x = { c with limbo := { c.limbo with waiting := c.limbo.waiting ++ [x] } } := by
  have hr : c.limbo.retire x = .ok { c.limbo with waiting := c.limbo.waiting ++ [x] } := by
    unfold Limbo.retire
    rw [if_neg fun hw => h hw.2]
  rw [retire, hr]

/-- A hint is one token at most. -/
theorem count_toList (hint : Option NodeId) (y : NodeId) : hint.toList.count y = if hint = some y then 1 else 0 := by
  cases hint with
  | none => simp
  | some p => simp [List.count_cons]

section Expire

variable (h : Counted bare c (x :: tokens)) (h₁ : (c.node x).links = 1)
include h h₁

theorem Counted.expire_eq : c.expire x =
    { c.modify x fun n => { n with links := 0, prev := none } with
      limbo := { c.limbo with waiting := c.limbo.waiting ++ [x] } } := by
  have hx : x ∉ c.retired := fun hr => by have := ((h.retired x).mp hr).2; omega
  exact retire_of_not_mem (c := c.modify x fun n => { n with links := 0, prev := none }) hx

theorem Counted.node_expire (y : NodeId) :
    (c.expire x).node y = if y = x then { c.node x with links := 0, prev := none } else c.node y := by
  rw [h.expire_eq h₁]
  exact node_modify c x y _ (h.lt x List.mem_cons_self)

theorem Counted.frees_expire : Frees c (c.expire x) where
  toSteady := by
    have hs : Steady c (c.modify x fun n => { n with links := 0, prev := none }) := Steady.modify fun n => ⟨rfl, rfl, rfl⟩
    rw [h.expire_eq h₁]
    exact ⟨hs.size, hs.role, hs.next, hs.evicted⟩
  hint y b hb := by
    rw [h.node_expire h₁] at hb
    split at hb
    · cases hb
    · exact hb

/-- With its last link a node goes to limbo, and its hint becomes a token on the node before. -/
theorem Counted.expire (hl : Ranked c order) : Counted bare (c.expire x) ((c.node x).prev.toList ++ tokens) := by
  have hx : x < c.size := h.lt x List.mem_cons_self
  have hf := h.frees_expire h₁
  have hn (y : NodeId) := h.node_expire h₁ y
  have hcount := h.links x hx
  rw [h₁, List.count_cons_self] at hcount
  have hself : ((c.expire x).node x).prev = none := by rw [hn, if_pos rfl]
  have hother (y : NodeId) (hy : y ≠ x) : (c.expire x).node y = c.node y := by rw [hn, if_neg hy]
  have hhints (y : NodeId) : (c.expire x).hints.count (some y) + (c.node x).prev.toList.count y =
      c.hints.count (some y) := by
    have h₂ := count_hints hf.size hx (fun n hne => by rw [hother n hne]) (some y)
    simp only [hself, reduceCtorEq, if_false, Nat.add_zero] at h₂
    rw [← h₂, count_toList]
  have hretired : (c.expire x).retired = c.retired ++ [x] := by rw [h.expire_eq h₁]; rfl
  have hxr : x ∉ c.retired := fun hr => by have := ((h.retired x).mp hr).2; omega
  refine ⟨?_, ?_, ?_, ?_, ?_, ?_⟩
  · intro y hy
    rw [hf.size] at hy
    have h₂ := hhints y
    rw [List.count_append]
    by_cases hyx : y = x
    · rw [hyx] at h₂ ⊢
      rw [hn, if_pos rfl]
      show 0 = _
      omega
    · rw [hother y hyx, h.links y hy, List.count_cons_of_ne (Ne.symm hyx)]
      omega
  · intro y hy
    rw [hf.size]
    rcases List.mem_append.mp hy with hy | hy
    · exact (hl.mem y).mp (hl.hint x y (Option.mem_toList.mp hy)).1
    · exact h.lt y (List.mem_cons_of_mem _ hy)
  · intro y
    rw [hretired, hf.size, List.mem_append, List.mem_singleton, hn]
    by_cases hyx : y = x
    · rw [if_pos hyx]
      exact ⟨fun _ => ⟨by rw [hyx]; exact hx, rfl⟩, fun _ => Or.inr hyx⟩
    · rw [if_neg hyx, h.retired]
      exact ⟨fun hy => hy.resolve_right hyx, Or.inl⟩
  · rw [hretired, List.nodup_append]
    refine ⟨h.nodup, List.nodup_cons.mpr ⟨List.not_mem_nil, List.nodup_nil⟩, fun y hy z hz he => hxr ?_⟩
    rw [List.mem_singleton] at hz
    rw [← hz, ← he]
    exact hy
  · rw [h.expire_eq h₁]; exact h.clean
  · intro y hy
    rw [hf.size] at hy
    rw [hn]
    split
    · exact ⟨fun _ => Or.inr rfl, fun _ => rfl⟩
    · exact h.unhinted y hy

end Expire

/-- Within its bound a release gives back one link and all that depends on it. -/
theorem Counted.releaseWithin : ∀ (fuel : Nat) {c : Chain α} {tokens : List NodeId} (x : Option NodeId),
    Ranked c order → Counted bare c (x.toList ++ tokens) → (∀ y, x = some y → order.idxOf y < fuel) →
    Counted bare (c.releaseWithin fuel x) tokens ∧ Frees c (c.releaseWithin fuel x)
  | 0, c, _, none, _, h, _ => ⟨h, Frees.refl c⟩
  | 0, _, _, some x, _, _, hb => absurd (hb x rfl) (Nat.not_lt_zero _)
  | _ + 1, c, _, none, _, h, _ => ⟨h, Frees.refl c⟩
  | fuel + 1, c, tokens, some x, hl, h, hb => by
    have hx : x < c.size := h.lt x List.mem_cons_self
    have hne := h.links_ne_zero List.mem_cons_self
    unfold Chain.releaseWithin
    split
    · next h₀ => exact absurd h₀ hne
    · next h₁ =>
      have hf := h.frees_expire h₁
      -- hints lead backward, so positions fall along the cascade
      obtain ⟨hc, hf'⟩ := Counted.releaseWithin fuel (c.node x).prev (hl.frees hf) (h.expire h₁ hl)
        fun p hp => by
          have := (hl.hint x p hp).2
          have := hb x rfl
          omega
      exact ⟨hc, hf.trans hf'⟩
    · next k hk =>
      have hn (y : NodeId) := node_modify c x y (fun n => { n with links := k + 1 }) hx
      have hp (y : NodeId) : ((c.modify x fun n => { n with links := k + 1 }).node y).prev = (c.node y).prev :=
        frame_modify Node.prev x y fun _ => rfl
      refine ⟨h.of_hints_same (size_modify c x _) hp rfl rfl ?_ ?_ fun y hy =>
        h.lt y (List.mem_cons_of_mem _ hy), Steady.modify fun n => ⟨rfl, rfl, rfl⟩, ?_⟩
      · intro y _
        rw [hn]
        show _ + List.count y (x :: tokens) = _
        by_cases he : y = x
        · rw [if_pos he, he, List.count_cons_self, hk]
          show k + 1 + _ = _
          omega
        · rw [if_neg he, List.count_cons_of_ne (Ne.symm he)]
      · intro y _
        rw [hn]
        split
        · next he =>
          rw [he, hk]
          exact ⟨fun h₀ => absurd h₀ (Nat.succ_ne_zero _), fun h₀ => absurd h₀ (Nat.succ_ne_zero _)⟩
        · rfl
      · intro y b hy
        rw [← hp]; exact hy

/-- A link that is given back is a token less. -/
theorem Counted.release? (hl : Ranked c order) {x : Option NodeId} (h : Counted bare c (x.toList ++ tokens)) :
    Counted bare (c.release? x) tokens ∧ Frees c (c.release? x) :=
  h.releaseWithin _ x hl fun y hy => by
    subst hy
    have hy : y ∈ order := (hl.mem y).mpr (h.lt y List.mem_cons_self)
    have := hl.idxOf_lt hy
    omega

theorem Counted.release (hl : Ranked c order) (h : Counted bare c (x :: tokens)) :
    Counted bare (c.release x) tokens ∧ Frees c (c.release x) :=
  Counted.release? hl (x := some x) h

theorem Counted.releaseAll : ∀ {c : Chain α} (xs : List NodeId), Ranked c order → Counted bare c (xs ++ tokens) →
    Counted bare (c.releaseAll xs) tokens ∧ Frees c (c.releaseAll xs)
  | c, [], _, h => ⟨h, Frees.refl c⟩
  | c, x :: xs, hl, h => by
    obtain ⟨h₁, f₁⟩ := Counted.release hl h
    obtain ⟨h₂, f₂⟩ := Counted.releaseAll xs (hl.frees f₁) h₁
    exact ⟨h₂, f₁.trans f₂⟩

/-! ## Hints -/

/-- A hint that is moved to `p` takes over a token of `p`; its old target gets one. -/
theorem Counted.moveHint {p : NodeId} (h : Counted [header] c (p :: tokens)) (hl : Laid c order) (hx : x ∈ order)
    (h₀ : x ≠ header) (hne : (c.node x).links ≠ 0) :
    Counted [header] (c.modify x fun n => { n with prev := some p }) ((c.node x).prev.toList ++ tokens) := by
  have hxs := (hl.mem x).mp hx
  have hn (y : NodeId) := node_modify c x y (fun n => { n with prev := some p }) hxs
  have hlinks (y : NodeId) : ((c.modify x fun n => { n with prev := some p }).node y).links = (c.node y).links :=
    frame_modify Node.links x y fun _ => rfl
  have hself : ((c.modify x fun n => { n with prev := some p }).node x).prev = some p := by rw [hn, if_pos rfl]
  refine ⟨?_, ?_, ?_, h.nodup, h.clean, ?_⟩
  · intro y hy
    rw [size_modify] at hy
    have h₂ := count_hints (size_modify c x _) hxs (fun n hne => by rw [hn, if_neg hne]) (some y)
    have h₃ := h.links y hy
    simp only [hself, Option.some.injEq] at h₂
    rw [List.count_cons] at h₃
    simp only [beq_iff_eq] at h₃
    rw [hlinks, List.count_append, count_toList]
    omega
  · intro y hy
    rw [size_modify]
    rcases List.mem_append.mp hy with hy | hy
    · exact (hl.mem y).mp (hl.hint x y (Option.mem_toList.mp hy)).1
    · exact h.lt y (List.mem_cons_of_mem _ hy)
  · intro y
    rw [size_modify, hlinks]; exact h.retired y
  · intro y hy
    rw [size_modify] at hy
    rw [hlinks, hn]
    by_cases he : y = x
    · rw [if_pos he, he]
      exact ⟨fun hc => (by cases hc), fun hc => absurd hc (not_or.mpr ⟨fun hm => h₀ (List.mem_singleton.mp hm), hne⟩)⟩
    · rw [if_neg he]
      exact h.unhinted y hy

/-- A hint may be set to an earlier node. -/
theorem Counted.setHint {p : NodeId} (h : Counted [header] c tokens) (hl : Laid c order) (hx : x ∈ order) (hp : p ∈ order)
    (hlt : order.idxOf p < order.idxOf x) :
    Counted [header] (c.setHint x p) tokens ∧ Laid (c.setHint x p) order ∧ Steady c (c.setHint x p) := by
  have hxs := (hl.mem x).mp hx
  have hps := (hl.mem p).mp hp
  have h₀ : x ≠ header := hl.ne_header hlt
  unfold Chain.setHint
  cases h₁ : c.acquire x with
  | none => exact ⟨h, hl, Steady.refl c⟩
  | some c₁ =>
    obtain ⟨hc₁, s₁, p₁⟩ := h.acquire hxs h₁
    have hl₁ : Laid c₁ order := hl.steady s₁ fun y b hb => Or.inl (by rw [← p₁]; exact hb)
    dsimp only
    cases h₂ : c₁.acquire p with
    | none =>
      obtain ⟨hc₂, f₂⟩ := Counted.release hl₁.ranked hc₁
      exact ⟨hc₂, hl₁.frees f₂, s₁.trans f₂.toSteady⟩
    | some c₂ =>
      obtain ⟨hc₂, s₂, p₂⟩ := hc₁.acquire (by rw [s₁.size]; exact hps) h₂
      have hl₂ : Laid c₂ order := hl₁.steady s₂ fun y b hb => Or.inl (by rw [← p₂]; exact hb)
      have hne : (c₂.node x).links ≠ 0 := hc₂.links_ne_zero (List.mem_cons_of_mem _ List.mem_cons_self)
      have hx₂ : x < c₂.size := (hl₂.mem x).mp hx
      have s₃ : Steady c₂ (c₂.modify x fun n => { n with prev := some p }) := Steady.modify fun n => ⟨rfl, rfl, rfl⟩
      have hc₃ := hc₂.moveHint hl₂ hx h₀ hne
      have hl₃ : Laid (c₂.modify x fun n => { n with prev := some p }) order := by
        refine hl₂.steady s₃ fun y b hb => ?_
        rw [node_modify c₂ x y _ hx₂] at hb
        split at hb
        · next he =>
          cases hb
          exact Or.inr ⟨hp, by rw [he]; exact hlt⟩
        · exact Or.inl hb
      obtain ⟨hc₄, f₄⟩ := Counted.release? hl₃.ranked hc₃
      have hl₄ := hl₃.frees f₄
      obtain ⟨hc₅, f₅⟩ := Counted.release hl₄.ranked hc₄
      exact ⟨hc₅, hl₄.frees f₅, (s₁.trans s₂).trans (s₃.trans (f₄.toSteady.trans f₅.toSteady))⟩

/-! ## A new node -/

section Link

variable {after : NodeId} {a : α} (ha : after < c.size)
include ha

theorem node_link_size : (c.link after f a).node c.size = ⟨.carrier a, .node f, some after, 2, false⟩ := by
  rw [node_link ha, if_pos rfl]

/-- The other nodes keep their links and hints. -/
theorem counts_link (hy : y < c.size) :
    ((c.link after f a).node y).links = (c.node y).links ∧ ((c.link after f a).node y).prev = (c.node y).prev := by
  rw [node_link ha, if_neg (Nat.ne_of_lt hy)]
  split
  · next he => rw [he]; exact ⟨rfl, rfl⟩
  · exact ⟨rfl, rfl⟩

/-- There is one hint more. -/
theorem hints_link : (c.link after f a).hints = c.hints ++ [some after] := by
  unfold hints
  rw [size_link, List.range_succ, List.map_append, List.map_singleton, node_link_size ha]
  congr 1
  apply List.map_congr_left
  intro n hm
  exact (counts_link ha (List.mem_range.mp hm)).2

theorem count_hints_link (y : NodeId) :
    (c.link after f a).hints.count (some y) = c.hints.count (some y) + if after = y then 1 else 0 := by
  rw [hints_link ha, List.count_append]
  simp [List.count_cons]

end Link

/-- A new node comes with two tokens, and its hint takes over one of the node before it. -/
theorem Counted.link {after : NodeId} {a : α} (h : Counted [header] c (after :: tokens)) (hl : Laid c order)
    (hn : (c.node after).next = .node f) :
    Counted [header] (c.link after f a) (c.size :: c.size :: tokens) := by
  have ha := lt_size_of_next hn
  have hnew := node_link_size (f := f) (a := a) ha
  have hlt (y : NodeId) (hy : y ∈ tokens) : y < c.size := h.lt y (List.mem_cons_of_mem _ hy)
  have hold (y : NodeId) (hy : y < c.size + 1) (hys : y ≠ c.size) : y < c.size :=
    Nat.lt_of_le_of_ne (Nat.le_of_lt_succ hy) hys
  -- nothing points at the new node yet
  have htoken : tokens.count c.size = 0 :=
    List.count_eq_zero.mpr fun hm => Nat.lt_irrefl _ (hlt _ hm)
  have hhint : c.hints.count (some c.size) = 0 := by
    refine List.count_eq_zero.mpr fun hm => ?_
    obtain ⟨n, -, hn⟩ := List.mem_map.mp hm
    exact hl.size_not_mem (hl.hint n c.size hn).1
  refine ⟨?_, ?_, ?_, h.nodup, h.clean, ?_⟩
  · intro y hy
    rw [count_hints_link ha]
    by_cases hys : y = c.size
    · rw [hys, hnew, List.count_cons_self, List.count_cons_self, htoken, hhint, if_neg (Nat.ne_of_lt ha)]
    · rw [size_link] at hy
      have hy' := hold y hy hys
      have h₂ := h.links y hy'
      rw [List.count_cons] at h₂
      simp only [beq_iff_eq] at h₂
      rw [(counts_link ha hy').1, List.count_cons_of_ne (Ne.symm hys), List.count_cons_of_ne (Ne.symm hys)]
      omega
  · intro y hy
    rw [size_link]
    rcases List.mem_cons.mp hy with rfl | hy
    · exact Nat.lt_succ_self _
    · rcases List.mem_cons.mp hy with rfl | hy
      · exact Nat.lt_succ_self _
      · exact Nat.lt_succ_of_lt (hlt y hy)
  · intro y
    show y ∈ c.retired ↔ _
    rw [h.retired, size_link]
    constructor
    · rintro ⟨hy, h₀⟩
      exact ⟨Nat.lt_succ_of_lt hy, by rw [(counts_link ha hy).1]; exact h₀⟩
    · rintro ⟨hy, h₀⟩
      by_cases hys : y = c.size
      · rw [hys, hnew] at h₀
        cases h₀
      · have hy' := hold y hy hys
        exact ⟨hy', by rw [← (counts_link ha hy').1]; exact h₀⟩
  · intro y hy
    rw [size_link] at hy
    by_cases hys : y = c.size
    · rw [hys, hnew]
      have h₀ : c.size ≠ header := fun he => hl.size_not_mem (by rw [he]; exact hl.header_mem)
      refine ⟨fun hc => (by cases hc), fun hc => ?_⟩
      rcases hc with hc | hc
      · exact absurd (List.mem_singleton.mp hc) h₀
      · cases hc
    · have hy' := hold y hy hys
      rw [(counts_link ha hy').1, (counts_link ha hy').2]
      exact h.unhinted y hy'

end LeastRecent.Chain
