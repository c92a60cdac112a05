import LeastRecent.Proofs.Chain.Sound

/-!
# Where walks lead

`IsNext` and `IsPrev` say what the neighbours of a node are among the nodes that are not deleted. The successor of any
node is its next one (`Sound.successor`). A predecessor that is found is the previous one, and for a node that is not
deleted one is found (`Sound.predecessor`): the hints followed lead strictly backward, so that a live node before the
target is met, from which a search forward cannot miss it. Hence a walk lists the live entries behind a node
(`Sound.walk`), and a walk back those before it (`Sound.walkBack`).

No walk adds, deletes or marks a node; a chain stays sound.
-/

namespace LeastRecent.Chain

variable {α : Type} {c c' : Chain α} {order linked held : List NodeId} {x y f p target : NodeId}

/-- `f` is the first node behind `x` that is not deleted. -/
structure IsNext (c : Chain α) (order : List NodeId) (x f : NodeId) : Prop where
  mem : f ∈ order
  live : c.isDeleted f = false
  lt : order.idxOf x < order.idxOf f
  between : DeadBetween c order x f

/-- `p` is the last node before `x` that is not deleted. -/
structure IsPrev (c : Chain α) (order : List NodeId) (p x : NodeId) : Prop where
  mem : p ∈ order
  live : c.isDeleted p = false
  lt : order.idxOf p < order.idxOf x
  between : DeadBetween c order p x

theorem IsNext.alike (h : IsNext c order x f) (a : Alike c' c) : IsNext c' order x f :=
  ⟨h.mem, by rw [← a.deleted]; exact h.live, h.lt, fun y hy h₁ h₂ => by rw [← a.deleted]; exact h.between y hy h₁ h₂⟩

theorem IsPrev.alike (h : IsPrev c order p x) (a : Alike c' c) : IsPrev c' order p x :=
  ⟨h.mem, by rw [← a.deleted]; exact h.live, h.lt, fun y hy h₁ h₂ => by rw [← a.deleted]; exact h.between y hy h₁ h₂⟩

/-! ## Forward -/

/-- Skimming from `y` on ends at the first node that is not deleted; if `y` is linked, the nodes passed are the linked
ones. -/
theorem Laid.skim (h : Laid c order) : ∀ (fuel : Nat) (y : NodeId), y ∈ order → c.size ≤ fuel + order.idxOf y →
    ∃ dead f, c.skim fuel (some y) = (dead, some f) ∧ f ∈ order ∧ c.isDeleted f = false ∧
      order.idxOf y ≤ order.idxOf f ∧
      (∀ z ∈ order, order.idxOf y ≤ order.idxOf z → order.idxOf z < order.idxOf f → c.isDeleted z = true) ∧
      ∀ linked, Joined c order linked → y ∈ linked → f ∈ linked ∧ dead.Nodup ∧
        ∀ z, z ∈ dead ↔ z ∈ linked ∧ order.idxOf y ≤ order.idxOf z ∧ order.idxOf z < order.idxOf f
  | 0, y, hy, hb => by
    have := h.idxOf_lt hy
    omega
  | fuel + 1, y, hy, hb => by
    cases hd : c.isDeleted y with
    | false =>
      refine ⟨[], y, by simp [Chain.skim, hd], hy, hd, Nat.le_refl _, fun z _ h₁ h₂ => by omega,
        fun linked _ hyl => ⟨hyl, List.nodup_nil, fun z => ⟨fun hz => (by cases hz), fun ⟨_, h₁, h₂⟩ => by omega⟩⟩⟩
    | true =>
      have ht : y ≠ trailer := by
        rintro rfl
        rw [h.trailer_live] at hd
        cases hd
      obtain ⟨g, hg, hgn, hlt, hgd⟩ := h.next y hy ht
      obtain ⟨dead, f, hs, hf, hfl, hgf, hbetween, hlinked⟩ := Laid.skim h fuel g hg (by omega)
      refine ⟨y :: dead, f, by simp [Chain.skim, hd, hgn, hs], hf, hfl, by omega, ?_,
        ?_⟩
      · intro z hz h₁ h₂
        rcases Nat.lt_trichotomy (order.idxOf z) (order.idxOf g) with h₃ | h₃ | h₃
        · rcases Nat.lt_or_eq_of_le h₁ with h₄ | h₄
          · exact hgd z hz h₄ h₃
          · rw [(List.idxOf_inj hz).mp h₄.symm]; exact hd
        · exact hbetween z hz (by omega) h₂
        · exact hbetween z hz (by omega) h₂
      · intro linked j hyl
        obtain ⟨hgl, hgmin⟩ := j.next y hyl g hgn
        obtain ⟨hfl', hnd, hmem⟩ := hlinked linked j hgl
        refine ⟨hfl', List.nodup_cons.mpr ⟨?_, hnd⟩, ?_⟩
        · intro hyd
          have := ((hmem y).mp hyd).2.1
          omega
        · intro z
          rw [List.mem_cons, hmem]
          constructor
          · rintro (rfl | ⟨hz, h₁, h₂⟩)
            · exact ⟨hyl, Nat.le_refl _, by omega⟩
            · exact ⟨hz, by omega, h₂⟩
          · rintro ⟨hz, h₁, h₂⟩
            rcases Nat.lt_or_eq_of_le h₁ with h₃ | h₃
            · exact Or.inr ⟨hz, hgmin z hz h₃, h₂⟩
            · exact Or.inl ((List.idxOf_inj (j.mem z hz)).mp h₃.symm)

namespace Sound

/-- Nothing is behind the trailer. -/
theorem successor_trailer (h : Sound c order held) : c.successor trailer = (c, none) := by
  obtain ⟨n, hs⟩ := Nat.exists_eq_add_one_of_ne_zero (Nat.ne_of_gt h.laid.size_pos)
  rw [Chain.successor, h.laid.stop, hs]
  rfl

/-- The successor is the next node that is not deleted. -/
theorem successor (h : Sound c order held) (hx : x ∈ order) (ht : x ≠ trailer) :
    ∃ f, (c.successor x).2 = some f ∧ IsNext c order x f ∧ Sound (c.successor x).1 order held ∧
      Alike c (c.successor x).1 := by
  obtain ⟨g, hg, hgn, hlt, hgd⟩ := h.laid.next x hx ht
  obtain ⟨dead, f, hs, hf, hfl, hgf, hbetween, hlinked⟩ := h.laid.skim c.size g hg (Nat.le_add_right _ _)
  have hdead : DeadBetween c order x f := fun z hz h₁ h₂ => by
    rcases Nat.lt_or_ge (order.idxOf z) (order.idxOf g) with h₃ | h₃
    · exact hgd z hz h₁ h₃
    · exact hbetween z hz h₃ h₂
  have he : c.successor x = (if c.isDeleted x then c else c.bypass x dead f, some f) := by
    rw [Chain.successor, hgn, hs]
  rw [he]
  refine ⟨f, rfl, ⟨hf, hfl, by omega, hdead⟩, ?_⟩
  cases hxd : c.isDeleted x with
  | true => exact ⟨h, Alike.refl c⟩
  | false =>
    obtain ⟨linked, j, hc⟩ := h.counted
    obtain ⟨hgl, hgmin⟩ := j.next x (j.live x hx hxd) g hgn
    obtain ⟨hfl', hnd, hmem⟩ := hlinked linked j hgl
    obtain ⟨hl₁, rest, j₁, hc₁⟩ := Sound.swing dead h.laid j hc hx hxd hfl' (by omega) hdead hnd fun z => by
      rw [hmem]
      exact ⟨fun ⟨hz, h₁, h₂⟩ => ⟨hz, by omega, h₂⟩, fun ⟨hz, h₁, h₂⟩ => ⟨hz, hgmin z hz h₁, h₂⟩⟩
    obtain ⟨hc₂, f₂⟩ := Counted.releaseAll dead hl₁.ranked hc₁
    have hl₂ := hl₁.frees f₂
    have j₂ := j₁.steady f₂.toSteady
    have a₂ := (alike_swing (f := f) h.laid hx hxd).trans f₂.toSteady.alike
    show Sound (c.bypass x dead f) order held ∧ Alike c (c.bypass x dead f)
    unfold Chain.bypass
    dsimp only
    split
    · exact ⟨⟨hl₂, rest, j₂, hc₂⟩, a₂⟩
    · obtain ⟨hc₃, hl₃, s₃⟩ := hc₂.setHint hl₂ hf hx (by omega)
      exact ⟨⟨hl₃, rest, j₂.steady s₃, hc₃⟩, a₂.trans s₃.alike⟩

/-- A step forward repairs the chain at most. -/
theorem successor_alike (h : Sound c order held) (hx : x ∈ order) :
    Sound (c.successor x).1 order held ∧ Alike c (c.successor x).1 := by
  by_cases ht : x = trailer
  · rw [ht, h.successor_trailer]
    exact ⟨h, Alike.refl c⟩
  · obtain ⟨-, -, -, hc, a⟩ := h.successor hx ht
    exact ⟨hc, a⟩

/-- A search forward from a live node finds nothing but the node before the target, and does find it if the target is
live and lies ahead. -/
theorem seek (target : NodeId) : ∀ (fuel : Nat) {c : Chain α}, Sound c order held → ∀ {start : NodeId}, start ∈ order →
    c.isDeleted start = false →
    Sound (seek fuel c start target).1 order held ∧ Alike c (seek fuel c start target).1 ∧
      (∀ p, (seek fuel c start target).2 = some p → IsPrev c order p target) ∧
      (target ∈ order → c.isDeleted target = false → order.idxOf start < order.idxOf target →
        order.idxOf target ≤ fuel + order.idxOf start → ∃ p, (seek fuel c start target).2 = some p)
  | 0, c, h, start, _, _ =>
    ⟨h, Alike.refl c, fun p hp => (by cases hp), fun _ _ h₁ h₂ => by omega⟩
  | fuel + 1, c, h, start, hs, hl => by
    unfold Chain.seek
    by_cases ht : start = trailer
    · subst ht
      rw [h.successor_trailer]
      refine ⟨h, Alike.refl c, fun p hp => (by cases hp), fun hm _ h₁ _ => ?_⟩
      by_cases htt : target = trailer
      · rw [htt] at h₁
        omega
      · have := h.laid.idxOf_lt_trailer hm htt
        omega
    · obtain ⟨f, hf, hn, h₁, a₁⟩ := h.successor hs ht
      cases hsucc : c.successor start with
      | mk c₁ r =>
        rw [hsucc] at hf h₁ a₁
        cases hf
        dsimp only at h₁ a₁ ⊢
        split
        · next he =>
          refine ⟨h₁, a₁, fun p hp => ?_, fun _ _ _ _ => ⟨start, rfl⟩⟩
          cases hp
          rw [← he]
          exact ⟨hs, hl, hn.lt, hn.between⟩
        · next hne =>
          obtain ⟨h₂, a₂, hsome, hfound⟩ := Sound.seek target fuel h₁ hn.mem (by rw [a₁.deleted]; exact hn.live)
          refine ⟨h₂, a₁.trans a₂, fun p hp => (hsome p hp).alike a₁, fun hm hlive hlt hfuel => ?_⟩
          -- the target is live, so it cannot come before the next live node
          have hle : order.idxOf f ≤ order.idxOf target := by
            rcases Nat.lt_or_ge (order.idxOf target) (order.idxOf f) with h₃ | h₃
            · have := hn.between target hm hlt h₃
              rw [hlive] at this
              cases this
            · exact h₃
          have hne' : order.idxOf f ≠ order.idxOf target := fun he => hne ((List.idxOf_inj hn.mem).mp he)
          have := hn.lt
          exact hfound hm (by rw [a₁.deleted]; exact hlive) (by omega) (by omega)

/-! ## Backward -/

/-- Following the hints from `n` finds nothing but the node before the target, and does find it if the target is live.
The hints lead strictly backward, so there are no more of them than there are positions before `n`. -/
theorem predecessorFrom (target : NodeId) : ∀ (fuel : Nat) {c : Chain α}, Sound c order held →
    ∀ {n : NodeId}, n ∈ order → order.idxOf n < fuel →
    Sound (predecessorFrom fuel c n target).1 order held ∧ Alike c (predecessorFrom fuel c n target).1 ∧
      (∀ p, (predecessorFrom fuel c n target).2 = some p → IsPrev c order p target) ∧
      (target ∈ order → c.isDeleted target = false → target ≠ header →
        ∃ p, (predecessorFrom fuel c n target).2 = some p)
  | 0, c, _, n, _, hb => absurd hb (Nat.not_lt_zero _)
  | fuel + 1, c, h, n, hn, hb => by
    unfold Chain.predecessorFrom
    cases hp : (c.node n).prev with
    | none =>
      dsimp only
      obtain ⟨h₁, a₁, hsome, hfound⟩ := Sound.seek target c.size h h.laid.header_mem h.laid.start
      refine ⟨h₁, a₁, hsome, fun hm hlive h₀ => hfound hm hlive ?_ ?_⟩
      · rw [h.laid.idxOf_header]
        exact h.laid.idxOf_pos hm h₀
      · have := h.laid.idxOf_lt hm
        omega
    | some b =>
      obtain ⟨hbm, hbn⟩ := h.laid.hint n b hp
      dsimp only
      split
      · next hbt =>
        obtain ⟨-, -, hlt, hd⟩ := h.laid.of_next hbt
        refine ⟨h, Alike.refl c, fun p hp => ?_, fun _ _ _ => ⟨b, rfl⟩⟩
        cases hp
        exact ⟨hbm, isDeleted_of_next hbt, hlt, hd⟩
      · split
        · exact Sound.predecessorFrom target fuel h hbm (by omega)
        · next hlive =>
          -- the hint is at a live node too far back: first forward from there, else further back
          obtain ⟨h₁, a₁, hsome, -⟩ := Sound.seek target c.size h hbm ((Bool.not_eq_true _).mp hlive)
          cases hseek : Chain.seek c.size c b target with
          | mk c₁ r =>
            rw [hseek] at h₁ a₁ hsome
            cases r with
            | some p => exact ⟨h₁, a₁, hsome, fun _ _ _ => ⟨p, rfl⟩⟩
            | none =>
              obtain ⟨h₂, a₂, hsome₂, hfound₂⟩ := Sound.predecessorFrom target fuel h₁ hbm (by omega)
              exact ⟨h₂, a₁.trans a₂, fun p hp => (hsome₂ p hp).alike a₁,
                fun hm hl h₀ => hfound₂ hm (by rw [a₁.deleted]; exact hl) h₀⟩

/-- A predecessor is the node before, and a live node has one unless it is the header. -/
theorem predecessor (h : Sound c order held) (hx : x ∈ order) :
    Sound (c.predecessor x).1 order held ∧ Alike c (c.predecessor x).1 ∧
      (∀ p, (c.predecessor x).2 = some p → IsPrev c order p x) ∧
      (c.isDeleted x = false → x ≠ header → ∃ p, (c.predecessor x).2 = some p) := by
  obtain ⟨h₁, a₁, hsome, hfound⟩ := Sound.predecessorFrom x c.size h hx (h.laid.idxOf_lt hx)
  exact ⟨h₁, a₁, hsome, hfound hx⟩

end Sound

/-! ## Many steps -/

/-- The live entries among the nodes `xs`. -/
def livings (c : Chain α) (xs : List NodeId) : List NodeId := xs.filter fun y => !c.isDeleted y && !c.isSentinel y

theorem mem_livings {xs : List NodeId} :
    x ∈ c.livings xs ↔ x ∈ xs ∧ c.isDeleted x = false ∧ c.isSentinel x = false := by
  rw [livings, List.mem_filter, Bool.and_eq_true, Bool.not_eq_true', Bool.not_eq_true']

theorem Alike.livings (a : Alike c c') (xs : List NodeId) : c'.livings xs = c.livings xs := by
  simp only [Chain.livings, a.deleted, a.isSentinel]

/-- All live entries are behind the header. -/
theorem Laid.livings_header (h : Laid c order) :
    c.livings (order.drop (order.idxOf header + 1)) = c.livings order := by
  have hnone : c.livings (order.take (order.idxOf header + 1)) = [] := by
    rw [livings, List.filter_eq_nil_iff]
    intro z hz
    have hzm := List.mem_of_mem_take hz
    have hz' := (List.mem_take_iff_idxOf_lt hzm).mp hz
    have hzh : z = header := (List.idxOf_inj hzm).mp (by rw [h.idxOf_header] at hz' ⊢; omega)
    rw [hzh, (h.isSentinel_iff h.header_mem).mpr (Or.inl rfl)]
    simp
  have hsplit : c.livings order =
      c.livings (order.take (order.idxOf header + 1)) ++ c.livings (order.drop (order.idxOf header + 1)) := by
    rw [livings, livings, livings, ← List.filter_append, List.take_append_drop]
  rw [hsplit, hnone, List.nil_append]

/-- All live entries are before the trailer. -/
theorem Laid.livings_trailer (h : Laid c order) :
    c.livings (order.take (order.idxOf trailer)) = c.livings order := by
  have hnone : c.livings (order.drop (order.idxOf trailer)) = [] := by
    rw [livings, List.filter_eq_nil_iff]
    intro z hz
    obtain ⟨hzm, hz'⟩ := (mem_drop_iff h.nodup).mp hz
    by_cases hzt : z = trailer
    · rw [hzt, (h.isSentinel_iff h.trailer_mem).mpr (Or.inr rfl)]
      simp
    · have := h.idxOf_lt_trailer hzm hzt
      omega
  have hsplit : c.livings order =
      c.livings (order.take (order.idxOf trailer)) ++ c.livings (order.drop (order.idxOf trailer)) := by
    rw [livings, livings, livings, ← List.filter_append, List.take_append_drop]
  rw [hsplit, hnone, List.append_nil]

namespace Sound

/-- The next live entry, and the live entries behind it. -/
theorem forward (h : Sound c order held) (hx : x ∈ order) :
    Sound (c.forward x).1 order held ∧ Alike c (c.forward x).1 ∧
      ((c.forward x).2 = none ∧ c.livings (order.drop (order.idxOf x + 1)) = [] ∨
        ∃ y, (c.forward x).2 = some y ∧ y ∈ order ∧ order.idxOf x < order.idxOf y ∧
          c.livings (order.drop (order.idxOf x + 1)) = y :: c.livings (order.drop (order.idxOf y + 1))) := by
  by_cases ht : x = trailer
  · subst ht
    rw [Chain.forward, h.successor_trailer]
    refine ⟨h, Alike.refl c, Or.inl ⟨rfl, ?_⟩⟩
    rw [livings, List.filter_eq_nil_iff]
    intro z hz
    obtain ⟨hzm, hz'⟩ := (mem_drop_iff h.laid.nodup).mp hz
    by_cases hzt : z = trailer
    · rw [hzt] at hz'
      omega
    · have := h.laid.idxOf_lt_trailer hzm hzt
      omega
  · obtain ⟨f, hf, hn, h₁, a₁⟩ := h.successor hx ht
    have hno (z : NodeId) (hz : z ∈ order) (h₁ : order.idxOf x < order.idxOf z) (h₂ : order.idxOf z < order.idxOf f) :
        (!c.isDeleted z && !c.isSentinel z) = false := by
      rw [hn.between z hz h₁ h₂]; rfl
    refine ⟨h₁, a₁, ?_⟩
    show (hideSentinel (c.successor x).1 (c.successor x).2 = none ∧ _) ∨
      ∃ y, hideSentinel (c.successor x).1 (c.successor x).2 = some y ∧ _
    rw [hf, hideSentinel, Option.filter_some, a₁.isSentinel]
    cases hfs : c.isSentinel f with
    | false =>
      refine Or.inr ⟨f, rfl, hn.mem, hn.lt, ?_⟩
      exact filter_drop_idxOf h.laid.nodup hn.lt hno hn.mem (by rw [hn.live, hfs]; rfl)
    | true =>
      refine Or.inl ⟨rfl, ?_⟩
      rw [livings, List.filter_eq_nil_iff]
      intro z hz
      obtain ⟨hzm, hz'⟩ := (mem_drop_iff h.laid.nodup).mp hz
      have hft : f = trailer := by
        rcases (h.laid.isSentinel_iff hn.mem).mp hfs with he | he
        · exact absurd he (h.laid.ne_header hn.lt)
        · exact he
      by_cases hzt : z = trailer
      · rw [hzt, (h.laid.isSentinel_iff h.laid.trailer_mem).mpr (Or.inr rfl)]
        simp
      · rw [hno z hzm hz' (by rw [hft]; exact h.laid.idxOf_lt_trailer hzm hzt)]
        exact Bool.false_ne_true

/-- A walk lists the live entries behind a node. -/
theorem iterate_forward : ∀ (fuel : Nat) {c : Chain α}, Sound c order held → ∀ {x : NodeId}, x ∈ order →
    c.size ≤ fuel + order.idxOf x →
    Sound (iterate Chain.forward fuel c x).1 order held ∧ Alike c (iterate Chain.forward fuel c x).1 ∧
      (iterate Chain.forward fuel c x).2 = c.livings (order.drop (order.idxOf x + 1))
  | 0, c, h, x, hx, hb => by
    have := h.laid.idxOf_lt hx
    omega
  | fuel + 1, c, h, x, hx, hb => by
    obtain ⟨h₁, a₁, hcases⟩ := h.forward hx
    unfold iterate
    cases hfw : c.forward x with
    | mk c₁ r =>
      rw [hfw] at h₁ a₁ hcases
      rcases hcases with ⟨hr, hnil⟩ | ⟨y, hr, hy, hlt, hcons⟩
      · cases hr
        exact ⟨h₁, a₁, hnil.symm⟩
      · cases hr
        obtain ⟨h₂, a₂, hys⟩ := Sound.iterate_forward fuel h₁ hy (by rw [a₁.size]; omega)
        refine ⟨h₂, a₁.trans a₂, ?_⟩
        show y :: _ = _
        rw [hys, hcons, a₁.livings]

theorem walk (h : Sound c order held) (hx : x ∈ order) :
    Sound (c.walk x).1 order held ∧ Alike c (c.walk x).1 ∧
      (c.walk x).2 = c.livings (order.drop (order.idxOf x + 1)) :=
  h.iterate_forward c.size hx (Nat.le_add_right _ _)

/-- The last live entry before a node, and the live entries before it. From a deleted node it may be missed. -/
theorem back (h : Sound c order held) (hx : x ∈ order) :
    Sound (c.back x).1 order held ∧ Alike c (c.back x).1 ∧
      ((c.back x).2 = none ∧ (c.isDeleted x = true ∨ c.livings (order.take (order.idxOf x)) = []) ∨
        ∃ y, (c.back x).2 = some y ∧ IsPrev c order y x ∧ c.isSentinel y = false ∧
          c.livings (order.take (order.idxOf x)) = c.livings (order.take (order.idxOf y)) ++ [y]) := by
  obtain ⟨h₁, a₁, hsome, hfound⟩ := h.predecessor hx
  refine ⟨h₁, a₁, ?_⟩
  show (hideSentinel (c.predecessor x).1 (c.predecessor x).2 = none ∧ _) ∨
    ∃ y, hideSentinel (c.predecessor x).1 (c.predecessor x).2 = some y ∧ _
  cases hr : (c.predecessor x).2 with
  | none =>
    refine Or.inl ⟨rfl, ?_⟩
    cases hd : c.isDeleted x with
    | true => exact Or.inl rfl
    | false =>
      by_cases h₀ : x = header
      · right
        rw [h₀, h.laid.idxOf_header]
        rfl
      · obtain ⟨p, hp⟩ := hfound hd h₀
        rw [hr] at hp
        cases hp
  | some p =>
    have hp := hsome p hr
    have hno (z : NodeId) (hz : z ∈ order) (h₁ : order.idxOf p < order.idxOf z) (h₂ : order.idxOf z < order.idxOf x) :
        (!c.isDeleted z && !c.isSentinel z) = false := by
      rw [hp.between z hz h₁ h₂]; rfl
    rw [hideSentinel, Option.filter_some, a₁.isSentinel]
    cases hps : c.isSentinel p with
    | false =>
      refine Or.inr ⟨p, rfl, hp, hps, ?_⟩
      exact filter_take_idxOf h.laid.nodup hp.lt hno hp.mem (by rw [hp.live, hps]; rfl)
    | true =>
      refine Or.inl ⟨rfl, Or.inr ?_⟩
      have hph : p = header := by
        rcases (h.laid.isSentinel_iff hp.mem).mp hps with he | he
        · exact he
        · have h₂ := hp.lt
          rw [he] at h₂
          by_cases hxt : x = trailer
          · rw [hxt] at h₂
            omega
          · have := h.laid.idxOf_lt_trailer hx hxt
            omega
      rw [livings, List.filter_eq_nil_iff]
      intro z hz
      have hzm := List.mem_of_mem_take hz
      have hz' := (List.mem_take_iff_idxOf_lt hzm).mp hz
      by_cases hzh : z = header
      · rw [hzh, (h.laid.isSentinel_iff h.laid.header_mem).mpr (Or.inl rfl)]
        simp
      · rw [hno z hzm (by rw [hph, h.laid.idxOf_header]; exact h.laid.idxOf_pos hzm hzh) hz']
        exact Bool.false_ne_true

/-- A walk back lists the live entries before a node, nearest first. From a deleted node it may find nothing. -/
theorem iterate_back : ∀ (fuel : Nat) {c : Chain α}, Sound c order held → ∀ {x : NodeId}, x ∈ order →
    order.idxOf x < fuel →
    Sound (iterate Chain.back fuel c x).1 order held ∧ Alike c (iterate Chain.back fuel c x).1 ∧
      (c.isDeleted x = true ∧ (iterate Chain.back fuel c x).2 = [] ∨
        (iterate Chain.back fuel c x).2 = (c.livings (order.take (order.idxOf x))).reverse)
  | 0, c, _, x, _, hb => absurd hb (Nat.not_lt_zero _)
  | fuel + 1, c, h, x, hx, hb => by
    obtain ⟨h₁, a₁, hcases⟩ := h.back hx
    unfold iterate
    cases hbk : c.back x with
    | mk c₁ r =>
      rw [hbk] at h₁ a₁ hcases
      rcases hcases with ⟨hr, hd | hnil⟩ | ⟨y, hr, hp, -, hsnoc⟩
      · cases hr
        exact ⟨h₁, a₁, Or.inl ⟨hd, rfl⟩⟩
      · cases hr
        exact ⟨h₁, a₁, Or.inr (by rw [hnil]; rfl)⟩
      · cases hr
        have hlt := hp.lt
        obtain ⟨h₂, a₂, hys⟩ := Sound.iterate_back fuel h₁ hp.mem (by omega)
        refine ⟨h₂, a₁.trans a₂, Or.inr ?_⟩
        show y :: _ = _
        rcases hys with ⟨hd, -⟩ | hys
        · rw [a₁.deleted, hp.live] at hd
          cases hd
        · rw [hys, hsnoc, a₁.livings, List.reverse_append]
          rfl

theorem walkBack (h : Sound c order held) (hx : x ∈ order) :
    Sound (c.walkBack x).1 order held ∧ Alike c (c.walkBack x).1 ∧
      (c.isDeleted x = true ∧ (c.walkBack x).2 = [] ∨
        (c.walkBack x).2 = (c.livings (order.take (order.idxOf x))).reverse) :=
  h.iterate_back c.size hx (h.laid.idxOf_lt hx)

end Sound

end LeastRecent.Chain
