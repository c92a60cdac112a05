import LeastRecent.Proofs.Chain.Counting

/-!
# Insertion and deletion keep a chain sound

A chain is sound (`Sound`) if its nodes are laid out in order and its links are counted exactly; `held` are the tokens
that are held outside of the chain. An insertion gets its new node right behind the node it was asked for, or fails
because that node is deleted or the trailer (`Sound.finishInsert`). A deletion deletes its node or changes nothing at
all (`Sound.finishDelete`); unlinking the node is no more than a pointer swung over it (`Sound.unlink`).
-/

namespace LeastRecent.Chain

variable {α : Type} {c c' c'' : Chain α} {order linked held held' : List NodeId} {x y f : NodeId}

/-- The nodes lie in `order`, and each link is held by the chain, by a hint or by a token in `held`. -/
structure Sound (c : Chain α) (order held : List NodeId) : Prop where
  laid : Laid c order
  counted : ∃ linked, Joined c order linked ∧ Counted [header] c (linked ++ held)

/-- `c'` is `c` with one more node, which carries `a`. -/
structure Grows (c c' : Chain α) (a : α) : Prop where
  size : c'.size = c.size + 1
  role : ∀ x < c.size, (c'.node x).role = (c.node x).role
  deleted : ∀ x < c.size, c'.isDeleted x = c.isDeleted x
  evicted : ∀ x < c.size, c'.isEvicted x = c.isEvicted x
  carried : c'.carried? c.size = some a
  live : c'.isDeleted c.size = false
  unmarked : c'.isEvicted c.size = false

/-- `c'` is `c` with the node `x` deleted. -/
structure Buries (c c' : Chain α) (x : NodeId) : Prop where
  size : c'.size = c.size
  role : ∀ y, (c'.node y).role = (c.node y).role
  deleted : ∀ y, c'.isDeleted y = if y = x then true else c.isDeleted y
  evicted : ∀ y, c'.isEvicted y = c.isEvicted y

theorem Grows.alike {a : α} (g : Grows c c' a) (h : Alike c' c'') : Grows c c'' a where
  size := h.size.trans g.size
  role x hx := (h.role x).trans (g.role x hx)
  deleted x hx := (h.deleted x).trans (g.deleted x hx)
  evicted x hx := (h.evicted x).trans (g.evicted x hx)
  carried := (h.carried _).trans g.carried
  live := (h.deleted _).trans g.live
  unmarked := (h.evicted _).trans g.unmarked

theorem Alike.grows {a : α} (h : Alike c c') (g : Grows c' c'' a) : Grows c c'' a where
  size := by rw [g.size, h.size]
  role x hx := (g.role x (by rw [h.size]; exact hx)).trans (h.role x)
  deleted x hx := (g.deleted x (by rw [h.size]; exact hx)).trans (h.deleted x)
  evicted x hx := (g.evicted x (by rw [h.size]; exact hx)).trans (h.evicted x)
  carried := by rw [← h.size]; exact g.carried
  live := by rw [← h.size]; exact g.live
  unmarked := by rw [← h.size]; exact g.unmarked

theorem Grows.ages {a : α} (g : Grows c c' a) : Ages c c' where
  size := by rw [g.size]; exact Nat.le_succ _
  role := g.role
  deleted x hx hd := by rw [g.deleted x hx]; exact hd
  evicted x hx he := by rw [g.evicted x hx]; exact he

theorem Buries.alike (b : Buries c c' x) (h : Alike c' c'') : Buries c c'' x where
  size := h.size.trans b.size
  role y := (h.role y).trans (b.role y)
  deleted y := (h.deleted y).trans (b.deleted y)
  evicted y := (h.evicted y).trans (b.evicted y)

theorem Buries.ages (b : Buries c c' x) : Ages c c' where
  size := Nat.le_of_eq b.size.symm
  role y _ := b.role y
  deleted y _ hd := by rw [b.deleted, hd, ite_self]
  evicted y _ he := by rw [b.evicted]; exact he

theorem Buries.carried (b : Buries c c' x) (y : NodeId) : c'.carried? y = c.carried? y := by
  rw [carried?, carried?, Node.carried?, Node.carried?, b.role]

theorem Buries.isSentinel (b : Buries c c' x) (y : NodeId) : c'.isSentinel y = c.isSentinel y :=
  congrArg Option.isNone (b.carried y)

/-- The nodes of a chain with one more: the old ones, the new one, and those that were not linked yet. -/
theorem Grows.cases {a : α} (g : Grows c c' a) (y : NodeId) : y < c.size ∨ y = c.size ∨ c'.node y = .void := by
  rcases Nat.lt_trichotomy y c.size with hy | hy | hy
  · exact Or.inl hy
  · exact Or.inr (Or.inl hy)
  · exact Or.inr (Or.inr (node_of_size_le (by rw [g.size]; exact hy)))

theorem Grows.isSentinel {a : α} (g : Grows c c' a) (hy : y < c.size) : c'.isSentinel y = c.isSentinel y := by
  rw [Chain.isSentinel, Chain.isSentinel, Node.isSentinel, Node.isSentinel, Node.carried?, Node.carried?, g.role y hy]

/-- What a deletion knows when it begins. -/
theorem beginDelete_some {cut : Cut} (h : c.beginDelete x = some cut) :
    cut.target = x ∧ c.isSentinel x = false ∧ (c.node x).next = .node cut.after := by
  unfold beginDelete at h
  split at h
  · cases h
  · next hs =>
    split at h
    · next f hf =>
      cases h
      exact ⟨rfl, eq_false_of_ne_true hs, hf⟩
    · cases h

/-! ## A new chain -/

section Empty

variable (p : Policy)

theorem node_empty_header : (Chain.empty p : Chain α).node header = ⟨.header, .node trailer, none, 2, false⟩ := rfl

theorem node_empty_trailer : (Chain.empty p : Chain α).node trailer = ⟨.trailer, .nothing, some header, 1, false⟩ := rfl

/-- There are only the sentinels. -/
theorem mem_empty : x ∈ [header, trailer] ↔ x < (Chain.empty p : Chain α).size := by
  show x ∈ [0, 1] ↔ x < (2 : Nat)
  simp only [List.mem_cons, List.not_mem_nil, or_false]
  constructor
  · rintro (rfl | rfl) <;> decide
  · intro hx
    rcases Nat.lt_succ_iff_lt_or_eq.mp hx with hx | hx
    · exact Or.inl (Nat.lt_one_iff.mp hx)
    · exact Or.inr hx

theorem sentinel_of_mem (hx : x ∈ [header, trailer]) : x = header ∨ x = trailer := by simpa using hx

theorem Laid.empty : Laid (Chain.empty p : Chain α) [header, trailer] := by
  refine ⟨by decide, fun x => mem_empty p, ⟨[], rfl⟩, rfl, rfl, ?_, rfl, rfl, ?_,
    ?_⟩
  · intro x hx hx₀ hx₁
    rcases sentinel_of_mem hx with rfl | rfl
    · exact absurd rfl hx₀
    · exact absurd rfl hx₁
  · intro x hx hx₁
    rcases sentinel_of_mem hx with rfl | rfl
    · refine ⟨trailer, by decide, rfl, by decide, fun y hy h₁ h₂ => ?_⟩
      rcases sentinel_of_mem hy with rfl | rfl
      · exact absurd h₁ (by decide)
      · exact absurd h₂ (by decide)
    · exact absurd rfl hx₁
  · intro x b hb
    rcases Nat.lt_or_ge x (Chain.empty p : Chain α).size with hx | hx
    · rcases sentinel_of_mem ((mem_empty p).mpr hx) with rfl | rfl
      · rw [node_empty_header] at hb
        cases hb
      · rw [node_empty_trailer] at hb
        cases hb
        exact ⟨by decide, by decide⟩
    · rw [node_of_size_le hx] at hb
      cases hb

theorem Joined.empty : Joined (Chain.empty p : Chain α) [header, trailer] [header, trailer] := by
  refine ⟨by decide, fun x hx => hx, fun x hx _ => hx, fun x hx g hg => ?_⟩
  rcases sentinel_of_mem hx with rfl | rfl
  · rw [node_empty_header] at hg
    cases hg
    refine ⟨by decide, fun y hy h => ?_⟩
    rcases sentinel_of_mem hy with rfl | rfl
    · exact absurd h (by decide)
    · decide
  · rw [node_empty_trailer] at hg
    cases hg

theorem Counted.empty : Counted [header] (Chain.empty p : Chain α) [header, trailer] := by
  refine ⟨?_, fun x hx => (mem_empty p).mp hx, ?_, List.nodup_nil, rfl, ?_⟩
  · intro x hx
    rcases sentinel_of_mem ((mem_empty p).mpr hx) with rfl | rfl <;> rfl
  · intro x
    refine ⟨fun hx => (by cases hx), fun ⟨hx, hl⟩ => ?_⟩
    rcases sentinel_of_mem ((mem_empty p).mpr hx) with rfl | rfl
    · rw [node_empty_header] at hl
      cases hl
    · rw [node_empty_trailer] at hl
      cases hl
  · intro x hx
    rcases sentinel_of_mem ((mem_empty p).mpr hx) with rfl | rfl
    · rw [node_empty_header]
      exact ⟨fun _ => Or.inl List.mem_cons_self, fun _ => rfl⟩
    · rw [node_empty_trailer]
      refine ⟨fun h => (by cases h), fun h => ?_⟩
      rcases h with h | h
      · cases List.mem_singleton.mp h
      · cases h

/-- A new chain is sound. -/
theorem Sound.empty : Sound (Chain.empty p : Chain α) [header, trailer] [] :=
  ⟨Laid.empty p, [header, trailer], Joined.empty p, Counted.empty p⟩

end Empty

namespace Sound

theorem perm (h : Sound c order held) (hp : held.Perm held') : Sound c order held' := by
  obtain ⟨linked, j, hc⟩ := h.counted
  exact ⟨h.laid, linked, j, hc.perm (hp.append_left linked)⟩

/-- No rule was broken. -/
theorem clean (h : Sound c order held) : c.fault = none := by
  obtain ⟨linked, -, hc⟩ := h.counted
  exact hc.clean

theorem held_mem (h : Sound c order held) (hx : x ∈ held) : x ∈ order := by
  obtain ⟨linked, -, hc⟩ := h.counted
  exact (h.laid.mem x).mpr (hc.lt x (List.mem_append_right _ hx))

/-- Live nodes have links. -/
theorem links_of_live (h : Sound c order held) (hx : x ∈ order) (hl : c.isDeleted x = false) :
    (c.node x).links ≠ 0 := by
  obtain ⟨linked, j, hc⟩ := h.counted
  exact hc.links_ne_zero (List.mem_append_left _ (j.live x hx hl))

/-! ## Links -/

/-- A link that is given back may retire nodes, but not add, delete or mark any. -/
theorem release (h : Sound c order (x :: held)) : Sound (c.release x) order held ∧ Alike c (c.release x) := by
  obtain ⟨linked, j, hc⟩ := h.counted
  obtain ⟨hc', f⟩ := Counted.release h.laid.ranked (hc.perm List.perm_middle)
  exact ⟨⟨h.laid.frees f, linked, j.steady f.toSteady, hc'⟩, f.toSteady.alike⟩

/-- The node before a new one gets a token, unless it was retired. -/
theorem beginInsert (h : Sound c order held) (hx : x ∈ order) :
    (c.beginInsert x = none ∧ c.isDeleted x = true) ∨
      ∃ c', c.beginInsert x = some c' ∧ Sound c' order (x :: held) ∧ Alike c c' := by
  obtain ⟨linked, j, hc⟩ := h.counted
  cases ha : c.beginInsert x with
  | none =>
    refine Or.inl ⟨rfl, ?_⟩
    cases hd : c.isDeleted x with
    | true => rfl
    | false => exact absurd (acquire_eq_none ha) (h.links_of_live hx hd)
  | some c' =>
    obtain ⟨hc', s, hp⟩ := hc.acquire ((h.laid.mem x).mp hx) ha
    exact Or.inr ⟨c', rfl, ⟨h.laid.steady s fun y b hb => Or.inl (by rw [← hp]; exact hb), linked, j.steady s,
      hc'.perm List.perm_middle.symm⟩, s.alike⟩

/-! ## Insertion -/

/-- The new node is right behind the live one; behind a deleted node and the trailer there is none. -/
theorem finishInsert (h : Sound c order (x :: held)) (a : α) :
    (c.isDeleted x = false ∧ x ≠ trailer ∧ (c.finishInsert x a).2 = some c.size ∧
      Sound (c.finishInsert x a).1 (insertBehind x c.size order) (c.size :: held) ∧
      Grows c (c.finishInsert x a).1 a) ∨
    ((c.isDeleted x = true ∨ x = trailer) ∧ (c.finishInsert x a).2 = none ∧
      Sound (c.finishInsert x a).1 order held ∧ Alike c (c.finishInsert x a).1) := by
  have hfail (hx : c.isDeleted x = true ∨ x = trailer) (he : c.finishInsert x a = (c.release x, none)) :
      (c.isDeleted x = true ∨ x = trailer) ∧ (c.finishInsert x a).2 = none ∧
      Sound (c.finishInsert x a).1 order held ∧ Alike c (c.finishInsert x a).1 := by
    rw [he]
    exact ⟨hx, rfl, h.release.1, h.release.2⟩
  cases hn : (c.node x).next with
  | nothing =>
    refine Or.inr (hfail (Or.inr ?_) (by simp only [Chain.finishInsert, hn]))
    by_cases ht : x = trailer
    · exact ht
    · obtain ⟨g, -, hg, -⟩ := h.laid.next x (h.held_mem List.mem_cons_self) ht
      rw [hn] at hg
      cases hg
  | marker g =>
    refine Or.inr (hfail (Or.inl ?_) (by simp only [Chain.finishInsert, hn]))
    rw [isDeleted, Node.isDeleted, hn]; rfl
  | node f =>
    have ht : x ≠ trailer := by rintro rfl; rw [h.laid.stop] at hn; cases hn
    have he : c.finishInsert x a = ((c.link x f a).setHint f c.size, some c.size) := by
      simp only [Chain.finishInsert, hn]
    obtain ⟨linked, j, hc⟩ := h.counted
    obtain ⟨hx, hf, hlt, -⟩ := h.laid.of_next hn
    have hs := h.laid.size_not_mem
    have hl₁ : Laid (c.link x f a) (insertBehind x c.size order) := h.laid.link hn
    have hc₁ : Counted [header] (c.link x f a) (c.size :: c.size :: (linked ++ held)) :=
      Counted.link (hc.perm List.perm_middle) h.laid hn
    have hlt' : (insertBehind x c.size order).idxOf c.size < (insertBehind x c.size order).idxOf f := by
      rw [idxOf_insertBehind_self hx hs, idxOf_insertBehind hx hs hf, if_neg (by omega)]
      omega
    obtain ⟨hc₂, hl₂, s⟩ := hc₁.setHint hl₁ ((mem_insertBehind hx).mpr (Or.inr hf))
      ((mem_insertBehind hx).mpr (Or.inl rfl)) hlt'
    have hg : Grows c (c.link x f a) a := by
      have hne (y : NodeId) (hy : y < c.size) : y ≠ c.size := Nat.ne_of_lt hy
      refine ⟨size_link, ?_, ?_, ?_, ?_, ?_, ?_⟩
      · intro y hy
        rw [node_link (lt_size_of_next hn), if_neg (hne y hy)]
        split
        · next he => rw [he]
        · rfl
      · intro y hy
        rw [isDeleted_link hn, if_neg (hne y hy)]
      · intro y hy
        rw [isEvicted_link hn, if_neg (hne y hy)]
      · rw [carried_link hn, if_pos rfl]
      · rw [isDeleted_link hn, if_pos rfl]
      · rw [isEvicted_link hn, if_pos rfl]
    rw [he]
    refine Or.inl ⟨isDeleted_of_next hn, ht, rfl, ⟨hl₂, c.size :: linked, (j.link h.laid hn).steady s, ?_⟩,
      hg.alike s.alike⟩
    exact hc₂.perm ((@List.perm_middle _ _ linked _).symm.cons _)

/-! ## Deletion -/

/-- A pointer of the live node `b` swung over the linked nodes `dead`: each of them leaves a token. -/
theorem swing {b : NodeId} (dead : List NodeId) (hl : Laid c order) (j : Joined c order linked)
    (hc : Counted [header] c (linked ++ held)) (hb : b ∈ order) (hlive : c.isDeleted b = false) (hf : f ∈ linked)
    (hlt : order.idxOf b < order.idxOf f) (hd : DeadBetween c order b f) (hnd : dead.Nodup)
    (hdead : ∀ y, y ∈ dead ↔ y ∈ linked ∧ order.idxOf b < order.idxOf y ∧ order.idxOf y < order.idxOf f) :
    Laid (c.swing b f) order ∧ ∃ rest, Joined (c.swing b f) order rest ∧
      Counted [header] (c.swing b f) (dead ++ (rest ++ held)) := by
  have hfm := j.mem f hf
  have ht : b ≠ trailer := by
    rintro rfl
    by_cases hft : f = trailer
    · rw [hft] at hlt; omega
    · have := hl.idxOf_lt_trailer hfm hft
      omega
  have hperm : linked.Perm (dead ++ linked.filter fun y => !decide (y ∈ dead)) := by
    have hin : (linked.filter fun y => decide (y ∈ dead)).Perm dead :=
      (List.perm_ext_iff_of_nodup (j.nodup.filter _) hnd).mpr fun y => by
        rw [List.mem_filter, decide_eq_true_iff, and_iff_right_iff_imp]
        exact fun hy => ((hdead y).mp hy).1
    exact (List.filter_append_perm (fun y => decide (y ∈ dead)) linked).symm.trans (hin.append_right _)
  have hsame : Counted [header] (c.swing b f) (linked ++ held) :=
    hc.of_links_same (size_modify c b _) (fun y => frame_modify Node.prev b y fun _ => rfl)
      (fun y => frame_modify Node.links b y fun _ => rfl) rfl rfl
  refine ⟨hl.swing hb hlive hfm ht hlt hd, _, Joined.swing hl hb hlive j hf hperm ?_ hd, ?_⟩
  · intro y hy
    rw [hdead y]
    exact ⟨fun h => h.2, fun h => ⟨hy, h⟩⟩
  · refine hsame.perm ?_
    rw [← List.append_assoc]
    exact hperm.append_right held

/-- A deleted node is unlinked, or stays as it is for a later walk. -/
theorem unlink {b : NodeId} (h : Sound c order held) (hn : (c.node x).next = .marker f) :
    Sound (c.unlink b x f) order held ∧ Alike c (c.unlink b x f) := by
  unfold Chain.unlink
  split
  · next hb =>
    obtain ⟨linked, j, hc⟩ := h.counted
    obtain ⟨hbm, hxm, hbx, hd₁⟩ := h.laid.of_next hb
    have hlive : c.isDeleted b = false := isDeleted_of_next hb
    have hxd : c.isDeleted x = true := by rw [isDeleted, Node.isDeleted, hn]; rfl
    have hxt : x ≠ trailer := by rintro rfl; rw [h.laid.stop] at hn; cases hn
    obtain ⟨f', hfm, hf, hxf, hd₂⟩ := h.laid.next x hxm hxt
    rw [hn] at hf
    cases hf
    have hbl := j.live b hbm hlive
    obtain ⟨hxl, hxmin⟩ := j.next b hbl x (by rw [hb]; rfl)
    obtain ⟨hfl, hfmin⟩ := j.next x hxl f (by rw [hn]; rfl)
    have hd : DeadBetween c order b f := fun y hy h₁ h₂ => by
      rcases Nat.lt_trichotomy (order.idxOf y) (order.idxOf x) with h₃ | h₃ | h₃
      · exact hd₁ y hy h₁ h₃
      · rw [(List.idxOf_inj hy).mp h₃]; exact hxd
      · exact hd₂ y hy h₃ h₂
    -- between `b` and `f` only `x` is linked
    obtain ⟨hl₁, rest, j₁, hc₁⟩ := swing [x] h.laid j hc hbm hlive hfl (by omega) hd
      (List.nodup_cons.mpr ⟨List.not_mem_nil, List.nodup_nil⟩) fun y => by
        rw [List.mem_singleton]
        constructor
        · rintro rfl
          exact ⟨hxl, hbx, hxf⟩
        · rintro ⟨hy, h₁, h₂⟩
          have h₃ := hxmin y hy h₁
          rcases Nat.lt_or_ge (order.idxOf x) (order.idxOf y) with h₄ | h₄
          · have := hfmin y hy h₄
            omega
          · exact (List.idxOf_inj (j.mem y hy)).mp (by omega)
    obtain ⟨hc₂, hl₂, s⟩ := hc₁.setHint hl₁ hfm hbm (by omega)
    obtain ⟨hc₃, g⟩ := Counted.release hl₂.ranked hc₂
    exact ⟨⟨hl₂.frees g, rest, (j₁.steady s).steady g.toSteady, hc₃⟩,
      (alike_swing h.laid hbm hlive).trans (s.alike.trans g.toSteady.alike)⟩
  · exact ⟨h, Alike.refl c⟩

/-- A deletion that wins deletes its node, which was live. -/
theorem finishDelete_won {cut : Cut} (h : Sound c order held) (hs : c.isSentinel cut.target = false)
    (hn : (c.node cut.target).next = .node cut.after) :
    (c.finishDelete cut).2 = true ∧ Sound (c.finishDelete cut).1 order held ∧
      Buries c (c.finishDelete cut).1 cut.target := by
  have hx : cut.target ∈ order := (h.laid.mem _).mpr (lt_size_of_not_isSentinel hs)
  have h₀ : cut.target ≠ header := by
    intro he
    rw [(h.laid.isSentinel_iff hx).mpr (Or.inl he)] at hs
    cases hs
  obtain ⟨linked, j, hc⟩ := h.counted
  have h₁ : Sound (c.mark cut.target cut.after) order held :=
    ⟨h.laid.mark hn h₀, linked, j.mark hn, hc.of_links_same (size_modify c _ _)
      (fun y => frame_modify Node.prev _ y fun _ => rfl) (fun y => frame_modify Node.links _ y fun _ => rfl) rfl rfl⟩
  have hb : Buries c (c.mark cut.target cut.after) cut.target :=
    ⟨size_modify c _ _, fun y => frame_modify Node.role _ y fun _ => rfl, isDeleted_mark hn,
      fun y => frame_modify Node.evicted _ y fun _ => rfl⟩
  have hm : ((c.mark cut.target cut.after).node cut.target).next = .marker cut.after := by
    rw [node_mark hn, if_pos rfl]
  unfold Chain.finishDelete
  rw [if_pos hn]
  cases cut.before with
  | none => exact ⟨rfl, h₁, hb⟩
  | some b =>
    obtain ⟨h₂, a⟩ := h₁.unlink (b := b) hm
    exact ⟨rfl, h₂, hb.alike a⟩

/-- A deletion deletes its live node, or loses and changes nothing. -/
theorem finishDelete {cut : Cut} (h : Sound c order held) (hs : c.isSentinel cut.target = false) :
    ((c.finishDelete cut).2 = true ∧ c.isDeleted cut.target = false ∧ Sound (c.finishDelete cut).1 order held ∧
      Buries c (c.finishDelete cut).1 cut.target) ∨ c.finishDelete cut = (c, false) := by
  by_cases hn : (c.node cut.target).next = .node cut.after
  · obtain ⟨h₁, h₂, h₃⟩ := h.finishDelete_won hs hn
    exact Or.inl ⟨h₁, isDeleted_of_next hn, h₂, h₃⟩
  · exact Or.inr (by rw [Chain.finishDelete, if_neg hn])

/-- A deletion that loses finds its node deleted, or with another successor than it noted. -/
theorem finishDelete_lost {cut : Cut} (h : Sound c order held) (hs : c.isSentinel cut.target = false)
    (hlost : (c.finishDelete cut).2 = false) :
    c.isDeleted cut.target = true ∨ ∃ f, (c.node cut.target).next = .node f ∧ f ≠ cut.after := by
  have hx : cut.target ∈ order := (h.laid.mem _).mpr (lt_size_of_not_isSentinel hs)
  cases hn : (c.node cut.target).next with
  | nothing =>
    have ht : cut.target ≠ trailer := by
      intro he
      rw [(h.laid.isSentinel_iff hx).mpr (Or.inr he)] at hs
      cases hs
    obtain ⟨f, -, hf, -⟩ := h.laid.next _ hx ht
    rw [hn] at hf
    cases hf
  | marker f => exact Or.inl (by rw [isDeleted, Node.isDeleted, hn]; rfl)
  | node f =>
    refine Or.inr ⟨f, rfl, fun he => ?_⟩
    rw [(h.finishDelete_won hs (he ▸ hn)).1] at hlost
    cases hlost

/-- A deletion can begin at the live nodes that are no sentinels. -/
theorem beginDelete (h : Sound c order held) (hx : x ∈ order) :
    (c.beginDelete x = none ∧ (c.isSentinel x = true ∨ c.isDeleted x = true)) ∨
      ∃ cut, c.beginDelete x = some cut ∧ cut.target = x ∧ c.isSentinel x = false ∧ c.isDeleted x = false ∧
        (c.node x).next = .node cut.after := by
  unfold Chain.beginDelete
  cases hs : c.isSentinel x with
  | true => exact Or.inl ⟨rfl, Or.inl rfl⟩
  | false =>
    have ht : x ≠ trailer := by
      intro he
      rw [(h.laid.isSentinel_iff hx).mpr (Or.inr he)] at hs
      cases hs
    cases hn : (c.node x).next with
    | nothing =>
      obtain ⟨g, -, hg, -⟩ := h.laid.next x hx ht
      rw [hn] at hg
      cases hg
    | marker g => exact Or.inl ⟨rfl, Or.inr (by rw [isDeleted, Node.isDeleted, hn]; rfl)⟩
    | node g => exact Or.inr ⟨⟨x, (c.node x).prev, g⟩, rfl, rfl, rfl, isDeleted_of_next hn, rfl⟩

/-- A deletion that nothing interrupts deletes its node. -/
theorem delete (h : Sound c order held) (hd : c.isDeleted x = false) (hs : c.isSentinel x = false) :
    ∃ cut c', c.beginDelete x = some cut ∧ cut.target = x ∧ c.finishDelete cut = (c', true) ∧ Sound c' order held ∧
      Buries c c' x := by
  rcases h.beginDelete ((h.laid.mem x).mpr (lt_size_of_not_isSentinel hs)) with ⟨-, hs' | hd'⟩ | ⟨cut, hb, ht, -, -, hn⟩
  · rw [hs'] at hs
    cases hs
  · rw [hd'] at hd
    cases hd
  · rw [← ht] at hn hs
    obtain ⟨hw, hc, b⟩ := h.finishDelete_won hs hn
    rw [ht] at b
    refine ⟨cut, (c.finishDelete cut).1, hb, ht, ?_, hc, b⟩
    rw [← hw]

/-- A mark for eviction touches nothing else. -/
theorem markEvicted (h : Sound c order held) (x : NodeId) : Sound (c.markEvicted x) order held := by
  have hnext (y : NodeId) : ((c.markEvicted x).node y).next = (c.node y).next :=
    frame_modify Node.next x y fun _ => rfl
  have hprev (y : NodeId) : ((c.markEvicted x).node y).prev = (c.node y).prev :=
    frame_modify Node.prev x y fun _ => rfl
  obtain ⟨linked, j, hc⟩ := h.counted
  refine ⟨h.laid.of_pointers (size_modify c x _) (fun y => frame_modify Node.role x y fun _ => rfl) hnext fun y b hb =>
    Or.inl (by rw [← hprev]; exact hb), linked, j.of_pointers hnext, ?_⟩
  exact hc.of_links_same (size_modify c x _) hprev (fun y => frame_modify Node.links x y fun _ => rfl) rfl rfl

end Sound

end LeastRecent.Chain
