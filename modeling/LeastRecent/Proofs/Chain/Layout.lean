import LeastRecent.Proofs.Chain.Fields
import LeastRecent.Proofs.Chain.Order

/-!
# How the nodes of a chain lie

`Laid c order`: all nodes ever linked stand in `order`, the header first and the trailer last. Every pointer forward,
of a live node or kept by a marker, passes over deleted nodes only, and every hint points backward. `Joined` tells which
nodes are still linked: all live ones are, and the pointer of a linked node leads to the next linked one.

Four changes keep this: of links and hints (`Laid.steady`), the insertion behind a live node (`Laid.link`), the deletion
of a node (`Laid.mark`), and a pointer of a live node swung over deleted nodes (`Laid.swing`, `Joined.swing`).
-/

namespace LeastRecent.Chain

variable {α : Type} {c c' : Chain α} {order linked : List NodeId} {x y f : NodeId}

/-- All nodes between `x` and `f` are deleted. -/
def DeadBetween (c : Chain α) (order : List NodeId) (x f : NodeId) : Prop :=
  ∀ y ∈ order, order.idxOf x < order.idxOf y → order.idxOf y < order.idxOf f → c.isDeleted y = true

/-- All nodes ever linked stand in `order`; pointers lead forward over deleted nodes, hints lead backward. -/
structure Laid (c : Chain α) (order : List NodeId) : Prop where
  nodup : order.Nodup
  mem : ∀ x, x ∈ order ↔ x < c.size
  ends : ∃ inner, order = header :: (inner ++ [trailer])
  atHeader : (c.node header).role = .header
  atTrailer : (c.node trailer).role = .trailer
  carrier : ∀ x ∈ order, x ≠ header → x ≠ trailer → ∃ a, c.carried? x = some a
  stop : (c.node trailer).next = .nothing
  start : c.isDeleted header = false
  next : ∀ x ∈ order, x ≠ trailer → ∃ f ∈ order, (c.node x).next.node? = some f ∧
    order.idxOf x < order.idxOf f ∧ DeadBetween c order x f
  hint : ∀ x b, (c.node x).prev = some b → b ∈ order ∧ order.idxOf b < order.idxOf x

/-- The nodes in `linked` are those that the chain still leads to. -/
structure Joined (c : Chain α) (order linked : List NodeId) : Prop where
  nodup : linked.Nodup
  mem : ∀ x ∈ linked, x ∈ order
  live : ∀ x ∈ order, c.isDeleted x = false → x ∈ linked
  next : ∀ x ∈ linked, ∀ f, (c.node x).next.node? = some f →
    f ∈ linked ∧ ∀ y ∈ linked, order.idxOf x < order.idxOf y → order.idxOf f ≤ order.idxOf y

/-- All nodes ever linked stand in `order`, and hints lead backward in it. -/
structure Ranked (c : Chain α) (order : List NodeId) : Prop where
  nodup : order.Nodup
  mem : ∀ x, x ∈ order ↔ x < c.size
  hint : ∀ x b, (c.node x).prev = some b → b ∈ order ∧ order.idxOf b < order.idxOf x

/-! ## First facts -/

theorem Laid.ranked (h : Laid c order) : Ranked c order := ⟨h.nodup, h.mem, h.hint⟩

namespace Ranked

variable (h : Ranked c order)
include h

theorem length : order.length = c.size := by
  have hp : order.Perm (List.range c.size) :=
    (List.perm_ext_iff_of_nodup h.nodup List.nodup_range).mpr fun x => by rw [h.mem, List.mem_range]
  rw [hp.length_eq, List.length_range]

theorem idxOf_lt (hx : x ∈ order) : order.idxOf x < c.size := by
  rw [← h.length]; exact List.idxOf_lt_length_of_mem hx

/-- Hints that only get lost lead backward still. -/
theorem of_hints (hs : c'.size = c.size) (hh : ∀ x b, (c'.node x).prev = some b → (c.node x).prev = some b) :
    Ranked c' order where
  nodup := h.nodup
  mem x := by rw [hs]; exact h.mem x
  hint x b hb := h.hint x b (hh x b hb)

end Ranked

namespace Laid

variable (h : Laid c order)
include h

theorem header_mem : header ∈ order := by
  obtain ⟨inner, hi⟩ := h.ends
  rw [hi]; exact List.mem_cons_self

theorem trailer_mem : trailer ∈ order := by
  obtain ⟨inner, hi⟩ := h.ends
  rw [hi]; simp

/-- The number of the next node is not taken yet. -/
theorem size_not_mem : c.size ∉ order := fun hm => Nat.lt_irrefl _ ((h.mem _).mp hm)

theorem size_pos : 0 < c.size := Nat.lt_of_le_of_lt (Nat.zero_le _) ((h.mem _).mp h.header_mem)

theorem idxOf_lt (hx : x ∈ order) : order.idxOf x < c.size := h.ranked.idxOf_lt hx

theorem idxOf_header : order.idxOf header = 0 := by
  obtain ⟨inner, hi⟩ := h.ends
  rw [hi, List.idxOf_cons_self]

/-- The trailer is behind all other nodes. -/
theorem idxOf_lt_trailer (hx : x ∈ order) (hne : x ≠ trailer) : order.idxOf x < order.idxOf trailer := by
  obtain ⟨inner, hi⟩ := h.ends
  have hi' : order = (header :: inner) ++ [trailer] := hi
  have hnd := h.nodup
  rw [hi'] at hx hnd ⊢
  have hx' : x ∈ header :: inner := by
    rcases List.mem_append.mp hx with hx | hx
    · exact hx
    · exact absurd (List.mem_singleton.mp hx) hne
  have ht : trailer ∉ header :: inner := fun ht => (List.nodup_append.mp hnd).2.2 _ ht _ (List.mem_singleton.mpr rfl) rfl
  rw [List.idxOf_append, List.idxOf_append, if_pos hx', if_neg ht]
  have := List.idxOf_lt_length_of_mem hx'
  omega

theorem idxOf_pos (hx : x ∈ order) (hne : x ≠ header) : 0 < order.idxOf x := by
  rcases Nat.eq_zero_or_pos (order.idxOf x) with h₀ | h₀
  · exact absurd ((List.idxOf_inj hx).mp (by rw [h₀, h.idxOf_header])) hne
  · exact h₀

/-- The header is behind no node. -/
theorem ne_header {x y : NodeId} (hlt : order.idxOf x < order.idxOf y) : y ≠ header := by
  rintro rfl
  rw [h.idxOf_header] at hlt
  exact Nat.not_lt_zero _ hlt

theorem trailer_live : c.isDeleted trailer = false := by
  rw [isDeleted, Node.isDeleted, h.stop]; rfl

/-- Sentinels carry nothing. -/
theorem isSentinel_iff (hx : x ∈ order) : c.isSentinel x = true ↔ x = header ∨ x = trailer := by
  constructor
  · intro hs
    by_cases h₀ : x = header
    · exact Or.inl h₀
    · by_cases h₁ : x = trailer
      · exact Or.inr h₁
      · obtain ⟨a, ha⟩ := h.carrier x hx h₀ h₁
        rw [carried?] at ha
        rw [isSentinel, Node.isSentinel, ha] at hs
        cases hs
  · rintro (rfl | rfl)
    · rw [isSentinel, Node.isSentinel, Node.carried?, h.atHeader]; rfl
    · rw [isSentinel, Node.isSentinel, Node.carried?, h.atTrailer]; rfl

/-- The successor of a live node. -/
theorem of_next (hx : (c.node x).next = .node f) :
    x ∈ order ∧ f ∈ order ∧ order.idxOf x < order.idxOf f ∧ DeadBetween c order x f := by
  have hm : x ∈ order := (h.mem x).mpr (lt_size_of_next hx)
  have ht : x ≠ trailer := by rintro rfl; rw [h.stop] at hx; cases hx
  obtain ⟨g, hg, hn, hlt, hd⟩ := h.next x hm ht
  rw [hx] at hn
  cases hn
  exact ⟨hm, hg, hlt, hd⟩

end Laid

/-! ## Links and hints -/

/-- Only roles and pointers matter, and hints only have to point backward. -/
theorem Laid.of_pointers (h : Laid c order) (hs : c'.size = c.size) (hr : ∀ x, (c'.node x).role = (c.node x).role)
    (hn : ∀ x, (c'.node x).next = (c.node x).next)
    (hh : ∀ x b, (c'.node x).prev = some b → (c.node x).prev = some b ∨ b ∈ order ∧ order.idxOf b < order.idxOf x) :
    Laid c' order := by
  have hd (x : NodeId) : c'.isDeleted x = c.isDeleted x := by
    rw [isDeleted, isDeleted, Node.isDeleted, Node.isDeleted, hn]
  refine ⟨h.nodup, ?_, h.ends, ?_, ?_, ?_, ?_, ?_, ?_, ?_⟩
  · intro x
    rw [hs]; exact h.mem x
  · rw [hr]; exact h.atHeader
  · rw [hr]; exact h.atTrailer
  · intro x hx h₀ h₁
    obtain ⟨a, ha⟩ := h.carrier x hx h₀ h₁
    refine ⟨a, ?_⟩
    unfold carried? Node.carried? at ha ⊢
    rw [hr]
    exact ha
  · rw [hn]; exact h.stop
  · rw [hd]; exact h.start
  · intro x hx ht
    obtain ⟨f, hf, hfn, hlt, hdead⟩ := h.next x hx ht
    exact ⟨f, hf, by rw [hn]; exact hfn, hlt, fun y hy h₁ h₂ => by rw [hd]; exact hdead y hy h₁ h₂⟩
  · intro x b hb
    rcases hh x b hb with hb | hb
    · exact h.hint x b hb
    · exact hb

theorem Laid.steady (h : Laid c order) (s : Steady c c')
    (hh : ∀ x b, (c'.node x).prev = some b → (c.node x).prev = some b ∨ b ∈ order ∧ order.idxOf b < order.idxOf x) :
    Laid c' order :=
  h.of_pointers s.size s.role s.next hh

/-- What is linked depends on the pointers only. -/
theorem Joined.of_pointers (j : Joined c order linked) (hn : ∀ x, (c'.node x).next = (c.node x).next) :
    Joined c' order linked where
  nodup := j.nodup
  mem := j.mem
  live x hx hl := j.live x hx (by rw [isDeleted, Node.isDeleted, ← hn]; exact hl)
  next x hx f hf := j.next x hx f (by rw [← hn]; exact hf)

theorem Joined.steady (j : Joined c order linked) (s : Steady c c') : Joined c' order linked := j.of_pointers s.next

/-! ## Insertion -/

section Link

variable {after : NodeId} {a : α} (h : Laid c order) (hn : (c.node after).next = .node f)
include h hn

/-- The pointers of a chain with a new node behind `after` still pass over deleted nodes only. -/
theorem Laid.link_next (hx : x ∈ insertBehind after c.size order) (ht : x ≠ trailer) :
    ∃ g ∈ insertBehind after c.size order, ((c.link after f a).node x).next.node? = some g ∧
      (insertBehind after c.size order).idxOf x < (insertBehind after c.size order).idxOf g ∧
      DeadBetween (c.link after f a) (insertBehind after c.size order) x g := by
  obtain ⟨ha, hf, hlt, hd⟩ := h.of_next hn
  have hs := h.size_not_mem
  have hself := idxOf_insertBehind_self ha hs
  have hold {y : NodeId} (hy : y ∈ order) := idxOf_insertBehind ha hs hy
  rw [mem_insertBehind ha] at hx
  by_cases hxs : x = c.size
  · refine ⟨f, (mem_insertBehind ha).mpr (Or.inr hf), ?_, ?_, ?_⟩
    · rw [node_link (lt_size_of_next hn), if_pos hxs]; rfl
    · rw [hxs, hself, hold hf, if_neg (by omega)]
      omega
    · intro y hy h₁ h₂
      rw [hxs, hself] at h₁
      rw [hold hf, if_neg (by omega)] at h₂
      rcases (mem_insertBehind ha).mp hy with rfl | hy
      · rw [hself] at h₁
        omega
      · rw [hold hy] at h₁ h₂
        have hd' := hd y hy (by split at h₁ <;> omega) (by split at h₂ <;> omega)
        rw [isDeleted_link hn, if_neg (by rintro rfl; exact hs hy)]
        exact hd'
  · have hx' : x ∈ order := by
      rcases hx with hx | hx
      · exact absurd hx hxs
      · exact hx
    by_cases hxa : x = after
    · refine ⟨c.size, (mem_insertBehind ha).mpr (Or.inl rfl), ?_, ?_, ?_⟩
      · rw [node_link (lt_size_of_next hn), if_neg hxs, if_pos hxa]; rfl
      · rw [hxa, hself, hold ha, if_pos (Nat.le_refl _)]
        omega
      · intro y _ h₁ h₂
        rw [hself] at h₂
        rw [hxa, hold ha, if_pos (Nat.le_refl _)] at h₁
        omega
    · obtain ⟨g, hg, hgn, hglt, hgd⟩ := h.next x hx' ht
      refine ⟨g, (mem_insertBehind ha).mpr (Or.inr hg), ?_, (idxOf_insertBehind_lt ha hs hx' hg).mpr hglt,
        ?_⟩
      · rw [node_link (lt_size_of_next hn), if_neg hxs, if_neg hxa]; exact hgn
      · intro y hy h₁ h₂
        rcases (mem_insertBehind ha).mp hy with rfl | hy
        -- the new node cannot come between, for then the live node `after` would
        · have hne : order.idxOf x ≠ order.idxOf after := fun he => hxa ((List.idxOf_inj hx').mp he)
          rw [hself] at h₁ h₂
          rw [hold hx'] at h₁
          rw [hold hg] at h₂
          have hlive := hgd after ha (by split at h₁ <;> omega) (by split at h₂ <;> omega)
          rw [isDeleted_of_next hn] at hlive
          cases hlive
        · rw [idxOf_insertBehind_lt ha hs hx' hy] at h₁
          rw [idxOf_insertBehind_lt ha hs hy hg] at h₂
          rw [isDeleted_link hn, if_neg (by rintro rfl; exact hs hy)]
          exact hgd y hy h₁ h₂

/-- A new node behind the live node `after`. -/
theorem Laid.link : Laid (c.link after f a) (insertBehind after c.size order) := by
  obtain ⟨ha, hf, hlt, hd⟩ := h.of_next hn
  have hs := h.size_not_mem
  have hne (x : NodeId) (hx : x ∈ order) : x ≠ c.size := by rintro rfl; exact hs hx
  have ht : after ≠ trailer := by rintro rfl; rw [h.stop] at hn; cases hn
  have hrole (x : NodeId) (hx : x ∈ order) : ((c.link after f a).node x).role = (c.node x).role := by
    rw [node_link (lt_size_of_next hn), if_neg (hne x hx)]
    split
    · next he => rw [he]
    · rfl
  refine ⟨nodup_insertBehind ha hs h.nodup, ?_, ?_, (hrole _ h.header_mem).trans h.atHeader,
    (hrole _ h.trailer_mem).trans h.atTrailer, ?_, ?_, ?_, fun x hx ht => h.link_next hn hx ht,
    ?_⟩
  · intro x
    rw [mem_insertBehind ha, size_link, h.mem, Nat.lt_succ_iff_lt_or_eq]
    exact or_comm
  · obtain ⟨inner, hi⟩ := h.ends
    have ha' : after ∈ header :: inner := by
      have hi' : order = (header :: inner) ++ [trailer] := hi
      rw [hi'] at ha
      rcases List.mem_append.mp ha with ha | ha
      · exact ha
      · exact absurd (List.mem_singleton.mp ha) ht
    have hsplit : insertBehind after c.size order = insertBehind after c.size (header :: inner) ++ [trailer] := by
      rw [hi, ← List.cons_append, insertBehind_append ha']
    rw [hsplit]
    unfold insertBehind
    split
    · exact ⟨c.size :: inner, rfl⟩
    · exact ⟨_, rfl⟩
  · intro x hx h₀ h₁
    rw [carried_link hn]
    rcases (mem_insertBehind ha).mp hx with rfl | hx
    · exact ⟨a, if_pos rfl⟩
    · rw [if_neg (hne x hx)]
      exact h.carrier x hx h₀ h₁
  · rw [node_link (lt_size_of_next hn), if_neg (hne _ h.trailer_mem), if_neg (Ne.symm ht)]
    exact h.stop
  · rw [isDeleted_link hn, if_neg (hne _ h.header_mem)]
    exact h.start
  · intro x b hb
    rw [node_link (lt_size_of_next hn)] at hb
    by_cases hxs : x = c.size
    · rw [if_pos hxs] at hb
      cases hb
      rw [hxs, idxOf_insertBehind_self ha hs, idxOf_insertBehind ha hs ha, if_pos (Nat.le_refl _)]
      exact ⟨(mem_insertBehind ha).mpr (Or.inr ha), Nat.lt_succ_self _⟩
    · have hb' : (c.node x).prev = some b := by
        rw [if_neg hxs] at hb
        split at hb
        · next he => rw [he]; exact hb
        · exact hb
      obtain ⟨hbm, hbx⟩ := h.hint x b hb'
      have hxm : x ∈ order := by
        rw [h.mem]
        rcases Nat.lt_or_ge x c.size with hx | hx
        · exact hx
        · rw [node_of_size_le hx] at hb'; cases hb'
      exact ⟨(mem_insertBehind ha).mpr (Or.inr hbm), (idxOf_insertBehind_lt ha hs hbm hxm).mpr hbx⟩

/-- The new node is linked. -/
theorem Joined.link (j : Joined c order linked) :
    Joined (c.link after f a) (insertBehind after c.size order) (c.size :: linked) := by
  obtain ⟨ha, hf, hlt, hd⟩ := h.of_next hn
  have hs := h.size_not_mem
  have hself := idxOf_insertBehind_self ha hs
  have hold {y : NodeId} (hy : y ∈ order) := idxOf_insertBehind ha hs hy
  have hal : after ∈ linked := j.live after ha (isDeleted_of_next hn)
  obtain ⟨hfl, hfmin⟩ := j.next after hal f (by rw [hn]; rfl)
  refine ⟨List.nodup_cons.mpr ⟨fun hm => hs (j.mem _ hm), j.nodup⟩, ?_, ?_,
    ?_⟩
  · intro x hx
    rw [mem_insertBehind ha]
    rcases List.mem_cons.mp hx with hx | hx
    · exact Or.inl hx
    · exact Or.inr (j.mem x hx)
  · intro x hx hl
    rcases (mem_insertBehind ha).mp hx with hx | hx
    · rw [hx]; exact List.mem_cons_self
    · rw [isDeleted_link hn, if_neg (by rintro rfl; exact hs hx)] at hl
      exact List.mem_cons_of_mem _ (j.live x hx hl)
  · intro x hx g hg
    rw [node_link (lt_size_of_next hn)] at hg
    by_cases hxs : x = c.size
    · rw [if_pos hxs] at hg
      cases hg
      refine ⟨List.mem_cons_of_mem _ hfl, fun y hy h₁ => ?_⟩
      rw [hxs, hself] at h₁
      rcases List.mem_cons.mp hy with rfl | hy
      · rw [hself] at h₁
        omega
      · rw [hold (j.mem y hy)] at h₁ ⊢
        rw [hold hf]
        have := hfmin y hy (by split at h₁ <;> omega)
        split <;> split <;> omega
    · have hxl : x ∈ linked := by
        rcases List.mem_cons.mp hx with hx | hx
        · exact absurd hx hxs
        · exact hx
      rw [if_neg hxs] at hg
      by_cases hxa : x = after
      · rw [if_pos hxa] at hg
        cases hg
        refine ⟨List.mem_cons_self, fun y _ h₁ => ?_⟩
        rw [hself]
        rw [hxa, hold ha, if_pos (Nat.le_refl _)] at h₁
        exact h₁
      · rw [if_neg hxa] at hg
        obtain ⟨hgl, hgmin⟩ := j.next x hxl g hg
        have hx' := j.mem x hxl
        refine ⟨List.mem_cons_of_mem _ hgl, fun y hy h₁ => ?_⟩
        rcases List.mem_cons.mp hy with rfl | hy
        · have hne : order.idxOf x ≠ order.idxOf after := fun he => hxa ((List.idxOf_inj hx').mp he)
          rw [hself] at h₁ ⊢
          rw [hold hx'] at h₁
          have := hgmin after hal (by split at h₁ <;> omega)
          rw [hold (j.mem g hgl)]
          split <;> omega
        · rw [idxOf_insertBehind_lt ha hs hx' (j.mem y hy)] at h₁
          have := hgmin y hy h₁
          rw [hold (j.mem g hgl), hold (j.mem y hy)]
          split <;> split <;> omega

end Link

/-! ## Deletion -/

section Mark

/-- The marker is put behind `x`. -/
def mark (c : Chain α) (x f : NodeId) : Chain α := c.modify x fun n => { n with next := .marker f }

variable (hn : (c.node x).next = .node f)
include hn

theorem node_mark (y : NodeId) :
    (c.mark x f).node y = if y = x then { c.node x with next := .marker f } else c.node y :=
  node_modify c x y _ (lt_size_of_next hn)

theorem isDeleted_mark (y : NodeId) : (c.mark x f).isDeleted y = if y = x then true else c.isDeleted y := by
  rw [isDeleted, node_mark hn]
  split <;> rfl

theorem carried_mark (y : NodeId) : (c.mark x f).carried? y = c.carried? y := by
  rw [carried?, node_mark hn]
  split
  · next h => rw [h]; rfl
  · rfl

/-- A marker leads where the pointer led before. -/
theorem next_mark (y : NodeId) : ((c.mark x f).node y).next.node? = (c.node y).next.node? := by
  rw [node_mark hn]
  split
  · next h => rw [h, hn]; rfl
  · rfl

theorem Laid.mark (h : Laid c order) (h₀ : x ≠ header) : Laid (c.mark x f) order := by
  have ht : x ≠ trailer := by rintro rfl; rw [h.stop] at hn; cases hn
  refine ⟨h.nodup, ?_, h.ends, ?_, ?_, ?_, ?_, ?_, ?_, ?_⟩
  · intro y
    rw [Chain.mark, size_modify]; exact h.mem y
  · rw [node_mark hn, if_neg (Ne.symm h₀)]; exact h.atHeader
  · rw [node_mark hn, if_neg (Ne.symm ht)]; exact h.atTrailer
  · intro y hy h₁ h₂
    rw [carried_mark hn]; exact h.carrier y hy h₁ h₂
  · rw [node_mark hn, if_neg (Ne.symm ht)]; exact h.stop
  · rw [isDeleted_mark hn, if_neg (Ne.symm h₀)]; exact h.start
  · intro y hy hyt
    obtain ⟨g, hg, hgn, hlt, hd⟩ := h.next y hy hyt
    refine ⟨g, hg, by rw [next_mark hn]; exact hgn, hlt, fun z hz h₁ h₂ => ?_⟩
    rw [isDeleted_mark hn, hd z hz h₁ h₂, ite_self]
  · intro y b hb
    rw [node_mark hn] at hb
    refine h.hint y b ?_
    split at hb
    · next he => rw [he]; exact hb
    · exact hb

/-- A deleted node stays linked at first. -/
theorem Joined.mark (j : Joined c order linked) : Joined (c.mark x f) order linked := by
  refine ⟨j.nodup, j.mem, fun y hy hl => j.live y hy ?_, fun y hy g hg => j.next y hy g ?_⟩
  · rw [isDeleted_mark hn] at hl
    split at hl
    · cases hl
    · exact hl
  · rw [← next_mark hn]; exact hg

end Mark

/-! ## Unlinking -/

section Swing

/-- The pointer of the live node `b` is swung to `f`. -/
def swing (c : Chain α) (b f : NodeId) : Chain α := c.modify b fun n => { n with next := .node f }

variable {b : NodeId} (h : Laid c order) (hb : b ∈ order) (hl : c.isDeleted b = false)
include h hb

theorem node_swing (y : NodeId) :
    (c.swing b f).node y = if y = b then { c.node b with next := .node f } else c.node y :=
  node_modify c b y _ ((h.mem b).mp hb)

include hl

/-- Only a pointer changed: the node was live before and is live. -/
theorem alike_swing : Alike c (c.swing b f) where
  size := size_modify c b _
  role y := frame_modify Node.role b y fun _ => rfl
  deleted y := by
    rw [isDeleted, node_swing h hb]
    split
    · next he => rw [he, hl]; rfl
    · rfl
  evicted y := frame_modify Node.evicted b y fun _ => rfl

theorem Laid.swing (hf : f ∈ order) (ht : b ≠ trailer) (hlt : order.idxOf b < order.idxOf f)
    (hd : DeadBetween c order b f) : Laid (c.swing b f) order := by
  have ha := alike_swing (f := f) h hb hl
  refine ⟨h.nodup, ?_, h.ends, ?_, ?_, ?_, ?_, ?_, ?_, ?_⟩
  · intro y
    rw [ha.size]; exact h.mem y
  · rw [ha.role]; exact h.atHeader
  · rw [ha.role]; exact h.atTrailer
  · intro y hy h₁ h₂
    rw [ha.carried]; exact h.carrier y hy h₁ h₂
  · rw [node_swing h hb, if_neg (Ne.symm ht)]; exact h.stop
  · rw [ha.deleted]; exact h.start
  · intro y hy hyt
    have hdead {g : NodeId} (hg : DeadBetween c order y g) : DeadBetween (c.swing b f) order y g :=
      fun z hz h₁ h₂ => by rw [ha.deleted]; exact hg z hz h₁ h₂
    by_cases hyb : y = b
    · subst hyb
      rw [node_swing h hb, if_pos rfl]
      exact ⟨f, hf, rfl, hlt, hdead hd⟩
    · obtain ⟨g, hg, hgn, hglt, hgd⟩ := h.next y hy hyt
      exact ⟨g, hg, by rw [node_swing h hb, if_neg hyb]; exact hgn, hglt, hdead hgd⟩
  · intro y p hp
    rw [node_swing h hb] at hp
    refine h.hint y p ?_
    split at hp
    · next he => rw [he]; exact hp
    · exact hp

/-- The nodes passed over are unlinked, all others stay linked. -/
theorem Joined.swing {dead rest : List NodeId} (j : Joined c order linked) (hf : f ∈ linked)
    (hp : linked.Perm (dead ++ rest))
    (hdead : ∀ y ∈ linked, y ∈ dead ↔ order.idxOf b < order.idxOf y ∧ order.idxOf y < order.idxOf f)
    (hd : DeadBetween c order b f) : Joined (c.swing b f) order rest := by
  have ha := alike_swing (f := f) h hb hl
  have hnd := hp.nodup_iff.mp j.nodup
  have hsub {y : NodeId} (hy : y ∈ rest) : y ∈ linked := hp.mem_iff.mpr (List.mem_append_right _ hy)
  have hrest {y : NodeId} (hy : y ∈ linked) (hout : order.idxOf y ≤ order.idxOf b ∨ order.idxOf f ≤ order.idxOf y) :
      y ∈ rest := by
    rcases List.mem_append.mp (hp.mem_iff.mp hy) with hyd | hyr
    · have := (hdead y hy).mp hyd
      omega
    · exact hyr
  have hout {y : NodeId} (hy : y ∈ rest) : order.idxOf y ≤ order.idxOf b ∨ order.idxOf f ≤ order.idxOf y := by
    have hyd : y ∉ dead := fun hyd => (List.nodup_append.mp hnd).2.2 y hyd y hy rfl
    rw [hdead y (hsub hy)] at hyd
    omega
  refine ⟨(List.nodup_append.mp hnd).2.1, fun y hy => j.mem y (hsub hy), ?_, ?_⟩
  · intro y hy hyl
    rw [ha.deleted] at hyl
    refine hrest (j.live y hy hyl) ?_
    by_cases h₁ : order.idxOf b < order.idxOf y
    · by_cases h₂ : order.idxOf y < order.idxOf f
      · rw [hd y hy h₁ h₂] at hyl
        cases hyl
      · omega
    · omega
  · intro y hy g hg
    by_cases hyb : y = b
    · rw [node_swing h hb, if_pos hyb] at hg
      cases hg
      refine ⟨hrest hf (Or.inr (Nat.le_refl _)), fun z hz h₁ => ?_⟩
      rw [hyb] at h₁
      have := hout hz
      omega
    · rw [node_swing h hb, if_neg hyb] at hg
      obtain ⟨hgl, hgmin⟩ := j.next y (hsub hy) g hg
      refine ⟨hrest hgl ?_, fun z hz h₁ => hgmin z (hsub hz) h₁⟩
      have hbl : b ∈ linked := j.live b hb hl
      have hym := j.mem y (hsub hy)
      have hne : order.idxOf y ≠ order.idxOf b := fun he => hyb ((List.idxOf_inj hym).mp he)
      rcases hout hy with h₁ | h₁
      · exact Or.inl (hgmin b hbl (by omega))
      · right
        have hyt : y ≠ trailer := by rintro rfl; rw [h.stop] at hg; cases hg
        obtain ⟨g', -, hg', hlt, -⟩ := h.next y hym hyt
        rw [hg] at hg'
        cases hg'
        omega

end Swing

end LeastRecent.Chain
