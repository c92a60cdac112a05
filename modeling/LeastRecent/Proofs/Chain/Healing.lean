import Mathlib.Data.List.Chain
import LeastRecent.Proofs.Chain.Lasting
import LeastRecent.Proofs.Chain.Recent
import LeastRecent.Proofs.Chain.Spine

/-!
# A walk heals the chain

Deleted nodes may stay linked, hints may be out of date, and a chain of hints may keep nodes from being retired. A step
forward from a live node leaves the node with a pointer at the next live one and that one with a hint at it (`Repairs`,
`Sound.repairs_successor`), and spoils no hint of a live node. So a walk from the header puts the live nodes right one
after another (`Healed`, `Sound.healed_walk`). In the end the spine has no deleted node, each hint on it is at the node
before, and every deleted node is retired: one that is kept would be kept by a hint, of a deleted node further behind
that is kept itself, and there is no last one (`Tidy`, `Sound.tidy_walk`).
-/

namespace LeastRecent.Chain

variable {α : Type} {c c' c'' : Chain α} {order held : List NodeId} {x y f p : NodeId}

/-! ## Links given back -/

/-- Nothing changed but that some links and hints are gone. -/
structure Loosens (c c' : Chain α) : Prop where
  next : ∀ y, (c'.node y).next = (c.node y).next
  prev : ∀ y b, (c'.node y).prev = some b → (c.node y).prev = some b
  links : ∀ y, (c'.node y).links ≤ (c.node y).links

namespace Loosens

theorem refl (c : Chain α) : Loosens c c := ⟨fun _ => rfl, fun _ _ => id, fun _ => Nat.le_refl _⟩

/-- The nodes are the same. -/
theorem of_nodes (h : c'.nodes = c.nodes) : Loosens c c' := by
  have hnode (y : NodeId) : c'.node y = c.node y := by rw [node, node, h]
  exact ⟨fun y => by rw [hnode], fun y b hb => by rwa [hnode] at hb, fun y => by rw [hnode]⟩

theorem trans (h : Loosens c c') (h' : Loosens c' c'') : Loosens c c'' where
  next y := (h'.next y).trans (h.next y)
  prev y b hb := h.prev y b (h'.prev y b hb)
  links y := Nat.le_trans (h'.links y) (h.links y)

end Loosens

/-- One node is changed, which may lose its hint and links. -/
theorem loosens_modify (x : NodeId) {g : Node α → Node α} (hn : (g (c.node x)).next = (c.node x).next)
    (hp : ∀ b, (g (c.node x)).prev = some b → (c.node x).prev = some b)
    (hl : (g (c.node x)).links ≤ (c.node x).links) : Loosens c (c.modify x g) := by
  rcases Nat.lt_or_ge x c.size with hx | hx
  · have hnode (y : NodeId) := node_modify c x y g hx
    refine ⟨fun y => ?_, fun y b hb => ?_, fun y => ?_⟩
    · rw [hnode]
      split
      · next he => rw [he, hn]
      · rfl
    · rw [hnode] at hb
      split at hb
      · next he => rw [he]; exact hp b hb
      · exact hb
    · rw [hnode]
      split
      · next he => rw [he]; exact hl
      · exact Nat.le_refl _
  · have hnode (y : NodeId) := node_modify_of_size_le hx g y
    exact ⟨fun y => by rw [hnode], fun y b hb => by rwa [hnode] at hb, fun y => by rw [hnode]⟩

theorem loosens_retire (c : Chain α) (x : NodeId) : Loosens c (c.retire x) := by
  unfold retire
  split <;> exact .of_nodes rfl

theorem loosens_releaseWithin (fuel : Nat) (c : Chain α) (x : Option NodeId) : Loosens c (c.releaseWithin fuel x) := by
  induction fuel generalizing c x with
  | zero => exact Loosens.refl c
  | succ fuel ih =>
    cases x with
    | none => exact Loosens.refl c
    | some x =>
      unfold releaseWithin
      split
      · exact .of_nodes rfl
      · have h : Loosens c (c.modify x fun n => { n with links := 0, prev := none }) :=
          loosens_modify x rfl (fun b hb => by cases hb) (Nat.zero_le _)
        exact (h.trans (loosens_retire _ x)).trans (ih _ _)
      · next k hk => exact loosens_modify x rfl (fun b hb => hb) (by rw [hk]; exact Nat.le_succ _)

theorem loosens_release? (c : Chain α) (x : Option NodeId) : Loosens c (c.release? x) := loosens_releaseWithin _ c x

theorem loosens_release (c : Chain α) (x : NodeId) : Loosens c (c.release x) := loosens_release? c (some x)

theorem loosens_releaseAll (xs : List NodeId) (c : Chain α) : Loosens c (c.releaseAll xs) := by
  induction xs generalizing c with
  | nil => exact Loosens.refl c
  | cons x xs ih => exact (loosens_release c x).trans (ih _)

/-! ## One hint -/

/-- A node of which a link was taken was linked. -/
theorem lt_size_of_acquire (h : c.acquire x = some c') : x < c.size := by
  rcases Nat.lt_or_ge x c.size with hx | hx
  · exact hx
  · rw [acquire, node_of_size_le hx] at h
    cases h

/-- A link that is taken is a change of the count alone. -/
theorem node_acquire (h : c.acquire x = some c') (y : NodeId) :
    (c'.node y).next = (c.node y).next ∧ (c'.node y).prev = (c.node y).prev := by
  unfold acquire at h
  split at h
  · cases h
  · cases h
    exact ⟨frame_modify Node.next x y fun _ => rfl, frame_modify Node.prev x y fun _ => rfl⟩

/-- To set a hint is to take two links, to move the hint, and to give two links back. -/
theorem loosens_moved {c₁ c₂ : Chain α} (h₁ : c.acquire x = some c₁) (h₂ : c₁.acquire p = some c₂) :
    Loosens (c₂.modify x fun n => { n with prev := some p }) (c.setHint x p) ∧
      ∀ y, (c₂.modify x fun n => { n with prev := some p }).node y =
        if y = x then { c₂.node x with prev := some p } else c₂.node y := by
  have hx : x < c₂.size := by
    rw [(retains_acquire h₂).size, (retains_acquire h₁).size]
    exact lt_size_of_acquire h₁
  refine ⟨?_, fun y => node_modify c₂ x y _ hx⟩
  unfold setHint
  rw [h₁]
  dsimp only
  rw [h₂]
  exact (loosens_release? _ _).trans (loosens_release _ x)

theorem setHint_refused {c₁ : Chain α} (h₁ : c.acquire x = some c₁) (h₂ : c₁.acquire p = none) :
    c.setHint x p = c₁.release x := by
  unfold setHint
  rw [h₁]
  dsimp only
  rw [h₂]

/-- When a hint is set, no pointer is changed, and other hints are at most lost. -/
theorem frame_setHint (c : Chain α) (x p : NodeId) :
    (∀ y, ((c.setHint x p).node y).next = (c.node y).next) ∧
      ∀ y, y ≠ x → ∀ b, ((c.setHint x p).node y).prev = some b → (c.node y).prev = some b := by
  cases h₁ : c.acquire x with
  | none =>
    rw [setHint, h₁]
    exact ⟨fun _ => rfl, fun _ _ _ => id⟩
  | some c₁ =>
    cases h₂ : c₁.acquire p with
    | none =>
      have h := loosens_release c₁ x
      rw [setHint_refused h₁ h₂]
      exact ⟨fun y => (h.next y).trans (node_acquire h₁ y).1, fun y _ b hb => (node_acquire h₁ y).2 ▸ h.prev y b hb⟩
    | some c₂ =>
      obtain ⟨h, hnode⟩ := loosens_moved h₁ h₂
      refine ⟨fun y => (h.next y).trans ?_, fun y hy b hb => ?_⟩
      · refine Eq.trans ?_ ((node_acquire h₂ y).1.trans (node_acquire h₁ y).1)
        rw [hnode]
        split
        · next he => rw [he]
        · rfl
      · have hb₂ := h.prev y b hb
        rw [hnode, if_neg hy, (node_acquire h₂ y).2, (node_acquire h₁ y).2] at hb₂
        exact hb₂

/-- A hint is set if both nodes keep links and the node keeps a hint. -/
theorem prev_setHint (hx : ((c.setHint x p).node x).links ≠ 0) (hp : ((c.setHint x p).node p).links ≠ 0)
    (hh : ((c.setHint x p).node x).prev ≠ none) : ((c.setHint x p).node x).prev = some p := by
  cases h₁ : c.acquire x with
  | none =>
    rw [setHint, h₁] at hx
    exact absurd (acquire_eq_none h₁) hx
  | some c₁ =>
    cases h₂ : c₁.acquire p with
    | none =>
      have hle := (loosens_release c₁ x).links p
      rw [acquire_eq_none h₂, ← setHint_refused h₁ h₂] at hle
      exact absurd (Nat.le_zero.mp hle) hp
    | some c₂ =>
      obtain ⟨h, hnode⟩ := loosens_moved h₁ h₂
      obtain ⟨b, hb⟩ := Option.ne_none_iff_exists'.mp hh
      have hmoved := h.prev x b hb
      rw [hnode, if_pos rfl] at hmoved
      exact hb.trans hmoved.symm

/-! ## One step -/

/-- From `c` to `c'` the pointer of `x` was set to `f` and the hint of `f` to `x`; other hints may have got lost. -/
structure Repairs (c c' : Chain α) (x f : NodeId) : Prop where
  pointer : (c'.node x).next = .node f
  pointers : ∀ y, y ≠ x → (c'.node y).next = (c.node y).next
  hint : (c'.node f).prev = some x
  hints : ∀ y, y ≠ f → ∀ b, (c'.node y).prev = some b → (c.node y).prev = some b

namespace Sound

/-- A live node but the header has a hint. -/
theorem prev_ne_none (h : Sound c order held) (hx : x ∈ order) (hl : c.isDeleted x = false) (h₀ : x ≠ header) :
    (c.node x).prev ≠ none := by
  obtain ⟨linked, -, hc⟩ := h.counted
  intro hn
  rcases (hc.unhinted x ((h.laid.mem x).mp hx)).mp hn with hm | hz
  · exact h₀ (List.mem_singleton.mp hm)
  · exact h.links_of_live hx hl hz

/-- What a bypass leaves behind, if the chain is sound then and both nodes are live. -/
theorem repairs_bypass {dead : List NodeId} (h : Sound (c.bypass x dead f) order held) (hx : x ∈ order)
    (hf : f ∈ order) (hxl : (c.bypass x dead f).isDeleted x = false) (hfl : (c.bypass x dead f).isDeleted f = false)
    (h₀ : f ≠ header) : Repairs c (c.bypass x dead f) x f := by
  have hlt : x < c.size := by
    have hlt := (h.laid.mem x).mp hx
    rwa [(retains_bypass c x dead f).size] at hlt
  have hnode (y : NodeId) := node_modify c x y (fun n => { n with next := .node f }) hlt
  have hloose := loosens_releaseAll dead (c.modify x fun n => { n with next := .node f })
  have hpointer {c' : Chain α} (hn : ∀ y, (c'.node y).next = ((c.modify x fun n => { n with next := .node f }).node y).next) :
      (c'.node x).next = .node f ∧ ∀ y, y ≠ x → (c'.node y).next = (c.node y).next := by
    refine ⟨by rw [hn, hnode, if_pos rfl], fun y hy => by rw [hn, hnode, if_neg hy]⟩
  have hprev (y b : NodeId)
      (hb : (((c.modify x fun n => { n with next := .node f }).releaseAll dead).node y).prev = some b) :
      (c.node y).prev = some b := by
    have hb₁ := hloose.prev y b hb
    rw [hnode] at hb₁
    split at hb₁
    · next he => rw [he]; exact hb₁
    · exact hb₁
  by_cases hset : (((c.modify x fun n => { n with next := .node f }).releaseAll dead).node f).prev = some x
  · have he : c.bypass x dead f = (c.modify x fun n => { n with next := .node f }).releaseAll dead := if_pos hset
    rw [he]
    obtain ⟨h₁, h₂⟩ := hpointer hloose.next
    exact ⟨h₁, h₂, hset, fun y _ b hb => hprev y b hb⟩
  · have he : c.bypass x dead f = ((c.modify x fun n => { n with next := .node f }).releaseAll dead).setHint f x :=
      if_neg hset
    -- to set the hint can only fail if one of the two nodes has no links, but both live
    have hneed := h.prev_ne_none hf hfl h₀
    have hlinks := h.links_of_live hf hfl
    have hlinks' := h.links_of_live hx hxl
    rw [he] at hneed hlinks hlinks' ⊢
    obtain ⟨hnext, hhints⟩ := frame_setHint ((c.modify x fun n => { n with next := .node f }).releaseAll dead) f x
    obtain ⟨h₁, h₂⟩ := hpointer fun y => (hnext y).trans (hloose.next y)
    exact ⟨h₁, h₂, prev_setHint hlinks hlinks' hneed, fun y hy b hb => hprev y b (hhints y hy b hb)⟩

/-- **A step forward** from a live node sets the pointer of the node and the hint of the next one right. -/
theorem repairs_successor (h : Sound c order held) (hx : x ∈ order) (hl : c.isDeleted x = false) (ht : x ≠ trailer) :
    ∃ f, (c.successor x).2 = some f ∧ IsNext c order x f ∧ Sound (c.successor x).1 order held ∧
      Alike c (c.successor x).1 ∧ Repairs c (c.successor x).1 x f := by
  obtain ⟨f, hf, hn, h', a⟩ := h.successor hx ht
  refine ⟨f, hf, hn, h', a, ?_⟩
  have h₀ : f ≠ header := h.laid.ne_header hn.lt
  obtain ⟨dead, he⟩ : ∃ dead, (c.successor x).1 = c.bypass x dead f := by
    unfold Chain.successor at hf ⊢
    split at hf
    · cases hf
    · next dead f' hskim =>
      cases hf
      exact ⟨dead, by rw [hl]; rfl⟩
  rw [he] at h' a ⊢
  exact repairs_bypass h' hx hn.mem ((a.deleted x).trans hl) ((a.deleted f).trans hn.live) h₀

end Sound

/-! ## All steps -/

/-- The live nodes at the first `i` positions point at the next live node each, and that has its hint at them. -/
def Healed (c : Chain α) (order : List NodeId) (i : Nat) : Prop :=
  ∀ y f, y ∈ order → c.isDeleted y = false → order.idxOf y < i → IsNext c order y f →
    (c.node y).next = .node f ∧ (c.node f).prev = some y

/-- The node behind is unique. -/
theorem IsNext.unique {g : NodeId} (h : IsNext c order x f) (h' : IsNext c order x g) : f = g := by
  rcases Nat.lt_trichotomy (order.idxOf f) (order.idxOf g) with hlt | he | hlt
  · have hd := h'.between f h.mem h.lt hlt
    rw [h.live] at hd
    cases hd
  · exact (List.idxOf_inj h.mem).mp he
  · have hd := h.between g h'.mem h'.lt hlt
    rw [h'.live] at hd
    cases hd

/-- No live node lies between a node and the next live one. -/
theorem IsNext.le (h : IsNext c order x f) (hy : y ∈ order) (hl : c.isDeleted y = false)
    (hlt : order.idxOf x < order.idxOf y) : order.idxOf f ≤ order.idxOf y := by
  rcases Nat.lt_or_ge (order.idxOf y) (order.idxOf f) with hyf | hyf
  · have hd := h.between y hy hlt hyf
    rw [hl] at hd
    cases hd
  · exact hyf

/-- A step forward heals one node more. -/
theorem Healed.step (hh : Healed c order (order.idxOf x)) (h' : Sound c' order held) (a : Alike c c') (hx : x ∈ order)
    (hl : c.isDeleted x = false) (hn : IsNext c order x f) (r : Repairs c c' x f) : Healed c' order (order.idxOf f) := by
  intro y g hy hyl hlt hg
  have hyl' : c.isDeleted y = false := (a.deleted y).symm.trans hyl
  have hg' : IsNext c order y g := hg.alike a
  rcases Nat.lt_trichotomy (order.idxOf y) (order.idxOf x) with hyx | hyx | hyx
  · obtain ⟨hnext, hprev⟩ := hh y g hy hyl' hyx hg'
    have hne : y ≠ x := by
      rintro rfl
      exact Nat.lt_irrefl _ hyx
    have hgf : g ≠ f := by
      rintro rfl
      have hgx := hg'.le hx hl hyx
      have hxg := hn.lt
      omega
    have hg₀ : g ≠ header := h'.laid.ne_header hg.lt
    obtain ⟨b, hb⟩ := Option.ne_none_iff_exists'.mp (h'.prev_ne_none hg.mem hg.live hg₀)
    rw [r.pointers y hne, hb, ← r.hints g hgf b hb]
    exact ⟨hnext, hprev⟩
  · obtain rfl := (List.idxOf_inj hy).mp hyx
    obtain rfl := hn.unique hg'
    exact ⟨r.pointer, r.hint⟩
  · have hle := hn.le hy hyl' hyx
    omega

namespace Sound

theorem healed_iterate : ∀ (fuel : Nat) {c : Chain α}, Sound c order held → ∀ {x : NodeId}, x ∈ order →
    c.isDeleted x = false → Healed c order (order.idxOf x) → c.size ≤ fuel + order.idxOf x →
    Healed (iterate Chain.forward fuel c x).1 order (order.idxOf trailer)
  | 0, c, h, x, hx, _, _, hb => by
    have hlt := h.laid.idxOf_lt hx
    omega
  | fuel + 1, c, h, x, hx, hl, hh, hb => by
    unfold iterate
    by_cases ht : x = trailer
    · subst ht
      have he : c.forward trailer = (c, none) := by
        rw [Chain.forward, h.successor_trailer]
        rfl
      rw [he]
      exact hh
    · obtain ⟨f, hf, hn, h', a, r⟩ := h.repairs_successor hx hl ht
      have hh' := hh.step h' a hx hl hn r
      have he : c.forward x = ((c.successor x).1, (c.successor x).1.hideSentinel (some f)) := by
        rw [← hf]
        rfl
      rw [he, hideSentinel, Option.filter_some]
      cases hs : (c.successor x).1.isSentinel f with
      | false =>
        refine healed_iterate fuel h' hn.mem ((a.deleted f).trans hn.live) hh' ?_
        have hlt := hn.lt
        rw [a.size]
        omega
      | true =>
        rcases (h'.laid.isSentinel_iff hn.mem).mp hs with he | rfl
        · exact absurd he (h.laid.ne_header hn.lt)
        · exact hh'

/-- **A walk from the header** heals all nodes. -/
theorem healed_walk (h : Sound c order held) : Healed (c.walk header).1 order (order.idxOf trailer) := by
  refine h.healed_iterate c.size h.laid.header_mem h.laid.start (fun y f _ _ hlt _ => ?_) (Nat.le_add_right _ _)
  rw [h.laid.idxOf_header] at hlt
  exact absurd hlt (Nat.not_lt_zero _)

end Sound

/-! ## A tidy chain -/

/-- The chain leads along the live nodes only, each hint on it is at the node before, and what was deleted was retired. -/
structure Tidy (c : Chain α) : Prop where
  spine : c.spine = header :: (c.recent ++ [trailer])
  hints : c.spine.IsChain fun x y => (c.node y).prev = some x
  retired : ∀ x < c.size, x ∈ c.retired ↔ c.isDeleted x = true

/-- The nodes that are not deleted. -/
def lasting (c : Chain α) (xs : List NodeId) : List NodeId := xs.filter fun y => !c.isDeleted y

section Tidy

variable (h : Sound c order held) (hh : Healed c order (order.idxOf trailer))
include h

/-- Every node but the trailer has a live node behind it. -/
theorem Sound.exists_next (hx : x ∈ order) (ht : x ≠ trailer) : ∃ f, IsNext c order x f := by
  obtain ⟨f, -, hn, -⟩ := h.successor hx ht
  exact ⟨f, hn⟩

include hh

/-- In a healed chain the live nodes are a path to the trailer, and each hint is at the node before. -/
theorem Sound.path_of_healed : ∀ (n : Nat) {x : NodeId}, x ∈ order → c.isDeleted x = false →
    c.size ≤ n + order.idxOf x → ∃ xs, Path c x xs ∧
      xs ++ [trailer] = x :: c.lasting (order.drop (order.idxOf x + 1)) ∧
      (x :: c.lasting (order.drop (order.idxOf x + 1))).IsChain fun x y => (c.node y).prev = some x
  | 0, x, hx, _, hb => by
    have hlt := h.laid.idxOf_lt hx
    omega
  | n + 1, x, hx, hl, hb => by
    by_cases ht : x = trailer
    · have hnone : c.lasting (order.drop (order.idxOf x + 1)) = [] := by
        rw [lasting, List.filter_eq_nil_iff]
        intro z hz
        obtain ⟨hzm, hlt⟩ := (mem_drop_iff h.laid.nodup).mp hz
        by_cases hzt : z = trailer
        · rw [hzt, ht] at hlt
          omega
        · have hzlt := h.laid.idxOf_lt_trailer hzm hzt
          rw [ht] at hlt
          omega
      rw [hnone]
      exact ⟨[], ht ▸ .stop, by rw [ht]; rfl, List.isChain_singleton _⟩
    · obtain ⟨f, hn⟩ := h.exists_next hx ht
      have hcons : c.lasting (order.drop (order.idxOf x + 1)) = f :: c.lasting (order.drop (order.idxOf f + 1)) :=
        filter_drop_idxOf h.laid.nodup hn.lt (fun z hz h₁ h₂ => by rw [hn.between z hz h₁ h₂]; rfl) hn.mem
          (by rw [hn.live]; rfl)
      obtain ⟨hnext, hprev⟩ := hh x f hx hl (h.laid.idxOf_lt_trailer hx ht) hn
      have hlt := hn.lt
      obtain ⟨xs, hp, he, hc⟩ := Sound.path_of_healed n hn.mem hn.live (by omega)
      rw [hcons]
      refine ⟨x :: xs, .step ht (by rw [hnext]; rfl) hp, ?_, List.isChain_cons_cons.mpr ⟨hprev, hc⟩⟩
      rw [List.cons_append, he]

omit hh in
/-- The live nodes are the sentinels and the live entries. -/
theorem Sound.lasting_header : c.lasting (order.drop (order.idxOf header + 1)) = c.recent ++ [trailer] := by
  obtain ⟨inner, hi⟩ := h.laid.ends
  have hdrop : order.drop (order.idxOf header + 1) = inner ++ [trailer] := by
    rw [h.laid.idxOf_header, hi]
    rfl
  have hnd := h.laid.nodup
  rw [hi] at hnd
  have hentry (y : NodeId) (hy : y ∈ inner) : c.isSentinel y = false := by
    have hym : y ∈ order := by
      rw [hi]
      exact List.mem_cons_of_mem _ (List.mem_append_left _ hy)
    cases hs : c.isSentinel y with
    | false => rfl
    | true =>
      rcases (h.laid.isSentinel_iff hym).mp hs with rfl | rfl
      · exact absurd (List.mem_append_left _ hy) (List.nodup_cons.mp hnd).1
      · exact absurd rfl ((List.nodup_append.mp (List.nodup_cons.mp hnd).2).2.2 _ hy _ List.mem_cons_self)
  have hinner : c.lasting inner = c.livings inner :=
    List.filter_congr fun y hy => by rw [hentry y hy, Bool.not_false, Bool.and_true]
  have htrailer : c.isSentinel trailer = true := (h.laid.isSentinel_iff h.laid.trailer_mem).mpr (Or.inr rfl)
  rw [h.recent, ← h.laid.livings_header, hdrop, lasting, List.filter_append, livings, List.filter_append]
  have h₁ : [trailer].filter (fun y => !c.isDeleted y) = [trailer] := by
    rw [List.filter_cons, h.laid.trailer_live]
    rfl
  have h₂ : [trailer].filter (fun y => !c.isDeleted y && !c.isSentinel y) = [] := by
    rw [List.filter_cons, htrailer, Bool.not_true, Bool.and_false]
    rfl
  rw [h₁, h₂, List.append_nil]
  exact congrArg (· ++ [trailer]) hinner

/-- In a healed chain a deleted node is kept by nothing but a hint of a deleted node behind it that is kept itself. -/
theorem Sound.kept_by_hint (hspine : ∀ x ∈ c.spine, c.isDeleted x = false)
    (hheld : ∀ x ∈ held, c.isDeleted x = false) (hx : x ∈ order) (hd : c.isDeleted x = true)
    (hk : (c.node x).links ≠ 0) :
    ∃ y ∈ order, c.isDeleted y = true ∧ (c.node y).links ≠ 0 ∧ order.idxOf x < order.idxOf y := by
  obtain ⟨linked, j, hc⟩ := h.counted
  -- neither the chain nor a holder has a link of `x`, so a hint has one
  have htoken : (linked ++ held).count x = 0 := by
    refine List.count_eq_zero.mpr fun hm => ?_
    have hlive : c.isDeleted x = false := by
      rcases List.mem_append.mp hm with hm | hm
      · exact hspine x ((j.mem_spine h.laid).mpr hm)
      · exact hheld x hm
    rw [hlive] at hd
    cases hd
  have hlinks := hc.links x ((h.laid.mem x).mp hx)
  have hcount : 0 < c.hints.count (some x) := by omega
  obtain ⟨y, hy, hprev⟩ := List.mem_map.mp (List.count_pos_iff.mp hcount)
  have hym : y ∈ order := (h.laid.mem y).mpr (List.mem_range.mp hy)
  have hlt := (h.laid.hint y x hprev).2
  refine ⟨y, hym, ?_, ?_, hlt⟩
  · cases hyl : c.isDeleted y with
    | true => rfl
    | false =>
      -- the hint of a live node is at the live node before it
      obtain ⟨p, hp⟩ := (h.predecessor hym).2.2.2 hyl (h.laid.ne_header hlt)
      have hprevious := (h.predecessor hym).2.2.1 p hp
      have hpt : order.idxOf p < order.idxOf trailer := by
        by_cases hyt : y = trailer
        · rw [← hyt]
          exact hprevious.lt
        · exact Nat.lt_trans hprevious.lt (h.laid.idxOf_lt_trailer hym hyt)
      have hhint := (hh p y hprevious.mem hprevious.live hpt ⟨hym, hyl, hprevious.lt, hprevious.between⟩).2
      rw [hprev] at hhint
      obtain rfl := Option.some.inj hhint
      rw [hprevious.live] at hd
      cases hd
  · intro hz
    rw [(hc.unhinted y ((h.laid.mem y).mp hym)).mpr (Or.inr hz)] at hprev
    cases hprev

/-- **A healed chain is tidy** if the nodes are live that are held from outside. -/
theorem Sound.tidy_of_healed (hheld : ∀ x ∈ held, c.isDeleted x = false) : Tidy c := by
  obtain ⟨xs, hp, he, hc⟩ := h.path_of_healed hh c.size h.laid.header_mem h.laid.start (Nat.le_add_right _ _)
  rw [h.lasting_header] at he hc
  have hlen : xs.length < c.size := by
    have hle : (c.recent ++ [trailer]).length ≤ c.size - 1 := by
      rw [← h.lasting_header, ← h.laid.ranked.length, h.laid.idxOf_header, ← List.length_drop]
      exact List.length_filter_le _ _
    have hpos := h.laid.size_pos
    have hlen := congrArg List.length he
    simp only [List.length_append, List.length_cons, List.length_nil] at hlen hle
    omega
  have hspine : c.spine = header :: (c.recent ++ [trailer]) := (hp.trail_eq h.laid.stop c.size hlen).trans he
  have hlive : ∀ x ∈ c.spine, c.isDeleted x = false := by
    intro x hx
    rw [hspine] at hx
    rcases List.mem_cons.mp hx with rfl | hx
    · exact h.laid.start
    · rcases List.mem_append.mp hx with hx | hx
      · exact (h.mem_recent.mp hx).1
      · rw [List.mem_singleton.mp hx]
        exact h.laid.trailer_live
  -- no deleted node is kept, by induction on the number of nodes behind it
  have hgone : ∀ n, ∀ x ∈ order, c.isDeleted x = true → c.size ≤ n + order.idxOf x → (c.node x).links = 0 := by
    intro n
    induction n with
    | zero =>
      intro x hx _ hb
      have hlt := h.laid.idxOf_lt hx
      omega
    | succ n ih =>
      intro x hx hd hb
      by_contra hk
      obtain ⟨y, hy, hyd, hyk, hlt⟩ := h.kept_by_hint hh hlive hheld hx hd hk
      exact hyk (ih y hy hyd (by omega))
  refine ⟨hspine, by rw [hspine]; exact hc, fun x hx => ?_⟩
  obtain ⟨linked, -, hcounted⟩ := h.counted
  have hxm := (h.laid.mem x).mpr hx
  rw [hcounted.retired]
  constructor
  · rintro ⟨-, hz⟩
    cases hd : c.isDeleted x with
    | true => rfl
    | false => exact absurd hz (h.links_of_live hxm hd)
  · exact fun hd => ⟨hx, hgone c.size x hxm hd (Nat.le_add_right _ _)⟩

end Tidy

/-- **A walk from the header leaves a tidy chain** if the nodes are live that are held from outside. -/
theorem Sound.tidy_walk (h : Sound c order held) (hheld : ∀ x ∈ held, c.isDeleted x = false) :
    Tidy (c.walk header).1 := by
  obtain ⟨h', a, -⟩ := h.walk h.laid.header_mem
  exact h'.tidy_of_healed h.healed_walk fun x hx => (a.deleted x).trans (hheld x hx)

end LeastRecent.Chain
