import LeastRecent.Cache.Call
import LeastRecent.Proofs.Chain.Walks
import LeastRecent.Proofs.Index.Slots

/-!
# Who has which node

A node that carries an entry has one owner while it is live: the index, a call that has linked it and not yet published
it (`fresh`), or a call that took it out of the index and is about to delete it. The owners are the same as the holders
of links, so `Custody` speaks of the list `all` of all nodes that have an owner.

* A fresh node can be deleted by nobody but an eviction, which marks it (`spared`): a call that means to delete a node
  has found it in the index (`sought`), where no fresh node is (`unsought`).
* What happens to the chain keeps custody: `Custody.alike`, `Custody.bury`, `Custody.evict`, `Custody.grow`. A deleted
  node may lose its owner (`Custody.drop`).

`Filed` says that each slot of the index has a node with an equal key.
-/

namespace LeastRecent.Cache

open Chain (Ages Alike Buries Grows)

variable {κ ν : Type} {ch ch' : Chain (Entry Nat κ ν)} {x y : NodeId} {k : κ} {e : Entry Nat κ ν}
  {all all' fresh fresh' sought sought' : List NodeId}

/-- The live nodes have an owner each, and no fresh node is deleted but by an eviction. -/
structure Custody (ch : Chain (Entry Nat κ ν)) (all fresh sought : List NodeId) : Prop where
  apart : all.Nodup
  cover : ∀ x, ch.isDeleted x = false → ch.isSentinel x = false → x ∈ all
  marked : ∀ x, ch.isEvicted x = true → ch.isDeleted x = true
  spared : ∀ x ∈ fresh, ch.isDeleted x = true → ch.isEvicted x = true
  unsought : ∀ x ∈ sought, x ∉ fresh

namespace Custody

theorem perm (h : Custody ch all fresh sought) (hp : all.Perm all') : Custody ch all' fresh sought where
  apart := hp.nodup_iff.mp h.apart
  cover x hd hs := hp.mem_iff.mp (h.cover x hd hs)
  marked := h.marked
  spared := h.spared
  unsought := h.unsought

/-- Nodes cease to be fresh, and calls look for other nodes that are not fresh. -/
theorem relax (h : Custody ch all fresh sought) (hf : ∀ x ∈ fresh', x ∈ fresh)
    (hs : ∀ x ∈ sought', x ∈ sought ∨ x ∉ fresh) : Custody ch all fresh' sought' where
  apart := h.apart
  cover := h.cover
  marked := h.marked
  spared x hx := h.spared x (hf x hx)
  unsought x hx hm := by
    rcases hs x hx with hs | hs
    · exact h.unsought x hs (hf x hm)
    · exact hs (hf x hm)

/-- A deleted node needs no owner. -/
theorem drop (h : Custody ch (x :: all) fresh sought) (hx : ch.isDeleted x = true) : Custody ch all fresh sought where
  apart := (List.nodup_cons.mp h.apart).2
  cover y hd hs := by
    rcases List.mem_cons.mp (h.cover y hd hs) with rfl | hy
    · rw [hx] at hd
      cases hd
    · exact hy
  marked := h.marked
  spared := h.spared
  unsought := h.unsought

theorem alike (h : Custody ch all fresh sought) (a : Alike ch ch') : Custody ch' all fresh sought where
  apart := h.apart
  cover x hd hs := h.cover x (by rw [← a.deleted]; exact hd) (by rw [← a.isSentinel]; exact hs)
  marked x hx := by
    rw [a.deleted]
    exact h.marked x (by rw [← a.evicted]; exact hx)
  spared x hx hd := by
    rw [a.evicted]
    exact h.spared x hx (by rw [← a.deleted]; exact hd)
  unsought := h.unsought

/-- A node that is not fresh is deleted. -/
theorem bury (h : Custody ch all fresh sought) (b : Buries ch ch' x) (hx : x ∉ fresh) :
    Custody ch' all fresh sought where
  apart := h.apart
  cover y hd hs := by
    rw [b.deleted] at hd
    split at hd
    · cases hd
    · exact h.cover y hd (by rw [← b.isSentinel]; exact hs)
  marked y hy := by
    rw [b.evicted] at hy
    rw [b.deleted, h.marked y hy, ite_self]
  spared y hy hd := by
    rw [b.deleted] at hd
    rw [b.evicted]
    split at hd
    · next he => exact absurd (he ▸ hy) hx
    · exact h.spared y hy hd
  unsought := h.unsought

/-- Any node is deleted and marked as evicted. -/
theorem evict (h : Custody ch all fresh sought) (b : Buries ch ch' x) (hx : x < ch'.size) :
    Custody (ch'.markEvicted x) all fresh sought where
  apart := h.apart
  cover y hd hs := by
    rw [Chain.isDeleted_markEvicted hx, b.deleted] at hd
    rw [Chain.isSentinel_markEvicted hx, b.isSentinel] at hs
    split at hd
    · cases hd
    · exact h.cover y hd hs
  marked y hy := by
    rw [Chain.isEvicted_markEvicted hx, b.evicted] at hy
    rw [Chain.isDeleted_markEvicted hx, b.deleted]
    split
    · rfl
    · next hne =>
      rw [if_neg hne] at hy
      exact h.marked y hy
  spared y hy hd := by
    rw [Chain.isDeleted_markEvicted hx, b.deleted] at hd
    rw [Chain.isEvicted_markEvicted hx, b.evicted]
    split
    · rfl
    · next hne =>
      rw [if_neg hne] at hd
      exact h.spared y hy hd
  unsought := h.unsought

/-- A fresh node is linked. -/
theorem grow (h : Custody ch all fresh sought) (g : Grows ch ch' e) (hall : ∀ x ∈ all, x < ch.size)
    (hfresh : ∀ x ∈ fresh, x < ch.size) (hsought : ∀ x ∈ sought, x < ch.size) :
    Custody ch' (ch.size :: all) (ch.size :: fresh) sought where
  apart := List.nodup_cons.mpr ⟨fun hm => Nat.lt_irrefl _ (hall _ hm), h.apart⟩
  cover y hd hs := by
    rcases g.cases y with hy | hy | hy
    · rw [g.deleted y hy] at hd
      rw [g.isSentinel hy] at hs
      exact List.mem_cons_of_mem _ (h.cover y hd hs)
    · rw [hy]
      exact List.mem_cons_self
    · rw [Chain.isSentinel, hy] at hs
      cases hs
  marked y hm := by
    rcases g.cases y with hy | hy | hy
    · rw [g.evicted y hy] at hm
      rw [g.deleted y hy, h.marked y hm]
    · rw [hy, g.unmarked] at hm
      cases hm
    · rw [Chain.isEvicted, hy] at hm
      cases hm
  spared y hm hd := by
    rcases List.mem_cons.mp hm with rfl | hm
    · rw [g.live] at hd
      cases hd
    · rw [g.deleted y (hfresh y hm)] at hd
      rw [g.evicted y (hfresh y hm)]
      exact h.spared y hm hd
  unsought y hy hm := by
    rcases List.mem_cons.mp hm with rfl | hm
    · exact Nat.lt_irrefl _ (hsought _ hy)
    · exact h.unsought y hy hm

end Custody

/-! ## The slots of the index -/

/-- Node `x` carries an entry whose key equals `k`. -/
def Bears [BEq κ] (ch : Chain (Entry Nat κ ν)) (x : NodeId) (k : κ) : Prop :=
  ∃ e, ch.carried? x = some e ∧ (k == e.key) = true

/-- The slots have distinct keys, and each has a node with an equal key. -/
structure Filed [BEq κ] (ch : Chain (Entry Nat κ ν)) (slots : List (κ × NodeId)) : Prop where
  keyed : ∀ s ∈ slots, Bears ch s.2 s.1
  distinct : Index.Distinct slots

section Filed

variable [BEq κ] {slots : List (κ × NodeId)}

theorem Bears.ages (h : Bears ch x k) (a : Ages ch ch') : Bears ch' x k := by
  obtain ⟨e, he, hk⟩ := h
  exact ⟨e, a.carried he, hk⟩

theorem Bears.not_isSentinel (h : Bears ch x k) : ch.isSentinel x = false := by
  obtain ⟨e, he, -⟩ := h
  exact Chain.not_isSentinel_of_carried he

theorem Bears.congr [EquivBEq κ] {k' : κ} (h : Bears ch x k) (hk : (k' == k) = true) : Bears ch x k' := by
  obtain ⟨e, he, hke⟩ := h
  exact ⟨e, he, BEq.trans hk hke⟩

namespace Filed

theorem ages (h : Filed ch slots) (a : Ages ch ch') : Filed ch' slots :=
  ⟨fun s hs => (h.keyed s hs).ages a, h.distinct⟩

/-- A node is put into the slot of its key. -/
theorem assign [EquivBEq κ] (h : Filed ch slots) (hx : Bears ch x k) : Filed ch (Index.assign k x slots) where
  keyed s hs := by
    rcases Index.mem_assign hs with ⟨h₂, hk | hk⟩ | hs
    · rw [h₂]
      exact hx.congr (BEq.symm hk)
    · rw [h₂, hk]
      exact hx
    · exact h.keyed s hs
  distinct := h.distinct.assign k x

theorem erase (h : Filed ch slots) (hl : slots.lookup k = some x) : Filed ch (Index.erase k slots) where
  keyed s hs := h.keyed s (Index.mem_erase hs)
  distinct := h.distinct.erase hl

/-- A node that is found for a key carries an entry with an equal key. -/
theorem bears_of_lookup [EquivBEq κ] (h : Filed ch slots) (hl : slots.lookup k = some x) : Bears ch x k := by
  obtain ⟨k', hm, hk⟩ := Index.mem_of_lookup hl
  exact (h.keyed _ hm).congr hk

/-- A node in the index is found for its key. -/
theorem lookup_of_bears [EquivBEq κ] (h : Filed ch slots) (hm : x ∈ slots.map Prod.snd) (hx : Bears ch x k) :
    slots.lookup k = some x := by
  obtain ⟨⟨k', x'⟩, hs, rfl⟩ := List.mem_map.mp hm
  obtain ⟨e, he, hk⟩ := hx
  obtain ⟨e', he', hk'⟩ := h.keyed _ hs
  rw [he] at he'
  cases he'
  exact (Index.lookup_eq_some_iff h.distinct).mpr ⟨k', hs, BEq.trans hk (BEq.symm hk')⟩

/-- In the index no two nodes carry entries with equal keys. -/
theorem unique [EquivBEq κ] (h : Filed ch slots) (hx : x ∈ slots.map Prod.snd) (hy : y ∈ slots.map Prod.snd)
    (hxk : Bears ch x k) (hyk : Bears ch y k) : x = y := by
  have h₁ := h.lookup_of_bears hx hxk
  rw [h.lookup_of_bears hy hyk] at h₁
  exact (Option.some.inj h₁).symm

end Filed

end Filed

end LeastRecent.Cache
