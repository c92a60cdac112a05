import LeastRecent.Proofs.Cache.Advance

/-!
# What can be seen of a cache

A view is what there is to see of a cache from outside, and all that decides what a call comes to: the index, the live
nodes in order, and what each node carries. Links, hints and deleted nodes that are still linked are not part of it, so
walks leave it as it is (`Cache.view_alike`). What else happens to a chain is told by what it does to the view:
`Cache.view_buries` for a deletion, `Cache.view_mark` for an eviction, `Cache.view_grows` for an insertion in front.
-/

namespace LeastRecent

open Chain (Alike Buries Cut Grows Sound)

/-- What can be seen of a cache. -/
structure View (κ ν : Type) where
  index : Index κ NodeId
  capacity : Nat
  /-- The live nodes, most recent first. -/
  recent : List NodeId
  /-- How many nodes were ever linked. -/
  nodes : Nat
  carried : NodeId → Option (Entry Nat κ ν)
  evicted : NodeId → Bool

variable {κ ν : Type}

namespace View

/-- The node `x` is deleted. -/
def bury (v : View κ ν) (x : NodeId) : View κ ν := { v with recent := v.recent.filter fun y => !decide (y = x) }

/-- A node with the entry `e` is put in front. -/
def grow (v : View κ ν) (e : Entry Nat κ ν) : View κ ν :=
  { v with
    recent := v.nodes :: v.recent
    nodes := v.nodes + 1
    carried := fun y => if y = v.nodes then some e else v.carried y }

/-- The node `x` is marked as evicted. -/
def mark (v : View κ ν) (x : NodeId) : View κ ν := { v with evicted := fun y => if y = x then true else v.evicted y }

/-- A node that is not live need not be deleted. -/
theorem bury_of_not_mem {v : View κ ν} {x : NodeId} (hx : x ∉ v.recent) : v.bury x = v := by
  have hkeep : v.recent.filter (fun y => !decide (y = x)) = v.recent := by
    rw [List.filter_eq_self]
    intro y hy
    have hne : y ≠ x := fun he => hx (he ▸ hy)
    simp [hne]
  rw [bury, hkeep]

theorem bury_bury (v : View κ ν) (x : NodeId) : (v.bury x).bury x = v.bury x := by
  refine bury_of_not_mem fun hx => ?_
  have hne := (List.mem_filter.mp hx).2
  rw [decide_eq_true rfl] at hne
  cases hne

variable [BEq κ]

/-- The key `k` is mapped to `x`. -/
def assign (v : View κ ν) (k : κ) (x : NodeId) : View κ ν := { v with index := ⟨Index.assign k x v.index.slots⟩ }

/-- The key `k` is not mapped any more. -/
def erase (v : View κ ν) (k : κ) : View κ ν := { v with index := ⟨Index.erase k v.index.slots⟩ }

/-- The key `k` is mapped to `x`, and the node displaced is deleted. -/
def publish (v : View κ ν) (k : κ) (x : NodeId) : View κ ν :=
  match v.index.find? k with
  | none => v.assign k x
  | some y => (v.assign k x).bury y

/-- The last live node is evicted, if the index is too large. -/
def trim (v : View κ ν) : View κ ν :=
  if v.index.size ≤ v.capacity then v
  else
    match v.recent.getLast? with
    | none => v
    | some x =>
      match v.carried x with
      | none => (v.bury x).mark x
      | some e => ((v.bury x).mark x).erase e.key

variable {v : View κ ν}

theorem trim_of_le (h : v.index.size ≤ v.capacity) : v.trim = v := if_pos h

theorem trim_of_none (h : v.recent.getLast? = none) : v.trim = v := by
  unfold trim
  split
  · rfl
  · rw [h]

theorem trim_of_last {x : NodeId} {e : Entry Nat κ ν} (hv : v.capacity < v.index.size)
    (hx : v.recent.getLast? = some x) (he : v.carried x = some e) : v.trim = ((v.bury x).mark x).erase e.key := by
  rw [trim, if_neg (Nat.not_le_of_lt hv), hx]
  dsimp only
  rw [he]

/-- The node that is to be displaced may be deleted before. -/
theorem publish_grow_bury {k : κ} {x y : NodeId} {e : Entry Nat κ ν} (h : v.index.find? k = some y) :
    ((v.bury y).grow e).publish k x = (v.grow e).publish k x := by
  have hbefore : ((v.bury y).grow e).index.find? k = some y := h
  have hafter : (v.grow e).index.find? k = some y := h
  rw [publish, publish, hbefore, hafter]
  refine congrArg (fun recent => { (v.grow e).assign k x with recent := recent }) ?_
  show List.filter _ (v.nodes :: List.filter _ v.recent) = List.filter _ (v.nodes :: v.recent)
  simp only [List.filter_cons, List.filter_filter, Bool.and_self]

end View

/-! ## The view of a cache -/

namespace Cache

/-- What can be seen of the cache. -/
def view (c : Cache κ ν) : View κ ν where
  index := c.index
  capacity := c.capacity
  recent := c.chain.recent
  nodes := c.chain.size
  carried := c.chain.carried?
  evicted := c.chain.isEvicted

section View

variable {c : Cache κ ν} {ch : Chain (Entry Nat κ ν)} {order held : List NodeId} {x : NodeId}

/-- What leaves the live nodes as they are cannot be seen. -/
theorem view_alike (a : Alike c.chain ch) (hr : ch.recent = c.chain.recent) : view { c with chain := ch } = c.view := by
  have hcarried : ch.carried? = c.chain.carried? := funext fun y => a.carried y
  have hevicted : ch.isEvicted = c.chain.isEvicted := funext fun y => a.evicted y
  simp only [view, hr, a.size, hcarried, hevicted]

theorem view_buries (h : Sound c.chain order held) (h' : Sound ch order held) (b : Buries c.chain ch x) :
    view { c with chain := ch } = c.view.bury x := by
  have hcarried : ch.carried? = c.chain.carried? := funext fun y => b.carried y
  have hevicted : ch.isEvicted = c.chain.isEvicted := funext fun y => b.evicted y
  simp only [view, View.bury, h.recent_buries h' b, b.size, hcarried, hevicted]

theorem view_mark (h : Sound c.chain order held) (hx : x < c.chain.size) :
    view { c with chain := c.chain.markEvicted x } = c.view.mark x := by
  have hcarried : (c.chain.markEvicted x).carried? = c.chain.carried? :=
    funext fun y => Chain.carried_markEvicted hx y
  have hevicted : (c.chain.markEvicted x).isEvicted = fun y => if y = x then true else c.chain.isEvicted y :=
    funext fun y => Chain.isEvicted_markEvicted hx y
  have hsize : (c.chain.markEvicted x).size = c.chain.size := Chain.size_modify c.chain x _
  simp only [view, View.mark, h.recent_markEvicted hx, hsize, hcarried, hevicted]

theorem view_grows {e : Entry Nat κ ν} (g : Grows c.chain ch e) (hr : ch.recent = c.chain.size :: c.chain.recent) :
    view { c with chain := ch } = c.view.grow e := by
  have hold (y : NodeId) (hy : c.chain.size ≤ y) : c.chain.node y = .void := Chain.node_of_size_le hy
  have hnew (y : NodeId) (hy : c.chain.size < y) : ch.node y = .void :=
    Chain.node_of_size_le (Nat.le_trans (Nat.le_of_eq g.size) hy)
  have hcarried : ch.carried? = (c.view.grow e).carried := by
    funext y
    show _ = if y = c.chain.size then some e else c.chain.carried? y
    rcases Nat.lt_trichotomy y c.chain.size with hy | rfl | hy
    · rw [if_neg (Nat.ne_of_lt hy), Chain.carried?, Chain.carried?, Node.carried?, Node.carried?, g.role y hy]
    · rw [if_pos rfl, g.carried]
    · rw [if_neg (Nat.ne_of_gt hy), Chain.carried?, Chain.carried?, hnew y hy, hold y (Nat.le_of_lt hy)]
  have hevicted : ch.isEvicted = c.chain.isEvicted := by
    funext y
    rcases Nat.lt_trichotomy y c.chain.size with hy | rfl | hy
    · exact g.evicted y hy
    · rw [g.unmarked, Chain.isEvicted, hold _ (Nat.le_refl _)]
      rfl
    · rw [Chain.isEvicted, Chain.isEvicted, hnew y hy, hold y (Nat.le_of_lt hy)]
  rw [view, hr, g.size, hcarried, hevicted]
  rfl

end View
end Cache
end LeastRecent
