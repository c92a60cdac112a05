import LeastRecent.Chain.Edit
import LeastRecent.Chain.Walk

/-!
# What an operation leaves alone

A field that a change of one node leaves as it is stays the same at every node (`frame_modify`). So an operation is known
by what it does not touch:

* `Steady`: only links and hints changed. This is all that taking, releasing and moving links does.
* `Alike`: no node was added, deleted or marked as evicted. This is all that a walk can promise, since it may unlink
  deleted nodes.
* `Ages`: nodes may be added, deleted and marked as evicted, and none of this is undone.

`hints` lists the hints of all nodes; the number of hints at a node is the number of times that it occurs there
(`count_hints`).
-/

namespace LeastRecent.Chain

variable {α : Type} {c c' c'' : Chain α} {x y : NodeId}

/-! ## Nodes by number -/

theorem node_of_size_le (h : c.size ≤ x) : c.node x = .void := by
  unfold size at h
  simp [node, Array.getD, Nat.not_lt.mpr h]

/-- A node that was never linked cannot be changed. -/
theorem node_modify_of_size_le (hx : c.size ≤ x) (g : Node α → Node α) (y : NodeId) :
    (c.modify x g).node y = c.node y := by
  unfold size at hx
  by_cases hy : y < c.nodes.size
  · have hne : x ≠ y := Nat.ne_of_gt (Nat.lt_of_lt_of_le hy hx)
    simp [node, modify, Array.getD, hy, Array.getElem_modify, hne]
  · simp [node, modify, Array.getD, hy]

/-- What a change of a node leaves as it is, no node loses. -/
theorem frame_modify {β : Type} (field : Node α → β) (x y : NodeId) {g : Node α → Node α}
    (hg : ∀ n, field (g n) = field n) : field ((c.modify x g).node y) = field (c.node y) := by
  rcases Nat.lt_or_ge x c.size with hx | hx
  · rw [node_modify c x y g hx]
    split
    · next he => rw [he, hg]
    · rfl
  · rw [node_modify_of_size_le hx]

/-- Only nodes that were linked carry an entry. -/
theorem lt_size_of_carried {a : α} (h : c.carried? x = some a) : x < c.size := by
  rcases Nat.lt_or_ge x c.size with hx | hx
  · exact hx
  · rw [carried?, node_of_size_le hx] at h
    cases h

theorem not_isSentinel_of_carried {a : α} (h : c.carried? x = some a) : c.isSentinel x = false := by
  rw [isSentinel, Node.isSentinel, ← carried?, h]
  rfl

theorem lt_size_of_not_isSentinel (h : c.isSentinel x = false) : x < c.size := by
  rcases Nat.lt_or_ge x c.size with hx | hx
  · exact hx
  · rw [isSentinel, node_of_size_le hx] at h
    cases h

/-- A node with a successor was linked. -/
theorem lt_size_of_next {f : NodeId} (h : (c.node x).next = .node f) : x < c.size := by
  rcases Nat.lt_or_ge x c.size with hx | hx
  · exact hx
  · rw [node_of_size_le hx] at h
    cases h

/-- A deleted node was linked. -/
theorem lt_size_of_deleted (h : c.isDeleted x = true) : x < c.size := by
  rcases Nat.lt_or_ge x c.size with hx | hx
  · exact hx
  · rw [isDeleted, node_of_size_le hx] at h
    cases h

/-- A node with a hint was linked. -/
theorem lt_size_of_prev {b : NodeId} (h : (c.node x).prev = some b) : x < c.size := by
  rcases Nat.lt_or_ge x c.size with hx | hx
  · exact hx
  · rw [node_of_size_le hx] at h
    cases h

/-- A node with links was linked. -/
theorem lt_size_of_links (h : (c.node x).links ≠ 0) : x < c.size := by
  rcases Nat.lt_or_ge x c.size with hx | hx
  · exact hx
  · rw [node_of_size_le hx] at h
    exact absurd rfl h

theorem isDeleted_of_next {f : NodeId} (h : (c.node x).next = .node f) : c.isDeleted x = false := by
  rw [isDeleted, Node.isDeleted, h]; rfl

/-- The nodes after a new one was linked. -/
theorem node_link {after f : NodeId} {a : α} (h : after < c.size) (y : NodeId) :
    (c.link after f a).node y =
      if y = c.size then ⟨.carrier a, .node f, some after, 2, false⟩
      else if y = after then { c.node after with next := .node c.size } else c.node y := by
  unfold link
  rw [node_modify _ _ _ _ (by rw [size, Array.size_push]; exact Nat.lt_succ_of_lt h)]
  have hn (z : NodeId) : node { c with nodes := c.nodes.push ⟨.carrier a, .node f, some after, 2, false⟩ } z =
      if z = c.size then ⟨.carrier a, .node f, some after, 2, false⟩ else c.node z := by
    simp only [node, size, Array.getD, Array.size_push, Array.getInternal_eq_getElem, Array.getElem_push]
    grind
  rw [hn, hn]
  grind

theorem size_link {after f : NodeId} {a : α} : (c.link after f a).size = c.size + 1 := by
  rw [link, size_modify]
  simp [size]

section Link

variable {after f : NodeId} {a : α} (hn : (c.node after).next = .node f)
include hn

/-- The new node is live; no other node is deleted or revived. -/
theorem isDeleted_link (y : NodeId) : (c.link after f a).isDeleted y = if y = c.size then false else c.isDeleted y := by
  rw [isDeleted, node_link (lt_size_of_next hn)]
  by_cases h₁ : y = c.size
  · rw [if_pos h₁, if_pos h₁]; rfl
  · rw [if_neg h₁, if_neg h₁]
    by_cases h₂ : y = after
    · rw [if_pos h₂, h₂, isDeleted_of_next hn]; rfl
    · rw [if_neg h₂]; rfl

theorem carried_link (y : NodeId) : (c.link after f a).carried? y = if y = c.size then some a else c.carried? y := by
  rw [carried?, node_link (lt_size_of_next hn)]
  by_cases h₁ : y = c.size
  · rw [if_pos h₁, if_pos h₁]; rfl
  · rw [if_neg h₁, if_neg h₁]
    by_cases h₂ : y = after
    · rw [if_pos h₂, h₂]; rfl
    · rw [if_neg h₂]; rfl

theorem isEvicted_link (y : NodeId) : (c.link after f a).isEvicted y = if y = c.size then false else c.isEvicted y := by
  rw [isEvicted, node_link (lt_size_of_next hn)]
  by_cases h₁ : y = c.size
  · rw [if_pos h₁, if_pos h₁]
  · rw [if_neg h₁, if_neg h₁]
    by_cases h₂ : y = after
    · rw [if_pos h₂, h₂]; rfl
    · rw [if_neg h₂]; rfl

end Link

/-! ## A mark for eviction -/

section MarkEvicted

variable (hx : x < c.size)
include hx

theorem node_markEvicted (y : NodeId) :
    (c.markEvicted x).node y = if y = x then { c.node x with evicted := true } else c.node y :=
  node_modify c x y _ hx

theorem isDeleted_markEvicted (y : NodeId) : (c.markEvicted x).isDeleted y = c.isDeleted y := by
  rw [isDeleted, node_markEvicted hx]
  by_cases h : y = x
  · rw [if_pos h, h]; rfl
  · rw [if_neg h]; rfl

theorem carried_markEvicted (y : NodeId) : (c.markEvicted x).carried? y = c.carried? y := by
  rw [carried?, node_markEvicted hx]
  by_cases h : y = x
  · rw [if_pos h, h]; rfl
  · rw [if_neg h]; rfl

theorem isSentinel_markEvicted (y : NodeId) : (c.markEvicted x).isSentinel y = c.isSentinel y :=
  congrArg Option.isNone (carried_markEvicted hx y)

theorem isEvicted_markEvicted (y : NodeId) :
    (c.markEvicted x).isEvicted y = if y = x then true else c.isEvicted y := by
  rw [isEvicted, node_markEvicted hx]
  by_cases h : y = x
  · rw [if_pos h, if_pos h]
  · rw [if_neg h, if_neg h]; rfl

end MarkEvicted

/-! ## Links and hints only -/

/-- Nothing changed but links and hints. -/
structure Steady (c c' : Chain α) : Prop where
  size : c'.size = c.size
  role : ∀ x, (c'.node x).role = (c.node x).role
  next : ∀ x, (c'.node x).next = (c.node x).next
  evicted : ∀ x, (c'.node x).evicted = (c.node x).evicted

theorem Steady.refl (c : Chain α) : Steady c c := ⟨rfl, fun _ => rfl, fun _ => rfl, fun _ => rfl⟩

theorem Steady.trans (h : Steady c c') (h' : Steady c' c'') : Steady c c'' where
  size := h'.size.trans h.size
  role x := (h'.role x).trans (h.role x)
  next x := (h'.next x).trans (h.next x)
  evicted x := (h'.evicted x).trans (h.evicted x)

/-- A change of one node that touches only its links and its hint. -/
theorem Steady.modify {f : Node α → Node α}
    (hf : ∀ n, (f n).role = n.role ∧ (f n).next = n.next ∧ (f n).evicted = n.evicted) : Steady c (c.modify x f) where
  size := size_modify c x f
  role y := frame_modify Node.role x y fun n => (hf n).1
  next y := frame_modify Node.next x y fun n => (hf n).2.1
  evicted y := frame_modify Node.evicted x y fun n => (hf n).2.2

/-! ## No node added, deleted or marked -/

/-- No node was added, deleted or marked as evicted. -/
structure Alike (c c' : Chain α) : Prop where
  size : c'.size = c.size
  role : ∀ x, (c'.node x).role = (c.node x).role
  deleted : ∀ x, c'.isDeleted x = c.isDeleted x
  evicted : ∀ x, c'.isEvicted x = c.isEvicted x

theorem Alike.refl (c : Chain α) : Alike c c := ⟨rfl, fun _ => rfl, fun _ => rfl, fun _ => rfl⟩

theorem Alike.trans (h : Alike c c') (h' : Alike c' c'') : Alike c c'' where
  size := h'.size.trans h.size
  role x := (h'.role x).trans (h.role x)
  deleted x := (h'.deleted x).trans (h.deleted x)
  evicted x := (h'.evicted x).trans (h.evicted x)

theorem Steady.alike (h : Steady c c') : Alike c c' where
  size := h.size
  role := h.role
  deleted x := by rw [isDeleted, isDeleted, Node.isDeleted, Node.isDeleted, h.next]
  evicted x := h.evicted x

theorem Alike.carried (h : Alike c c') (x : NodeId) : c'.carried? x = c.carried? x := by
  rw [carried?, carried?, Node.carried?, Node.carried?, h.role]

theorem Alike.isSentinel (h : Alike c c') (x : NodeId) : c'.isSentinel x = c.isSentinel x := by
  rw [Chain.isSentinel, Chain.isSentinel, Node.isSentinel, Node.isSentinel]
  exact congrArg Option.isNone (h.carried x)

/-! ## Nothing undone -/

/-- `c'` is a later state than `c`: entries stay with their nodes, and no deletion or mark is undone. -/
structure Ages (c c' : Chain α) : Prop where
  size : c.size ≤ c'.size
  role : ∀ x < c.size, (c'.node x).role = (c.node x).role
  deleted : ∀ x < c.size, c.isDeleted x = true → c'.isDeleted x = true
  evicted : ∀ x < c.size, c.isEvicted x = true → c'.isEvicted x = true

theorem Ages.refl (c : Chain α) : Ages c c := ⟨Nat.le_refl _, fun _ _ => rfl, fun _ _ => id, fun _ _ => id⟩

theorem Ages.trans (h : Ages c c') (h' : Ages c' c'') : Ages c c'' where
  size := Nat.le_trans h.size h'.size
  role x hx := (h'.role x (Nat.lt_of_lt_of_le hx h.size)).trans (h.role x hx)
  deleted x hx hd := h'.deleted x (Nat.lt_of_lt_of_le hx h.size) (h.deleted x hx hd)
  evicted x hx he := h'.evicted x (Nat.lt_of_lt_of_le hx h.size) (h.evicted x hx he)

theorem Alike.ages (h : Alike c c') : Ages c c' where
  size := Nat.le_of_eq h.size.symm
  role x _ := h.role x
  deleted x _ hd := by rw [h.deleted]; exact hd
  evicted x _ he := by rw [h.evicted]; exact he

/-- An entry stays with its node. -/
theorem Ages.carried {a : α} (h : Ages c c') (hx : c.carried? x = some a) : c'.carried? x = some a := by
  have hr := h.role x (lt_size_of_carried hx)
  unfold carried? Node.carried? at hx ⊢
  rw [hr]
  exact hx

theorem Ages.not_isSentinel (h : Ages c c') (hx : c.isSentinel x = false) : c'.isSentinel x = false := by
  unfold isSentinel Node.isSentinel Node.carried? at hx ⊢
  rw [h.role x (lt_size_of_not_isSentinel hx)]
  exact hx

theorem ages_markEvicted (hx : x < c.size) : Ages c (c.markEvicted x) where
  size := Nat.le_of_eq (size_modify c x _).symm
  role y _ := frame_modify Node.role x y fun _ => rfl
  deleted y _ hd := by rw [isDeleted_markEvicted hx]; exact hd
  evicted y _ he := by rw [isEvicted_markEvicted hx, he, ite_self]

/-! ## Hints -/

/-- The hints of all nodes. -/
def hints (c : Chain α) : List (Option NodeId) := (List.range c.size).map fun n => (c.node n).prev

theorem hints_congr (hs : c'.size = c.size) (hp : ∀ n, (c'.node n).prev = (c.node n).prev) : c'.hints = c.hints := by
  simp only [hints, hs, hp]

/-- If only the hint of `x` is changed, its old target loses one hint and the new one gains one. -/
theorem count_hints (hs : c'.size = c.size) (hx : x < c.size) (hp : ∀ n, n ≠ x → (c'.node n).prev = (c.node n).prev)
    (q : Option NodeId) :
    c'.hints.count q + (if (c.node x).prev = q then 1 else 0) =
      c.hints.count q + (if (c'.node x).prev = q then 1 else 0) := by
  have hl : c.hints.length = c.size := by simp [hints]
  have hset : c'.hints = c.hints.set x (c'.node x).prev := by
    apply List.ext_getElem
    · simp [hints, hs]
    · intro n h₁ h₂
      rw [List.getElem_set]
      split
      · next h => subst h; simp [hints]
      · next h => simp [hints, hp n (Ne.symm h)]
  have hxl : x < c.hints.length := by rw [hl]; exact hx
  have hget : c.hints[x] = (c.node x).prev := by simp [hints]
  have hpos : (c.node x).prev = q → 0 < c.hints.count q := by
    intro h
    rw [List.count_pos_iff, ← h, ← hget]
    exact List.getElem_mem _
  rw [hset, List.count_set hxl, hget]
  simp only [beq_iff_eq]
  by_cases h₁ : (c.node x).prev = q
  · have := hpos h₁
    rw [if_pos h₁]
    omega
  · rw [if_neg h₁]
    omega

end LeastRecent.Chain
