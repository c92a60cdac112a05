import LeastRecent.Proofs.Chain.Walks

/-!
# Tombstones

The abstract view of a chain: all nodes ever linked in one order, each live or deleted. An insertion puts a live node
right behind another (`insert`), a deletion turns one node into a tombstone (`bury`); nothing is ever taken out. The
neighbours of a node are the nearest nodes that are not deleted (`next?`, `prev?`), whether it is deleted itself or not.

`Records` says that the tombstones are those of a chain, `Guides` that the walks along the chain lead where the
tombstones say. Both hold of a sound chain (`records_of_sound`, `guides_of_sound`).
-/

namespace LeastRecent.Chain

/-- All nodes ever linked, in their order, and those of them that are deleted. -/
structure Tombstones where
  order : List NodeId
  deleted : List NodeId

namespace Tombstones

/-- The sentinels. -/
def initial : Tombstones := ⟨[header, trailer], []⟩

/-- A live node `n` right behind `a`. -/
def insert (t : Tombstones) (a n : NodeId) : Tombstones := { t with order := insertBehind a n t.order }

/-- The node `x` is deleted. -/
def bury (t : Tombstones) (x : NodeId) : Tombstones := { t with deleted := x :: t.deleted }

def isDeleted (t : Tombstones) (x : NodeId) : Bool := decide (x ∈ t.deleted)

/-- The nodes behind `x`, nearest first. -/
def behind (t : Tombstones) (x : NodeId) : List NodeId := t.order.drop (t.order.idxOf x + 1)

/-- The nodes before `x`, nearest last. -/
def before (t : Tombstones) (x : NodeId) : List NodeId := t.order.take (t.order.idxOf x)

/-- The first node behind `x` that is not deleted. -/
def next? (t : Tombstones) (x : NodeId) : Option NodeId := (t.behind x).find? fun y => !t.isDeleted y

/-- The last node before `x` that is not deleted. -/
def prev? (t : Tombstones) (x : NodeId) : Option NodeId := (t.before x).reverse.find? fun y => !t.isDeleted y

/-- The node is no sentinel. -/
def isEntry (x : NodeId) : Bool := decide (x ≠ header ∧ x ≠ trailer)

/-- The live entries among the nodes `xs`. -/
def entries (t : Tombstones) (xs : List NodeId) : List NodeId := xs.filter fun y => !t.isDeleted y && isEntry y

variable {α : Type} {t : Tombstones} {c : Chain α} {order held : List NodeId} {x f p : NodeId}

/-- The tombstones are those of the chain: all nodes ever linked, from the header to the trailer, and what is deleted. -/
structure Records (t : Tombstones) (c : Chain α) : Prop where
  nodup : t.order.Nodup
  all : ∀ x, x ∈ t.order ↔ x < c.size
  ends : ∃ inner, t.order = header :: (inner ++ [trailer])
  sentinels : t.isDeleted header = false ∧ t.isDeleted trailer = false
  flags : ∀ x ∈ t.order, t.isDeleted x = c.isDeleted x

/-- Walks along the chain lead where the tombstones say, from deleted nodes too. Only backward from a deleted node
nothing may be found. -/
structure Guides (t : Tombstones) (c : Chain α) : Prop where
  successor : ∀ x ∈ t.order, (c.successor x).2 = t.next? x
  successor_trailer : (c.successor trailer).2 = none
  predecessor : ∀ x ∈ t.order, (c.predecessor x).2 = t.prev? x ∨ t.isDeleted x = true ∧ (c.predecessor x).2 = none
  predecessor_header : (c.predecessor header).2 = none
  forward : ∀ x ∈ t.order, (c.forward x).2 = (t.next? x).filter isEntry
  back : ∀ x ∈ t.order, (c.back x).2 = (t.prev? x).filter isEntry ∨ t.isDeleted x = true ∧ (c.back x).2 = none
  walk : ∀ x ∈ t.order, (c.walk x).2 = t.entries (t.behind x)
  walkBack : ∀ x ∈ t.order, (c.walkBack x).2 = (t.entries (t.before x)).reverse ∨
    t.isDeleted x = true ∧ (c.walkBack x).2 = []
  reverse : (c.walkBack trailer).2 = (c.walk header).2.reverse

/-- A node behind which another was inserted keeps its flag, and so do all others. -/
theorem isDeleted_insert (t : Tombstones) (a n x : NodeId) : (t.insert a n).isDeleted x = t.isDeleted x := rfl

theorem isDeleted_bury (t : Tombstones) (x y : NodeId) :
    (t.bury x).isDeleted y = if y = x then true else t.isDeleted y := by
  by_cases h : y = x <;> simp [isDeleted, bury, h]

/-! ## The tombstones of a sound chain -/

section Sound

variable (h : Sound c t.order held)
include h

theorem next?_trailer : t.next? trailer = none := by
  rw [next?, List.find?_eq_none]
  intro z hz
  obtain ⟨hzm, hz'⟩ := (mem_drop_iff h.laid.nodup).mp hz
  by_cases hzt : z = trailer
  · rw [hzt] at hz'
    omega
  · have := h.laid.idxOf_lt_trailer hzm hzt
    omega

theorem prev?_header : t.prev? header = none := by
  rw [prev?, before, h.laid.idxOf_header]
  rfl

theorem isEntry_eq (hx : x ∈ t.order) : isEntry x = !c.isSentinel x := by
  cases hs : c.isSentinel x with
  | true =>
    have := (h.laid.isSentinel_iff hx).mp hs
    rw [isEntry, decide_eq_false fun hne => this.elim hne.1 hne.2]
    rfl
  | false =>
    have hne : ¬(x = header ∨ x = trailer) := fun he => by
      rw [(h.laid.isSentinel_iff hx).mpr he] at hs
      cases hs
    rw [isEntry, decide_eq_true (not_or.mp hne)]
    rfl

variable (hf : ∀ x ∈ t.order, t.isDeleted x = c.isDeleted x)
include hf

theorem records_of_sound : Records t c where
  nodup := h.laid.nodup
  all := h.laid.mem
  ends := h.laid.ends
  sentinels := ⟨(hf _ h.laid.header_mem).trans h.laid.start, (hf _ h.laid.trailer_mem).trans h.laid.trailer_live⟩
  flags := hf

omit h in
/-- Between neighbours all nodes are deleted. -/
theorem flag_between {x y : NodeId} (hd : DeadBetween c t.order x y) (z : NodeId) (hz : z ∈ t.order)
    (h₁ : t.order.idxOf x < t.order.idxOf z) (h₂ : t.order.idxOf z < t.order.idxOf y) :
    (!t.isDeleted z) = false := by
  rw [hf z hz, hd z hz h₁ h₂]; rfl

theorem next?_eq_some (hn : IsNext c t.order x f) : t.next? x = some f := by
  have hlive : (!t.isDeleted f) = true := by rw [hf f hn.mem, hn.live]; rfl
  rw [next?, behind, ← List.head?_filter, filter_drop_idxOf h.laid.nodup hn.lt (flag_between hf hn.between) hn.mem hlive]
  rfl

theorem prev?_eq_some (hp : IsPrev c t.order p x) : t.prev? x = some p := by
  have hlive : (!t.isDeleted p) = true := by rw [hf p hp.mem, hp.live]; rfl
  rw [prev?, before, ← List.head?_filter, List.filter_reverse,
    filter_take_idxOf h.laid.nodup hp.lt (flag_between hf hp.between) hp.mem hlive, List.reverse_append]
  rfl

theorem entries_eq {xs : List NodeId} (hxs : ∀ x ∈ xs, x ∈ t.order) : t.entries xs = c.livings xs := by
  apply List.filter_congr
  intro x hx
  rw [hf x (hxs x hx), isEntry_eq h (hxs x hx)]

theorem successor_eq (hx : x ∈ t.order) : (c.successor x).2 = t.next? x := by
  by_cases ht : x = trailer
  · rw [ht, h.successor_trailer, next?_trailer h]
  · obtain ⟨f, hfs, hn, -⟩ := h.successor hx ht
    rw [hfs, next?_eq_some h hf hn]

theorem predecessor_eq (hx : x ∈ t.order) :
    (c.predecessor x).2 = t.prev? x ∨ t.isDeleted x = true ∧ (c.predecessor x).2 = none := by
  obtain ⟨-, -, hsome, hfound⟩ := h.predecessor hx
  cases hr : (c.predecessor x).2 with
  | some p => exact Or.inl (prev?_eq_some h hf (hsome p hr)).symm
  | none =>
    cases hd : c.isDeleted x with
    | true => exact Or.inr ⟨by rw [hf x hx, hd], rfl⟩
    | false =>
      by_cases h₀ : x = header
      · rw [h₀]
        exact Or.inl (prev?_header h).symm
      · obtain ⟨p, hp⟩ := hfound hd h₀
        rw [hr] at hp
        cases hp

omit hf in
/-- To hide sentinels is to keep the entries. -/
theorem hideSentinel_eq {c' : Chain α} (a : Alike c c') {y : Option NodeId} (hy : ∀ z, y = some z → z ∈ t.order) :
    c'.hideSentinel y = y.filter isEntry := by
  cases y with
  | none => rfl
  | some z => rw [hideSentinel, Option.filter_some, Option.filter_some, a.isSentinel, isEntry_eq h (hy z rfl)]

/-- A walk from any node of a sound chain leads where its tombstones say. -/
theorem guides_of_sound : Guides t c := by
  have hbehind (x : NodeId) : t.entries (t.behind x) = c.livings (t.order.drop (t.order.idxOf x + 1)) :=
    entries_eq h hf fun y hy => List.mem_of_mem_drop hy
  have hbefore (x : NodeId) : t.entries (t.before x) = c.livings (t.order.take (t.order.idxOf x)) :=
    entries_eq h hf fun y hy => List.mem_of_mem_take hy
  refine ⟨fun x hx => successor_eq h hf hx, by rw [h.successor_trailer], fun x hx => predecessor_eq h hf hx, ?_,
    ?_, ?_, ?_, ?_, ?_⟩
  · rcases predecessor_eq h hf h.laid.header_mem with hp | ⟨-, hp⟩
    · rw [hp, prev?_header h]
    · exact hp
  · intro x hx
    show (hideSentinel (c.successor x).1 (c.successor x).2) = _
    rw [successor_eq h hf hx]
    exact hideSentinel_eq h (h.successor_alike hx).2 fun z hz => List.mem_of_mem_drop (List.mem_of_find?_eq_some hz)
  · intro x hx
    show (hideSentinel (c.predecessor x).1 (c.predecessor x).2) = _ ∨
      _ ∧ (hideSentinel (c.predecessor x).1 (c.predecessor x).2) = _
    rcases predecessor_eq h hf hx with hp | ⟨hd, hp⟩
    · rw [hp]
      exact Or.inl (hideSentinel_eq h (h.predecessor hx).2.1 fun z hz =>
        List.mem_of_mem_take (List.mem_reverse.mp (List.mem_of_find?_eq_some hz)))
    · rw [hp]
      exact Or.inr ⟨hd, rfl⟩
  · intro x hx
    rw [(h.walk hx).2.2, hbehind]
  · intro x hx
    rw [hbefore, hf x hx]
    obtain ⟨-, -, hd | hw⟩ := h.walkBack hx
    · exact Or.inr hd
    · exact Or.inl hw
  · rw [(h.walk h.laid.header_mem).2.2, h.laid.livings_header]
    obtain ⟨-, -, ⟨hd, -⟩ | hw⟩ := h.walkBack h.laid.trailer_mem
    · rw [h.laid.trailer_live] at hd
      cases hd
    · rw [hw, h.laid.livings_trailer]

end Sound

end Tombstones
end LeastRecent.Chain
