import LeastRecent.Chain.Node
import LeastRecent.Limbo.Basic

/-!
# The chain

A chain holds all nodes that were ever linked, by number, and the limbo that the retired ones are handed to. Between the
sentinels run the entries, most recent first. `node` is total and `modify` changes one node (`node_modify`).
-/

namespace LeastRecent

/-- All nodes ever linked, with the retired ones in limbo. -/
structure Chain (α : Type) where
  nodes : Array (Node α)
  limbo : Limbo NodeId
  /-- The first rule that was broken, if any was. -/
  fault : Option Fault

namespace Chain

variable {α : Type}

/-- The sentinel before all entries. -/
abbrev header : NodeId := 0

/-- The sentinel behind all entries. -/
abbrev trailer : NodeId := 1

/-- The sentinels, pointing at each other. Each has one link of its own, and the hint of the trailer is one more on the
header. -/
def empty (p : Policy) : Chain α where
  nodes := #[⟨.header, .node trailer, none, 2, false⟩, ⟨.trailer, .nothing, some header, 1, false⟩]
  limbo := .empty p
  fault := none

/-- The node with number `x`. -/
def node (c : Chain α) (x : NodeId) : Node α := c.nodes.getD x .void

/-- How many nodes were ever linked, sentinels included. -/
def size (c : Chain α) : Nat := c.nodes.size

/-- Node `x` is changed by `f`. -/
def modify (c : Chain α) (x : NodeId) (f : Node α → Node α) : Chain α := { c with nodes := c.nodes.modify x f }

/-- The nodes handed to the limbo so far, in order. -/
def retired (c : Chain α) : List NodeId := c.limbo.waiting

/-- A broken rule is recorded, unless one was before. -/
def fail (c : Chain α) (f : Fault) : Chain α := { c with fault := c.fault.or (some f) }

/-- Node `x` is handed to the limbo. -/
def retire (c : Chain α) (x : NodeId) : Chain α :=
  match c.limbo.retire x with
  | .ok l => { c with limbo := l }
  | .error f => c.fail f

/-- The entry that node `x` carries. -/
def carried? (c : Chain α) (x : NodeId) : Option α := (c.node x).carried?

/-- Node `x` is a sentinel. -/
def isSentinel (c : Chain α) (x : NodeId) : Bool := (c.node x).isSentinel

/-- Node `x` was deleted. -/
def isDeleted (c : Chain α) (x : NodeId) : Bool := (c.node x).isDeleted

/-- Node `x` was deleted to make room. -/
def isEvicted (c : Chain α) (x : NodeId) : Bool := (c.node x).evicted

/-- Node `x` is noted as deleted to make room. -/
def markEvicted (c : Chain α) (x : NodeId) : Chain α := c.modify x fun n => { n with evicted := true }

/-- A change of node `x` is seen at `x` and nowhere else. -/
theorem node_modify (c : Chain α) (x y : NodeId) (f : Node α → Node α) (hx : x < c.size) :
    (c.modify x f).node y = if y = x then f (c.node x) else c.node y := by
  unfold size at hx
  by_cases h : y = x
  · subst h; simp [node, modify, Array.getD, hx, Array.getElem_modify]
  · by_cases hy : y < c.nodes.size
    · simp [node, modify, Array.getD, hy, h, Array.getElem_modify, Ne.symm h]
    · simp [node, modify, Array.getD, hy, h]

theorem size_modify (c : Chain α) (x : NodeId) (f : Node α → Node α) : (c.modify x f).size = c.size := by
  simp [size, modify]

end Chain
end LeastRecent
