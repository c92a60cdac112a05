/-!
# Nodes of the chain

A node is the header, the trailer or carries an entry. Its forward pointer is authoritative: a live node points at its
successor, and a deletion puts a marker behind the node that keeps the successor of that moment (`Next.marker`), so a
node is deleted exactly if a marker follows it (`Node.isDeleted`). Its backward pointer is only a hint. The link count
says how many reasons there are to keep the node: being linked into the chain, having an owner, and each hint at it.
-/

namespace LeastRecent

/-- Nodes are numbered in the order in which they are linked; the sentinels come first. -/
abbrev NodeId := Nat

/-- What a node is there for. -/
inductive Role (α : Type)
  /-- The sentinel before all entries. -/
  | header
  /-- The sentinel behind all entries. -/
  | trailer
  | carrier (a : α)

/-- What follows a node. -/
inductive Next
  | nothing
  /-- The successor of a live node. -/
  | node (n : NodeId)
  /-- The marker behind a deleted node, with the successor that the node had. -/
  | marker (n : NodeId)
  deriving DecidableEq

/-- The node that follows, seen through a marker. -/
def Next.node? : Next → Option NodeId
  | .nothing => none
  | .node n => some n
  | .marker n => some n

/-- A marker follows. -/
def Next.isMarker : Next → Bool
  | .marker _ => true
  | _ => false

/-- A node of the chain. -/
structure Node (α : Type) where
  role : Role α
  next : Next
  /-- The hint: some node that came before this one. -/
  prev : Option NodeId
  links : Nat
  /-- The node was deleted to make room, not to move its entry. -/
  evicted : Bool

namespace Node

variable {α : Type}

/-- What stands for a node that was never linked: nothing is known of it and no link to it can be taken. -/
def void : Node α := ⟨.header, .nothing, none, 0, false⟩

/-- The entry that the node carries. -/
def carried? (n : Node α) : Option α :=
  match n.role with
  | .carrier a => some a
  | _ => none

/-- The node is a sentinel. -/
def isSentinel (n : Node α) : Bool := n.carried?.isNone

/-- A marker follows the node. -/
def isDeleted (n : Node α) : Bool := n.next.isMarker

/-- The text of a node: what it is there for, and whether it was deleted. -/
def text [ToString α] (n : Node α) : String :=
  match n.role with
  | .header => "header"
  | .trailer => "trailer"
  | .carrier a => if n.isDeleted then toString a ++ " (deleted)" else toString a

end Node
end LeastRecent
