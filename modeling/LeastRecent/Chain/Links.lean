import LeastRecent.Chain.Basic

/-!
# Links: why a node is kept

`acquire` takes one more link on a node, which is refused once the count has reached zero. `release` gives one back. The
last link of a node takes the node out of reach: it forgets its hint, is retired, and the link that the hint was on the
earlier node is released in turn, so that a whole run of old nodes may go at once. `setHint` moves a hint with its link.
-/

namespace LeastRecent.Chain

variable {α : Type}

/-- One more link on `x`, unless the last one is gone. -/
def acquire (c : Chain α) (x : NodeId) : Option (Chain α) :=
  if (c.node x).links = 0 then none else some (c.modify x fun n => { n with links := n.links + 1 })

/-- One link less on the node given, and on each earlier node that only the hint of a node retired here kept. A run of
retirements is no longer than the chain, which bounds the first argument. -/
def releaseWithin : Nat → Chain α → Option NodeId → Chain α
  | 0, c, _ => c
  | _ + 1, c, none => c
  | fuel + 1, c, some x =>
    match (c.node x).links with
    | 0 => c.fail .linkUnderflow
    | 1 => releaseWithin fuel ((c.modify x fun n => { n with links := 0, prev := none }).retire x) (c.node x).prev
    | k + 2 => c.modify x fun n => { n with links := k + 1 }

/-- One link less on the node given, if one is given. -/
def release? (c : Chain α) (x : Option NodeId) : Chain α := releaseWithin (c.size + 1) c x

/-- One link less on `x`. -/
def release (c : Chain α) (x : NodeId) : Chain α := c.release? (some x)

/-- One link less on each of `xs`, in order. -/
def releaseAll (c : Chain α) (xs : List NodeId) : Chain α := xs.foldl release c

/-- The hint of `x` is moved to `p`, and with it a link; nothing happens if either node has no links any more. A link on
`x` is held meanwhile. -/
def setHint (c : Chain α) (x p : NodeId) : Chain α :=
  match c.acquire x with
  | none => c
  | some c₁ =>
    match c₁.acquire p with
    | none => c₁.release x
    | some c₂ => ((c₂.modify x fun n => { n with prev := some p }).release? (c₂.node x).prev).release x

end LeastRecent.Chain
