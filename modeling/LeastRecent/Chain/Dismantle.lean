import LeastRecent.Chain.Links

/-!
# Taking the chain apart

In the end each node that is still linked, deleted or not, loses its link of the chain, from the header to the trailer.
A live node forgets its successor first, a deleted one keeps its marker. Last of all the hint of the trailer is given
up. What nobody else owns or points at is retired on the way.
-/

namespace LeastRecent.Chain

variable {α : Type}

/-- The nodes from `x` to the trailer lose their link of the chain; there are no more than the first argument says. -/
def dismantleFrom : Nat → Chain α → NodeId → Chain α
  | 0, c, _ => c
  | fuel + 1, c, x =>
    if x = trailer then c
    else
      match (c.node x).next with
      | .nothing => c
      | .node f => dismantleFrom fuel ((c.modify x fun n => { n with next := .nothing }).release x) f
      | .marker f => dismantleFrom fuel (c.release x) f

/-- The whole chain is taken apart. -/
def dismantle (c : Chain α) : Chain α :=
  match (c.node header).next.node? with
  | none => c
  | some first =>
    let c₁ := dismantleFrom c.size c first
    (c₁.modify trailer fun n => { n with prev := none }).release? (c₁.node trailer).prev

end LeastRecent.Chain
