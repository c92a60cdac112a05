import LeastRecent.Chain.Links

/-!
# Insertion and deletion

Both come in two halves with a pause between them, in which other calls may change the chain; the second half looks
again.

* Insertion behind a node: `beginInsert` takes a link on that node for the hint of the new one, `finishInsert` links the
  new node if the node before it is still live and gives the link back otherwise.
* Deletion: `beginDelete` notes the neighbours of a live node, `finishDelete` puts the marker if the successor is still
  the one noted. It then tries once to unlink the node from the neighbour before it; a later walk does so otherwise.
-/

namespace LeastRecent.Chain

variable {α : Type}

/-- The first half of an insertion behind `after`; refused if `after` has no links any more. -/
def beginInsert (c : Chain α) (after : NodeId) : Option (Chain α) := c.acquire after

/-- A new node with entry `a` between `after` and `f`, whose hint takes over a link on `after`. It has two links: one of
the chain and one of its owner. -/
def link (c : Chain α) (after f : NodeId) (a : α) : Chain α :=
  { c with nodes := c.nodes.push ⟨.carrier a, .node f, some after, 2, false⟩ }.modify after
    fun n => { n with next := .node c.size }

/-- The second half of an insertion behind `after`: the new node, if there is one. -/
def finishInsert (c : Chain α) (after : NodeId) (a : α) : Chain α × Option NodeId :=
  match (c.node after).next with
  | .node f => ((c.link after f a).setHint f c.size, some c.size)
  | _ => (c.release after, none)

/-- A deletion at its pause: the node, and the neighbours that it had. -/
structure Cut where
  target : NodeId
  before : Option NodeId
  after : NodeId
  deriving DecidableEq

/-- The first half of a deletion of `x`; refused for sentinels and deleted nodes. -/
def beginDelete (c : Chain α) (x : NodeId) : Option Cut :=
  if c.isSentinel x then none
  else
    match (c.node x).next with
    | .node f => some ⟨x, (c.node x).prev, f⟩
    | _ => none

/-- The deleted node `x` is unlinked from `b`, if it still follows `b`, in favour of `f`. -/
def unlink (c : Chain α) (b x f : NodeId) : Chain α :=
  if (c.node b).next = .node x then
    ((c.modify b fun n => { n with next := .node f }).setHint f b).release x
  else c

/-- The second half of a deletion, and whether it was this one that deleted the node. -/
def finishDelete (c : Chain α) (cut : Cut) : Chain α × Bool :=
  if (c.node cut.target).next = .node cut.after then
    let c₁ := c.modify cut.target fun n => { n with next := .marker cut.after }
    match cut.before with
    | some b => (c₁.unlink b cut.target cut.after, true)
    | none => (c₁, true)
  else (c, false)

end LeastRecent.Chain
