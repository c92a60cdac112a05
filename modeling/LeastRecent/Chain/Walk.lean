import LeastRecent.Chain.Links

/-!
# Walks along the chain

A walk sees live nodes and sentinels only, and repairs what it comes across.

* `successor`: the first node behind `x` that is not deleted. If `x` is live, the deleted nodes between are unlinked,
  and the hint of the node found is set to `x`.
* `predecessor`: the hints are followed backward. A node whose successor is `x` is the answer; from a live one `x` is
  searched forward; a deleted one leads further back; without a hint the search starts at the header.
* `forward` and `back` hide the sentinels, `walk` and `walkBack` repeat them.

No walk takes more steps than there are nodes, which bounds the numeric arguments.
-/

namespace LeastRecent.Chain

variable {α : Type}

/-- The deleted nodes from the one given on, and the first other node behind them. -/
def skim (c : Chain α) : Nat → Option NodeId → List NodeId × Option NodeId
  | 0, _ => ([], none)
  | _ + 1, none => ([], none)
  | fuel + 1, some x =>
    if c.isDeleted x then
      let (dead, found) := c.skim fuel (c.node x).next.node?
      (x :: dead, found)
    else ([], some x)

/-- The live node `x` gets the successor `f` in place of the deleted nodes `dead`, which lose their link of the chain;
the hint of `f` is set right. -/
def bypass (c : Chain α) (x : NodeId) (dead : List NodeId) (f : NodeId) : Chain α :=
  let c₁ := (c.modify x fun n => { n with next := .node f }).releaseAll dead
  if (c₁.node f).prev = some x then c₁ else c₁.setHint f x

/-- The first node behind `x` that is not deleted. -/
def successor (c : Chain α) (x : NodeId) : Chain α × Option NodeId :=
  match c.skim c.size (c.node x).next.node? with
  | (_, none) => (c, none)
  | (dead, some f) => (if c.isDeleted x then c else c.bypass x dead f, some f)

/-- The node whose successor is `target`, searched from `start` on. -/
def seek : Nat → Chain α → NodeId → NodeId → Chain α × Option NodeId
  | 0, c, _, _ => (c, none)
  | fuel + 1, c, start, target =>
    match c.successor start with
    | (c₁, none) => (c₁, none)
    | (c₁, some f) => if f = target then (c₁, some start) else seek fuel c₁ f target

/-- The predecessor of `target`, following the hints from `n` backward. -/
def predecessorFrom : Nat → Chain α → NodeId → NodeId → Chain α × Option NodeId
  | 0, c, _, _ => (c, none)
  | fuel + 1, c, n, target =>
    match (c.node n).prev with
    | none => seek c.size c header target
    | some b =>
      if (c.node b).next = .node target then (c, some b)
      else if c.isDeleted b then predecessorFrom fuel c b target
      else
        match seek c.size c b target with
        | (c₁, some p) => (c₁, some p)
        | (c₁, none) => predecessorFrom fuel c₁ b target

/-- The last node before `x` that is not deleted, as far as it can be found. -/
def predecessor (c : Chain α) (x : NodeId) : Chain α × Option NodeId := predecessorFrom c.size c x x

/-- The answer of a walk, with sentinels hidden. -/
def hideSentinel (c : Chain α) (x : Option NodeId) : Option NodeId := x.filter fun n => !c.isSentinel n

/-- The next live entry behind `x`. -/
def forward (c : Chain α) (x : NodeId) : Chain α × Option NodeId :=
  let (c₁, y) := c.successor x
  (c₁, c₁.hideSentinel y)

/-- The last live entry before `x`. -/
def back (c : Chain α) (x : NodeId) : Chain α × Option NodeId :=
  let (c₁, y) := c.predecessor x
  (c₁, c₁.hideSentinel y)

/-- The nodes reached from `x` by repeating `move`. -/
def iterate (move : Chain α → NodeId → Chain α × Option NodeId) :
    Nat → Chain α → NodeId → Chain α × List NodeId
  | 0, c, _ => (c, [])
  | fuel + 1, c, x =>
    match move c x with
    | (c₁, none) => (c₁, [])
    | (c₁, some y) =>
      let (c₂, ys) := iterate move fuel c₁ y
      (c₂, y :: ys)

/-- The live entries behind `x`, nearest first. -/
def walk (c : Chain α) (x : NodeId) : Chain α × List NodeId := iterate forward c.size c x

/-- The live entries before `x`, nearest first. -/
def walkBack (c : Chain α) (x : NodeId) : Chain α × List NodeId := iterate back c.size c x

end LeastRecent.Chain
