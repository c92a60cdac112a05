import LeastRecent.Chain.Basic
import LeastRecent.Entry

/-!
# Labels of the nodes of a chain

Outside, a node is known by the label of its entry.
-/

namespace LeastRecent

/-- What the end of a session shows: the labels of the nodes retired by it, and of the entries destroyed. -/
structure Closing (ι : Type) where
  retired : List ι
  destroyed : List ι

namespace Chain

variable {ι κ ν : Type}

/-- The label of the entry that node `x` carries. -/
def label? (c : Chain (Entry ι κ ν)) (x : NodeId) : Option ι := (c.carried? x).map Entry.label

/-- The labels of the nodes retired so far, in order. -/
def retiredLabels (c : Chain (Entry ι κ ν)) : List ι := c.retired.filterMap c.label?

/-- The labels of the nodes retired since the chain was `old`. -/
def retiredSince (c old : Chain (Entry ι κ ν)) : List ι :=
  (c.retired.drop old.retired.length).filterMap c.label?

end Chain
end LeastRecent
