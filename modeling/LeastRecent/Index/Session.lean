import LeastRecent.Index.Basic

/-!
# Sessions with an index

A session serves requests one after another on an index of numbered nodes. The size of the index goes with each answer.
-/

namespace LeastRecent.Index

/-- What can be asked of an index. -/
inductive Request (κ : Type)
  | publish (k : κ) (node : Nat)
  | find (k : κ)
  | replace (k : κ) (expected node : Nat)
  | removeIf (k : κ) (expected : Nat)
  | isEmpty
  | drain

/-- What an index answers. -/
inductive Answer
  | node (n : Option Nat)
  | bool (b : Bool)
  /-- All nodes handed back, smallest first. -/
  | nodes (ns : List Nat)

variable {κ : Type} [BEq κ]

/-- One request is served. -/
def serve (i : Index κ Nat) : Request κ → Index κ Nat × Answer
  | .publish k n => let (i', displaced) := i.publish k n; (i', .node displaced)
  | .find k => (i, .node (i.find? k))
  | .replace k e n => let (i', done) := i.replace k e n; (i', .bool done)
  | .removeIf k e => let (i', done) := i.removeIf k e; (i', .bool done)
  | .isEmpty => (i, .bool i.isEmpty)
  | .drain => let (i', ns) := i.drain; (i', .nodes (ns.mergeSort fun a b => decide (a ≤ b)))

/-- Requests are served in order; each answer comes with the size that it leaves. -/
def serveAll (i : Index κ Nat) : List (Request κ) → List (Answer × Nat)
  | [] => []
  | r :: rs =>
    let (i', a) := i.serve r
    (a, i'.size) :: i'.serveAll rs

/-- A whole session on an index that is empty at first. -/
def session (rs : List (Request κ)) : List (Answer × Nat) := empty.serveAll rs

end LeastRecent.Index
