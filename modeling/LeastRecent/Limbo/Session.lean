import LeastRecent.Limbo.Basic
import LeastRecent.Limbo.Epochs

/-!
# Sessions with a limbo

A session serves requests one after another about numbered objects, and lists in the end what was destroyed. Where
everything waits to the end, nothing can be pinned and a flush does nothing.
-/

namespace LeastRecent.Limbo

/-- What can be asked of a limbo. -/
inductive Request
  | retire (id : Nat)
  | pin
  | unpin
  | flush

/-- What a limbo answers. -/
inductive Answer
  | pending (n : Option Nat)
  | pinned (b : Bool)
  /-- The objects destroyed so far. -/
  | destroyed (ids : List Nat)
  | fault (f : Fault)

/-- One request is served where everything waits to the end. -/
def serve (l : Limbo Nat) : Request → Limbo Nat × Answer
  | .retire id =>
    match l.retire id with
    | .ok l' => (l', .pending l'.pending?)
    | .error f => (l, .fault f)
  | .pin => (l, .pinned false)
  | .unpin => (l, .pinned false)
  | .flush => (l, .destroyed [])

/-- Objects of an epoch-based limbo: in increasing order. -/
def sorted (ids : List Nat) : List Nat := Policy.epoch.listed (fun a b => decide (a ≤ b)) ids

/-- One request is served by epochs. -/
def serveByEpochs (c : Epochs Nat) : Request → Epochs Nat × Answer
  | .retire id => (c.retire id, .pending none)
  | .pin => (c.pin, .pinned c.pin.isPinned)
  | .unpin => (c.unpin, .pinned c.unpin.isPinned)
  | .flush => (c.flush, .destroyed (sorted c.flush.destroyed))

/-- Requests are served in order. -/
def serveAll {σ : Type} (serve : σ → Request → σ × Answer) (s : σ) : List Request → σ × List Answer
  | [] => (s, [])
  | r :: rs =>
    let (s₁, a) := serve s r
    let (s₂, as) := serveAll serve s₁ rs
    (s₂, a :: as)

/-- A whole session: the answers, and all objects destroyed by its end. -/
def session (p : Policy) (rs : List Request) : List Answer × List Nat :=
  match p with
  | .deferred =>
    let (l, as) := serveAll serve (empty .deferred) rs
    (as, l.waiting)
  | .epoch =>
    let (c, as) := serveAll serveByEpochs .start rs
    (as, sorted c.objects)

end LeastRecent.Limbo
