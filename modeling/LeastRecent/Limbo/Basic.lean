import LeastRecent.Fault

/-!
# Limbo: retired objects that are not destroyed yet

An object that nobody can reach any more is retired; it waits in limbo until nobody can still be looking at it. When
that is depends on the policy.

* `deferred`: everything waits until the limbo itself goes, and is then destroyed in the order of retirement. A second
  retirement of an object is a fault and changes nothing.
* `epoch`: whoever is looking holds a pin, and objects are destroyed in batches once no pin is left from their time (see
  `Epochs`). In which order the objects go is not determined, so they are listed in increasing order. A second
  retirement goes unnoticed.

The epochs are kept by a library. This is assumed of it: an object that is retired is destroyed, once for each time that
it was retired, not before the pins are given back that were held at its retirement, and at the latest when the limbo
has gone with all its pins. `Epochs` does so (`spared_while_held`, `session_epoch`). Chains and caches rely on no more
than that: for them a limbo is the list of what was retired, whenever it is destroyed.
-/

namespace LeastRecent

/-- When retired objects are destroyed. -/
inductive Policy
  | deferred
  | epoch
  deriving DecidableEq

/-- How the objects `xs`, destroyed in this order, are listed. -/
def Policy.listed {α : Type} (p : Policy) (le : α → α → Bool) (xs : List α) : List α :=
  match p with
  | .deferred => xs
  | .epoch => xs.mergeSort le

/-- Objects that wait for the end of those who may be looking at them. -/
structure Limbo (α : Type) where
  policy : Policy
  /-- Retired, first retired first. -/
  waiting : List α

namespace Limbo

variable {α : Type}

/-- Nothing is retired. -/
def empty (p : Policy) : Limbo α := ⟨p, []⟩

/-- `a` is retired; a second retirement is noticed where objects stay in limbo to the end. -/
def retire [DecidableEq α] (l : Limbo α) (a : α) : Except Fault (Limbo α) :=
  if l.policy = .deferred ∧ a ∈ l.waiting then .error .duplicateRetirement
  else .ok { l with waiting := l.waiting ++ [a] }

/-- How many objects wait, where that is certain. -/
def pending? (l : Limbo α) : Option Nat :=
  match l.policy with
  | .deferred => some l.waiting.length
  | .epoch => none

/-- What is retired comes behind all that waits. -/
theorem waiting_of_retire [DecidableEq α] {l l' : Limbo α} {a : α} (h : l.retire a = .ok l') :
    l'.waiting = l.waiting ++ [a] := by
  unfold retire at h
  split at h
  · cases h
  · cases h; rfl

end Limbo
end LeastRecent
