/-!
# Scripts: which calls are made, and what comes between

A script is a sequence of calls, made one after another. A call can be interrupted: while it runs it passes points,
which are numbered from 0, and its plan says at which of them other calls are made, each to its end, before it goes on.
A plan may have several stops at one point; they come one after another, in the order of the plan (`Plan.stopsAt`).
Those calls have plans of their own, so a script is a finite tree.
-/

namespace LeastRecent.Interleave

mutual
/-- Calls in the order in which they are made, each with its plan. -/
inductive Script (op : Type)
  | nil
  | call (o : op) (plan : Plan op) (rest : Script op)

/-- The interruptions of one call: at point `n` come `calls`. -/
inductive Plan (op : Type)
  | nil
  | stop (n : Nat) (calls : Script op) (rest : Plan op)
end

variable {op : Type}

/-- Calls that nothing interrupts. -/
def Script.plain : List op → Script op
  | [] => .nil
  | o :: os => .call o .nil (plain os)

/-- Nothing interrupts the call. -/
def Plan.isNil : Plan op → Bool
  | .nil => true
  | .stop .. => false

/-- The calls of each stop at point `n`, in the order of the plan. -/
def Plan.stopsAt (n : Nat) : Plan op → List (Script op)
  | .nil => []
  | .stop m calls rest => if m = n then calls :: rest.stopsAt n else rest.stopsAt n

mutual
/-- The number of calls and stops of a script. -/
def Script.weight : Script op → Nat
  | .nil => 0
  | .call _ plan rest => 1 + plan.weight + rest.weight

/-- The number of calls and stops of a plan. -/
def Plan.weight : Plan op → Nat
  | .nil => 0
  | .stop _ calls rest => 1 + calls.weight + rest.weight
end

end LeastRecent.Interleave
