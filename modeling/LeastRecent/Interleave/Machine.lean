import LeastRecent.Interleave.Script

/-!
# The machine that runs scripts

A system says how a call starts and how a suspended call goes on, each time up to its next stage or its end. The machine
keeps the suspended calls on a stack: the call on top is the one that runs, and each of the others waits at a point for
the calls above it. One `step` starts one call, or turns to the next stop at the point reached, or lets the top call go
on to its next stage; a call that ends leaves a record of its result, of what happened while it ran itself, of the
points that it passed, and of the calls made at each stop.

A stage need not be a point: at a stage without a point nothing can come between. A machine with nothing left to do
stays as it is (`step_finished`).
-/

namespace LeastRecent.Interleave

/-- What a call is about to do at a point. -/
inductive Point
  /-- A node is about to be made. -/
  | node
  /-- The index is about to be looked at. -/
  | index
  deriving DecidableEq

/-- How far a call got. -/
inductive Outcome (pc ρ : Type)
  | pause (stage : pc)
  | done (result : ρ)

/-- How calls of type `op` run on states of type `σ`. Between two pauses nothing else happens. -/
structure System (σ op pc ρ ev : Type) where
  start : op → σ → σ × Outcome pc ρ
  resume : pc → σ → σ × Outcome pc ρ
  /-- The point that a call passes at a stage, if it passes one. -/
  point : pc → Option Point
  /-- What happened between two states. -/
  events : σ → σ → List ev

/-- What is known of a call that has ended. -/
structure Record (ρ ev : Type) where
  result : ρ
  /-- What happened in the call itself, calls at its points apart. -/
  events : List ev
  /-- The call had a plan. -/
  planned : Bool
  points : List Point
  /-- The calls made at each stop, with the number of the point, in the order of execution. -/
  groups : List (Nat × List (Record ρ ev))

/-- What is known of a call that runs. -/
structure Progress (op ρ ev : Type) where
  plan : Plan op
  points : List Point
  /-- What is still to be done at the point reached: the rest of the stop that is being served, and later stops. -/
  waiting : List (Script op)
  /-- The calls made at each stop so far, latest stop first. -/
  groups : List (Nat × List (Record ρ ev))
  events : List ev

/-- A suspended call. -/
structure Frame (op pc ρ ev : Type) where
  stage : pc
  progress : Progress op ρ ev

/-- A state, the calls in progress with the running one first, the calls still to be made, and the records so far. -/
structure Machine (σ op pc ρ ev : Type) where
  state : σ
  stack : List (Frame op pc ρ ev)
  todo : Script op
  records : List (Record ρ ev)

variable {σ op pc ρ ev : Type}

namespace Progress

/-- A call that has just started. -/
def begin (plan : Plan op) : Progress op ρ ev := ⟨plan, [], [], [], []⟩

/-- Events of the call itself. -/
def witness (p : Progress op ρ ev) (es : List ev) : Progress op ρ ev := { p with events := p.events ++ es }

/-- A call that was made at the point reached has ended. -/
def attach (p : Progress op ρ ev) (r : Record ρ ev) : Progress op ρ ev :=
  match p.groups with
  | [] => p
  | (n, rs) :: gs => { p with groups := (n, rs ++ [r]) :: gs }

/-- The stops that remain at the last point passed; the first of them is served from now on. -/
def turnTo (p : Progress op ρ ev) : List (Script op) → Progress op ρ ev
  | [] => { p with waiting := [] }
  | calls :: rest => { p with waiting := calls :: rest, groups := (p.points.length - 1, []) :: p.groups }

/-- The call passes a point and comes to the stops planned for it. -/
def pass (p : Progress op ρ ev) (x : Point) : Progress op ρ ev :=
  { p with points := p.points ++ [x] }.turnTo (p.plan.stopsAt p.points.length)

/-- The record of the call, now that it has ended. -/
def record (p : Progress op ρ ev) (result : ρ) : Record ρ ev :=
  ⟨result, p.events, !p.plan.isNil, p.points, p.groups.reverse⟩

end Progress

namespace Machine

/-- Nothing has happened yet. -/
def init (s : σ) (script : Script op) : Machine σ op pc ρ ev := ⟨s, [], script, []⟩

/-- A record goes to the call that waits for it, or to the records of the session. -/
def deliver (m : Machine σ op pc ρ ev) (r : Record ρ ev) : Machine σ op pc ρ ev :=
  match m.stack with
  | [] => { m with records := m.records ++ [r] }
  | f :: fs => { m with stack := { f with progress := f.progress.attach r } :: fs }

variable (sys : System σ op pc ρ ev)

/-- The running call, taken off the stack, has got as far as `out`. -/
def settle (m : Machine σ op pc ρ ev) (p : Progress op ρ ev) (out : Outcome pc ρ) : Machine σ op pc ρ ev :=
  match out with
  | .done r => m.deliver (p.record r)
  | .pause stage =>
    match sys.point stage with
    | none => { m with stack := ⟨stage, p⟩ :: m.stack }
    | some x => { m with stack := ⟨stage, p.pass x⟩ :: m.stack }

/-- A call is made. -/
def enter (m : Machine σ op pc ρ ev) (o : op) (plan : Plan op) : Machine σ op pc ρ ev :=
  let (s, out) := sys.start o m.state
  settle sys { m with state := s } ((Progress.begin plan).witness (sys.events m.state s)) out

/-- One call is made, or the next stop begins, or the running call goes on to its next stage. -/
def step (m : Machine σ op pc ρ ev) : Machine σ op pc ρ ev :=
  match m.stack with
  | [] =>
    match m.todo with
    | .nil => m
    | .call o plan rest => enter sys { m with todo := rest } o plan
  | f :: fs =>
    match f.progress.waiting with
    | .call o plan calls :: rest =>
      enter sys { m with stack := { f with progress := { f.progress with waiting := calls :: rest } } :: fs } o plan
    | .nil :: rest => { m with stack := { f with progress := f.progress.turnTo rest } :: fs }
    | [] =>
      let (s, out) := sys.resume f.stage m.state
      settle sys { m with state := s, stack := fs } (f.progress.witness (sys.events m.state s)) out

/-- No call is in progress and none is to be made. -/
def finished (m : Machine σ op pc ρ ev) : Bool :=
  match m.stack, m.todo with
  | [], .nil => true
  | _, _ => false

/-- Steps until the machine is finished, but no more than the first argument says. -/
def run : Nat → Machine σ op pc ρ ev → Machine σ op pc ρ ev
  | 0, m => m
  | fuel + 1, m => if m.finished then m else run fuel (m.step sys)

/-- Steps that suffice for a script of the given weight: with no interruption to come, a call ends after a number of
steps that grows with the number of calls made before. -/
def allowance (weight : Nat) : Nat := 16 * (weight + 1) * (weight + 1)

/-- The machine after the whole script. -/
def session (s : σ) (script : Script op) : Machine σ op pc ρ ev := run sys (allowance script.weight) (init s script)

/-- A finished machine stays as it is. -/
theorem step_finished {m : Machine σ op pc ρ ev} (h : m.finished = true) : m.step sys = m := by
  unfold finished at h
  split at h
  · next hs ht => simp [step, hs, ht]
  · contradiction

end Machine
end LeastRecent.Interleave
