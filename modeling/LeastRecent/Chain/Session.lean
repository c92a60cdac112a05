import LeastRecent.Chain.Dismantle
import LeastRecent.Chain.Edit
import LeastRecent.Chain.Labels
import LeastRecent.Chain.Walk
import LeastRecent.Interleave.Machine

/-!
# Sessions with a chain

In a session with a chain the nodes have names. A request names the node that it is about; an unknown name is refused
before anything else. The session owns every node that it inserts, until it gives the owner's link back. An insertion
that fails destroys its entry at once. Insertions and deletions are the calls that can be interrupted (`Stage`); they
pause at the one point between their two halves.
-/

namespace LeastRecent.Chain

variable {κ ν : Type}

/-- A chain whose nodes have names. -/
structure Session (κ ν : Type) where
  chain : Chain (Entry String κ ν)
  /-- The nodes by name, latest first. -/
  names : List (String × NodeId)
  /-- The nodes whose owner's link was not given back. -/
  owned : List NodeId
  /-- The labels of the entries destroyed because their insertion failed, in order. -/
  failed : List String

namespace Session

/-- What can be asked about the node with a name. -/
inductive Request (κ ν : Type)
  /-- A new node with the name `new` comes behind the node. -/
  | append (node new : String) (k : κ) (v : ν)
  | delete (node : String)
  | successor (node : String)
  | predecessor (node : String)
  | forward (node : String)
  | back (node : String)
  | walk (node : String)
  | walkBack (node : String)
  /-- The owner's link is given back. -/
  | release (node : String)
  | text (node : String)
  | describe (node : String)
  | pending

/-- What a session answers. -/
inductive Answer (κ ν : Type)
  | bool (b : Bool)
  | node (name : Option String)
  | nodes (names : List String)
  | done
  | text (s : String)
  | description (role : Role (Entry String κ ν)) (deleted : Bool)
  | pending (n : Option Nat)
  | unbound (name : String)
  | notOwned (name : String)
  | fault (f : Fault)

/-- Where a request is suspended. -/
inductive Stage (κ ν : Type)
  | inserting (after : NodeId) (e : Entry String κ ν)
  | cutting (cut : Cut)

/-- What happens while requests are served. -/
inductive Event
  | retired (label : String)
  | destroyed (label : String)

/-- A new chain: the sentinels have names. -/
def create (p : Policy) : Session κ ν := ⟨.empty p, [("HEADER", header), ("TRAILER", trailer)], [], []⟩

/-- The name under which a node is reported. -/
def nameOf (s : Session κ ν) (x : NodeId) : String :=
  match (s.chain.node x).role with
  | .header => "HEADER"
  | .trailer => "TRAILER"
  | .carrier e => e.label

/-- The insertion of an entry with label `name` failed. -/
def lose (s : Session κ ν) (name : String) : Session κ ν := { s with failed := s.failed ++ [name] }

/-- A session after one stretch of work, and how far the request got by it. -/
abbrev Turn (κ ν : Type) := Session κ ν × Interleave.Outcome (Stage κ ν) (Answer κ ν)

/-- A walk to one node. -/
def reach (s : Session κ ν) (w : Chain (Entry String κ ν) × Option NodeId) : Turn κ ν :=
  let s' := { s with chain := w.1 }
  (s', .done (.node (w.2.map s'.nameOf)))

/-- A walk along many nodes. -/
def reachAll (s : Session κ ν) (w : Chain (Entry String κ ν) × List NodeId) : Turn κ ν :=
  let s' := { s with chain := w.1 }
  (s', .done (.nodes (w.2.map s'.nameOf)))

/-- A request about the node with name `name`. -/
def withNode (s : Session κ ν) (name : String) (serve : NodeId → Turn κ ν) : Turn κ ν :=
  match s.names.lookup name with
  | none => (s, .done (.unbound name))
  | some x => serve x

variable [ToString κ] [ToString ν]

/-- A request is served up to its pause or its end. -/
def start (r : Request κ ν) (s : Session κ ν) : Turn κ ν :=
  match r with
  | .append name new k v => s.withNode name fun x =>
    match s.chain.beginInsert x with
    | none => (s.lose new, .done (.bool false))
    | some c => ({ s with chain := c }, .pause (.inserting x ⟨new, k, v⟩))
  | .delete name => s.withNode name fun x =>
    match s.chain.beginDelete x with
    | none => (s, .done (.bool false))
    | some cut => (s, .pause (.cutting cut))
  | .successor name => s.withNode name fun x => s.reach (s.chain.successor x)
  | .predecessor name => s.withNode name fun x => s.reach (s.chain.predecessor x)
  | .forward name => s.withNode name fun x => s.reach (s.chain.forward x)
  | .back name => s.withNode name fun x => s.reach (s.chain.back x)
  | .walk name => s.withNode name fun x => s.reachAll (s.chain.walk x)
  | .walkBack name => s.withNode name fun x => s.reachAll (s.chain.walkBack x)
  | .release name => s.withNode name fun x =>
    if x ∈ s.owned then ({ s with chain := s.chain.release x, owned := s.owned.erase x }, .done .done)
    else (s, .done (.notOwned name))
  | .text name => s.withNode name fun x => (s, .done (.text (s.chain.node x).text))
  | .describe name => s.withNode name fun x => (s, .done (.description (s.chain.node x).role (s.chain.isDeleted x)))
  | .pending => (s, .done (.pending s.chain.limbo.pending?))

/-- A suspended request goes on to its end. -/
def resume (stage : Stage κ ν) (s : Session κ ν) : Turn κ ν :=
  match stage with
  | .inserting x e =>
    match s.chain.finishInsert x e with
    | (c, none) => ({ s with chain := c }.lose e.label, .done (.bool false))
    | (c, some y) =>
      ({ s with chain := c, names := (e.label, y) :: s.names, owned := y :: s.owned }, .done (.bool true))
  | .cutting cut =>
    let (c, won) := s.chain.finishDelete cut
    ({ s with chain := c }, .done (.bool won))

/-- A request in which a rule of the chain was broken ends with that fault. -/
def judge (old : Session κ ν) (p : Turn κ ν) : Turn κ ν :=
  match old.chain.fault, p.1.chain.fault with
  | none, some f => (p.1, .done (.fault f))
  | _, _ => p

/-- What happened between two states: nodes were retired, and entries whose insertion failed were destroyed. Where the
time of destruction is not certain, it is reported in the end only. -/
def events (old s : Session κ ν) : List Event :=
  (s.chain.retiredSince old.chain).map .retired ++
    match s.chain.limbo.policy with
    | .deferred => (s.failed.drop old.failed.length).map .destroyed
    | .epoch => []

/-- Requests, with the pauses of insertions and deletions as points. -/
def system : Interleave.System (Session κ ν) (Request κ ν) (Stage κ ν) (Answer κ ν) Event where
  start r s := s.judge (start r s)
  resume stage s := s.judge (resume stage s)
  point _ := some .node
  events := events

/-- The chain is taken apart, and the limbo destroys what was retired. Entries that were destroyed before are listed if
that was not reported. -/
def close (s : Session κ ν) : Closing String :=
  let c := s.chain.dismantle
  let unreported := match c.limbo.policy with
    | .deferred => []
    | .epoch => s.failed
  ⟨c.retiredSince s.chain,
    c.limbo.policy.listed (fun a b => decide (a ≤ b)) (c.retiredLabels ++ unreported)⟩

/-- A whole session: the records of the requests, and what its end shows. -/
def run (p : Policy) (script : Interleave.Script (Request κ ν)) :
    List (Interleave.Record (Answer κ ν) Event) × Closing String :=
  let m := Interleave.Machine.session system (create p) script
  (m.records, m.state.close)

end Session
end LeastRecent.Chain
