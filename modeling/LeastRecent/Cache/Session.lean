import LeastRecent.Cache.Call
import LeastRecent.Chain.Dismantle
import LeastRecent.Chain.Labels
import LeastRecent.Text.Quoted

/-!
# Sessions with a cache

Besides calling the cache, a session can keep entries under names of its own (handles), and compare them. An entry
lives as long as a node or a handle has it. In the end the cache goes while the handles remain: the index gives back its
links, the chain is taken apart, and the limbo destroys what was retired.
-/

namespace LeastRecent.Cache

variable {κ ν : Type}

/-- A cache, and entries kept by name. -/
structure Session (κ ν : Type) where
  cache : Cache κ ν
  handles : List (String × Entry Nat κ ν)

namespace Session

/-- What can be asked of a session. -/
inductive Request (κ ν : Type)
  | set (k : κ) (v : ν)
  | get (k : κ)
  /-- The entry is kept under the name `keep`, if one is given. -/
  | getEntry (k : κ) (keep : Option String)
  | contains (k : κ)
  | entries
  /-- The text of all entries. -/
  | text
  | capacity
  | isEmpty
  /-- The entry kept under a name. -/
  | held (name : String)
  /-- Are the entries kept under two names the same one? -/
  | same (a b : String)
  /-- A name is forgotten. -/
  | unhold (name : String)

/-- What a session answers. -/
inductive Answer (κ ν : Type)
  | done
  | absent
  | nothing
  | value (v : ν)
  | entry (e : Entry Nat κ ν)
  | entries (es : List (Entry Nat κ ν))
  | text (s : String)
  | number (n : Nat)
  | bool (b : Bool)
  | fault (f : Fault)

/-- An answer, and the size of the cache at that moment. -/
structure Served (κ ν : Type) where
  answer : Answer κ ν
  size : Nat

/-- A call suspended on behalf of a request. -/
structure Suspended (κ ν : Type) where
  request : Request κ ν
  stage : Stage κ ν

/-- What happens while requests are served. -/
inductive Event
  | retired (label : Nat)
  | noticed (n : Notice)

/-- A session starts with an empty cache, of the usual capacity if none is given. -/
def create (p : Policy) : Option Nat → Except SetupError (Session κ ν)
  | none => .ok ⟨.standard p, []⟩
  | some n => (Cache.create p n).map fun c => ⟨c, []⟩

/-- A session after one stretch of work, and how far the request got by it. -/
abbrev Turn (κ ν : Type) := Session κ ν × Interleave.Outcome (Suspended κ ν) (Served κ ν)

/-- A request is answered. -/
def answer (s : Session κ ν) (a : Answer κ ν) : Turn κ ν := (s, .done ⟨a, s.cache.size⟩)

/-- The reply to a call becomes the answer to the request that made it. -/
def present (s : Session κ ν) (r : Request κ ν) : Reply κ ν → Turn κ ν
  | .stored => s.answer .done
  | .present b => s.answer (.bool b)
  | .found none => s.answer .absent
  | .found (some e) =>
    match r with
    | .getEntry _ (some name) =>
      { s with handles := (name, e) :: s.handles.filter fun h => !(h.1 == name) }.answer (.entry e)
    | .getEntry _ none => s.answer (.entry e)
    | _ => s.answer (.value e.value)

/-- A call got on. If a rule of the chain was broken meanwhile, it ends with that fault. -/
def advance (s : Session κ ν) (r : Request κ ν) (p : Advance κ ν) : Turn κ ν :=
  let s' := { s with cache := p.1 }
  match s.cache.chain.fault, p.1.chain.fault with
  | none, some f => s'.answer (.fault f)
  | _, _ =>
    match p.2 with
    | .pause stage => (s', .pause ⟨r, stage⟩)
    | .done reply => s'.present r reply

/-- The live entries are listed as `f` says. -/
def list (s : Session κ ν) (f : List (Entry Nat κ ν) → Answer κ ν) : Turn κ ν :=
  let (cache, es) := s.cache.entries
  { s with cache := cache }.answer (match es with | .ok es => f es | .error e => .fault e)

variable [ToString κ] [ToString ν]

/-- A request is served up to its first pause or its end. -/
def start (r : Request κ ν) (s : Session κ ν) : Turn κ ν :=
  match r with
  | .set k v => s.advance r (Cache.start (.set k v) s.cache)
  | .get k => s.advance r (Cache.start (.get k) s.cache)
  | .getEntry k _ => s.advance r (Cache.start (.get k) s.cache)
  | .contains k => s.advance r (Cache.start (.contains k) s.cache)
  | .entries => s.list .entries
  | .text => s.list fun es => .text (Text.bracketed (es.map toString))
  | .capacity => s.answer (.number s.cache.capacity)
  | .isEmpty => s.answer (.bool s.cache.isEmpty)
  | .held name => s.answer (((s.handles.lookup name).map Answer.entry).getD .nothing)
  | .same a b =>
    match s.handles.lookup a, s.handles.lookup b with
    | some e, some e' => s.answer (.bool (e.label == e'.label))
    | _, _ => s.answer .nothing
  | .unhold name =>
    { s with handles := s.handles.filter fun h => !(h.1 == name) }.answer
      (.bool (s.handles.lookup name).isSome)

variable [BEq κ]

/-- A suspended request goes on to its next pause or its end. -/
def resume (p : Suspended κ ν) (s : Session κ ν) : Turn κ ν :=
  s.advance p.request (Cache.resume p.stage s.cache)

/-- What happened between two states. -/
def events (old s : Session κ ν) : List Event :=
  (s.cache.chain.retiredSince old.cache.chain).map .retired ++
    (s.cache.notices.drop old.cache.notices.length).map .noticed

/-- Requests, with the points of the calls that they make. -/
def system : Interleave.System (Session κ ν) (Request κ ν) (Suspended κ ν) (Served κ ν) Event where
  start := start
  resume := resume
  point p := p.stage.point
  events := events

/-! ## The end -/

/-- Each label where it stands last. -/
def lastOfEach : List Nat → List Nat
  | [] => []
  | l :: ls => if l ∈ ls then lastOfEach ls else l :: lastOfEach ls

/-- The chain after the cache went: the links of the index are given back first. -/
def dismantled (s : Session κ ν) : Chain (Entry Nat κ ν) :=
  (s.cache.chain.releaseAll s.cache.index.drain.2).dismantle

/-- The labels of entries that somebody still has: by a handle, or in a node of `chain` that was not retired. -/
def kept (s : Session κ ν) (chain : Chain (Entry Nat κ ν)) : List Nat :=
  s.handles.map (·.2.label) ++
    ((List.range chain.size).filter fun x => !chain.retired.contains x).filterMap chain.label?

/-- What the end of a session shows. An entry is destroyed with the last of its nodes, unless somebody still has it. -/
def close (s : Session κ ν) : Closing Nat :=
  let chain := s.dismantled
  let kept := s.kept chain
  let gone := (lastOfEach chain.retiredLabels).filter fun l => !kept.contains l
  ⟨chain.retiredSince s.cache.chain, chain.limbo.policy.listed (fun a b => decide (a ≤ b)) gone⟩

/-- A whole session that starts as `s`: the records of the requests, and what its end shows. -/
def run (s : Session κ ν) (script : Interleave.Script (Request κ ν)) :
    List (Interleave.Record (Served κ ν) Event) × Closing Nat :=
  let m := Interleave.Machine.session system s script
  (m.records, m.state.close)

end Session
end LeastRecent.Cache
