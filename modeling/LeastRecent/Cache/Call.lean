import LeastRecent.Cache.Basic
import LeastRecent.Interleave.Machine

/-!
# Calls to the cache

A call runs in stages, between which other calls may come. It pauses whenever it is about to look at the index, and in
the middle of each insertion and deletion.

* `set` looks for the node of the key and deletes it (whether it wins is of no importance), puts a fresh node in front
  and publishes it; a node displaced from the index is discarded.
* `get` looks for the node of the key and tries to delete it. If it wins, it puts a fresh node with the same entry in
  front and replaces the old one in the index; if the index has moved on, the fresh node is discarded. If it loses, it
  tries again as long as the node is live and still in the index. The entry found first is the answer in any case.
* Both then `settle`: an eviction may have come upon the fresh node before it was in the index; such a node leaves the
  index again. Last they evict from the back of the chain while the index is larger than the capacity.
* `contains` looks into the index.

The stages `push`, `discard` and `evict` are repetitions with nothing in between, so they are not points.
-/

namespace LeastRecent.Cache

open Interleave (Outcome Point)
open Chain (Cut)

/-- A call. -/
inductive Call (κ ν : Type)
  | set (k : κ) (v : ν)
  | get (k : κ)
  | contains (k : κ)

/-- The answer to a call. -/
inductive Reply (κ ν : Type)
  | stored
  | found (e : Option (Entry Nat κ ν))
  | present (b : Bool)

/-- Why a fresh node is put in front. -/
inductive Errand (κ ν : Type)
  /-- The entry is new. -/
  | store (e : Entry Nat κ ν)
  /-- The entry, asked for with key `k`, moves from the node `stale`. -/
  | promote (k : κ) (e : Entry Nat κ ν) (stale : NodeId)

/-- The entry of the fresh node. -/
def Errand.entry {κ ν : Type} : Errand κ ν → Entry Nat κ ν
  | .store e => e
  | .promote _ e _ => e

/-- What comes after a node was discarded. -/
inductive Sequel (κ ν : Type)
  /-- The node discarded made room for `fresh`. -/
  | settle (k : κ) (fresh : NodeId) (r : Reply κ ν)
  | finish (r : Reply κ ν)

/-- Where a call is suspended. -/
inductive Stage (κ ν : Type)
  /-- About to look for the node that the entry replaces. -/
  | find (e : Entry Nat κ ν)
  /-- In the middle of deleting that node. -/
  | displace (e : Entry Nat κ ν) (cut : Cut)
  /-- About to look for the node to promote. -/
  | fetch (k : κ)
  /-- In the middle of deleting that node. -/
  | withdraw (k : κ) (e : Entry Nat κ ν) (cut : Cut)
  /-- The deletion was lost on a live node; about to look whether it is still the one. -/
  | recheck (k : κ) (e : Entry Nat κ ν) (x : NodeId)
  | push (g : Errand κ ν)
  /-- In the middle of putting a fresh node in front. -/
  | front (g : Errand κ ν)
  /-- About to put the fresh node into the index. -/
  | publish (e : Entry Nat κ ν) (fresh : NodeId)
  /-- About to put the fresh node into the index in place of the old one. -/
  | replace (k : κ) (e : Entry Nat κ ν) (stale fresh : NodeId)
  | discard (x : NodeId) (next : Sequel κ ν)
  /-- In the middle of deleting a node that left the index. -/
  | discarding (cut : Cut) (next : Sequel κ ν)
  /-- About to take the fresh node out of the index again, since it was evicted already. -/
  | settle (k : κ) (fresh : NodeId) (r : Reply κ ν)
  | evict (r : Reply κ ν)
  /-- In the middle of deleting the least recent node. -/
  | evicting (cut : Cut) (r : Reply κ ν)
  /-- About to take an evicted node out of the index. -/
  | purge (k : κ) (victim : NodeId) (r : Reply κ ν)
  /-- About to look whether a key is present. -/
  | probe (k : κ)

/-- The point that a call passes at a stage. -/
def Stage.point {κ ν : Type} : Stage κ ν → Option Point
  | .displace .. | .withdraw .. | .front .. | .discarding .. | .evicting .. => some .node
  | .find .. | .fetch .. | .recheck .. | .publish .. | .replace .. | .settle .. | .purge .. | .probe .. => some .index
  | .push .. | .discard .. | .evict .. => none

/-- A cache after one stretch of work, and how far the call got by it. -/
abbrev Advance (κ ν : Type) := Cache κ ν × Outcome (Stage κ ν) (Reply κ ν)

variable {κ ν : Type}

/-- Evict the least recent node, if the index is too large. -/
def evict (c : Cache κ ν) (r : Reply κ ν) : Advance κ ν :=
  if c.size ≤ c.capacity then (c, .done r)
  else
    match c.chain.back Chain.trailer with
    | (chain, none) => ({ c with chain := chain }.note (.noCandidate c.size), .done r)
    | (chain, some x) =>
      match chain.beginDelete x with
      | none => ({ c with chain := chain }, .pause (.evict r))
      | some cut => ({ c with chain := chain }, .pause (.evicting cut r))

/-- The fresh node is in the index; has it been evicted before? -/
def settle (c : Cache κ ν) (k : κ) (fresh : NodeId) (r : Reply κ ν) : Advance κ ν :=
  if c.chain.isEvicted fresh then (c, .pause (.settle k fresh r)) else c.evict r

/-- A node was discarded; the call goes on. -/
def proceed (c : Cache κ ν) : Sequel κ ν → Advance κ ν
  | .settle k fresh r => c.settle k fresh r
  | .finish r => (c, .done r)

/-- Delete a node that left the index, unless that is done, and give back the link of its owner. -/
def discard (c : Cache κ ν) (x : NodeId) (next : Sequel κ ν) : Advance κ ν :=
  if c.chain.isDeleted x then (c.release x).proceed next
  else
    match c.chain.beginDelete x with
    | none => (c, .pause (.discard x next))
    | some cut => (c, .pause (.discarding cut next))

/-- Put a fresh node in front. -/
def push (c : Cache κ ν) (g : Errand κ ν) : Advance κ ν :=
  match c.chain.beginInsert Chain.header with
  | none => (c, .pause (.push g))
  | some chain => ({ c with chain := chain }, .pause (.front g))

/-- The deletion of the node to promote was lost: is there any reason to try again? -/
def lose (c : Cache κ ν) (k : κ) (e : Entry Nat κ ν) (x : NodeId) : Advance κ ν :=
  if c.chain.isDeleted x then (c, .done (.found (some e))) else (c, .pause (.recheck k e x))

/-- Try to delete the node to promote. -/
def withdraw (c : Cache κ ν) (k : κ) (e : Entry Nat κ ν) (x : NodeId) : Advance κ ν :=
  match c.chain.beginDelete x with
  | none => c.lose k e x
  | some cut => (c, .pause (.withdraw k e cut))

/-- A call starts. -/
def start (call : Call κ ν) (c : Cache κ ν) : Advance κ ν :=
  match call with
  | .set k v => ({ c with serial := c.serial + 1 }, .pause (.find ⟨c.serial, k, v⟩))
  | .get k => (c, .pause (.fetch k))
  | .contains k => (c, .pause (.probe k))

variable [BEq κ]

/-- A suspended call goes on to its next stage. -/
def resume (stage : Stage κ ν) (c : Cache κ ν) : Advance κ ν :=
  match stage with
  | .find e =>
    match (c.index.find? e.key).bind c.chain.beginDelete with
    | none => c.push (.store e)
    | some cut => (c, .pause (.displace e cut))
  | .displace e cut => { c with chain := (c.chain.finishDelete cut).1 }.push (.store e)
  | .fetch k =>
    match c.index.find? k with
    | none => (c, .done (.found none))
    | some x =>
      match c.chain.carried? x with
      | none => (c, .done (.found none))
      | some e => c.withdraw k e x
  | .withdraw k e cut =>
    match c.chain.finishDelete cut with
    | (chain, true) => { c with chain := chain }.push (.promote k e cut.target)
    | (chain, false) => { c with chain := chain }.lose k e cut.target
  | .recheck k e x => if c.index.find? k = some x then c.withdraw k e x else (c, .done (.found (some e)))
  | .push g => c.push g
  | .front g =>
    match c.chain.finishInsert Chain.header g.entry with
    | (chain, none) => { c with chain := chain }.push g
    | (chain, some fresh) =>
      match g with
      | .store e => ({ c with chain := chain }, .pause (.publish e fresh))
      | .promote k e stale => ({ c with chain := chain }, .pause (.replace k e stale fresh))
  | .publish e fresh =>
    match c.index.publish e.key fresh with
    | (index, none) => { c with index := index }.settle e.key fresh .stored
    | (index, some x) => { c with index := index }.discard x (.settle e.key fresh .stored)
  | .replace k e stale fresh =>
    match c.index.replace k stale fresh with
    | (index, true) => ({ c with index := index }.release stale).settle k fresh (.found (some e))
    | (_, false) => c.discard fresh (.finish (.found (some e)))
  | .discard x next => c.discard x next
  | .discarding cut next => { c with chain := (c.chain.finishDelete cut).1 }.discard cut.target next
  | .settle k fresh r =>
    match c.index.removeIf k fresh with
    | (index, true) => ({ c with index := index }.release fresh).evict r
    | (_, false) => c.evict r
  | .evict r => c.evict r
  | .evicting cut r =>
    match c.chain.finishDelete cut with
    | (chain, false) => { c with chain := chain }.evict r
    | (chain, true) =>
      let c₁ := { c with chain := chain.markEvicted cut.target }
      match c₁.chain.carried? cut.target with
      | none => c₁.evict r
      | some e => (c₁, .pause (.purge e.key cut.target r))
  | .purge k victim r =>
    match c.index.removeIf k victim with
    | (index, true) => (({ c with index := index }.release victim).note (.evicted c.capacity)).evict r
    | (_, false) => c.evict r
  | .probe k => (c, .done (.present (c.index.find? k).isSome))

end LeastRecent.Cache
