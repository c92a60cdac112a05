import LeastRecent.Chain.Edit
import LeastRecent.Chain.Walk
import LeastRecent.Entry
import LeastRecent.Index.Basic

/-!
# The cache

A cache is a chain, which orders the entries by recency, and an index, which finds the node of a key. Its size is the
size of the index. Entries are labelled with the serial number of the call that stored them. What the cache notices
about itself is logged.
-/

namespace LeastRecent

/-- What a cache logs. -/
inductive Notice
  | created (capacity : Nat)
  /-- An entry was evicted and its key left the index. -/
  | evicted (capacity : Nat)
  /-- The index is too large, but no entry is in the chain that could be evicted. -/
  | noCandidate (size : Nat)

/-- The line that is logged. -/
def Notice.text : Notice → String
  | .created n => s!"DEBUG created concurrent lru cache capacity={n}"
  | .evicted n => s!"TRACE evicted least recently used entry capacity={n}"
  | .noCandidate n => s!"TRACE no live eviction candidate size={n}"

/-- A cache from keys to values. -/
structure Cache (κ ν : Type) where
  chain : Chain (Entry Nat κ ν)
  index : Index κ NodeId
  capacity : Nat
  /-- The label of the next entry to be stored. -/
  serial : Nat
  /-- What was logged, in order. -/
  notices : List Notice

namespace Cache

variable {κ ν : Type}

/-- An empty cache for at most `capacity` entries; there is none for no entries. -/
def create (p : Policy) (capacity : Nat) : Except SetupError (Cache κ ν) :=
  if capacity = 0 then .error (.invalidCapacity capacity)
  else .ok ⟨.empty p, .empty, capacity, 0, [.created capacity]⟩

/-- The capacity of a cache for which none is asked for. -/
def usualCapacity : Nat := 128

/-- An empty cache of the usual capacity; this is not worth a notice. -/
def standard (p : Policy) : Cache κ ν := ⟨.empty p, .empty, usualCapacity, 0, []⟩

/-- The number of keys that are found. -/
def size (c : Cache κ ν) : Nat := c.index.size

/-- No key is found. -/
def isEmpty (c : Cache κ ν) : Bool := c.index.isEmpty

/-- A notice is logged. -/
def note (c : Cache κ ν) (n : Notice) : Cache κ ν := { c with notices := c.notices ++ [n] }

/-- One link less on node `x`. -/
def release (c : Cache κ ν) (x : NodeId) : Cache κ ν := { c with chain := c.chain.release x }

/-- The number of entries from which on room for them cannot be reserved: at eight bytes each they would take 2^63. Room
for fewer is taken to be there: that memory runs out below this limit is not modelled. -/
def reservationLimit : Nat := Nat.pow 2 60

/-- The live entries, most recent first. Room for as many as the cache may hold is reserved first, which fails from the
limit on and, in this model, not below it. -/
def entries (c : Cache κ ν) : Cache κ ν × Except Fault (List (Entry Nat κ ν)) :=
  if reservationLimit ≤ c.capacity then (c, .error .reservation)
  else
    let (chain, xs) := c.chain.walk Chain.header
    ({ c with chain := chain }, .ok (xs.filterMap chain.carried?))

end Cache
end LeastRecent
