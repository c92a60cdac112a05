/-!
# The index: which node stands for a key

The index maps each key to at most one node, up to the equality of keys. Nodes are put in by `publish` and `replace` and
handed back by `publish` (the node displaced), `replace` and `removeIf` (the node expected) and `drain`. `replace` and
`removeIf` act only where the key still maps to the node expected, so whoever comes late cannot disturb a newer mapping.
A mapping that is overwritten keeps the spelling of its key.

The mappings are a list here. They stand for a concurrent hash map of a library, of which this is assumed: keys are the
same if they are equal by `==`, an equivalence (`EquivBEq`) which their hashes agree with; every operation happens at
once, whatever goes on inside; and up to the order of its mappings the map is what such a list is. That order can be seen
in `drain` alone, where another one would do as well: for a cache that goes it makes no difference
(`Cache.Session.dismantledIn_any_order`).
-/

namespace LeastRecent

/-- A finite map from keys to nodes. -/
structure Index (κ α : Type) where
  /-- The mappings, one per class of equal keys. -/
  slots : List (κ × α)

namespace Index

variable {κ α : Type} [BEq κ]

/-- No key is mapped. -/
def empty : Index κ α := ⟨[]⟩

/-- The number of keys that are mapped. -/
def size (i : Index κ α) : Nat := i.slots.length

/-- No key is mapped at present. -/
def isEmpty (i : Index κ α) : Bool := i.slots.isEmpty

/-- The node that `k` maps to. -/
def find? (i : Index κ α) (k : κ) : Option α := i.slots.lookup k

/-- The mappings with `k` mapped to `a`. -/
def assign (k : κ) (a : α) : List (κ × α) → List (κ × α)
  | [] => [(k, a)]
  | (k', b) :: rest => if k == k' then (k', a) :: rest else (k', b) :: assign k a rest

/-- The mappings without `k`. -/
def erase (k : κ) : List (κ × α) → List (κ × α)
  | [] => []
  | (k', b) :: rest => if k == k' then rest else (k', b) :: erase k rest

/-- `k` is mapped to `a`; the node displaced is handed back. -/
def publish (i : Index κ α) (k : κ) (a : α) : Index κ α × Option α :=
  (⟨assign k a i.slots⟩, i.find? k)

/-- `k` is mapped to `fresh` if it maps to `expected`. -/
def replace [DecidableEq α] (i : Index κ α) (k : κ) (expected fresh : α) : Index κ α × Bool :=
  if i.find? k = some expected then (⟨assign k fresh i.slots⟩, true) else (i, false)

/-- `k` is removed if it maps to `expected`. -/
def removeIf [DecidableEq α] (i : Index κ α) (k : κ) (expected : α) : Index κ α × Bool :=
  if i.find? k = some expected then (⟨erase k i.slots⟩, true) else (i, false)

/-- All nodes are handed back. -/
def drain (i : Index κ α) : Index κ α × List α := (⟨[]⟩, i.slots.map (·.2))

/-! ## What is found afterwards -/

theorem lookup_assign [EquivBEq κ] (k k' : κ) (a : α) (slots : List (κ × α)) :
    (assign k a slots).lookup k' = if k' == k then some a else slots.lookup k' := by
  induction slots with
  | nil => cases h : k' == k <;> simp [assign, List.lookup_cons, h]
  | cons s rest ih =>
    obtain ⟨k₁, b⟩ := s
    cases h₁ : k == k₁ with
    | true =>
      have hk : (k' == k₁) = (k' == k) := (BEq.congr_right h₁).symm
      simp only [assign, h₁, if_true, List.lookup_cons, hk]
      cases k' == k <;> rfl
    | false =>
      simp only [assign, h₁, Bool.false_eq_true, if_false, List.lookup_cons]
      cases h₂ : k' == k₁ with
      | true =>
        have hk : (k' == k) = false := by rw [BEq.congr_left h₂, BEq.comm, h₁]
        simp [hk]
      | false => exact ih

/-- After a publication the key maps to the new node, and all other keys map to what they did. -/
theorem find?_publish [EquivBEq κ] (i : Index κ α) (k k' : κ) (a : α) :
    (i.publish k a).1.find? k' = if k' == k then some a else i.find? k' :=
  lookup_assign k k' a i.slots

end Index
end LeastRecent
