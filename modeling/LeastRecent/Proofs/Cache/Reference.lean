import LeastRecent.Cache.Session
import LeastRecent.Proofs.Chain.Recent

/-!
# The reference for a cache

What a cache of least recently used entries has to do, on a list of keys with their values, most recent first
(`Recency.serve`). A key is stored in front, without the older pair that it replaces, and only as many pairs as the
capacity says are kept; a pair that is asked for moves to the front as it is.

The live nodes of a chain stand for such a list (`pairs`). To look for the nodes that carry a key is to look for the key
in the list, and to take them out is to take it out (`pairs_find`, `pairs_without`).
-/

namespace LeastRecent.Cache

variable {κ ν : Type}

namespace Recency

/-- What is asked of the reference. -/
inductive Call (κ ν : Type)
  | set (k : κ) (v : ν)
  | get (k : κ)
  /-- The entry itself is asked for, and kept under the name `keep` if one is given. -/
  | getEntry (k : κ) (keep : Option String)
  | contains (k : κ)
  | isEmpty
  | entries

/-- What the reference answers. -/
inductive Answer (κ ν : Type)
  | done
  | absent
  | value (v : ν)
  | pair (p : κ × ν)
  | bool (b : Bool)
  | pairs (ps : List (κ × ν))

variable [BEq κ]

/-- The pair with a key equal to `k`. -/
def find? (l : List (κ × ν)) (k : κ) : Option (κ × ν) := List.find? (fun p => k == p.1) l

/-- The pairs whose keys are not equal to `k`. -/
def without (l : List (κ × ν)) (k : κ) : List (κ × ν) := l.filter fun p => !(k == p.1)

/-- The pair asked for moves to the front as it is. -/
def touch (l : List (κ × ν)) (k : κ) : List (κ × ν) :=
  match find? l k with
  | none => l
  | some p => p :: without l k

/-- The reference: the list and the answer after a call. -/
def serve (capacity : Nat) (call : Call κ ν) (l : List (κ × ν)) : List (κ × ν) × Answer κ ν :=
  match call with
  | .set k v => (((k, v) :: without l k).take capacity, .done)
  | .get k => (touch l k, ((find? l k).map fun p => .value p.2).getD .absent)
  | .getEntry k _ => (touch l k, ((find? l k).map .pair).getD .absent)
  | .contains k => (l, .bool (find? l k).isSome)
  | .isEmpty => (l, .bool l.isEmpty)
  | .entries => (l, .pairs l)

theorem find?_cons (p : κ × ν) (l : List (κ × ν)) (k : κ) :
    find? (p :: l) k = if k == p.1 then some p else find? l k := by
  unfold find?
  rw [List.find?_cons]
  cases k == p.1 <;> rfl

theorem without_cons (p : κ × ν) (l : List (κ × ν)) (k : κ) :
    without (p :: l) k = if k == p.1 then without l k else p :: without l k := by
  unfold without
  rw [List.filter_cons]
  cases k == p.1 <;> rfl

end Recency

/-! ## Pairs of nodes -/

/-- The keys and values that the nodes `xs` carry. -/
def pairs (ch : Chain (Entry Nat κ ν)) (xs : List NodeId) : List (κ × ν) :=
  xs.filterMap fun x => (ch.carried? x).map fun e => (e.key, e.value)

section Pairs

variable {ch ch' : Chain (Entry Nat κ ν)} {xs : List NodeId} {x : NodeId} {k : κ} {e : Entry Nat κ ν}

theorem pairs_cons (he : ch.carried? x = some e) : pairs ch (x :: xs) = (e.key, e.value) :: pairs ch xs := by
  simp [pairs, he]

/-- The nodes keep their entries. -/
theorem pairs_ages (a : Chain.Ages ch ch') (hxs : ∀ x ∈ xs, x < ch.size) : pairs ch' xs = pairs ch xs := by
  induction xs with
  | nil => rfl
  | cons x xs ih =>
    have hx : ch'.carried? x = ch.carried? x := by
      rw [Chain.carried?, Chain.carried?, Node.carried?, Node.carried?, a.role x (hxs x List.mem_cons_self)]
    have ih := ih fun y hy => hxs y (List.mem_cons_of_mem _ hy)
    unfold pairs at ih ⊢
    rw [List.filterMap_cons, List.filterMap_cons, hx, ih]

variable (hxs : ∀ x ∈ xs, ∃ e, ch.carried? x = some e)
include hxs

theorem length_pairs : (pairs ch xs).length = xs.length := by
  induction xs with
  | nil => rfl
  | cons x xs ih =>
    obtain ⟨e, he⟩ := hxs x List.mem_cons_self
    rw [pairs_cons he, List.length_cons, List.length_cons, ih fun y hy => hxs y (List.mem_cons_of_mem _ hy)]

theorem pairs_take (n : Nat) : pairs ch (xs.take n) = (pairs ch xs).take n := by
  induction xs generalizing n with
  | nil => simp [pairs]
  | cons x xs ih =>
    obtain ⟨e, he⟩ := hxs x List.mem_cons_self
    cases n with
    | zero => rfl
    | succ n =>
      rw [List.take_succ_cons, pairs_cons he, pairs_cons he, List.take_succ_cons,
        ih (fun y hy => hxs y (List.mem_cons_of_mem _ hy)) n]

variable [BEq κ] {found : NodeId → Bool} (hk : ∀ y ∈ xs, ∀ e, ch.carried? y = some e → (k == e.key) = found y)
include hk

/-- To take out the nodes that carry a key is to take the key out of the list. -/
theorem pairs_without : Recency.without (pairs ch xs) k = pairs ch (xs.filter fun y => !found y) := by
  induction xs with
  | nil => rfl
  | cons y xs ih =>
    obtain ⟨e, he⟩ := hxs y List.mem_cons_self
    have ih := ih (fun z hz => hxs z (List.mem_cons_of_mem _ hz)) fun z hz => hk z (List.mem_cons_of_mem _ hz)
    rw [pairs_cons he, Recency.without_cons, List.filter_cons, hk y List.mem_cons_self e he, ih]
    cases found y with
    | true => rfl
    | false => exact (pairs_cons he).symm

/-- To look for the nodes that carry a key is to look for the key in the list. -/
theorem pairs_find :
    Recency.find? (pairs ch xs) k = ((xs.find? found).bind ch.carried?).map fun e => (e.key, e.value) := by
  induction xs with
  | nil => rfl
  | cons y xs ih =>
    obtain ⟨e, he⟩ := hxs y List.mem_cons_self
    have ih := ih (fun z hz => hxs z (List.mem_cons_of_mem _ hz)) fun z hz => hk z (List.mem_cons_of_mem _ hz)
    rw [pairs_cons he, Recency.find?_cons, List.find?_cons, hk y List.mem_cons_self e he, ih]
    cases found y with
    | true => simp [he]
    | false => rfl

end Pairs

end LeastRecent.Cache
