import LeastRecent.Datum.Key
import LeastRecent.Index.Session
import LeastRecent.Proofs.Index.Variety

/-!
# No node is lost in an index or handed back twice

An index with distinct slots is a finite map on keys up to their equality: each request is answered as the map says
(`serve_fits`) and changes it as it should (`find?_serve`). The nodes put in by one request are those that it hands back
and those that are mapped afterwards, less those mapped before (`settles`). Over a session this adds up: what is found
is what was put there last (`latest_from`), and every node put in was handed back once or is mapped still
(`settles_all`).
-/

namespace LeastRecent.Index

variable {κ : Type} [BEq κ] {i : Index κ Nat} {k k' : κ} {x : Nat}

/-! ## The map that an index stands for -/

/-- The map `m` with the keys equal to `k` sent to `x`. -/
def redirect (m : κ → Option Nat) (k : κ) (x : Option Nat) : κ → Option Nat := fun k' => if k' == k then x else m k'

/-- What keys map to after a request, where they mapped to what `m` says. -/
def Request.turn (m : κ → Option Nat) : Request κ → κ → Option Nat
  | .publish k n => redirect m k (some n)
  | .find _ | .isEmpty => m
  | .replace k e n => if m k = some e then redirect m k (some n) else m
  | .removeIf k e => if m k = some e then redirect m k none else m
  | .drain => fun _ => none

/-- The list has one spelling of each key that is mapped. -/
structure Spells (m : κ → Option Nat) (ks : List κ) : Prop where
  differ : Differ ks
  mapped : ∀ k, (m k).isSome = true ↔ ∃ k' ∈ ks, (k == k') = true

/-- What is answered to a request where keys map to what `m` says. -/
def Request.Fits (m : κ → Option Nat) : Request κ → Answer → Prop
  | .publish k _, a | .find k, a => a = .node (m k)
  | .replace k e _, a | .removeIf k e, a => a = .bool (decide (m k = some e))
  | .isEmpty, a => ∃ b, a = .bool b ∧ (b = true ↔ ∀ k, m k = none)
  | .drain, a => ∃ ns ks, a = .nodes ns ∧ ns.Pairwise (· ≤ ·) ∧ Spells m ks ∧ ns.Perm (ks.filterMap m)

section Map

variable [EquivBEq κ]

/-- The spelling of a key does not matter. -/
theorem find?_congr (h : (k == k') = true) : i.find? k = i.find? k' := by
  unfold find?
  induction i.slots with
  | nil => rfl
  | cons s rest ih => rw [List.lookup_cons, List.lookup_cons, BEq.congr_left h, ih]

/-- The slots spell the keys that are mapped. -/
theorem spells_slots (hd : Distinct i.slots) : Spells i.find? (i.slots.map Prod.fst) where
  differ := List.pairwise_map.mpr hd
  mapped k := by
    rw [Option.isSome_iff_exists]
    constructor
    · rintro ⟨x, hx⟩
      obtain ⟨k', hm, hk⟩ := mem_of_lookup hx
      exact ⟨k', List.mem_map_of_mem hm, hk⟩
    · rintro ⟨k', hm, hk⟩
      obtain ⟨⟨_, x⟩, hs, rfl⟩ := List.mem_map.mp hm
      exact ⟨x, (lookup_eq_some_iff hd).mpr ⟨_, hs, hk⟩⟩

/-- The nodes are those that the keys in the slots map to. -/
theorem nodes_eq_filterMap (hd : Distinct i.slots) : i.nodes = (i.slots.map Prod.fst).filterMap i.find? := by
  have hslot : ∀ s ∈ i.slots, i.find? s.1 = some s.2 := fun s hs =>
    (lookup_eq_some_iff hd).mpr ⟨s.1, hs, BEq.refl s.1⟩
  rw [List.filterMap_map, nodes]
  generalize i.slots = slots at hslot
  induction slots with
  | nil => rfl
  | cons s rest ih =>
    obtain ⟨hs, hrest⟩ := List.forall_mem_cons.mp hslot
    have hfirst : (i.find? ∘ Prod.fst) s = some s.2 := hs
    rw [List.map_cons, List.filterMap_cons_some hfirst, ih hrest]

end Map

/-! ## One request -/

section Step

variable [EquivBEq κ]

theorem Distinct.serve (hd : Distinct i.slots) (r : Request κ) : Distinct (i.serve r).1.slots := by
  cases r with
  | publish k n => exact hd.assign k n
  | find k => exact hd
  | replace k e n =>
    by_cases h : i.find? k = some e
    · simp only [Index.serve, replace, h, if_true]
      exact hd.assign k n
    · simpa only [Index.serve, replace, h, if_false] using hd
  | removeIf k e =>
    by_cases h : i.find? k = some e
    · simp only [Index.serve, removeIf, h, if_true]
      exact hd.erase h
    · simpa only [Index.serve, removeIf, h, if_false] using hd
  | isEmpty => exact hd
  | drain => exact List.Pairwise.nil

/-- A request changes what keys map to as it does in a map. -/
theorem find?_serve (hd : Distinct i.slots) (r : Request κ) : (i.serve r).1.find? = r.turn i.find? := by
  cases r with
  | publish k n => exact funext fun k' => find?_publish i k k' n
  | find k => rfl
  | replace k e n =>
    by_cases h : i.find? k = some e
    · simp only [serve, replace, Request.turn, h, if_true]
      exact funext fun k' => lookup_assign k k' n i.slots
    · simp only [serve, replace, Request.turn, h, if_false]
  | removeIf k e =>
    by_cases h : i.find? k = some e
    · simp only [serve, removeIf, Request.turn, h, if_true]
      exact funext fun k' => lookup_erase hd h k'
    · simp only [serve, removeIf, Request.turn, h, if_false]
  | isEmpty => rfl
  | drain => rfl

/-- An index is empty if no key is mapped. -/
theorem isEmpty_iff (i : Index κ Nat) : i.isEmpty = true ↔ ∀ k, i.find? k = none := by
  rw [isEmpty, List.isEmpty_iff]
  constructor
  · intro h k
    rw [find?, h]
    rfl
  · intro h
    refine List.eq_nil_iff_forall_not_mem.mpr fun s hs => ?_
    have hne := List.lookup_eq_none_iff.mp (h s.1) s hs
    rw [bne, BEq.refl] at hne
    cases hne

/-- A request is answered as in a map. -/
theorem serve_fits (hd : Distinct i.slots) (r : Request κ) : r.Fits i.find? (i.serve r).2 := by
  cases r with
  | publish k n => rfl
  | find k => rfl
  | replace k e n => by_cases h : i.find? k = some e <;> simp [serve, replace, Request.Fits, h]
  | removeIf k e => by_cases h : i.find? k = some e <;> simp [serve, removeIf, Request.Fits, h]
  | isEmpty => exact ⟨i.isEmpty, rfl, isEmpty_iff i⟩
  | drain =>
    refine ⟨_, i.slots.map Prod.fst, rfl, ?_, spells_slots hd, ?_⟩
    · refine (List.pairwise_mergeSort ?_ ?_ i.nodes).imp ?_
      · intro a b c hab hbc
        exact decide_eq_true (Nat.le_trans (of_decide_eq_true hab) (of_decide_eq_true hbc))
      · intro a b
        rcases Nat.le_total a b with h | h <;> simp [h]
      · exact fun h => of_decide_eq_true h
    · rw [← nodes_eq_filterMap hd]
      exact List.mergeSort_perm _ _

end Step

/-! ## What goes in and what comes back -/

/-- The key and the node that a request put in, by the answer to it. -/
def put? : Request κ × Answer → Option (κ × Nat)
  | (.publish k n, _) | (.replace k _ n, .bool true) => some (k, n)
  | _ => none

/-- The nodes that a request handed back. -/
def handed : Request κ × Answer → List Nat
  | (.publish _ _, .node displaced) => displaced.toList
  | (.replace _ e _, .bool true) | (.removeIf _ e, .bool true) => [e]
  | (.drain, .nodes ns) => ns
  | _ => []

/-- What `k` maps to is put in or taken out by a request. -/
def touches (k : κ) : Request κ × Answer → Bool
  | (.publish k' _, _) | (.replace k' _ _, .bool true) | (.removeIf k' _, .bool true) => k == k'
  | (.drain, _) => true
  | _ => false

/-- The nodes mapped before a request and those that it puts in are those that it hands back and those mapped
afterwards. -/
theorem settles (i : Index κ Nat) (r : Request κ) :
    (((put? (r, (i.serve r).2)).map Prod.snd).toList ++ i.nodes).Perm
      (handed (r, (i.serve r).2) ++ (i.serve r).1.nodes) := by
  cases r with
  | publish k n =>
    cases h : i.find? k with
    | none => simpa [serve, publish, put?, handed, h, nodes] using (nodes_assign_new (a := n) h).symm
    | some b => simpa [serve, publish, put?, handed, h, nodes] using (nodes_assign (a := n) h).symm
  | find k => exact List.Perm.refl _
  | replace k e n =>
    by_cases h : i.find? k = some e
    · simpa [serve, replace, put?, handed, h, nodes] using (nodes_assign (a := n) h).symm
    · simp [serve, replace, put?, handed, h]
  | removeIf k e =>
    by_cases h : i.find? k = some e
    · simpa [serve, removeIf, put?, handed, h, nodes] using (nodes_erase h).symm
    · simp [serve, removeIf, put?, handed, h]
  | isEmpty => exact List.Perm.refl _
  | drain =>
    simp only [serve, drain, put?, handed, nodes, Option.map_none, Option.toList_none, List.nil_append, List.map_nil,
      List.append_nil]
    exact (List.mergeSort_perm _ _).symm

/-- After a request a key maps to the node that the request put there, or to what it mapped to before. -/
theorem find?_serve_iff [EquivBEq κ] (hd : Distinct i.slots) (r : Request κ) (k : κ) (x : Nat) :
    (i.serve r).1.find? k = some x ↔ (∃ k', put? (r, (i.serve r).2) = some (k', x) ∧ (k == k') = true) ∨
      touches k (r, (i.serve r).2) = false ∧ i.find? k = some x := by
  have hput (k' : κ) (n : Nat) :
      (∃ k₁, some (k', n) = some (k₁, x) ∧ (k == k₁) = true) ↔ n = x ∧ (k == k') = true := by
    constructor
    · rintro ⟨_, he, hk⟩
      cases he
      exact ⟨rfl, hk⟩
    · rintro ⟨rfl, hk⟩
      exact ⟨k', rfl, hk⟩
  rw [find?_serve hd]
  cases r with
  | publish k' n =>
    simp only [put?, touches, hput, Request.turn, redirect]
    cases k == k' <;> simp
  | find k' => simp [Request.turn, put?, touches]
  | replace k' e n =>
    by_cases h : i.find? k' = some e
    · simp only [serve, replace, put?, touches, hput, Request.turn, redirect, h, if_true]
      cases k == k' <;> simp
    · simp [serve, replace, Request.turn, put?, touches, h]
  | removeIf k' e =>
    by_cases h : i.find? k' = some e
    · cases hk : k == k' <;> simp [serve, removeIf, Request.turn, redirect, put?, touches, h, hk]
    · simp [serve, removeIf, Request.turn, put?, touches, h]
  | isEmpty => simp [Request.turn, put?, touches]
  | drain => simp [Request.turn, put?, touches]

/-! ## Whole sessions -/

/-- The index after requests were served one after another. -/
def served (i : Index κ Nat) (rs : List (Request κ)) : Index κ Nat := rs.foldl (fun i r => (i.serve r).1) i

/-- Requests with their answers. -/
def transcript (i : Index κ Nat) (rs : List (Request κ)) : List (Request κ × Answer) :=
  rs.zip ((i.serveAll rs).map Prod.fst)

theorem transcript_cons (i : Index κ Nat) (r : Request κ) (rs : List (Request κ)) :
    i.transcript (r :: rs) = (r, (i.serve r).2) :: (i.serve r).1.transcript rs := rfl

/-- The last request is answered by the index that the others leave. -/
theorem serveAll_concat (i : Index κ Nat) (rs : List (Request κ)) (r : Request κ) : i.serveAll (rs ++ [r]) =
    i.serveAll rs ++ [(((i.served rs).serve r).2, (i.served (rs ++ [r])).size)] := by
  induction rs generalizing i with
  | nil => rfl
  | cons r' rs ih => exact congrArg (_ :: ·) (ih (i.serve r').1)

theorem settles_all (i : Index κ Nat) (rs : List (Request κ)) :
    (((i.transcript rs).filterMap put?).map Prod.snd ++ i.nodes).Perm
      ((i.transcript rs).flatMap handed ++ (i.served rs).nodes) := by
  induction rs generalizing i with
  | nil => exact List.Perm.refl _
  | cons r rs ih =>
    have hfirst := settles i r
    have hrest := ih (i.serve r).1
    rw [transcript_cons, List.flatMap_cons, List.append_assoc]
    -- the nodes between the first request and the others
    refine List.Perm.trans ?_ (hrest.append_left _)
    have hput : ((((r, (i.serve r).2) :: (i.serve r).1.transcript rs).filterMap put?).map Prod.snd) =
        ((put? (r, (i.serve r).2)).map Prod.snd).toList ++
          (((i.serve r).1.transcript rs).filterMap put?).map Prod.snd := by
      cases h : put? (r, (i.serve r).2) <;> simp [h]
    rw [hput, List.append_assoc]
    refine (List.perm_append_comm_assoc _ _ _).trans ((hfirst.append_left _).trans ?_)
    exact List.perm_append_comm_assoc _ _ _

section Runs

variable [EquivBEq κ]

theorem Distinct.served (hd : Distinct i.slots) (rs : List (Request κ)) : Distinct (i.served rs).slots := by
  induction rs generalizing i with
  | nil => exact hd
  | cons r rs ih => exact ih (hd.serve r)

/-- What keys map to after all requests. -/
theorem find?_served (hd : Distinct i.slots) (rs : List (Request κ)) :
    (i.served rs).find? = rs.foldl Request.turn i.find? := by
  induction rs generalizing i with
  | nil => rfl
  | cons r rs ih =>
    rw [List.foldl_cons, ← find?_serve hd r]
    exact ih (hd.serve r)

/-- A key maps to the node that was put there last and not taken out since. -/
theorem latest_from (hd : Distinct i.slots) (rs : List (Request κ)) (k : κ) (x : Nat) :
    (i.served rs).find? k = some x ↔
      (∃ before e later k', i.transcript rs = before ++ e :: later ∧ put? e = some (k', x) ∧ (k == k') = true ∧
        ∀ e' ∈ later, touches k e' = false) ∨
      (∀ e' ∈ i.transcript rs, touches k e' = false) ∧ i.find? k = some x := by
  induction rs generalizing i with
  | nil =>
    have hnil : i.transcript ([] : List (Request κ)) = [] := rfl
    simp [served, hnil]
  | cons r rs ih =>
    have hrest : (i.served (r :: rs)).find? k = some x ↔ _ := ih (hd.serve r)
    rw [hrest, find?_serve_iff hd, transcript_cons]
    constructor
    · rintro (⟨before, e, later, k', he, hput, hk, hlater⟩ | ⟨hquiet, ⟨k', hput, hk⟩ | ⟨hfirst, hx⟩⟩)
      · exact Or.inl ⟨_ :: before, e, later, k', congrArg (_ :: ·) he, hput, hk, hlater⟩
      · exact Or.inl ⟨[], _, _, k', rfl, hput, hk, hquiet⟩
      · exact Or.inr ⟨List.forall_mem_cons.mpr ⟨hfirst, hquiet⟩, hx⟩
    · rintro (⟨before, e, later, k', he, hput, hk, hlater⟩ | ⟨hquiet, hx⟩)
      · cases before with
        | nil =>
          obtain ⟨rfl, rfl⟩ := List.cons.inj he
          exact Or.inr ⟨hlater, Or.inl ⟨k', hput, hk⟩⟩
        | cons e₁ before => exact Or.inl ⟨before, e, later, k', (List.cons.inj he).2, hput, hk, hlater⟩
      · obtain ⟨hfirst, hrest⟩ := List.forall_mem_cons.mp hquiet
        exact Or.inr ⟨hrest, Or.inr ⟨hfirst, hx⟩⟩

end Runs

/-! ## The promise of an index -/

/-- What holds of the index after the requests `rs`, whatever they are. -/
structure Conserves (rs : List (Request κ)) : Prop where
  /-- Keys map to what they do in a map that goes through the same requests. -/
  maps : (empty.served rs).find? = rs.foldl Request.turn fun _ => none
  /-- All spellings of a key map to the same node. -/
  same : ∀ k k', (k == k') = true → (empty.served rs).find? k = (empty.served rs).find? k'
  /-- The size is the number of different keys that are mapped, and the nodes are those that they map to. -/
  spelled : ∃ ks, Spells (empty.served rs).find? ks ∧ (empty.served rs).size = ks.length ∧
    (empty.served rs).nodes = ks.filterMap (empty.served rs).find?
  /-- The next request is answered as in a map, and the answer comes with the size that is left. -/
  answers : ∀ r, r.Fits (empty.served rs).find? ((empty.served rs).serve r).2 ∧
    session (rs ++ [r]) = session rs ++ [(((empty.served rs).serve r).2, (empty.served (rs ++ [r])).size)]
  /-- What is found for a key was put there last by a publication or a successful replacement. -/
  latest : ∀ k x, (empty.served rs).find? k = some x ↔
    ∃ before e later k', empty.transcript rs = before ++ e :: later ∧ put? e = some (k', x) ∧ (k == k') = true ∧
      ∀ e' ∈ later, touches k e' = false
  /-- A replacement and a removal act if the key maps to the node expected. -/
  acts : ∀ k e n, (empty.served rs).find? k = some e →
    ((empty.served rs).replace k e n).2 = true ∧
      ((empty.served rs).replace k e n).1.find? = redirect (empty.served rs).find? k (some n) ∧
    ((empty.served rs).removeIf k e).2 = true ∧
      ((empty.served rs).removeIf k e).1.find? = redirect (empty.served rs).find? k none
  /-- Otherwise they leave the index as it is. -/
  refrains : ∀ k e n, (empty.served rs).find? k ≠ some e →
    (empty.served rs).replace k e n = (empty.served rs, false) ∧
      (empty.served rs).removeIf k e = (empty.served rs, false)
  /-- The nodes put in are those handed back and those that are mapped. -/
  balance : (((empty.transcript rs).filterMap put?).map Prod.snd).Perm
    ((empty.transcript rs).flatMap handed ++ (empty.served rs).nodes)

/-- An index is a finite map on the keys up to their equality, and every node put in is handed back once or is mapped
still, whatever the requests, the spellings of their keys and the nodes that coincide. -/
theorem session_conserves [EquivBEq κ] (rs : List (Request κ)) : Conserves rs := by
  have hempty : Distinct (empty : Index κ Nat).slots := List.Pairwise.nil
  have hd := hempty.served rs
  refine ⟨find?_served hempty rs, fun k k' h => find?_congr h, ?_, fun r => ⟨serve_fits hd r, ?_⟩, fun k x => ?_,
    fun k e n h => ?_, fun k e n h => ⟨if_neg h, if_neg h⟩, ?_⟩
  · exact ⟨_, spells_slots hd, by rw [List.length_map, size], nodes_eq_filterMap hd⟩
  · exact serveAll_concat empty rs r
  · rw [latest_from hempty]
    have hnone : ((empty : Index κ Nat).find? k = some x) = False := by simp [find?, empty]
    rw [hnone, and_false, or_false]
  · have hreplace : _ = Request.turn _ (.replace k e n) := find?_serve hd (.replace k e n)
    have hremove : _ = Request.turn _ (.removeIf k e) := find?_serve hd (.removeIf k e)
    simp only [Request.turn, h, if_true] at hreplace hremove
    exact ⟨by simp [replace, h], hreplace, by simp [removeIf, h], hremove⟩
  · simpa [nodes, empty] using settles_all (empty : Index κ Nat) rs

/-- With integers that are equal by their remainder, and one node put in again and again. -/
theorem session_conserves_spellings :
    let rs : List (Request (Key .modEight)) := [.publish ⟨.int 1⟩ 5, .publish ⟨.int 9⟩ 5, .replace ⟨.int 17⟩ 5 6,
      .publish ⟨.int 2⟩ 6, .removeIf ⟨.int 10⟩ 5, .removeIf ⟨.int 10⟩ 6]
    (empty.served rs).find? ⟨.int 25⟩ = some 6 ∧ (empty.served rs).size = 1 ∧ [5, 5, 6, 6].Perm ([5, 5, 6] ++ [6]) := by
  intro rs
  have h := session_conserves rs
  exact ⟨by rw [h.maps]; decide, by decide, h.balance⟩

end LeastRecent.Index
