import LeastRecent.Proofs.Cache.Capacity
import LeastRecent.Proofs.Cache.Lookups
import LeastRecent.Proofs.Cache.Victims
import LeastRecent.Proofs.Index.Variety

/-!
# Evictions are justified

An eviction may be interrupted between the choice of its victim and its deletion. As long as the victim lives it stays
the last live entry, so nothing else can be evicted meanwhile; the calls that come owe no removal then, and the cache
stays too large (`Justified`, `Turns.justified`). So at each deletion of an eviction its victim is the last live entry of
a cache that is too large (`EvictedAt`), and whatever is marked as evicted came to it so (`evicted_moment`).

Nothing leaves the index but what was evicted (`Warranted`). If no more different keys were to be stored than there is
room for, nothing is evicted, and every key that was stored is found (`evictions_warranted`).
-/

namespace LeastRecent.Cache

open Chain (Ages Spares)
open Interleave (Machine Move Outcome)
open Interleave.Machine (IsCall)
open Index (variety Covers)

variable {κ ν : Type} {c c' : Cache κ ν} {ch : Chain (Entry Nat κ ν)} {stages stages' : List (Stage κ ν)} {x : NodeId}

theorem owed_eq_zero_iff : owed ch stages = 0 ↔ ∀ st ∈ stages, st.owes ch = 0 := by
  induction stages with
  | nil => exact ⟨fun _ st hst => (by cases hst), fun _ => rfl⟩
  | cons st stages ih => rw [owed_cons, Nat.add_eq_zero_iff, ih, List.forall_mem_cons]

/-- A victim that was chosen and still lives is the last live entry of a cache that is too large, and no call that came
after it was chosen owes a removal. -/
structure Justified (c : Cache κ ν) (stages : List (Stage κ ν)) : Prop where
  victim : ∀ st ∈ stages, ∀ x, st.chosen? = some x → c.chain.isDeleted x = false →
    c.chain.coldest? = some x ∧ c.capacity < c.size
  paid : stages.Pairwise fun later earlier => ∀ x, earlier.chosen? = some x → c.chain.isDeleted x = false →
    later.owes c.chain = 0

namespace Session

/-- What a step does to victims and removals: it is thrifty, or it evicts. -/
inductive Turns (c : Cache κ ν) :
    List (Stage κ ν) → Move (Request κ ν) (Suspended κ ν) → Cache κ ν → List (Stage κ ν) → Prop
  | thrifty (old : List (Stage κ ν)) {rest : List (Stage κ ν)} {move : Move (Request κ ν) (Suspended κ ν)}
    {p : Advance κ ν}
    (h : Thrifty c (owed c.chain old) p) : Turns c (old ++ rest) move p.1 (p.2.stages ++ rest)
  | evicts {rest : List (Stage κ ν)} {req : Request κ ν} {cut : Chain.Cut} {r : Reply κ ν} {k : κ} {c' : Cache κ ν}
    (h : Evicts c cut.target c') :
    Turns c (.evicting cut r :: rest) (.resume ⟨req, .evicting cut r⟩) c' (.purge k cut.target r :: rest)

variable {move : Move (Request κ ν) (Suspended κ ν)}

/-- What is justified stays so while nothing is evicted. -/
theorem justified_thrifty {old rest : List (Stage κ ν)} {p : Advance κ ν} (j : Justified c (old ++ rest))
    (h : Thrifty c (owed c.chain old) p) : Justified p.1 (p.2.stages ++ rest) := by
  obtain ⟨-, hrest, hcross⟩ := List.pairwise_append.mp j.paid
  have hlive {x : NodeId} (hx : p.1.chain.isDeleted x = false) : c.chain.isDeleted x = false := h.chain.ages.live hx
  have howes (st : Stage κ ν) : st.owes p.1.chain = st.owes c.chain := charge_congr h.chain.evicted _
  -- while the victim of a call below lives, the running call owes nothing, before and after
  have hpaid {st : Stage κ ν} (hst : st ∈ rest) {x : NodeId} (hx : st.chosen? = some x)
      (hl : p.1.chain.isDeleted x = false) : owed c.chain old = 0 :=
    owed_eq_zero_iff.mpr fun later hm => hcross later hm st hst x hx (hlive hl)
  refine ⟨fun st hst x hx hl => ?_, ?_⟩
  · rcases List.mem_append.mp hst with hst | hst
    · obtain ⟨hcold, -, hsize⟩ := h.chosen st hst x hx
      exact ⟨hcold, hsize⟩
    · obtain ⟨hcold, hsize⟩ := j.victim st (List.mem_append_right _ hst) x hx (hlive hl)
      refine ⟨h.chain.coldest x hcold hl, ?_⟩
      have hle := h.size
      rw [hpaid hst hx hl] at hle
      rw [h.capacity]
      omega
  · refine List.pairwise_append.mpr ⟨?_, hrest.imp fun hst x hx hl => ?_, fun later hm st hst x hx hl => ?_⟩
    · cases p.2 with
      | pause st => exact List.pairwise_singleton _ _
      | done r => exact List.Pairwise.nil
    · rw [howes]
      exact hst x hx (hlive hl)
    · have hdebt := h.debt
      rw [hpaid hst hx hl, Nat.le_zero, owed_eq_zero_iff] at hdebt
      exact hdebt later hm

/-- When a victim goes, no other call has one that lives. -/
theorem justified_evicts {rest : List (Stage κ ν)} {cut : Chain.Cut} {r : Reply κ ν} {k : κ}
    (j : Justified c (.evicting cut r :: rest)) (h : Evicts c cut.target c') :
    Justified c' (.purge k cut.target r :: rest) := by
  obtain ⟨hcold, -⟩ := j.victim _ List.mem_cons_self cut.target rfl h.live
  -- another victim that lived would be the last live entry as well, so it is the same node
  have hnone {st : Stage κ ν} (hst : st ∈ rest) {x : NodeId} (hx : st.chosen? = some x) :
      c'.chain.isDeleted x = true := by
    rw [h.deleted]
    cases hd : c.chain.isDeleted x with
    | true => exact ite_self _
    | false =>
      have hcold' := (j.victim st (List.mem_cons_of_mem _ hst) x hx hd).1
      rw [hcold] at hcold'
      rw [if_pos (Option.some.inj hcold').symm]
  refine ⟨fun st hst x hx hl => ?_, List.pairwise_cons.mpr ⟨fun st hst x hx hl => ?_, ?_⟩⟩
  · rcases List.mem_cons.mp hst with rfl | hst
    · cases hx
    · rw [hnone hst hx] at hl
      cases hl
  · rw [hnone hst hx] at hl
    cases hl
  · refine (List.pairwise_cons.mp j.paid).2.imp_of_mem fun _ hst _ x hx hl => ?_
    rw [hnone hst hx] at hl
    cases hl

/-- **From one moment to the next** evictions stay justified. -/
theorem Turns.justified (t : Turns c stages move c' stages') (j : Justified c stages) : Justified c' stages' := by
  cases t with
  | thrifty _ h => exact justified_thrifty j h
  | evicts h => exact justified_evicts j h

/-- With this step an eviction pass deletes the node `x`, which is the last live entry of a cache that is too large. -/
structure Culls (c : Cache κ ν) (move : Move (Request κ ν) (Suspended κ ν)) (c' : Cache κ ν) (x : NodeId) : Prop where
  pass : ∃ r cut reply, move = .resume ⟨r, .evicting cut reply⟩ ∧ cut.target = x
  live : c.chain.isDeleted x = false
  dead : c'.chain.isDeleted x = true
  last : c.chain.recent.getLast? = some x
  full : c.capacity < c.size

/-- What is evicted with a step was the last live entry of a cache that was too large. -/
theorem Turns.evicted (t : Turns c stages move c' stages') (j : Justified c stages)
    (hx : c'.chain.isEvicted x = true) : c.chain.isEvicted x = true ∨ Culls c move c' x := by
  cases t with
  | thrifty _ h => exact Or.inl ((h.chain.evicted x).symm.trans hx)
  | @evicts rest req cut r k c' h =>
    by_cases he : x = cut.target
    · obtain ⟨hlast, hfull⟩ := j.victim _ List.mem_cons_self cut.target rfl h.live
      rw [he]
      exact Or.inr ⟨⟨req, cut, r, rfl, rfl⟩, h.live, by rw [h.deleted, if_pos rfl], hlast, hfull⟩
    · rw [h.evicted, if_neg he] at hx
      exact Or.inl hx

/-! ## Steps -/

section Start

variable {s : Session κ ν}

/-- A request that makes no call, up to a walk along the chain. -/
theorem thrifty_answer {s' : Session κ ν} {a : Served κ ν}
    (hc : s'.cache = s.cache ∨ ∃ ch, s'.cache = { s.cache with chain := ch } ∧ Spares s.cache.chain ch) :
    ∃ p : Advance κ ν, s'.cache = p.1 ∧
      (Outcome.done a : Outcome (Suspended κ ν) (Served κ ν)).stages.map Suspended.stage = p.2.stages ∧
      Thrifty s.cache 0 p := by
  rcases hc with hc | ⟨ch, hc, hspares⟩
  · exact ⟨(s.cache, .done .stored), hc, rfl, Thrifty.done _ _⟩
  · exact ⟨({ s.cache with chain := ch }, .done .stored), hc, rfl, (Thrifty.done _ _).after_chain hspares⟩

variable [BEq κ]

theorem thrifty_list (h : Coherent s.cache.chain s.cache.index.slots stages)
    (f : List (Entry Nat κ ν) → Answer κ ν) : ∃ p : Advance κ ν, (s.list f).1.cache = p.1 ∧
      (s.list f).2.stages.map Suspended.stage = p.2.stages ∧ Thrifty s.cache 0 p := by
  refine thrifty_answer ?_
  rcases list_cache s f with hc | hc
  · exact Or.inl hc
  · obtain ⟨order, hs⟩ := h.sound
    obtain ⟨hs', a, -⟩ := hs.walk hs.laid.header_mem
    exact Or.inr ⟨_, hc, a.spares (hs.recent_alike hs' a)⟩

variable [ToString κ] [ToString ν]

/-- A request evicts nothing when it comes, and owes nothing. -/
theorem thrifty_start (r : Request κ ν) (h : Coherent s.cache.chain s.cache.index.slots stages) :
    ∃ p : Advance κ ν, (start r s).1.cache = p.1 ∧ (start r s).2.stages.map Suspended.stage = p.2.stages ∧
      Thrifty s.cache 0 p := by
  have hcall (call : Call κ ν) (hclean : (Cache.start call s.cache).1.chain.fault = none)
      (ht : Thrifty s.cache 0 (Cache.start call s.cache)) :
      ∃ p : Advance κ ν, (s.advance r (Cache.start call s.cache)).1.cache = p.1 ∧
        (s.advance r (Cache.start call s.cache)).2.stages.map Suspended.stage = p.2.stages ∧ Thrifty s.cache 0 p := by
    obtain ⟨hc, ho⟩ := stages_advance (s := s) (r := r) hclean
    exact ⟨_, hc, ho, ht⟩
  cases r with
  | set k v =>
    refine hcall (.set k v) h.clean ?_
    exact (Thrifty.pause (n := 0) { s.cache with serial := s.cache.serial + 1 } rfl (Nat.zero_le _)).after
      (Spares.refl _) rfl (Nat.le_refl _) (Nat.le_refl _)
  | get k => exact hcall (.get k) h.clean (Thrifty.pause _ rfl (Nat.zero_le _))
  | getEntry k keep => exact hcall (.get k) h.clean (Thrifty.pause _ rfl (Nat.zero_le _))
  | contains k => exact hcall (.contains k) h.clean (Thrifty.pause _ rfl (Nat.zero_le _))
  | entries => exact thrifty_list h _
  | text => exact thrifty_list h _
  | capacity => exact thrifty_answer (Or.inl rfl)
  | isEmpty => exact thrifty_answer (Or.inl rfl)
  | held name => exact thrifty_answer (Or.inl rfl)
  | same a b =>
    obtain ⟨answer, ha⟩ := start_same s a b
    rw [ha]
    exact thrifty_answer (Or.inl rfl)
  | unhold name => exact thrifty_answer (Or.inl rfl)

end Start

/-! ## Moments -/

variable [BEq κ] [EquivBEq κ] [ToString κ] [ToString ν] {p : Policy} {capacity : Option Nat} {s : Session κ ν}

section Moments

variable (hs : create p capacity = .ok s) (script : Interleave.Script (Request κ ν)) (n : Nat)
include hs

theorem turns_moment : Turns (moment s script n).state.cache (stagesAt s script n) (moment s script n).move
    (moment s script (n + 1)).state.cache (stagesAt s script (n + 1)) := by
  have hc := coherent_moment hs script n
  rcases moment_succ hs script n with ⟨-, hst, hstages⟩ | ⟨r, hm, hst, hstages⟩ | ⟨r, st, rest, hm, hrest, hcache, hstages⟩
  · rw [hst, hstages]
    exact .thrifty [] (p := ((moment s script n).state.cache, .done .stored)) (Thrifty.done _ _)
  · obtain ⟨p, hcache, ho, ht⟩ := thrifty_start r hc
    rw [hst, hstages, hcache, ho]
    exact .thrifty [] ht
  · rw [hrest] at hc
    rw [hm, hrest, hcache, hstages]
    rcases thrifty_resume hc with ht | ⟨cut, reply, k, rfl, he, hpause⟩
    · refine .thrifty [st] ?_
      rwa [owed_cons]
    · rw [hpause]
      exact .evicts he

theorem justified_moment : Justified (moment s script n).state.cache (stagesAt s script n) := by
  induction n with
  | zero => exact ⟨fun st hst => (by cases hst), List.Pairwise.nil⟩
  | succ n ih => exact (turns_moment hs script n).justified ih

/-- No entry is taken from its node, and no deletion or mark is undone, however long it takes. -/
theorem ages_moments (k : Nat) :
    Ages (moment s script n).state.cache.chain (moment s script (n + k)).state.cache.chain := by
  induction k with
  | zero => exact Ages.refl _
  | succ k ih => exact ih.trans ((does_moment hs script (n + k)).ages (coherent_moment hs script (n + k)))

end Moments

/-- With the step that follows the first `n` steps the node `x` is evicted. -/
def EvictedAt (s : Session κ ν) (script : Interleave.Script (Request κ ν)) (n : Nat) (x : NodeId) : Prop :=
  Culls (moment s script n).state.cache (moment s script n).move (moment s script (n + 1)).state.cache x

/-- A key leaves the index with the step that follows the first `n` steps, and with it the node `x`. -/
def LeavesAt (s : Session κ ν) (script : Interleave.Script (Request κ ν)) (n : Nat) (k : κ) (x : NodeId) : Prop :=
  (moment s script n).state.cache.index.find? k = some x ∧ (moment s script (n + 1)).state.cache.index.find? k = none

omit [EquivBEq κ] in
theorem created_grows (script : Interleave.Script (Request κ ν)) (n k : Nat) :
    created s script n <+: created s script (n + k) := Machine.history_extends _ n k

omit [EquivBEq κ] in
theorem changes_grow (script : Interleave.Script (Request κ ν)) (n k : Nat) :
    changes s script n <+: changes s script (n + k) := Machine.history_extends _ n k

theorem variety_created_mono (script : Interleave.Script (Request κ ν)) (n k : Nat) :
    variety ((created s script n).map Entry.key) ≤ variety ((created s script (n + k)).map Entry.key) :=
  Index.variety_mono fun a ha =>
    ⟨a, (((created_grows script n k).map Entry.key).subset) ha, BEq.refl a⟩

section Moments

variable (hs : create p capacity = .ok s) (script : Interleave.Script (Request κ ν)) {n : Nat}
include hs

omit [BEq κ] [EquivBEq κ] [ToString κ] [ToString ν] in
/-- At first nothing is evicted. -/
theorem not_evicted_of_create (x : NodeId) : s.cache.chain.isEvicted x = false := by
  rw [(create_eq hs).1]
  exact Chain.isEvicted_empty p x

/-- **Whatever is marked as evicted was evicted**, the last live entry of a cache that was too large. -/
theorem evicted_moment (hx : (moment s script n).state.cache.chain.isEvicted x = true) :
    ∃ m < n, EvictedAt s script m x := by
  induction n with
  | zero =>
    have hnone : (moment s script 0).state.cache.chain.isEvicted x = false := not_evicted_of_create hs x
    rw [hnone] at hx
    cases hx
  | succ n ih =>
    rcases (turns_moment hs script n).evicted (justified_moment hs script n) hx with h | h
    · obtain ⟨m, hm, hev⟩ := ih h
      exact ⟨m, Nat.lt_succ_of_lt hm, hev⟩
    · exact ⟨n, Nat.lt_succ_self n, h⟩

/-- A key leaves the index with a node that is marked as evicted. -/
theorem evicted_of_leaves {k : κ} (h : LeavesAt s script n k x) :
    (moment s script n).state.cache.chain.isEvicted x = true := by
  have hc := coherent_moment hs script n
  obtain ⟨hfound, hgone⟩ := h
  obtain ⟨e, he, -⟩ : Bears _ x k := hc.filed.bears_of_lookup hfound
  have hlookup := lookup_succ hs script n k
  rw [lookup_of_absent hgone, lookup_of_find? hfound he] at hlookup
  cases hchange : changeAt? s script n with
  | none => rw [hchange] at hlookup; cases hlookup
  | some change =>
    rw [hchange, Option.elim_some] at hlookup
    cases change with
    | stored e' =>
      rw [Change.after] at hlookup
      split at hlookup <;> cases hlookup
    | purged e' =>
      obtain ⟨k₀, x₀, hk₀, hf₀, hx₀, hev, -⟩ := (does_moment hs script n).purges hc hchange
      cases hk : k == e'.key with
      | false =>
        rw [Change.after, hk] at hlookup
        cases hlookup
      | true =>
        -- what was purged is what was found for the key
        have hfound₀ := hc.filed.lookup_of_bears (Index.mem_nodes_of_lookup hf₀) ⟨e', hx₀, hk⟩
        rw [Index.find?, hfound₀] at hfound
        rw [← Option.some.inj hfound]
        exact hev

/-- A node is deleted only once. -/
theorem deleted_once {m : Nat} (hlive : (moment s script m).state.cache.chain.isDeleted x = false)
    (hdead : (moment s script (m + 1)).state.cache.chain.isDeleted x = true)
    (hlive' : (moment s script n).state.cache.chain.isDeleted x = false)
    (hdead' : (moment s script (n + 1)).state.cache.chain.isDeleted x = true) : m = n := by
  have hafter {i j : Nat} (hd : (moment s script (i + 1)).state.cache.chain.isDeleted x = true) (hij : i < j) :
      (moment s script j).state.cache.chain.isDeleted x = true := by
    obtain ⟨d, rfl⟩ := Nat.exists_eq_add_of_le hij
    exact (ages_moments hs script (i + 1) d).deleted x (Chain.lt_size_of_deleted hd) hd
  rcases Nat.lt_trichotomy m n with h | h | h
  · rw [hafter hdead h] at hlive'
    cases hlive'
  · exact h
  · rw [hafter hdead' h] at hlive
    cases hlive

/-! ## Room for all keys -/

/-- The index has no more keys than were to be stored. -/
theorem size_le_variety (n : Nat) :
    (moment s script n).state.cache.size ≤ variety ((created s script n).map Entry.key) := by
  have hc := coherent_moment hs script n
  have hdiffer : Index.Differ ((moment s script n).state.cache.index.slots.map Prod.fst) :=
    List.pairwise_map.mpr hc.filed.distinct
  have hcovers : Covers ((moment s script n).state.cache.index.slots.map Prod.fst)
      ((created s script n).map Entry.key) := by
    intro k hk
    obtain ⟨slot, hslot, rfl⟩ := List.mem_map.mp hk
    obtain ⟨e, he, hkey⟩ := hc.filed.keyed slot hslot
    exact ⟨e.key, List.mem_map_of_mem ((traced_moment hs script n).mem_of_carried hc he), hkey⟩
  have hle := Index.le_variety hdiffer hcovers
  rwa [List.length_map] at hle

/-- Where there is room for all keys that were to be stored, nothing is evicted. -/
theorem not_evicted_of_room {n : Nat} (hroom : variety ((created s script n).map Entry.key) ≤ chosen capacity)
    (x : NodeId) : (moment s script n).state.cache.chain.isEvicted x = false := by
  cases he : (moment s script n).state.cache.chain.isEvicted x with
  | false => rfl
  | true =>
    obtain ⟨m, hm, hev⟩ := evicted_moment hs script he
    obtain ⟨d, rfl⟩ := Nat.exists_eq_add_of_lt hm
    have hsize := size_le_variety hs script m
    have hmono : variety ((created s script m).map Entry.key) ≤ variety ((created s script (m + (d + 1))).map Entry.key) :=
      variety_created_mono script m (d + 1)
    obtain ⟨inProgress, hkept, -⟩ := kept_moment hs script m
    have hcap := hkept.1.capacity_eq
    have hfull := hev.full
    rw [Nat.add_assoc] at hroom
    omega

/-- What was purged was evicted before. -/
theorem evicted_of_purged {n : Nat} {e : Entry Nat κ ν} (he : .purged e ∈ changes s script n) :
    ∃ x, (moment s script n).state.cache.chain.isEvicted x = true := by
  obtain ⟨m, hm, hchange⟩ := List.mem_filterMap.mp he
  obtain ⟨d, rfl⟩ := Nat.exists_eq_add_of_lt (List.mem_range.mp hm)
  obtain ⟨-, x, -, -, hx, hev, -⟩ := (does_moment hs script m).purges (coherent_moment hs script m) hchange
  exact ⟨x, (ages_moments hs script m (d + 1)).evicted x (Chain.lt_size_of_carried hx) hev⟩

/-- An entry that was published is found, or it was replaced, unless one for its key was evicted. -/
theorem found_of_published {n : Nat} (hnone : ∀ x, (moment s script n).state.cache.chain.isEvicted x = false)
    {k : κ} {e : Entry Nat κ ν} (he : .stored e ∈ changes s script n) (hk : (k == e.key) = true) :
    ∃ e', (moment s script n).state.cache.lookup k = some e' ∧ (k == e'.key) = true := by
  have hrecalls := recalls_moment hs script n k
  cases hfound : (moment s script n).state.cache.lookup k with
  | some e' =>
    rw [hfound] at hrecalls
    obtain ⟨since, hlatest, -⟩ := hrecalls
    exact ⟨e', rfl, hlatest.key⟩
  | none =>
    rw [hfound] at hrecalls
    rcases hrecalls with hnever | ⟨e', since, hlatest, hpurged⟩
    · rw [hnever e he] at hk
      cases hk
    · obtain ⟨before, hsplit⟩ := hlatest.split
      have hmem : .purged e' ∈ changes s script n := by
        rw [hsplit]
        exact List.mem_append_right _ (List.mem_cons_of_mem _ hpurged)
      obtain ⟨x, hx⟩ := evicted_of_purged hs script hmem
      rw [hnone x] at hx
      cases hx

end Moments

/-! ## All evictions of a session -/

/-- What evictions do to the index over a session. -/
structure Warranted (capacity : Nat) (s : Session κ ν) (script : Interleave.Script (Request κ ν)) : Prop where
  /-- A key that leaves the index leaves it with a node that was evicted before: it was the last live entry of a cache
  that was too large. -/
  left : ∀ n k x, LeavesAt s script n k x → ∃ m < n, EvictedAt s script m x
  /-- With a node that was deleted by anything but an eviction no key ever leaves the index, and it is never marked. -/
  moved : ∀ m x, (moment s script m).state.cache.chain.isDeleted x = false →
    (moment s script (m + 1)).state.cache.chain.isDeleted x = true →
    (resumed? (moment s script m).move).bind Stage.chosen? = none →
    ∀ n, (moment s script n).state.cache.chain.isEvicted x = false ∧ ∀ k, ¬LeavesAt s script n k x
  /-- If no more different keys were to be stored than there is room for, every key that was published is found. -/
  found : ∀ n, variety ((created s script n).map Entry.key) ≤ capacity → ∀ k e, .stored e ∈ changes s script n →
    (k == e.key) = true → ∃ e', (moment s script n).state.cache.lookup k = some e' ∧ (k == e'.key) = true
  /-- If no more different keys were to be stored than there is room for until a request ends that asks for a key, and
  a request to store the key ended before it came, it is answered with an entry for the key. -/
  kept : ∀ n l k v, (moment s script n).move = .start (.set k v) → IsCall system (moment s script n) l →
    ∀ n' l' k' r, n + l < n' → r.key? = some k' → (k' == k) = true → (moment s script n').move = .start r →
    IsCall system (moment s script n') l' → variety ((created s script (n' + l')).map Entry.key) ≤ capacity →
    ∃ e served, (k' == e.key) = true ∧ Machine.ending? system (moment s script (n' + l')) = some served ∧
      served.answer = verdict r (r.reply (some e))

/-- **Evictions are warranted**, whatever interrupts what. -/
theorem evictions_warranted (hs : create p capacity = .ok s) (script : Interleave.Script (Request κ ν)) :
    Warranted (chosen capacity) s script where
  left n k x h := evicted_moment hs script (evicted_of_leaves hs script h)
  moved m x hlive hdead hother n := by
    have hnone : (moment s script n).state.cache.chain.isEvicted x = false := by
      cases he : (moment s script n).state.cache.chain.isEvicted x with
      | false => rfl
      | true =>
        obtain ⟨m', -, hev⟩ := evicted_moment hs script he
        obtain rfl := deleted_once hs script hlive hdead hev.live hev.dead
        obtain ⟨r, cut, reply, hpass, -⟩ := hev.pass
        rw [hpass] at hother
        cases hother
    refine ⟨hnone, fun k hleaves => ?_⟩
    rw [evicted_of_leaves hs script hleaves] at hnone
    cases hnone
  found n hroom k e he hk := found_of_published hs script (not_evicted_of_room hs script hroom) he hk
  kept n l k v hset hcall n' l' k' r hn hkey hk hask hcall' hroom := by
    obtain ⟨j, fresh, -, hj, -, hchange, -⟩ := stored hs script hset hcall
    obtain ⟨j', served, hj', hlooks, hend, hanswer⟩ := answered hs script hkey hask hcall'
    -- the entry was published before the request looks for it, and there is still room then
    have hpublished : .stored ⟨(moment s script n).state.cache.serial, k, v⟩ ∈ changes s script (n' + j') := by
      obtain ⟨d, hd⟩ := Nat.exists_eq_add_of_le (show n + j + 1 ≤ n' + j' by omega)
      rw [hd]
      refine (changes_grow script (n + j + 1) d).subset ?_
      rw [changes_succ, hchange]
      exact List.mem_append_right _ List.mem_cons_self
    have hroom' : variety ((created s script (n' + j')).map Entry.key) ≤ chosen capacity := by
      obtain ⟨d, rfl⟩ := Nat.exists_eq_add_of_le hj'
      have hmono : variety ((created s script (n' + j')).map Entry.key) ≤
          variety ((created s script (n' + j' + d)).map Entry.key) := variety_created_mono script (n' + j') d
      rw [Nat.add_assoc] at hmono
      exact Nat.le_trans hmono hroom
    obtain ⟨e, hfound, hke⟩ := found_of_published hs script (not_evicted_of_room hs script hroom') hpublished hk
    rw [hfound] at hanswer
    exact ⟨e, served, hke, hend, hanswer⟩

/-- Room for one entry. While the call that stores the first key has its node in front but not in the index, two others
come; the second has chosen that node as its victim when it is interrupted itself, and evicts it then. The node comes
into the index only afterwards, and the key leaves it at once. -/
theorem evictions_warranted_unindexed : ∃ (s : Session Nat Nat) (script : Interleave.Script (Request Nat Nat)),
    create .deferred (some 1) = .ok s ∧ (moment s script 14).state.cache.index.find? 1 = none ∧
      LeavesAt s script 20 1 2 ∧ (∃ m < 20, EvictedAt s script m 2) ∧ Warranted 1 s script := by
  let s : Session Nat Nat := ⟨⟨.empty .deferred, .empty, 1, 0, [.created 1]⟩, []⟩
  have hs : create .deferred (some 1) = .ok s := rfl
  let script : Interleave.Script (Request Nat Nat) :=
    .call (.set 1 10)
      (.stop 2 (.call (.set 2 20) .nil (.call (.set 3 30) (.stop 3 (.call (.contains 1) .nil .nil) .nil) .nil)) .nil)
      .nil
  have hleaves : LeavesAt s script 20 1 2 := ⟨by decide +kernel, by decide +kernel⟩
  have hwarranted : Warranted (chosen (some 1)) s script := evictions_warranted hs script
  exact ⟨s, script, hs, by decide +kernel, hleaves, hwarranted.left 20 1 2 hleaves, hwarranted⟩

end Session
end LeastRecent.Cache
