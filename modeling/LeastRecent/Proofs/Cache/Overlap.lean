import LeastRecent.Proofs.Cache.Evictions

/-!
# How far overlap may empty a cache

An eviction deletes its victim only while the cache is too large, but the entry leaves the index later, and calls that
come between may evict again. Every call in progress owes one removal at most, so while `t` calls are in progress an
eviction leaves the cache with `capacity - (t - 1)` entries at least, all removals counted that are owed
(`Filled`, `Turns.filled`). Until the first eviction every key that was stored is there (`size_after_overlap`).
-/

namespace LeastRecent.Cache

open Interleave (Machine Move)
open Index (variety Covers)

variable {κ ν : Type} {c c' : Cache κ ν} {stages stages' : List (Stage κ ν)} {spare : Nat}

/-- Nothing was evicted yet, or at most `spare` entries are missing when all removals are made that are owed. -/
def Filled (spare : Nat) (c : Cache κ ν) (stages : List (Stage κ ν)) : Prop :=
  (∀ x, c.chain.isEvicted x = false) ∨ c.capacity + owed c.chain stages ≤ c.size + spare

namespace Session

/-- **From one moment to the next** no more is missing than the calls in progress can owe, the running one apart. -/
theorem Turns.filled {move : Move (Request κ ν) (Suspended κ ν)} (t : Turns c stages move c' stages')
    (j : Justified c stages) (h : Filled spare c stages) (hlen : stages'.length ≤ spare + 1) :
    Filled spare c' stages' := by
  cases t with
  | @thrifty old rest _ p ht =>
    rcases h with hnone | hle
    · exact Or.inl fun x => (ht.chain.evicted x).trans (hnone x)
    · right
      have hsize := ht.size
      have hcap := ht.capacity
      have hrest := owed_congr ht.chain.evicted rest
      rw [owed_append] at hle ⊢
      omega
  | @evicts rest _ cut r k _ he =>
    right
    -- the cache is too large by one entry, and each call in progress owes one removal at most
    obtain ⟨-, hfull⟩ := j.victim _ List.mem_cons_self cut.target rfl he.live
    have howed := owed_le_length c'.chain (.purge k cut.target r :: rest)
    have hsize : c'.size = c.size := by rw [size, size, he.index]
    have hcap := he.capacity
    omega

section Moments

variable [BEq κ] [EquivBEq κ] [ToString κ] [ToString ν] {p : Policy} {capacity : Option Nat} {s : Session κ ν}
  (hs : create p capacity = .ok s) (script : Interleave.Script (Request κ ν)) {n t : Nat}
include hs

/-- While at most `t` calls were in progress at once, at most `t - 1` entries are missing. -/
theorem filled_moment (hoverlap : ∀ i ≤ n, (moment s script i).stack.length ≤ t) :
    Filled (t - 1) (moment s script n).state.cache (stagesAt s script n) := by
  induction n with
  | zero => exact Or.inl (not_evicted_of_create hs)
  | succ n ih =>
    have hlen : (stagesAt s script (n + 1)).length ≤ t - 1 + 1 := by
      have hle := hoverlap (n + 1) (Nat.le_refl _)
      rw [stagesAt, Machine.stages, List.length_map, List.length_map]
      omega
    exact (turns_moment hs script n).filled (justified_moment hs script n)
      (ih fun i hi => hoverlap i (Nat.le_succ_of_le hi)) hlen

/-- Where no call is in progress and nothing was evicted, every key that was to be stored is in the index. -/
theorem variety_le_size (hidle : (moment s script n).stack = [])
    (hnone : ∀ x, (moment s script n).state.cache.chain.isEvicted x = false) :
    variety ((created s script n).map Entry.key) ≤ (moment s script n).state.cache.size := by
  have hcovers : Covers ((created s script n).map Entry.key)
      ((moment s script n).state.cache.index.slots.map Prod.fst) := by
    intro k hk
    obtain ⟨e, he, rfl⟩ := List.mem_map.mp hk
    have hstages : stagesAt s script n = [] := by rw [stagesAt, Machine.stages, hidle]; rfl
    have hpublished := (published_moment hs script n).mem_iff.mp he
    rw [hstages, List.flatMap_nil, List.append_nil, List.mem_filterMap] at hpublished
    obtain ⟨change, hchange, hstored⟩ := hpublished
    cases change with
    | purged e' => cases hstored
    | stored e' =>
      cases hstored
      obtain ⟨e', hfound, -⟩ := found_of_published hs script hnone hchange (BEq.refl e.key)
      obtain ⟨x, hx, -⟩ := Option.bind_eq_some_iff.mp hfound
      obtain ⟨k', hslot, hk'⟩ := Index.mem_of_lookup hx
      exact ⟨k', List.mem_map_of_mem hslot, hk'⟩
  have hle := Index.variety_le hcovers
  rwa [List.length_map] at hle

/-- **Overlap is what over-eviction costs.** If at most `t` calls were ever in progress at once, a cache in which no call
is in progress has an entry for every key that was to be stored, or no fewer than its capacity less `t - 1`. If no call
was ever interrupted it has as many entries as there are keys and room. -/
theorem size_after_overlap (hoverlap : ∀ i ≤ n, (moment s script i).stack.length ≤ t)
    (hidle : (moment s script n).stack = []) :
    min (variety ((created s script n).map Entry.key)) (chosen capacity - (t - 1)) ≤
        (moment s script n).state.cache.size ∧
      (t = 1 → (moment s script n).state.cache.size =
        min (variety ((created s script n).map Entry.key)) (chosen capacity)) := by
  have hlower : min (variety ((created s script n).map Entry.key)) (chosen capacity - (t - 1)) ≤
      (moment s script n).state.cache.size := by
    rcases filled_moment hs script hoverlap with hnone | hle
    · exact Nat.le_trans (Nat.min_le_left _ _) (variety_le_size hs script hidle hnone)
    · obtain ⟨inProgress, hkept, -⟩ := kept_moment hs script n
      have hcap := hkept.1.capacity_eq
      omega
  refine ⟨hlower, fun ht => ?_⟩
  have hvariety := size_le_variety hs script n
  have hcapacity := (size_bounded hs script n).2.2 hidle
  rw [ht] at hlower
  omega

end Moments

/-- Room for two entries. The call that stores the third key has evicted the first and is about to take it out of the
index when a fourth key is stored; that evicts two more, and in the end one entry is left. -/
theorem size_after_overlap_two : ∃ (s : Session Nat Nat) (script : Interleave.Script (Request Nat Nat)),
    create .deferred (some 2) = .ok s ∧ (∀ i ≤ 23, (moment s script i).stack.length ≤ 2) ∧
      (moment s script 23).stack = [] ∧ variety ((created s script 23).map Entry.key) = 4 ∧
      (moment s script 23).state.cache.size = 1 ∧ min 4 (2 - (2 - 1)) ≤ (moment s script 23).state.cache.size := by
  let s : Session Nat Nat := ⟨⟨.empty .deferred, .empty, 2, 0, [.created 2]⟩, []⟩
  have hs : create .deferred (some 2) = .ok s := rfl
  let script : Interleave.Script (Request Nat Nat) :=
    .call (.set 1 10) .nil (.call (.set 2 20) .nil
      (.call (.set 3 30) (.stop 4 (.call (.set 4 40) .nil .nil) .nil) .nil))
  have hbelow : ∀ i < 24, (moment s script i).stack.length ≤ 2 := by decide +kernel
  have hoverlap : ∀ i ≤ 23, (moment s script i).stack.length ≤ 2 := fun i hi => hbelow i (Nat.lt_succ_of_le hi)
  have hidle : (moment s script 23).stack = [] := List.eq_nil_of_length_eq_zero (by decide +kernel)
  have hvariety : variety ((created s script 23).map Entry.key) = 4 := by decide +kernel
  have hleast := (size_after_overlap hs script hoverlap hidle).1
  rw [hvariety] at hleast
  exact ⟨s, script, hs, hoverlap, hidle, hvariety, by decide +kernel, hleast⟩

end Session
end LeastRecent.Cache
