import LeastRecent.Proofs.Cache.Agreement
import LeastRecent.Proofs.Chain.Healing

/-!
# Listing the entries tidies the cache

To list the entries is to walk along the chain. If no call is in progress, nothing is held but the nodes of the index,
which are live, so the walk leaves a tidy chain (`Quiet.tidy_walk`): whatever earlier calls left behind, afterwards the
entries of the cache are the only nodes that were not retired (`entries_tidy`).
-/

namespace LeastRecent.Cache

open Chain (Tidy header trailer)
open Interleave (Machine)

variable {κ ν : Type} [BEq κ] [EquivBEq κ]

/-- The chain of the cache is tidy, and of the nodes that carry entries just the live ones were not retired, as many as
the cache says. -/
structure Swept (c : Cache κ ν) : Prop where
  tidy : Tidy c.chain
  live : ∀ x, x ∈ c.chain.recent ↔ c.chain.isDeleted x = false ∧ c.chain.isSentinel x = false
  kept : ∀ x < c.chain.size, c.chain.isSentinel x = false → (x ∉ c.chain.retired ↔ x ∈ c.chain.recent)
  nodup : c.chain.recent.Nodup
  size : c.chain.recent.length = c.size

omit [EquivBEq κ] in
/-- While no call is in progress, all that is held from outside is live. -/
theorem Quiet.tidy_walk {c : Cache κ ν} (h : Quiet c) : Tidy (c.chain.walk header).1 := by
  obtain ⟨order, hs⟩ := h.coherent.sound
  refine hs.tidy_walk fun x hx => ?_
  rw [List.flatMap_nil, List.append_nil] at hx
  cases hd : c.chain.isDeleted x with
  | false => rfl
  | true => exact absurd ⟨hx, hd⟩ (h.settled x)

theorem Quiet.swept {c : Cache κ ν} (h : Quiet c) (ht : Tidy c.chain) : Swept c where
  tidy := ht
  live x := h.coherent.mem_recent
  kept x hx hs := by
    rw [ht.retired x hx, h.coherent.mem_recent, hs, Bool.not_eq_true, and_iff_left rfl]
  nodup := h.coherent.nodup_recent
  size := h.matches.size

namespace Session

variable [ToString κ] [ToString ν]

omit [BEq κ] [EquivBEq κ] [ToString κ] [ToString ν] in
/-- If room for the entries can be reserved, to list them is to walk along the chain. -/
theorem list_cache_of_room {s : Session κ ν} (h : s.cache.capacity < reservationLimit)
    (f : List (Entry Nat κ ν) → Answer κ ν) :
    (s.list f).1.cache = { s.cache with chain := (s.cache.chain.walk header).1 } := by
  show (s.cache.entries).1 = _
  rw [Cache.entries, if_neg (Nat.not_le_of_lt h)]

/-- **A request for the entries heals the chain and gives up all deleted nodes**, whatever interrupted the calls before:
the chain leads along the live nodes, each hint on it is at the node before, and all other nodes were retired. -/
theorem entries_tidy {p : Policy} {capacity : Option Nat} {s : Session κ ν} (hs : create p capacity = .ok s)
    (hroom : chosen capacity < reservationLimit) (script : Interleave.Script (Request κ ν)) {n : Nat}
    (hidle : (moment s script n).stack = []) (hask : (moment s script n).move = .start .entries) :
    (moment s script (n + 1)).stack = [] ∧ Swept (moment s script (n + 1)).state.cache := by
  obtain ⟨hquiet, hcapacity, -⟩ := quiet_moment hs hidle
  obtain ⟨hstate, hstages⟩ := Machine.step_start system hask
  have hnone : (moment s script n).stages = [] := by rw [Machine.stages, hidle]; rfl
  replace hstages : (moment s script (n + 1)).stages = [] := hstages.trans hnone
  have hidle' : (moment s script (n + 1)).stack = [] := List.map_eq_nil_iff.mp hstages
  have hcache : (moment s script (n + 1)).state.cache = _ :=
    (congrArg Session.cache hstate).trans (list_cache_of_room (hcapacity ▸ hroom) .entries)
  refine ⟨hidle', (quiet_moment hs hidle').1.swept ?_⟩
  rw [hcache]
  exact hquiet.tidy_walk

/-- A `get` is interrupted by another one; then a deleted node is linked although no call is in progress. The request for
the entries retires it. -/
theorem entries_tidy_interrupted : ∃ (s : Session Nat Nat) (script : Interleave.Script (Request Nat Nat)),
    create .deferred (some 2) = .ok s ∧ chosen (some 2) < reservationLimit ∧ (moment s script 19).stack = [] ∧
      (moment s script 19).move = .start .entries ∧ 2 ∈ (moment s script 19).state.cache.chain.spine ∧
      (moment s script 19).state.cache.chain.isDeleted 2 = true ∧ 2 ∉ (moment s script 19).state.cache.chain.retired ∧
      2 ∈ (moment s script 20).state.cache.chain.retired ∧ Swept (moment s script 20).state.cache := by
  let s : Session Nat Nat := ⟨⟨.empty .deferred, .empty, 2, 0, [.created 2]⟩, []⟩
  have hs : create .deferred (some 2) = .ok s := rfl
  let script : Interleave.Script (Request Nat Nat) :=
    .call (.set 1 10) .nil (.call (.set 2 20) .nil
      (.call (.get 1) (.stop 1 (.call (.get 2) .nil .nil) .nil) (.call .entries .nil .nil)))
  have hidle : (moment s script 19).stack = [] := List.eq_nil_of_length_eq_zero (by decide +kernel)
  have hask : (moment s script 19).move = .start .entries := by
    have hmove : (match (moment s script 19).move with | .start .entries => true | _ => false) = true := by
      decide +kernel
    generalize (moment s script 19).move = move at hmove ⊢
    split at hmove
    · rfl
    · cases hmove
  have hroom : chosen (some 2) < reservationLimit := by decide
  have hswept := (entries_tidy hs hroom script hidle hask).2
  have hnext : 19 + 1 = 20 := rfl
  rw [hnext] at hswept
  exact ⟨s, script, hs, hroom, hidle, hask, by decide +kernel, by decide +kernel, by decide +kernel, by decide +kernel,
    hswept⟩

end Session
end LeastRecent.Cache
