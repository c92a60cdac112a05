import LeastRecent.Proofs.Cache.Kept

/-!
# The capacity holds

A call leaves the cache no larger than its capacity or than the call found it, whatever came between. While calls are in
progress the cache may be too large by one entry for each call that stores; while none is in progress it is not too
large at all (`size_bounded`).
-/

namespace LeastRecent.Cache

open Interleave (Machine)
open Interleave.Machine (IsCall)

variable {κ ν : Type} [BEq κ] {capacity : Nat}

/-- The capacity never changes. -/
theorem Kept.capacity_eq : ∀ {calls : List (Cache κ ν × Stage κ ν)} {c : Cache κ ν}, Kept capacity c calls →
    c.capacity = capacity
  | [], _, h => h.2.1
  | (_, _) :: _, _, h => h.2.1.capacity.trans (capacity_eq h.2.2)

/-- How many entries the calls may have added. -/
def surplus : List (Cache κ ν × Stage κ ν) → Nat
  | [] => 0
  | (_, st) :: calls => st.surplus + surplus calls

/-- The cache is too large by the surplus of the calls in progress at most. -/
theorem Kept.size_le : ∀ {calls : List (Cache κ ν × Stage κ ν)} {c : Cache κ ν}, Kept capacity c calls →
    c.size ≤ capacity + surplus calls
  | [], _, h => h.2.2
  | (c₀, st) :: calls, c, h => by
    have ih := size_le h.2.2
    have hs := h.2.1.size
    have hcap := h.capacity_eq
    rw [surplus]
    omega

namespace Session

/-- The requests to store that are in progress. -/
def storing (stages : List (Suspended κ ν)) : List (Suspended κ ν) := stages.filter fun p => p.request.isSet

omit [BEq κ] in
/-- Only a request to store has a surplus. -/
theorem surplus_le_storing : ∀ {inProgress : List (Session κ ν × Suspended κ ν)},
    (∀ p ∈ inProgress, p.2.stage.stores = p.2.request.isSet) →
      surplus (calls inProgress) ≤ (storing (inProgress.map Prod.snd)).length
  | [], _ => Nat.le_refl _
  | p :: inProgress, h => by
    have ih := surplus_le_storing fun p hp => h p (List.mem_cons_of_mem _ hp)
    have hp := p.2.stage.surplus_le
    rw [h p List.mem_cons_self] at hp
    have hsum : surplus (calls (p :: inProgress)) = p.2.stage.surplus + surplus (calls inProgress) := rfl
    have hlen : (storing ((p :: inProgress).map Prod.snd)).length =
        (storing (inProgress.map Prod.snd)).length + p.2.request.isSet.toNat := by
      rw [List.map_cons, storing, List.filter_cons]
      cases p.2.request.isSet <;> rfl
    omega

variable [ToString κ] [ToString ν] [EquivBEq κ]

/-- **The capacity holds whatever interrupts what.** A whole call leaves no more entries than the capacity or than it
found; at every moment there is at most one entry too many for each request to store in progress, and none is too many
while no request is in progress. -/
theorem size_bounded {p : Policy} {capacity : Option Nat} {s : Session κ ν} (hs : create p capacity = .ok s)
    (script : Interleave.Script (Request κ ν)) (n : Nat) :
    (∀ k, IsCall system (moment s script n) k →
      (moment s script (n + (k + 1))).state.cache.size ≤
        max (chosen capacity) (moment s script n).state.cache.size) ∧
    (moment s script n).state.cache.size ≤ chosen capacity + (storing (moment s script n).stages).length ∧
    ((moment s script n).stack = [] → (moment s script n).state.cache.size ≤ chosen capacity) := by
  obtain ⟨inProgress, h, hst⟩ := kept_moment hs script n
  have hcap := h.1.capacity_eq
  refine ⟨?_, ?_, ?_⟩
  · intro k hcall
    have hpassed := guarded.whole_call hcall h hst
    have hmoment : moment s script (n + (k + 1)) = Machine.steps system (k + 1) (moment s script n) := by
      rw [Nat.add_comm]
      exact Machine.steps_add (k + 1) n
    have hsize := hpassed.size
    rw [hpassed.capacity, hcap] at hsize
    rw [hmoment]
    exact hsize
  · have hle := h.1.size_le
    have hsum := surplus_le_storing h.2
    rw [hst] at hsum
    omega
  · intro hnil
    have hnone : inProgress = [] := by
      rw [Machine.stages, hnil, List.map_nil] at hst
      exact List.map_eq_nil_iff.mp hst
    rw [hnone] at h
    exact h.1.2.2

/-- Room for one entry, and a `set` is interrupted by another: for a while there are two entries, in the end one. -/
theorem size_bounded_nested : ∃ (s : Session Nat Nat) (script : Interleave.Script (Request Nat Nat)),
    create .deferred (some 1) = .ok s ∧ IsCall system (moment s script 0) 10 ∧
      (moment s script 11).state.cache.size ≤ max 1 (moment s script 0).state.cache.size ∧
      (moment s script 9).state.cache.size = 2 ∧
      (moment s script 9).state.cache.size ≤ 1 + (storing (moment s script 9).stages).length ∧
      (moment s script 11).stack = [] ∧ (moment s script 11).state.cache.size ≤ 1 := by
  let s : Session Nat Nat := ⟨⟨.empty .deferred, .empty, 1, 0, [.created 1]⟩, []⟩
  have hs : create .deferred (some 1) = .ok s := rfl
  let script : Interleave.Script (Request Nat Nat) :=
    .call (.set 1 10) (.stop 2 (.call (.set 2 20) .nil .nil) .nil) .nil
  have hduring : ∀ i < 11, 0 < i →
      (moment s script 0).stages.length < (Machine.steps system i (moment s script 0)).stages.length := by
    decide +kernel
  have hcall : IsCall system (moment s script 0) 10 :=
    ⟨⟨.set 1 10, rfl⟩, fun i h₀ hi => hduring i (by omega) h₀, by decide +kernel⟩
  have hend : (moment s script 11).stack = [] := List.eq_nil_of_length_eq_zero (by decide +kernel)
  have hchosen : chosen (some 1) = 1 := rfl
  have hcompleted := (size_bounded hs script 0).1 10 hcall
  have hmoment := (size_bounded hs script 9).2.1
  have hidle := (size_bounded hs script 11).2.2 hend
  rw [hchosen] at hcompleted hmoment hidle
  have hlater : 0 + (10 + 1) = 11 := rfl
  rw [hlater] at hcompleted
  exact ⟨s, script, hs, hcall, hcompleted, by decide +kernel, hmoment, hend, hidle⟩

end Session

end LeastRecent.Cache
