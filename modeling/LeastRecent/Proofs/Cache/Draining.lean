import LeastRecent.Proofs.Cache.Closing
import LeastRecent.Proofs.Chain.Surplus

/-!
# The index may give its nodes back in any order

When a cache goes the index gives back its links first. In which order it hands out its nodes is not determined. If no
call is in progress each of them is live, so the chain still has a link on it (`Quiet.two_le_links`). Hence no node is
retired before the chain is taken apart, and what happens then is the same for all orders
(`dismantledIn_any_order`).
-/

namespace LeastRecent.Cache

variable {κ ν : Type}

/-- The nodes that the index hands back have a link of the chain as well. -/
theorem Quiet.two_le_links [BEq κ] {c : Cache κ ν} (h : Quiet c) {x : NodeId} (hx : x ∈ c.index.drain.2) :
    2 ≤ (c.chain.node x).links := by
  obtain ⟨order, hs⟩ := h.coherent.sound
  rw [List.flatMap_nil, List.append_nil] at hs
  cases hd : c.chain.isDeleted x with
  | false => exact hs.two_le_links hx hd
  | true => exact absurd ⟨hx, hd⟩ (h.settled x)

/-- Each of them is handed back once. -/
theorem Quiet.nodup_drain [BEq κ] {c : Cache κ ν} (h : Quiet c) : c.index.drain.2.Nodup := by
  have hapart := h.coherent.custody.apart
  rwa [List.flatMap_nil, List.append_nil] at hapart

namespace Session

open Interleave (Machine)

/-- The chain after the cache went, if the index hands its nodes back in the order `ns`. -/
def dismantledIn (s : Session κ ν) (ns : List NodeId) : Chain (Entry Nat κ ν) := (s.cache.chain.releaseAll ns).dismantle

/-- The index hands its nodes back in some order. -/
theorem dismantledIn_drain (s : Session κ ν) : s.dismantledIn s.cache.index.drain.2 = s.dismantled := rfl

variable [BEq κ] [EquivBEq κ] [ToString κ] [ToString ν]

/-- **The order in which the index hands its nodes back makes no difference.** Whenever no call is in progress, giving
back their links retires nothing, at no point of any order; and then the chain is taken apart without a fault, with the
same nodes retired in the same order, which are those that the end of the session shows. -/
theorem dismantledIn_any_order {p : Policy} {capacity : Option Nat} {s : Session κ ν} (hs : create p capacity = .ok s)
    (script : Interleave.Script (Request κ ν)) (n : Nat) (hidle : (moment s script n).stack = []) {ns ms : List NodeId}
    (hns : ns.Perm (moment s script n).state.cache.index.drain.2)
    (hms : ms.Perm (moment s script n).state.cache.index.drain.2) :
    (∀ given, given <+: ns →
        ((moment s script n).state.cache.chain.releaseAll given).retired =
          (moment s script n).state.cache.chain.retired) ∧
      ((moment s script n).state.dismantledIn ns).retired = ((moment s script n).state.dismantledIn ms).retired ∧
      (moment s script n).state.dismantledIn ns = (moment s script n).state.dismantled ∧
      ((moment s script n).state.dismantledIn ns).fault = none := by
  obtain ⟨hq, -⟩ := quiet_moment hs hidle
  have hlinks (x : NodeId) (hx : x ∈ ns) : 2 ≤ ((moment s script n).state.cache.chain.node x).links :=
    hq.two_le_links (hns.mem_iff.mp hx)
  have hnodup : ns.Nodup := hns.nodup_iff.mpr hq.nodup_drain
  have hany {ks : List NodeId} (hp : ns.Perm ks) :
      (moment s script n).state.dismantledIn ns = (moment s script n).state.dismantledIn ks :=
    congrArg Chain.dismantle (Chain.releaseAll_perm hp hnodup hlinks)
  have hend : (moment s script n).state.dismantledIn ns = (moment s script n).state.dismantled :=
    (hany hns).trans (dismantledIn_drain _)
  refine ⟨fun given hgiven => ?_, congrArg Chain.retired (hany (hns.trans hms.symm)), hend, ?_⟩
  · exact Chain.retired_releaseAll (hnodup.sublist hgiven.sublist) fun x hx => hlinks x (hgiven.subset hx)
  · rw [hend]
    exact (dismantled_spec hq.coherent).1

/-- A `get` was interrupted by another one, so that a deleted node is still linked; the two nodes of the index are handed
back one way and the other. -/
theorem dismantledIn_any_order_interrupted : ∃ (s : Session Nat Nat) (script : Interleave.Script (Request Nat Nat)),
    create .deferred (some 2) = .ok s ∧ (moment s script 19).stack = [] ∧
      2 ∈ (moment s script 19).state.cache.chain.spine ∧
      [4, 5].Perm (moment s script 19).state.cache.index.drain.2 ∧
      [5, 4].Perm (moment s script 19).state.cache.index.drain.2 ∧
      ((moment s script 19).state.cache.chain.releaseAll [4]).retired = (moment s script 19).state.cache.chain.retired ∧
      ((moment s script 19).state.dismantledIn [4, 5]).retired = ((moment s script 19).state.dismantledIn [5, 4]).retired ∧
      ((moment s script 19).state.dismantledIn [5, 4]).retired = [3, 2, 4, 5] := by
  let s : Session Nat Nat := ⟨⟨.empty .deferred, .empty, 2, 0, [.created 2]⟩, []⟩
  have hs : create .deferred (some 2) = .ok s := rfl
  let script : Interleave.Script (Request Nat Nat) :=
    .call (.set 1 10) .nil (.call (.set 2 20) .nil (.call (.get 1) (.stop 1 (.call (.get 2) .nil .nil) .nil) .nil))
  have hidle : (moment s script 19).stack = [] := List.eq_nil_of_length_eq_zero (by decide +kernel)
  have hns : [4, 5].Perm (moment s script 19).state.cache.index.drain.2 := by decide +kernel
  have hms : [5, 4].Perm (moment s script 19).state.cache.index.drain.2 := by decide +kernel
  obtain ⟨hbefore, hsame, -⟩ := dismantledIn_any_order hs script 19 hidle hns hms
  exact ⟨s, script, hs, hidle, by decide +kernel, hns, hms, hbefore [4] ⟨[5], rfl⟩, hsame, by decide +kernel⟩

end Session
end LeastRecent.Cache
