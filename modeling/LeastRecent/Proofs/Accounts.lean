import LeastRecent.Proofs.Cache.Moments
import LeastRecent.Proofs.Chain.Owners

/-!
# Every link is accounted for

In a cache the owners of nodes are the index and the calls in progress, which own the nodes that they linked and did not
publish, and those that they displaced and did not give up (`Cache.Coherent.accounted`). So at every moment of a session,
with a chain or with a cache, each link of each node has its reason (`links_accounted`).
-/

namespace LeastRecent

open Chain (Accounted)

variable {κ ν : Type}

namespace Cache

variable {ch : Chain (Entry Nat κ ν)} {slots : List (κ × NodeId)} {stages : List (Stage κ ν)}

/-- What the calls hold are anchors and nodes of their own. -/
theorem held_perm (stages : List (Stage κ ν)) :
    (stages.flatMap Stage.held).Perm (stages.flatMap Stage.possessed ++ stages.flatMap Stage.anchors) := by
  induction stages with
  | nil => exact List.Perm.refl _
  | cons st stages ih =>
    have hst : st.held.Perm (st.possessed ++ st.anchors) := List.perm_append_comm
    simp only [List.flatMap_cons, List.append_assoc]
    refine (hst.append ih).trans ?_
    rw [List.append_assoc]
    exact (List.perm_append_comm_assoc _ _ _).append_left _

variable [BEq κ]

/-- No call owns a sentinel. -/
theorem Stage.Knows.not_isSentinel {st : Stage κ ν} {x : NodeId} (h : st.Knows ch) (hx : x ∈ st.possessed) :
    ch.isSentinel x = false := by
  cases st with
  | publish e fresh =>
    rw [List.mem_singleton.mp hx]
    exact Chain.not_isSentinel_of_carried h
  | replace k e stale fresh =>
    rw [List.mem_singleton.mp hx]
    exact Chain.not_isSentinel_of_carried h.2
  | discard y next =>
    rw [List.mem_singleton.mp hx]
    exact h.1
  | discarding cut next =>
    rw [List.mem_singleton.mp hx]
    exact h.1
  | _ => cases hx

/-- In a coherent cache every link is accounted for. -/
theorem Coherent.accounted (h : Coherent ch slots stages) :
    Accounted ch (slots.map Prod.snd ++ stages.flatMap Stage.possessed) (stages.flatMap Stage.anchors) := by
  obtain ⟨order, hsound⟩ := h.sound
  refine hsound.accounted ?_ h.custody.apart fun x hx => ?_
  · rw [List.append_assoc]
    exact (held_perm stages).append_left _
  · rcases List.mem_append.mp hx with hx | hx
    · obtain ⟨s, hs, rfl⟩ := List.mem_map.mp hx
      exact (h.filed.keyed s hs).not_isSentinel
    · obtain ⟨st, hst, hx⟩ := List.mem_flatMap.mp hx
      exact (h.knows st hst).not_isSentinel hx

end Cache

variable [BEq κ] [EquivBEq κ] [ToString κ] [ToString ν]

/-- **Every link is accounted for** at every moment of a session. In a session with a chain the nodes are owned by the
session, and the anchors are the nodes that suspended insertions put their new one behind. In a session with a cache the
nodes are owned by the index and by the calls in progress, and all anchors are at the header. -/
theorem links_accounted {p : Policy} {capacity : Option Nat} {s : Cache.Session κ ν}
    (hs : Cache.Session.create p capacity = .ok s) (chainScript : Interleave.Script (Chain.Session.Request κ ν))
    (script : Interleave.Script (Cache.Session.Request κ ν)) (n : Nat) :
    Accounted (Chain.Session.moment p chainScript n).state.chain (Chain.Session.moment p chainScript n).state.owned
        ((Chain.Session.moment p chainScript n).stages.flatMap Chain.Session.pending) ∧
      Accounted (Cache.Session.moment s script n).state.cache.chain
        ((Cache.Session.moment s script n).state.cache.index.nodes ++
          (Cache.Session.stagesAt s script n).flatMap Cache.Stage.possessed)
        ((Cache.Session.stagesAt s script n).flatMap Cache.Stage.anchors) :=
  ⟨Chain.Session.accounted_moment p chainScript n, (Cache.Session.coherent_moment hs script n).accounted⟩

/-- A deletion is interrupted by an insertion, and a `get` by a `set`; the node that the insertion and the deletion are
about has five links: it is on the spine, it is owned, two nodes point at it, and so will the new one. -/
theorem links_accounted_nested : ∃ (s : Cache.Session Nat Nat) (chainScript : Interleave.Script (Chain.Session.Request Nat Nat))
    (script : Interleave.Script (Cache.Session.Request Nat Nat)),
    Cache.Session.create .deferred (some 1) = .ok s ∧
      (Chain.Session.moment .deferred chainScript 9).stack.length = 2 ∧
      ((Chain.Session.moment .deferred chainScript 9).state.chain.node 2).links = 5 ∧
      Accounted (Chain.Session.moment .deferred chainScript 9).state.chain
        (Chain.Session.moment .deferred chainScript 9).state.owned
        ((Chain.Session.moment .deferred chainScript 9).stages.flatMap Chain.Session.pending) ∧
      (Cache.Session.moment s script 9).stack.length = 2 ∧
      Accounted (Cache.Session.moment s script 9).state.cache.chain
        ((Cache.Session.moment s script 9).state.cache.index.nodes ++
          (Cache.Session.stagesAt s script 9).flatMap Cache.Stage.possessed)
        ((Cache.Session.stagesAt s script 9).flatMap Cache.Stage.anchors) := by
  let s : Cache.Session Nat Nat := ⟨⟨.empty .deferred, .empty, 1, 0, [.created 1]⟩, []⟩
  have hs : Cache.Session.create .deferred (some 1) = .ok s := rfl
  let chainScript : Interleave.Script (Chain.Session.Request Nat Nat) :=
    .call (.append "HEADER" "a" 1 10) .nil (.call (.append "a" "b" 2 20) .nil (.call (.delete "a")
      (.stop 0 (.call (.append "a" "c" 3 30) (.stop 0 (.call (.delete "b") .nil .nil) .nil) .nil) .nil) .nil))
  let script : Interleave.Script (Cache.Session.Request Nat Nat) :=
    .call (.set 1 10) .nil (.call (.get 1) (.stop 1 (.call (.set 2 20) .nil .nil) .nil) .nil)
  obtain ⟨hchain, hcache⟩ := links_accounted hs chainScript script 9
  exact ⟨s, chainScript, script, hs, by decide +kernel, by decide +kernel, hchain, by decide +kernel, hcache⟩

end LeastRecent
