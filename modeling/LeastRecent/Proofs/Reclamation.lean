import LeastRecent.Proofs.Accounts
import LeastRecent.Proofs.Chain.Lasting

/-!
# What is retired is out of reach

A node is retired with its last link. Since each link is accounted for, it has been deleted and unlinked by then, its
owner has given it up, and nothing points at it or is about to (`Safe`, `Sound.safe`). It stays in the limbo, so a
reader who sets out later does not meet it: not on the way forward, nor by what can be found, nor along hints (`Meets`,
`Reclaims`).

This holds of all moments of a session, with a chain or with a cache (`retired_out_of_reach`).
-/

namespace LeastRecent

variable {κ ν : Type}

namespace Chain

variable {α : Type} {c c' : Chain α} {order held owners anchors : List NodeId} {x y : NodeId}

/-- The nodes in limbo, each there once, were deleted and are neither linked nor owned; they have neither links nor
hints, and only other nodes in limbo could point at them. Nor will they be hinted at by a node that an insertion in
progress is to link: it holds its hint already, at one of the `anchors`. -/
structure Safe (c : Chain α) (owners anchors : List NodeId) : Prop where
  once : c.retired.Nodup
  deleted : ∀ x ∈ c.retired, c.isDeleted x = true
  unlinked : ∀ x ∈ c.retired, ¬ Reachable c x
  disowned : ∀ x ∈ c.retired, x ∉ owners
  bare : ∀ x ∈ c.retired, (c.node x).links = 0 ∧ (c.node x).prev = none
  unhinted : ∀ x ∈ c.retired, ∀ y, y ∉ c.retired → (c.node y).prev ≠ some x
  unanchored : ∀ x ∈ c.retired, x ∉ anchors

/-- The nodes that a reader can meet who sets out at moment `n₀` or later, by moment and node. It may enter at the
header or at a node that is found, wait for the next moment, go forward from a linked node, and follow hints. -/
inductive Meets (chain : Nat → Chain α) (found : Nat → NodeId → Prop) (n₀ : Nat) : Nat → NodeId → Prop
  | enter {n : Nat} (hn : n₀ ≤ n) : Meets chain found n₀ n header
  | find {n : Nat} {x : NodeId} (hn : n₀ ≤ n) (hx : found n x) : Meets chain found n₀ n x
  | wait {n : Nat} {x : NodeId} (h : Meets chain found n₀ n x) : Meets chain found n₀ (n + 1) x
  | forward {n : Nat} {x f : NodeId} (h : Meets chain found n₀ n x) (hx : Reachable (chain n) x)
    (hf : ((chain n).node x).next.node? = some f) : Meets chain found n₀ n f
  | back {n : Nat} {x b : NodeId} (h : Meets chain found n₀ n x) (hb : ((chain n).node x).prev = some b) :
    Meets chain found n₀ n b

/-- What is promised of the nodes in limbo, over all moments of a session. -/
structure Reclaims (chain : Nat → Chain α) (owners anchors : Nat → List NodeId) (found : Nat → NodeId → Prop) :
    Prop where
  safe : ∀ n, Safe (chain n) (owners n) (anchors n)
  lasting : ∀ n k, (chain n).retired <+: (chain (n + k)).retired
  unfound : ∀ n x, found n x → x ∉ (chain n).retired
  unmet : ∀ n₀ n x, Meets chain found n₀ n x → x ∉ (chain n₀).retired

/-- Whoever has no link left has lost it for good reasons. -/
theorem Sound.safe (h : Sound c order held) (a : Accounted c owners anchors) : Safe c owners anchors := by
  obtain ⟨linked, j, hc⟩ := h.counted
  have hzero (x : NodeId) (hx : x ∈ c.retired) :
      x < c.size ∧ x ∉ c.spine ∧ x ∉ owners ∧ (c.pointing x).length = 0 ∧ anchors.count x = 0 := by
    obtain ⟨hlt, h₀⟩ := (a.retired x).mp hx
    have hl := a.links x hlt
    rw [h₀] at hl
    refine ⟨hlt, fun hs => ?_, fun ho => ?_, by omega, by omega⟩
    · rw [if_pos hs] at hl
      omega
    · rw [if_pos ho] at hl
      omega
  have hreach (x : NodeId) (hx : x ∈ c.retired) : ¬ Reachable c x := fun hr => (hzero x hx).2.1 ((a.reachable x).mpr hr)
  constructor
  case once => exact hc.nodup
  case deleted => exact fun x hx => h.isDeleted_of_not_reachable (hzero x hx).1 (hreach x hx)
  case unlinked => exact hreach
  case disowned => exact fun x hx => (hzero x hx).2.2.1
  case bare =>
    intro x hx
    obtain ⟨hlt, h₀⟩ := (a.retired x).mp hx
    exact ⟨h₀, (hc.unhinted x hlt).mpr (Or.inr h₀)⟩
  case unhinted =>
    intro x hx y hy hp
    have hlt : y < c.size := by
      apply Nat.lt_of_not_le
      intro hle
      rw [node_of_size_le hle] at hp
      cases hp
    have hm : y ∈ c.pointing x := by
      rw [pointing, List.mem_filter, List.mem_range]
      simp [hlt, hy, hp]
    rw [List.eq_nil_of_length_eq_zero (hzero x hx).2.2.2.1] at hm
    cases hm
  case unanchored => exact fun x hx => List.count_eq_zero.mp (hzero x hx).2.2.2.2

/-- A node in limbo is not met any more. -/
theorem Reclaims.of_steps {chain : Nat → Chain α} {owners anchors : Nat → List NodeId} {found : Nat → NodeId → Prop}
    (hs : ∀ n, Safe (chain n) (owners n) (anchors n)) (hr : ∀ n, (chain n).retired <+: (chain (n + 1)).retired)
    (hf : ∀ n x, found n x → x ∈ owners n) : Reclaims chain owners anchors found := by
  have hlasting (n k : Nat) : (chain n).retired <+: (chain (n + k)).retired := by
    induction k with
    | zero => exact List.prefix_refl _
    | succ k ih => exact ih.trans (hr (n + k))
  have hunfound (n : Nat) (x : NodeId) (hx : found n x) : x ∉ (chain n).retired :=
    fun hm => (hs n).disowned x hm (hf n x hx)
  -- what is in limbo when the reader sets out is so later
  have hlater {n₀ n : Nat} {x : NodeId} (hn : n₀ ≤ n) (hx : x ∉ (chain n).retired) : x ∉ (chain n₀).retired := by
    have hp := hlasting n₀ (n - n₀)
    rw [Nat.add_sub_cancel' hn] at hp
    exact fun hm => hx (hp.subset hm)
  have hmeets {n₀ n : Nat} {x : NodeId} (h : Meets chain found n₀ n x) : n₀ ≤ n ∧ x ∉ (chain n₀).retired := by
    induction h with
    | enter hn => exact ⟨hn, hlater hn fun hm => (hs _).unlinked _ hm .header⟩
    | find hn hx => exact ⟨hn, hlater hn (hunfound _ _ hx)⟩
    | wait _ ih => exact ⟨Nat.le_succ_of_le ih.1, ih.2⟩
    | forward _ hx hf ih => exact ⟨ih.1, hlater ih.1 fun hm => (hs _).unlinked _ hm (hx.next hf)⟩
    | back _ hb ih =>
      refine ⟨ih.1, hlater ih.1 fun hm => (hs _).unhinted _ hm _ (fun hx => ?_) hb⟩
      rw [((hs _).bare _ hx).2] at hb
      cases hb
  exact ⟨hs, hlasting, hunfound, fun n₀ n x h => (hmeets h).2⟩

/-! ## Sessions with a chain -/

namespace Session

variable {s : Session κ ν}

theorem retired_withNode {name : String} {serve : NodeId → Turn κ ν}
    (hs : ∀ x, s.chain.retired <+: (serve x).1.chain.retired) :
    s.chain.retired <+: (s.withNode name serve).1.chain.retired := by
  unfold withNode
  split
  · exact List.prefix_refl _
  · exact hs _

variable [ToString κ] [ToString ν]

theorem retired_start (r : Request κ ν) (s : Session κ ν) : s.chain.retired <+: (start r s).1.chain.retired := by
  cases r with
  | append name new k v =>
    apply retired_withNode
    intro x
    split
    · exact List.prefix_refl _
    · next hb => exact (retains_beginInsert hb).retired
  | delete name =>
    apply retired_withNode
    intro x
    split <;> exact List.prefix_refl _
  | successor name => exact retired_withNode fun x => (retains_successor s.chain x).retired
  | predecessor name => exact retired_withNode fun x => (retains_predecessor s.chain x).retired
  | forward name => exact retired_withNode fun x => (retains_forward s.chain x).retired
  | back name => exact retired_withNode fun x => (retains_back s.chain x).retired
  | walk name => exact retired_withNode fun x => (retains_walk s.chain x).retired
  | walkBack name => exact retired_withNode fun x => (retains_walkBack s.chain x).retired
  | release name =>
    apply retired_withNode
    intro x
    split
    · exact (retains_release s.chain x).retired
    · exact List.prefix_refl _
  | text name => exact retired_withNode fun x => List.prefix_refl _
  | describe name => exact retired_withNode fun x => List.prefix_refl _
  | pending => exact List.prefix_refl _

omit [ToString κ] [ToString ν] in
theorem retired_resume (stage : Stage κ ν) (s : Session κ ν) :
    s.chain.retired <+: (resume stage s).1.chain.retired := by
  cases stage with
  | inserting x e =>
    have h := retired_finishInsert s.chain x e
    rw [resume]
    split
    · next hf => rwa [hf] at h
    · next hf => rwa [hf] at h
  | cutting cut => exact (retains_finishDelete s.chain cut).retired

/-- A step takes nothing back from the limbo. -/
theorem retired_moment (p : Policy) (script : Interleave.Script (Request κ ν)) (n : Nat) :
    (moment p script n).state.chain.retired <+: (moment p script (n + 1)).state.chain.retired := by
  rcases state_moment p script n with hs | ⟨r, hs⟩ | ⟨stage, hs⟩
  · simp only [hs, List.prefix_refl]
  · rw [hs]
    exact retired_start r _
  · rw [hs]
    exact retired_resume stage _

end Session
end Chain

/-! ## Both kinds of session -/

variable [BEq κ] [EquivBEq κ] [ToString κ] [ToString ν]

/-- **What is retired is out of reach**, at every moment of a session and of all later ones. In a session with a cache a
reader finds nodes by their keys. -/
theorem retired_out_of_reach {p : Policy} {capacity : Option Nat} {s : Cache.Session κ ν}
    (hs : Cache.Session.create p capacity = .ok s) (chainScript : Interleave.Script (Chain.Session.Request κ ν))
    (script : Interleave.Script (Cache.Session.Request κ ν)) :
    Chain.Reclaims (fun n => (Chain.Session.moment p chainScript n).state.chain)
        (fun n => (Chain.Session.moment p chainScript n).state.owned)
        (fun n => (Chain.Session.moment p chainScript n).stages.flatMap Chain.Session.pending) (fun _ _ => False) ∧
      Chain.Reclaims (fun n => (Cache.Session.moment s script n).state.cache.chain)
        (fun n => (Cache.Session.moment s script n).state.cache.index.nodes ++
          (Cache.Session.stagesAt s script n).flatMap Cache.Stage.possessed)
        (fun n => (Cache.Session.stagesAt s script n).flatMap Cache.Stage.anchors)
        (fun n x => ∃ k, (Cache.Session.moment s script n).state.cache.index.find? k = some x) := by
  constructor
  · refine .of_steps (fun n => ?_) (Chain.Session.retired_moment p chainScript) fun n x hx => hx.elim
    exact (Chain.Session.kept_moment p chainScript n).sound.safe (Chain.Session.accounted_moment p chainScript n)
  · refine .of_steps (fun n => ?_) (fun n => ?_) fun n x ⟨k, hx⟩ => ?_
    · have hc := Cache.Session.coherent_moment hs script n
      obtain ⟨order, hsound⟩ := hc.sound
      exact hsound.safe hc.accounted
    · exact (Cache.Session.does_moment hs script n).retired (Cache.Session.coherent_moment hs script n)
    · exact List.mem_append_left _ (Index.mem_nodes_of_lookup hx)

/-- A deletion is interrupted by the release of the node behind, and a `get` by a `set` that displaces the node which the
`get` is about to delete; either way a node is retired while a call is in progress. -/
theorem retired_out_of_reach_nested : ∃ (s : Cache.Session Nat Nat)
    (chainScript : Interleave.Script (Chain.Session.Request Nat Nat))
    (script : Interleave.Script (Cache.Session.Request Nat Nat)),
    Cache.Session.create .deferred (some 1) = .ok s ∧
      (Chain.Session.moment .deferred chainScript 8).stack.length = 1 ∧
      (Chain.Session.moment .deferred chainScript 8).state.chain.retired = [3] ∧
      Chain.Reclaims (fun n => (Chain.Session.moment .deferred chainScript n).state.chain)
        (fun n => (Chain.Session.moment .deferred chainScript n).state.owned)
        (fun n => (Chain.Session.moment .deferred chainScript n).stages.flatMap Chain.Session.pending)
        (fun _ _ => False) ∧
      (Cache.Session.moment s script 12).stack.length = 1 ∧
      (Cache.Session.moment s script 12).state.cache.chain.retired = [2] ∧
      Chain.Reclaims (fun n => (Cache.Session.moment s script n).state.cache.chain)
        (fun n => (Cache.Session.moment s script n).state.cache.index.nodes ++
          (Cache.Session.stagesAt s script n).flatMap Cache.Stage.possessed)
        (fun n => (Cache.Session.stagesAt s script n).flatMap Cache.Stage.anchors)
        (fun n x => ∃ k, (Cache.Session.moment s script n).state.cache.index.find? k = some x) := by
  let s : Cache.Session Nat Nat := ⟨⟨.empty .deferred, .empty, 1, 0, [.created 1]⟩, []⟩
  have hs : Cache.Session.create .deferred (some 1) = .ok s := rfl
  let chainScript : Interleave.Script (Chain.Session.Request Nat Nat) :=
    .call (.append "HEADER" "a" 1 10) .nil (.call (.append "a" "b" 2 20) .nil (.call (.delete "b") .nil
      (.call (.delete "a") (.stop 0 (.call (.release "b") .nil .nil) .nil) .nil)))
  let script : Interleave.Script (Cache.Session.Request Nat Nat) :=
    .call (.set 1 10) .nil (.call (.get 1) (.stop 1 (.call (.set 2 20) .nil .nil) .nil) .nil)
  obtain ⟨hchain, hcache⟩ := retired_out_of_reach hs chainScript script
  exact ⟨s, chainScript, script, hs, by decide +kernel, by decide +kernel, hchain, by decide +kernel,
    by decide +kernel, hcache⟩

end LeastRecent
