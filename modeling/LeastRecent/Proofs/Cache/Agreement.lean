import LeastRecent.Proofs.Cache.Kept
import LeastRecent.Proofs.Chain.Recent

/-!
# Index and list agree

While `n` calls are in progress, at most `n` nodes of the index are deleted, and at most `n` live nodes of the list are
not in the index (`Agrees`): each call in progress answers for one node of the former kind and owns one of the latter
kind at most. While none is in progress, index and list match exactly (`Matches`).

`index_agrees` says so of every moment of every session.
-/

namespace LeastRecent.Cache

open Interleave (Machine)

variable {κ ν : Type}

/-- The nodes of the index that are deleted. -/
def danglings (c : Cache κ ν) : List NodeId := c.index.nodes.filter fun x => c.chain.isDeleted x

/-- The live nodes that the index does not have. -/
def unindexed (c : Cache κ ν) : List NodeId := c.chain.recent.filter fun x => !decide (x ∈ c.index.nodes)

variable [BEq κ]

/-- Index and list agree, up to one node for each of `n` calls. -/
structure Agrees (c : Cache κ ν) (n : Nat) : Prop where
  keyed : ∀ k x, c.index.find? k = some x → ∃ e, c.chain.carried? x = some e ∧ (k == e.key) = true
  dangling : c.danglings.length ≤ n
  unindexed : c.unindexed.length ≤ n

/-- The nodes of the index are the live nodes of the list, each found under the key of its entry, which no other has. -/
structure Matches (c : Cache κ ν) : Prop where
  nodes : ∀ x, x ∈ c.index.nodes ↔ x ∈ c.chain.recent
  found : ∀ x ∈ c.chain.recent, ∃ e, c.chain.carried? x = some e ∧ c.index.find? e.key = some x
  keys : (c.chain.recent.filterMap c.chain.carried?).Pairwise fun e e' => (e.key == e'.key) = false
  size : c.chain.recent.length = c.size

/-! ## Calls in progress -/

section Counts

variable {capacity : Nat} {c : Cache κ ν} {stages : List (Stage κ ν)}

/-- A list without repetition whose members are all the same has one member at most. -/
theorem length_le_one {xs : List NodeId} (hn : xs.Nodup) (h : ∀ x ∈ xs, ∀ y ∈ xs, x = y) : xs.length ≤ 1 := by
  cases xs with
  | nil => exact Nat.zero_le _
  | cons x xs =>
    cases xs with
    | nil => exact Nat.le_refl _
    | cons y ys =>
      have hxy : x = y := h x List.mem_cons_self y (List.mem_cons_of_mem _ List.mem_cons_self)
      rw [hxy] at hn
      exact absurd List.mem_cons_self (List.nodup_cons.mp hn).1

omit [BEq κ] in
/-- Each call owns one node at most. -/
theorem length_possessed_le (stages : List (Stage κ ν)) : (stages.flatMap Stage.possessed).length ≤ stages.length := by
  induction stages with
  | nil => exact Nat.le_refl _
  | cons st stages ih =>
    have := st.length_possessed
    rw [List.flatMap_cons, List.length_append, List.length_cons]
    omega

/-- Each live node that is not in the index is owned by a call. -/
theorem unindexed_le (h : Coherent c.chain c.index.slots stages) :
    c.unindexed.length ≤ stages.length := by
  refine Nat.le_trans ?_ (length_possessed_le stages)
  apply List.Nodup.length_le_of_subset (h.nodup_recent.filter _)
  intro x hx
  obtain ⟨hlive, hm⟩ := List.mem_filter.mp hx
  obtain ⟨hd, hs⟩ := h.mem_recent.mp hlive
  exact h.possessed_of_live hd hs (of_decide_eq_false ((Bool.not_eq_true' _).mp hm))

omit [BEq κ] in
theorem mem_danglings {x : NodeId} : x ∈ c.danglings ↔ Dangling c x := List.mem_filter

/-- Each deleted node of the index is answered for by a call. -/
theorem dangling_le [EquivBEq κ] : ∀ (calls : List (Cache κ ν × Stage κ ν)) {c : Cache κ ν}, Kept capacity c calls →
    c.danglings.length ≤ calls.length
  | [], c, h => by
    have hnone : c.danglings = [] := by
      rw [danglings, List.filter_eq_nil_iff]
      intro x hx hd
      exact h.1.settled x ⟨hx, hd⟩
    rw [hnone]
    exact Nat.le_refl _
  | (c₀, st) :: calls, c, h => by
    obtain ⟨hc, hs, hrest⟩ := h
    have ih := dangling_le calls hrest
    have hn : c.danglings.Nodup := hc.nodup.filter _
    -- those that were dangling when the call started, and those that it answers for
    have hsplit := (List.filter_append_perm (fun x => decide (x ∈ c₀.danglings)) c.danglings).length_eq
    have hold : (c.danglings.filter fun x => decide (x ∈ c₀.danglings)).length ≤ c₀.danglings.length := by
      apply List.Nodup.length_le_of_subset (hn.filter _)
      intro x hx
      exact of_decide_eq_true (List.mem_filter.mp hx).2
    have hanswers (x : NodeId) (hx : x ∈ c.danglings.filter fun x => !decide (x ∈ c₀.danglings)) :
        x ∈ c.index.nodes ∧ st.Answers c.chain x := by
      obtain ⟨hx, hnot⟩ := List.mem_filter.mp hx
      have hd := mem_danglings.mp hx
      rcases hs.dangling x hd with h₀ | h₀
      · rw [decide_eq_true (mem_danglings.mpr h₀)] at hnot
        cases hnot
      · exact ⟨hd.1, h₀⟩
    have hnew : (c.danglings.filter fun x => !decide (x ∈ c₀.danglings)).length ≤ 1 := by
      apply length_le_one (hn.filter _)
      intro x hx y hy
      obtain ⟨hxm, hxa⟩ := hanswers x hx
      obtain ⟨hym, hya⟩ := hanswers y hy
      exact Stage.Answers.unique hc.filed hxm hym hxa hya
    rw [List.length_append] at hsplit
    rw [List.length_cons]
    omega

end Counts

/-! ## No call in progress -/

/-- Without calls the live nodes are those of the index. -/
theorem Quiet.matches [EquivBEq κ] {c : Cache κ ν} (h : Quiet c) : Matches c := by
  obtain ⟨hc, hd⟩ := h
  have hnodes (x : NodeId) : x ∈ c.index.nodes ↔ x ∈ c.chain.recent := by
    rw [hc.mem_recent]
    constructor
    · intro hx
      obtain ⟨s, hs, rfl⟩ := List.mem_map.mp hx
      refine ⟨?_, (hc.filed.keyed s hs).not_isSentinel⟩
      cases hdel : c.chain.isDeleted s.2 with
      | false => rfl
      | true => exact absurd ⟨hx, hdel⟩ (hd s.2)
    · rintro ⟨hl, hs⟩
      have hm := hc.custody.cover x hl hs
      rw [List.flatMap_nil, List.append_nil] at hm
      exact hm
  have hfound (x : NodeId) (hx : x ∈ c.chain.recent) :
      ∃ e, c.chain.carried? x = some e ∧ c.index.find? e.key = some x := by
    obtain ⟨s, hs, he⟩ := List.mem_map.mp ((hnodes x).mpr hx)
    obtain ⟨e, hcar, -⟩ := hc.filed.keyed s hs
    rw [he] at hcar
    exact ⟨e, hcar, hc.filed.lookup_of_bears ((hnodes x).mpr hx) ⟨e, hcar, BEq.rfl⟩⟩
  refine ⟨hnodes, hfound, ?_, ?_⟩
  · rw [List.pairwise_filterMap]
    refine hc.nodup_recent.imp_of_mem fun {x y} hx hy hne e he e' he' => ?_
    cases hk : e.key == e'.key with
    | false => rfl
    | true =>
      exact absurd (hc.filed.unique ((hnodes x).mpr hx) ((hnodes y).mpr hy) ⟨e, he, BEq.rfl⟩
        ⟨e', he', hk⟩) hne
  · have hperm : c.chain.recent.Perm c.index.nodes :=
      (List.perm_ext_iff_of_nodup hc.nodup_recent hc.nodup).mpr fun x => (hnodes x).symm
    rw [hperm.length_eq, Index.length_nodes]
    rfl

/-! ## Sessions -/

namespace Session

variable [ToString κ] [ToString ν] [EquivBEq κ]

/-- **Index and list agree at every moment**, up to one node for each call in progress; they match while there is
none. -/
theorem index_agrees {p : Policy} {capacity : Option Nat} {s : Session κ ν} (hs : create p capacity = .ok s)
    (script : Interleave.Script (Request κ ν)) (n : Nat) :
    Agrees (moment s script n).state.cache (moment s script n).stack.length ∧
      ((moment s script n).stack = [] → Matches (moment s script n).state.cache) := by
  obtain ⟨inProgress, h, hst⟩ := kept_moment hs script n
  have hlen : (calls inProgress).length = (moment s script n).stack.length := by
    rw [calls, List.length_map, ← List.length_map (f := Prod.snd), hst, Machine.stages, List.length_map]
  have hc := h.1.coherent
  have hunindexed := unindexed_le hc
  have hdangling := dangling_le _ h.1
  rw [List.length_map, hlen] at hunindexed
  rw [hlen] at hdangling
  refine ⟨⟨fun k x hf => hc.filed.bears_of_lookup hf, hdangling, hunindexed⟩, fun hnil => ?_⟩
  rw [hnil] at hlen
  have hcalls : calls inProgress = [] := List.eq_nil_of_length_eq_zero hlen
  have hk := h.1
  rw [hcalls] at hk
  exact hk.1.matches

/-- A `get` is interrupted by a `set` that is in the middle of putting its node in front; in the end both are over. -/
theorem index_agrees_interrupted : ∃ (s : Session Nat Nat) (script : Interleave.Script (Request Nat Nat)),
    create .deferred (some 1) = .ok s ∧ (moment s script 9).stack.length = 2 ∧
      Agrees (moment s script 9).state.cache 2 ∧ (moment s script 20).stack = [] ∧ Matches (moment s script 20).state.cache := by
  let s : Session Nat Nat := ⟨⟨.empty .deferred, .empty, 1, 0, [.created 1]⟩, []⟩
  have hs : create .deferred (some 1) = .ok s := rfl
  let script : Interleave.Script (Request Nat Nat) :=
    .call (.set 1 10) .nil (.call (.get 1) (.stop 1 (.call (.set 2 20) .nil .nil) .nil) .nil)
  have hend : (moment s script 20).stack = [] := List.eq_nil_of_length_eq_zero (by decide +kernel)
  refine ⟨s, script, hs, by decide +kernel, ?_, hend, (index_agrees hs script 20).2 hend⟩
  have hlen : (moment s script 9).stack.length = 2 := by decide +kernel
  rw [← hlen]
  exact (index_agrees hs script 9).1

end Session

end LeastRecent.Cache
