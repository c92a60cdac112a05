import LeastRecent.Proofs.Cache.Trace
import LeastRecent.Proofs.Chain.Dismantling

/-!
# Nothing is left of a cache, and nothing goes twice

When no call is in progress a cache can go. The index gives back its links and the chain is taken apart, whereupon all
nodes that were ever put in front are in limbo, each once. So an entry is retired once for its own node and once for
each node that it was promoted to, and it is destroyed once, unless a handle has it (`Cleared`, `closing_clears`).
-/

namespace LeastRecent.Cache.Session

open Interleave (Machine)

variable {κ ν : Type}

/-! ## Each label once -/

theorem mem_lastOfEach {l : Nat} {ls : List Nat} : l ∈ lastOfEach ls ↔ l ∈ ls := by
  induction ls with
  | nil => rfl
  | cons l' ls ih =>
    unfold lastOfEach
    split
    · next hm =>
      rw [ih, List.mem_cons]
      exact ⟨Or.inr, fun h => h.elim (fun he => he ▸ hm) id⟩
    · rw [List.mem_cons, List.mem_cons, ih]

theorem nodup_lastOfEach (ls : List Nat) : (lastOfEach ls).Nodup := by
  induction ls with
  | nil => exact List.nodup_nil
  | cons l ls ih =>
    unfold lastOfEach
    split
    · exact ih
    · next hm => exact List.nodup_cons.mpr ⟨fun h => hm (mem_lastOfEach.mp h), ih⟩

/-! ## Labels of nodes -/

/-- The errand is to promote the entry with label `l`. -/
def promotes (l : Nat) : Errand κ ν → Bool
  | .store _ => false
  | .promote _ e _ => e.label == l

/-- A label is that of new entries put in front and of promotions. -/
theorem count_label (l : Nat) (linkings : List (Errand κ ν)) :
    (linkings.map fun g => g.entry.label).count l =
      ((linkings.filterMap Errand.new?).map Entry.label).count l + (linkings.filter (promotes l)).length := by
  induction linkings with
  | nil => rfl
  | cons g linkings ih =>
    rw [List.map_cons, List.count_cons, ih]
    cases g with
    | store e =>
      have hnew : Errand.new? (.store e) = some e := rfl
      rw [List.filterMap_cons_some hnew, List.map_cons, List.count_cons, List.filter_cons_of_neg Bool.false_ne_true]
      exact Nat.add_right_comm _ _ _
    | promote k e stale =>
      have hnew : Errand.new? (.promote k e stale) = none := rfl
      have hp : promotes l (.promote k e stale) = (e.label == l) := rfl
      rw [List.filterMap_cons_none hnew, List.filter_cons, hp]
      cases hl : e.label == l <;> simp [Errand.entry, hl]
      omega

/-- What the members of a list stand for, by their positions from `start` on. -/
theorem filterMap_range' {α β : Type} {f : Nat → Option β} {g : α → β} (xs : List α) (start : Nat)
    (h : ∀ (i : Nat) (x : α), xs[i]? = some x → f (start + i) = some (g x)) :
    (List.range' start xs.length).filterMap f = xs.map g := by
  induction xs generalizing start with
  | nil => rfl
  | cons x xs ih =>
    have hx : f start = some (g x) := h 0 x rfl
    rw [List.length_cons, List.range'_succ, List.filterMap_cons, hx, List.map_cons, ih (start + 1)]
    intro i y hy
    rw [Nat.add_right_comm, Nat.add_assoc]
    exact h (i + 1) y hy

/-! ## The end -/

/-- The cache went when the entries `created` and the nodes of the errands `linkings` were there. -/
structure Cleared (s : Session κ ν) (created : List (Entry Nat κ ν)) (linkings : List (Errand κ ν)) : Prop where
  /-- No rule was broken. -/
  clean : s.dismantled.fault = none
  /-- What was retired before stays so, and comes first. -/
  earlier : s.cache.chain.retired <+: s.dismantled.retired
  size : s.dismantled.size = linkings.length + 2
  /-- The nodes put in front are those with the numbers from 2 on, and all of them are in limbo, each once. -/
  nodes : s.dismantled.retired.Perm (List.range' 2 linkings.length)
  carried : ∀ i g, linkings[i]? = some g → s.dismantled.carried? (2 + i) = some g.entry
  distinct : (created.map Entry.label).Nodup
  /-- The label of an entry is retired for its own node and for each promotion of it. -/
  labels : ∀ e ∈ created, (s.cache.chain.retiredLabels ++ s.close.retired).count e.label =
    1 + (linkings.filter (promotes e.label)).length
  /-- Each entry is destroyed once, unless somebody has a handle of it. -/
  destroyed : s.close.destroyed.Perm
    ((created.map Entry.label).filter fun l => !(s.handles.map fun h => h.2.label).contains l)

section End

variable [BEq κ] {s : Session κ ν} {created : List (Entry Nat κ ν)} {linkings : List (Errand κ ν)}
  (h : Coherent s.cache.chain s.cache.index.slots []) (t : Traced s.cache [] created linkings)
include h

/-- The chain after the cache went. -/
theorem dismantled_spec : s.dismantled.fault = none ∧ Chain.Sheds s.cache.chain s.dismantled ∧
    s.dismantled.retired.Nodup ∧
    ∀ x, x ∈ s.dismantled.retired ↔ x < s.cache.chain.size ∧ x ≠ Chain.header ∧ x ≠ Chain.trailer := by
  obtain ⟨order, hsound⟩ := h.sound
  rw [List.flatMap_nil, List.append_nil] at hsound
  exact hsound.dismantled

/-- Nobody but a handle has an entry then. -/
theorem kept_dismantled : s.kept s.dismantled = s.handles.map fun h => h.2.label := by
  obtain ⟨-, hsheds, -, hmem⟩ := dismantled_spec h
  obtain ⟨order, hsound⟩ := h.sound
  rw [kept, List.filterMap_eq_nil_iff.mpr, List.append_nil]
  intro x hx
  rw [List.mem_filter, List.mem_range, hsheds.size, Bool.not_eq_true', List.contains_eq_mem, decide_eq_false_iff_not,
    hmem] at hx
  obtain ⟨hlt, hx⟩ := hx
  have hs : x = Chain.header ∨ x = Chain.trailer := by
    by_cases h₀ : x = Chain.header
    · exact Or.inl h₀
    · by_cases h₁ : x = Chain.trailer
      · exact Or.inr h₁
      · exact absurd ⟨hlt, h₀, h₁⟩ hx
  rw [Chain.label?, hsheds.carried]
  have hsent := (hsound.laid.isSentinel_iff ((hsound.laid.mem x).mpr hlt)).mpr hs
  rw [Chain.isSentinel, Node.isSentinel, ← Chain.carried?, Option.isNone_iff_eq_none] at hsent
  rw [hsent]
  rfl

/-- What the session retired and what its end retires is all. -/
theorem retiredLabels_append_close (hr : s.cache.chain.retired <+: s.dismantled.retired) :
    s.cache.chain.retiredLabels ++ s.close.retired = s.dismantled.retiredLabels := by
  obtain ⟨-, hsheds, -⟩ := dismantled_spec h
  have hlabel : s.dismantled.label? = s.cache.chain.label? := by
    funext x
    rw [Chain.label?, Chain.label?, hsheds.carried]
  obtain ⟨later, hlater⟩ := hr
  show _ ++ Chain.retiredSince _ _ = _
  rw [Chain.retiredLabels, Chain.retiredSince, Chain.retiredLabels, ← hlater, List.drop_left, hlabel,
    List.filterMap_append]

include t

/-- Without calls in progress the cache goes without leaving anything. -/
theorem cleared : Cleared s created linkings := by
  obtain ⟨hclean, hsheds, hnd, hmem⟩ := dismantled_spec h
  have hret : s.cache.chain.retired <+: s.dismantled.retired :=
    ((Chain.retains_releaseAll _ _).trans (Chain.retains_dismantle _)).retired
  have hcarried (i : Nat) (g : Errand κ ν) (hg : linkings[i]? = some g) :
      s.dismantled.carried? (2 + i) = some g.entry := by
    rw [hsheds.carried, Nat.add_comm]
    exact t.carried i g hg
  have hnodes : s.dismantled.retired.Perm (List.range' 2 linkings.length) := by
    refine (List.perm_ext_iff_of_nodup hnd List.nodup_range').mpr fun x => ?_
    rw [hmem, t.size, List.mem_range'_1, Nat.add_comm 2]
    constructor
    · rintro ⟨hlt, h₀, h₁⟩
      exact ⟨Nat.lt_of_le_of_ne (Nat.pos_of_ne_zero h₀) (Ne.symm h₁), hlt⟩
    · rintro ⟨hle, hlt⟩
      refine ⟨hlt, ?_, ?_⟩ <;> rintro rfl
      · exact absurd hle (by decide)
      · exact absurd hle (by decide)
  have hlabels : s.dismantled.retiredLabels.Perm (linkings.map fun g => g.entry.label) := by
    have he : (List.range' 2 linkings.length).filterMap s.dismantled.label? = linkings.map fun g => g.entry.label := by
      apply filterMap_range'
      intro i g hg
      rw [Chain.label?, hcarried i g hg]
      rfl
    rw [← he]
    exact hnodes.filterMap _
  have hstores : created.Perm (linkings.filterMap Errand.new?) := by
    have hp := t.stores
    rwa [List.flatMap_nil, List.append_nil] at hp
  have hdistinct : (created.map Entry.label).Nodup := by
    rw [t.labels]
    exact List.nodup_range
  refine ⟨hclean, hret, hsheds.size.trans t.size, hnodes, hcarried, hdistinct, fun e he => ?_, ?_⟩
  · rw [retiredLabels_append_close h hret, hlabels.count_eq, count_label, ← (hstores.map _).count_eq,
      hdistinct.count, if_pos (List.mem_map_of_mem he)]
  · have hlisted (p : Policy) (xs : List Nat) : (p.listed (fun a b => decide (a ≤ b)) xs).Perm xs := by
      cases p with
      | deferred => exact List.Perm.refl _
      | epoch => exact List.mergeSort_perm _ _
    refine (hlisted _ _).trans ?_
    rw [kept_dismantled h]
    refine (List.perm_ext_iff_of_nodup ((nodup_lastOfEach _).filter _) (hdistinct.filter _)).mpr fun l => ?_
    rw [List.mem_filter, List.mem_filter, mem_lastOfEach, hlabels.mem_iff]
    refine and_congr_left fun _ => ⟨fun hl => ?_, fun hl => ?_⟩
    · obtain ⟨g, hg, rfl⟩ := List.mem_map.mp hl
      exact List.mem_map_of_mem (t.known g hg)
    · rw [(hstores.map _).mem_iff] at hl
      obtain ⟨e, he, rfl⟩ := List.mem_map.mp hl
      obtain ⟨g, hg, hge⟩ := List.mem_filterMap.mp he
      refine List.mem_map.mpr ⟨g, hg, ?_⟩
      cases g with
      | store e' =>
        cases hge
        rfl
      | promote k e' stale => cases hge

end End

variable [BEq κ] [EquivBEq κ] [ToString κ] [ToString ν]

/-- **Nothing is left and nothing goes twice** when the cache goes, whenever no call is in progress. -/
theorem closing_clears {p : Policy} {capacity : Option Nat} {s : Session κ ν} (hs : create p capacity = .ok s)
    (script : Interleave.Script (Request κ ν)) (n : Nat) (hidle : (moment s script n).stack = []) :
    Cleared (moment s script n).state (created s script n) (linkings s script n) := by
  have hstages : stagesAt s script n = [] := by
    rw [stagesAt, Machine.stages, hidle]
    rfl
  have hc := coherent_moment hs script n
  have ht := traced_moment hs script n
  rw [hstages] at hc ht
  exact cleared hc ht

/-- A promotion is lost, since the key is stored again before the fresh node is in the index, and another one is won; the
entry stored first is kept by a handle. -/
theorem closing_clears_promoted : ∃ (s : Session Nat Nat) (script : Interleave.Script (Request Nat Nat)),
    create .epoch (some 1) = .ok s ∧ (moment s script 30).stack = [] ∧ (created s script 30).length = 2 ∧
      (linkings s script 30).length = 4 ∧
      Cleared (moment s script 30).state (created s script 30) (linkings s script 30) := by
  let s : Session Nat Nat := ⟨⟨.empty .epoch, .empty, 1, 0, [.created 1]⟩, []⟩
  have hs : create .epoch (some 1) = .ok s := rfl
  let script : Interleave.Script (Request Nat Nat) :=
    .call (.set 1 10) .nil (.call (.getEntry 1 (some "kept"))
      (.stop 3 (.call (.set 1 11) .nil .nil) .nil) (.call (.get 1) .nil .nil))
  have hidle : (moment s script 30).stack = [] := List.eq_nil_of_length_eq_zero (by decide +kernel)
  exact ⟨s, script, hs, hidle, by decide +kernel, by decide +kernel, closing_clears hs script 30 hidle⟩

end LeastRecent.Cache.Session
