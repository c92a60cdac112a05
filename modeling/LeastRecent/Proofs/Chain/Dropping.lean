import LeastRecent.Proofs.Chain.Dismantling
import LeastRecent.Proofs.Chain.Owners

/-!
# What owners keep when a chain goes

In a session with a chain there may be owners left when the chain is taken apart. A node is kept then just if hints lead
back to it from a node that is owned, and these are the hints of the chain as it was, since a node that is kept does not
lose its hint (`Sound.leadsBack_dismantle`). All other entries are in limbo, each once. Of these a node that was live has
forgotten its successor, and a deleted one has the marker that it had (`Sound.next_dismantle`), so that none has a pointer
at another node (`Dropped`, `close_keeps_owned`).
-/

namespace LeastRecent.Chain

variable {α : Type} {c c' : Chain α} {order held linked owners xs : List NodeId} {x y f : NodeId}

/-- The nodes that are parted with are entries, each once. -/
theorem Sound.dismantle_eq (h : Sound c order held) : ∃ xs, c.spine = header :: (xs ++ [trailer]) ∧ xs.Nodup ∧
    (∀ x ∈ xs, x < c.size ∧ x ≠ header ∧ x ≠ trailer) ∧
    c.dismantle = (xs.foldl part c).untie := by
  obtain ⟨linked, j, -⟩ := h.counted
  obtain ⟨xs, hspine, hperm, he⟩ := h.laid.dismantle_eq j
  obtain ⟨hxs, -, hdisjoint⟩ := List.nodup_append.mp (hperm.nodup_iff.mp j.nodup)
  refine ⟨xs, hspine, hxs, fun x hx => ⟨?_, ?_, ?_⟩, he⟩
  · exact (h.laid.mem x).mp (j.mem x (hperm.mem_iff.mpr (List.mem_append_left _ hx)))
  · exact hdisjoint x hx header (by simp)
  · exact hdisjoint x hx trailer (by simp)

/-! ## Pointers -/

theorem next_foldl_part (hn : xs.Nodup) (y : NodeId) :
    ((xs.foldl part c).node y).next = if y ∈ xs ∧ c.isDeleted y = false then .nothing else (c.node y).next := by
  induction xs generalizing c with
  | nil => simp
  | cons x xs ih =>
    obtain ⟨hx, hn⟩ := List.nodup_cons.mp hn
    rw [List.foldl_cons, ih hn, isDeleted, Node.isDeleted, next_part, isDeleted, Node.isDeleted, isDeleted,
      Node.isDeleted]
    grind

/-- A live entry forgets its successor, and all other pointers and markers stay as they are. -/
theorem Sound.next_dismantle (h : Sound c order held) (hx : x < c.size) :
    (c.dismantle.node x).next =
      if x ≠ header ∧ x ≠ trailer ∧ c.isDeleted x = false then .nothing else (c.node x).next := by
  obtain ⟨xs, hspine, hn, hxs, he⟩ := h.dismantle_eq
  have hframe : (c.dismantle.node x).next = ((xs.foldl part c).node x).next := by
    rw [he, untie, (loosens_release? _ _).next]
    exact frame_modify Node.next trailer x fun _ => rfl
  rw [hframe, next_foldl_part hn]
  obtain ⟨linked, j, -⟩ := h.counted
  have hlive (hl : c.isDeleted x = false) : x = header ∨ x ∈ xs ∨ x = trailer := by
    have hm : x ∈ c.spine := (j.mem_spine h.laid).mpr (j.live x ((h.laid.mem x).mpr hx) hl)
    rw [hspine] at hm
    simpa using hm
  have hentry (hm : x ∈ xs) := hxs x hm
  grind

/-! ## Hints -/

section Hints

variable (h : Sound c order owners) (hs : ∀ x ∈ owners, x ≠ trailer)
include h hs

/-- Hints lead back from an owned node as they do when the chain was taken apart. -/
theorem Sound.leadsBack_dismantle {o : NodeId} (ho : o ∈ owners) :
    LeadsBack c.dismantle o x ↔ LeadsBack c o x := by
  obtain ⟨linked, j, hc⟩ := h.counted
  obtain ⟨hd, s⟩ := hc.dismantle h.laid j
  have hr := h.laid.ranked.sheds s
  constructor
  · intro hback
    induction hback with
    | refl => exact .refl
    | hint _ hb ih => exact ih.hint (s.hint _ _ hb)
  · intro hback
    -- whatever is met on the way is kept, is not the trailer, and hence has a hint still
    have hkept : LeadsBack c.dismantle o x ∧ x ≠ trailer ∧ (c.dismantle.node x).links ≠ 0 := by
      induction hback with
      | refl => exact ⟨.refl, hs o ho, hd.links_ne_zero (List.mem_append_right _ ho)⟩
      | @hint x b _ hb ih =>
        obtain ⟨hback, hne, hlinks⟩ := ih
        obtain ⟨hbm, hlt⟩ := h.laid.hint x b hb
        have hx : x < c.size := lt_size_of_prev hb
        have hx₀ : x ≠ header := h.laid.ne_header hlt
        have hprev : (c.dismantle.node x).prev ≠ none := by
          rw [Ne, hd.unhinted x (by rw [s.size]; exact hx)]
          simp [hne, hx₀, hlinks]
        obtain ⟨b', hb'⟩ := Option.ne_none_iff_exists'.mp hprev
        obtain rfl : b' = b := Option.some.inj ((s.hint x b' hb').symm.trans hb)
        have hbt : b' ≠ trailer := by
          rintro rfl
          have := h.laid.idxOf_lt_trailer ((h.laid.mem x).mpr hx) hne
          omega
        exact ⟨hback.hint hb', hbt, hd.links_of_hint hr hb'⟩
    exact hkept.1

end Hints

/-! ## All that is left -/

/-- The chain `d` is left when `c` was taken apart and others own the nodes `owners`. -/
structure Dropped (c d : Chain α) (owners : List NodeId) : Prop where
  /-- No rule was broken. -/
  clean : d.fault = none
  /-- What was retired before stays so, and comes first. -/
  earlier : c.retired <+: d.retired
  /-- No node is retired twice, and no sentinel is. -/
  once : d.retired.Nodup
  entries : ∀ x ∈ d.retired, x < c.size ∧ x ≠ header ∧ x ≠ trailer
  /-- Kept is what is owned, and what hints lead back to from there. -/
  kept : ∀ x < c.size, x ≠ header → x ≠ trailer → (x ∉ d.retired ↔ ∃ o ∈ owners, LeadsBack c o x)
  /-- A live entry has forgotten its successor. -/
  forgotten : ∀ x < c.size, x ≠ header → x ≠ trailer → c.isDeleted x = false → (d.node x).next = .nothing
  /-- A deleted node has its own marker still. -/
  marked : ∀ x f, (c.node x).next = .marker f → (d.node x).next = .marker f
  /-- So what was retired has no pointer at another node. -/
  apart : ∀ x ∈ d.retired, ∀ f, (d.node x).next ≠ .node f

theorem Sound.dropped (h : Sound c order owners) (hs : ∀ x ∈ owners, x ≠ trailer) : Dropped c c.dismantle owners := by
  obtain ⟨linked, j, hc⟩ := h.counted
  obtain ⟨hd, s⟩ := hc.dismantle h.laid j
  have hr := h.laid.ranked.sheds s
  have hentries (x : NodeId) (hx : x ∈ c.dismantle.retired) : x < c.size ∧ x ≠ header ∧ x ≠ trailer := by
    obtain ⟨hlt, h₀⟩ := (hd.retired x).mp hx
    rw [s.size] at hlt
    refine ⟨hlt, ?_, ?_⟩ <;> rintro rfl
    · exact hd.links_ne_zero (by simp) h₀
    · exact hd.links_ne_zero (by simp) h₀
  refine ⟨hd.clean, (retains_dismantle c).retired, hd.nodup, hentries, fun x hx h₀ h₁ => ?_, fun x hx h₀ h₁ hl => ?_,
    fun x f hf => ?_, fun x hx f hf => ?_⟩
  · have hlt : x < c.dismantle.size := by rw [s.size]; exact hx
    have hkept := hd.links_ne_zero_iff hr hlt (by simp [h₀, h₁])
    rw [hd.retired, and_iff_right hlt, ← Ne, hkept]
    exact exists_congr fun o => and_congr_right fun ho => h.leadsBack_dismantle hs ho
  · rw [h.next_dismantle hx, if_pos ⟨h₀, h₁, hl⟩]
  · have hdel : c.isDeleted x = true := by rw [isDeleted, Node.isDeleted, hf]; rfl
    have hx : x < c.size := lt_size_of_deleted hdel
    rw [h.next_dismantle hx, hdel, if_neg (by simp), hf]
  · obtain ⟨hlt, h₀, h₁⟩ := hentries x hx
    rw [h.next_dismantle hlt] at hf
    split at hf
    · cases hf
    · next hd =>
      exact hd ⟨h₀, h₁, isDeleted_of_next hf⟩

namespace Session

open Interleave (Machine)

variable {κ ν : Type} [ToString κ] [ToString ν]

/-- **When a chain goes, just what owners need is kept**, whatever happened before. -/
theorem close_keeps_owned (p : Policy) (script : Interleave.Script (Request κ ν)) (n : Nat)
    (hidle : (moment p script n).stack = []) :
    Dropped (moment p script n).state.chain (moment p script n).state.chain.dismantle (moment p script n).state.owned := by
  have hs := (kept_moment p script n).sound
  have hnone : (moment p script n).stages = [] := by rw [Machine.stages, hidle]; rfl
  rw [hnone, List.flatMap_nil, List.append_nil] at hs
  exact hs.dropped fun x hx => ((owning_moment p script n).entries x hx).2

/-- A deletion is interrupted by that of the node before, and so its node stays linked. When the chain goes only the node
behind is owned still; its hint keeps the deleted one. -/
theorem close_keeps_owned_hinted : ∃ script : Interleave.Script (Request Nat Nat),
    (moment .deferred script 24).stack = [] ∧ (moment .deferred script 24).state.owned = [4] ∧
      3 ∈ (moment .deferred script 24).state.chain.spine ∧ (moment .deferred script 24).state.chain.isDeleted 3 = true ∧
      (moment .deferred script 24).state.chain.dismantle.retired = [2, 5] ∧
      Dropped (moment .deferred script 24).state.chain (moment .deferred script 24).state.chain.dismantle
        (moment .deferred script 24).state.owned := by
  let script : Interleave.Script (Request Nat Nat) :=
    .call (.append "HEADER" "a" 1 10) .nil (.call (.append "a" "b" 2 20) .nil (.call (.append "b" "c" 3 30) .nil
      (.call (.append "c" "d" 4 40) .nil (.call (.delete "b") (.stop 0 (.call (.delete "a") .nil .nil) .nil)
        (.call (.release "a") .nil (.call (.release "b") .nil (.call (.release "d") .nil .nil)))))))
  have hidle : (moment .deferred script 24).stack = [] := List.eq_nil_of_length_eq_zero (by decide +kernel)
  exact ⟨script, hidle, by decide +kernel, by decide +kernel, by decide +kernel, by decide +kernel,
    close_keeps_owned .deferred script 24 hidle⟩

end Session
end LeastRecent.Chain
