import LeastRecent.Chain.Edit
import LeastRecent.Chain.Walk

/-!
# What was retired stays retired

Links may be moved and given back, walks may repair what they come across, and nodes may be deleted: none of this adds a
node or takes one back from the limbo (`Retains`). This holds of every chain, sound or not. An insertion adds one node
at most, and takes none back either (`retired_finishInsert`).
-/

namespace LeastRecent.Chain

variable {α : Type} {c c' c'' : Chain α}

/-- No node was added, and what was retired is so still. -/
structure Retains (c c' : Chain α) : Prop where
  size : c'.size = c.size
  retired : c.retired <+: c'.retired

namespace Retains

theorem refl (c : Chain α) : Retains c c := ⟨rfl, List.prefix_refl _⟩

theorem trans (h : Retains c c') (h' : Retains c' c'') : Retains c c'' :=
  ⟨h'.size.trans h.size, h.retired.trans h'.retired⟩

end Retains

/-! ## Links -/

theorem retains_modify (c : Chain α) (x : NodeId) (f : Node α → Node α) : Retains c (c.modify x f) :=
  ⟨size_modify c x f, List.prefix_refl _⟩

theorem retains_fail (c : Chain α) (f : Fault) : Retains c (c.fail f) := ⟨rfl, List.prefix_refl _⟩

theorem retains_retire (c : Chain α) (x : NodeId) : Retains c (c.retire x) := by
  unfold retire
  split
  · next l hl =>
    refine ⟨rfl, [x], ?_⟩
    exact (Limbo.waiting_of_retire hl).symm
  · exact retains_fail c _

theorem retains_acquire {x : NodeId} (h : c.acquire x = some c') : Retains c c' := by
  unfold acquire at h
  split at h
  · cases h
  · cases h
    exact retains_modify c x _

theorem retains_releaseWithin (fuel : Nat) (c : Chain α) (x : Option NodeId) : Retains c (c.releaseWithin fuel x) := by
  induction fuel generalizing c x with
  | zero => exact Retains.refl c
  | succ fuel ih =>
    cases x with
    | none => exact Retains.refl c
    | some x =>
      unfold releaseWithin
      split
      · exact retains_fail c _
      · exact ((retains_modify c x _).trans (retains_retire _ x)).trans (ih _ _)
      · exact retains_modify c x _

theorem retains_release? (c : Chain α) (x : Option NodeId) : Retains c (c.release? x) := retains_releaseWithin _ c x

theorem retains_release (c : Chain α) (x : NodeId) : Retains c (c.release x) := retains_release? c (some x)

theorem retains_releaseAll (xs : List NodeId) (c : Chain α) : Retains c (c.releaseAll xs) := by
  induction xs generalizing c with
  | nil => exact Retains.refl c
  | cons x xs ih => exact (retains_release c x).trans (ih _)

theorem retains_setHint (c : Chain α) (x p : NodeId) : Retains c (c.setHint x p) := by
  unfold setHint
  split
  · exact Retains.refl c
  · next c₁ h₁ =>
    split
    · exact (retains_acquire h₁).trans (retains_release c₁ x)
    · next c₂ h₂ =>
      apply ((retains_acquire h₁).trans (retains_acquire h₂)).trans
      exact ((retains_modify c₂ x _).trans (retains_release? _ _)).trans (retains_release _ x)

/-! ## Walks -/

theorem retains_bypass (c : Chain α) (x : NodeId) (dead : List NodeId) (f : NodeId) : Retains c (c.bypass x dead f) := by
  have h := (retains_modify c x fun n => { n with next := .node f }).trans (retains_releaseAll dead _)
  unfold bypass
  dsimp only
  split
  · exact h
  · exact h.trans (retains_setHint _ f x)

theorem retains_successor (c : Chain α) (x : NodeId) : Retains c (c.successor x).1 := by
  unfold successor
  split
  · exact Retains.refl c
  · dsimp only
    split
    · exact Retains.refl c
    · exact retains_bypass c x _ _

theorem retains_seek (fuel : Nat) (c : Chain α) (start target : NodeId) : Retains c (seek fuel c start target).1 := by
  induction fuel generalizing c start with
  | zero => exact Retains.refl c
  | succ fuel ih =>
    have h := retains_successor c start
    unfold seek
    split
    · next hs => rwa [hs] at h
    · next hs =>
      rw [hs] at h
      split
      · exact h
      · exact h.trans (ih _ _)

theorem retains_predecessorFrom (fuel : Nat) (c : Chain α) (n target : NodeId) :
    Retains c (predecessorFrom fuel c n target).1 := by
  induction fuel generalizing c n with
  | zero => exact Retains.refl c
  | succ fuel ih =>
    unfold predecessorFrom
    split
    · exact retains_seek _ c header target
    · next b _ =>
      split
      · exact Retains.refl c
      · split
        · exact ih c b
        · have h := retains_seek c.size c b target
          split
          · next hs => rwa [hs] at h
          · next hs =>
            rw [hs] at h
            exact h.trans (ih _ b)

theorem retains_predecessor (c : Chain α) (x : NodeId) : Retains c (c.predecessor x).1 :=
  retains_predecessorFrom _ c x x

theorem retains_forward (c : Chain α) (x : NodeId) : Retains c (c.forward x).1 := retains_successor c x

theorem retains_back (c : Chain α) (x : NodeId) : Retains c (c.back x).1 := retains_predecessor c x

/-- Many steps take back no more than one. -/
theorem retains_iterate {move : Chain α → NodeId → Chain α × Option NodeId} (hm : ∀ c x, Retains c (move c x).1)
    (fuel : Nat) (c : Chain α) (x : NodeId) : Retains c (iterate move fuel c x).1 := by
  induction fuel generalizing c x with
  | zero => exact Retains.refl c
  | succ fuel ih =>
    have h := hm c x
    unfold iterate
    split
    · next hs => rwa [hs] at h
    · next hs =>
      rw [hs] at h
      exact h.trans (ih _ _)

theorem retains_walk (c : Chain α) (x : NodeId) : Retains c (c.walk x).1 := retains_iterate retains_forward _ c x

theorem retains_walkBack (c : Chain α) (x : NodeId) : Retains c (c.walkBack x).1 := retains_iterate retains_back _ c x

/-! ## Insertion and deletion -/

theorem retains_beginInsert {after : NodeId} (h : c.beginInsert after = some c') : Retains c c' := retains_acquire h

theorem retired_finishInsert (c : Chain α) (after : NodeId) (a : α) :
    c.retired <+: (c.finishInsert after a).1.retired := by
  unfold finishInsert
  split
  · next f _ => exact (retains_setHint (c.link after f a) f c.size).retired
  · exact (retains_release c after).retired

theorem retains_unlink (c : Chain α) (b x f : NodeId) : Retains c (c.unlink b x f) := by
  unfold unlink
  split
  · exact ((retains_modify c b _).trans (retains_setHint _ f b)).trans (retains_release _ x)
  · exact Retains.refl c

theorem retains_finishDelete (c : Chain α) (cut : Cut) : Retains c (c.finishDelete cut).1 := by
  unfold finishDelete
  split
  · have h := retains_modify c cut.target fun n => { n with next := .marker cut.after }
    dsimp only
    split
    · exact h.trans (retains_unlink _ _ _ _)
    · exact h
  · exact Retains.refl c

theorem retains_markEvicted (c : Chain α) (x : NodeId) : Retains c (c.markEvicted x) := retains_modify c x _

end LeastRecent.Chain
