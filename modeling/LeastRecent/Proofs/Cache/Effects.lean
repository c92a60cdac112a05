import LeastRecent.Proofs.Cache.Advance
import LeastRecent.Proofs.Chain.Lasting

/-!
# What a stretch of work touches

A suspended call that goes on changes the index at four of its stages only, and there in one slot (`Stage.reindex`). It
labels no entry, takes no node back from the limbo, and adds no node unless it was in the middle of putting one in front
(`Leaves`, `leaves_resume`, `retired_resume`).
-/

namespace LeastRecent.Cache

open Chain (Retains)

variable {κ ν : Type} {c c' c'' : Cache κ ν} {i : Index κ NodeId} {x : NodeId} {k : κ} {e : Entry Nat κ ν}
  {r : Reply κ ν}

/-- From `c` to `c'` the index became `i`; no node was added or taken back from the limbo, and no entry was labelled. -/
structure Leaves (c : Cache κ ν) (i : Index κ NodeId) (c' : Cache κ ν) : Prop where
  chain : Retains c.chain c'.chain
  index : c'.index = i
  serial : c'.serial = c.serial

namespace Leaves

theorem refl (c : Cache κ ν) : Leaves c c.index c := ⟨Retains.refl _, rfl, rfl⟩

theorem trans (h : Leaves c i c') (h' : Leaves c' c'.index c'') : Leaves c i c'' :=
  ⟨h.chain.trans h'.chain, h'.index.trans h.index, h'.serial.trans h.serial⟩

end Leaves

/-! ## The chain alone -/

theorem leaves_chain {ch : Chain (Entry Nat κ ν)} (h : Retains c.chain ch) : Leaves c c.index { c with chain := ch } :=
  ⟨h, rfl, rfl⟩

theorem leaves_release (c : Cache κ ν) (x : NodeId) : Leaves c c.index (c.release x) :=
  leaves_chain (Chain.retains_release _ x)

theorem leaves_note (c : Cache κ ν) (n : Notice) : Leaves c c.index (c.note n) := ⟨Retains.refl _, rfl, rfl⟩

theorem leaves_finishDelete (c : Cache κ ν) (cut : Chain.Cut) :
    Leaves c c.index { c with chain := (c.chain.finishDelete cut).1 } :=
  leaves_chain (Chain.retains_finishDelete _ cut)

theorem leaves_evict (c : Cache κ ν) (r : Reply κ ν) : Leaves c c.index (c.evict r).1 := by
  have hb := Chain.retains_back c.chain Chain.trailer
  unfold evict
  split
  · exact Leaves.refl c
  · split
    · next heq =>
      rw [heq] at hb
      exact (leaves_chain hb).trans (leaves_note _ _)
    · next heq =>
      rw [heq] at hb
      split <;> exact leaves_chain hb

theorem leaves_settle (c : Cache κ ν) (k : κ) (fresh : NodeId) (r : Reply κ ν) :
    Leaves c c.index (c.settle k fresh r).1 := by
  unfold settle
  split
  · exact Leaves.refl c
  · exact leaves_evict c r

theorem leaves_discard (c : Cache κ ν) (x : NodeId) (next : Sequel κ ν) : Leaves c c.index (c.discard x next).1 := by
  unfold discard
  split
  · apply (leaves_release c x).trans
    cases next with
    | settle k fresh r => exact leaves_settle _ k fresh r
    | finish r => exact Leaves.refl _
  · split <;> exact Leaves.refl c

theorem leaves_push (c : Cache κ ν) (g : Errand κ ν) : Leaves c c.index (c.push g).1 := by
  unfold push
  split
  · exact Leaves.refl c
  · next hb => exact leaves_chain (Chain.retains_beginInsert hb)

theorem leaves_lose (c : Cache κ ν) (k : κ) (e : Entry Nat κ ν) (x : NodeId) : Leaves c c.index (c.lose k e x).1 := by
  unfold lose
  split <;> exact Leaves.refl c

theorem leaves_withdraw (c : Cache κ ν) (k : κ) (e : Entry Nat κ ν) (x : NodeId) :
    Leaves c c.index (c.withdraw k e x).1 := by
  unfold withdraw
  split
  · exact leaves_lose c k e x
  · exact Leaves.refl c

/-! ## The index -/

section Index

variable [BEq κ]

/-- The index after a call went on from a stage. -/
def Stage.reindex (i : Index κ NodeId) : Stage κ ν → Index κ NodeId
  | .publish e fresh => (i.publish e.key fresh).1
  | .replace k _ stale fresh => (i.replace k stale fresh).1
  | .settle k x _ | .purge k x _ => (i.removeIf k x).1
  | _ => i

omit [BEq κ] in
theorem leaves_index (c : Cache κ ν) (i : Index κ NodeId) : Leaves c i { c with index := i } :=
  ⟨Retains.refl _, rfl, rfl⟩

theorem leaves_publish (e : Entry Nat κ ν) (fresh : NodeId) (c : Cache κ ν) :
    Leaves c (c.index.publish e.key fresh).1 (resume (.publish e fresh) c).1 := by
  rw [resume]
  split
  · next heq =>
    rw [heq]
    exact (leaves_index c _).trans (leaves_settle _ _ _ _)
  · next heq =>
    rw [heq]
    exact (leaves_index c _).trans (leaves_discard _ _ _)

theorem leaves_replace (k : κ) (e : Entry Nat κ ν) (stale fresh : NodeId) (c : Cache κ ν) :
    Leaves c (c.index.replace k stale fresh).1 (resume (.replace k e stale fresh) c).1 := by
  rw [resume, Index.replace]
  split
  · exact ((leaves_index c _).trans (leaves_release _ stale)).trans (leaves_settle _ _ _ _)
  · exact leaves_discard c fresh _

theorem leaves_removal (k : κ) (x : NodeId) (r : Reply κ ν) (c : Cache κ ν) :
    Leaves c (c.index.removeIf k x).1 (resume (.settle k x r) c).1 ∧
      Leaves c (c.index.removeIf k x).1 (resume (.purge k x r) c).1 := by
  simp only [resume, Index.removeIf]
  by_cases hf : c.index.find? k = some x
  · have h := (leaves_index c ⟨Index.erase k c.index.slots⟩).trans (leaves_release _ x)
    simp only [if_pos hf]
    exact ⟨h.trans (leaves_evict _ r), (h.trans (leaves_note _ _)).trans (leaves_evict _ r)⟩
  · simp only [if_neg hf]
    exact ⟨leaves_evict c r, leaves_evict c r⟩

/-! ## Stages -/

/-- **A call that goes on** touches one slot of the index at most, and adds no node unless it is the one that it was
putting in front. -/
theorem leaves_resume {st : Stage κ ν} (hst : ∀ g, st ≠ .front g) (c : Cache κ ν) :
    Leaves c (st.reindex c.index) (resume st c).1 := by
  cases st with
  | find e =>
    rw [resume]
    split
    · exact leaves_push c _
    · exact Leaves.refl c
  | displace e cut => exact (leaves_finishDelete c cut).trans (leaves_push _ _)
  | fetch k =>
    rw [resume]
    split
    · exact Leaves.refl c
    · split
      · exact Leaves.refl c
      · exact leaves_withdraw c _ _ _
  | withdraw k e cut =>
    have hd := leaves_finishDelete c cut
    rw [resume]
    split
    · next heq =>
      rw [heq] at hd
      exact hd.trans (leaves_push _ _)
    · next heq =>
      rw [heq] at hd
      exact hd.trans (leaves_lose _ _ _ _)
  | recheck k e x =>
    rw [resume]
    split
    · exact leaves_withdraw c _ _ _
    · exact Leaves.refl c
  | push g => exact leaves_push c g
  | front g => exact absurd rfl (hst g)
  | publish e fresh => exact leaves_publish e fresh c
  | replace k e stale fresh => exact leaves_replace k e stale fresh c
  | discard x next => exact leaves_discard c x next
  | discarding cut next => exact (leaves_finishDelete c cut).trans (leaves_discard _ _ _)
  | settle k x r => exact (leaves_removal k x r c).1
  | evict r => exact leaves_evict c r
  | evicting cut r =>
    have hd := leaves_finishDelete c cut
    rw [resume]
    split
    · next heq =>
      rw [heq] at hd
      exact hd.trans (leaves_evict _ _)
    · next heq =>
      rw [heq] at hd
      have hm := hd.trans (leaves_chain (Chain.retains_markEvicted _ cut.target))
      dsimp only
      split
      · exact hm.trans (leaves_evict _ _)
      · exact hm
  | purge k x r => exact (leaves_removal k x r c).2
  | probe k => exact Leaves.refl c

end Index

end LeastRecent.Cache
