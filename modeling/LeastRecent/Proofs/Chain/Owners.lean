import LeastRecent.Proofs.Chain.Refinement
import LeastRecent.Proofs.Chain.Spine

/-!
# Who owns the nodes of a session with a chain

A session owns a node from its insertion until the link is given back. A request can only take nodes from those that are
owned (`owned_start`), and the node that a suspended insertion adds is a new one (`owned_resume`). So no node is owned
twice and no sentinel at all (`Owning`), and at every moment all links are accounted for (`accounted_moment`).
-/

namespace LeastRecent.Chain

variable {α : Type} {c c' : Chain α}

/-- An insertion that succeeds gives the new node the next number. -/
theorem eq_size_of_finishInsert {after y : NodeId} {a : α} (h : c.finishInsert after a = (c', some y)) : y = c.size := by
  unfold finishInsert at h
  split at h
  · cases h
    rfl
  · cases h

namespace Session

open Interleave (Machine)

variable {κ ν : Type} {s : Session κ ν}

/-- No node is owned twice, and no sentinel is owned. -/
structure Owning (s : Session κ ν) : Prop where
  once : s.owned.Nodup
  entries : ∀ x ∈ s.owned, x ≠ header ∧ x ≠ trailer

/-- Nodes can be given up. -/
theorem Owning.sublist {s' : Session κ ν} (h : Owning s) (hs : s'.owned.Sublist s.owned) : Owning s' :=
  ⟨h.once.sublist hs, fun x hx => h.entries x (hs.subset hx)⟩

/-- A new node is owned by nobody yet. -/
theorem Owning.cons {s' : Session κ ν} {order held : List NodeId} (h : Owning s) (hc : Sound s.chain order held)
    (hm : ∀ x ∈ s.owned, x ∈ order) (hs : s'.owned = s.chain.size :: s.owned) : Owning s' := by
  have hne (x : NodeId) (hx : x ∈ order) : s.chain.size ≠ x := fun he => hc.laid.size_not_mem (he ▸ hx)
  constructor
  · rw [hs, List.nodup_cons]
    exact ⟨fun hx => hne _ (hm _ hx) rfl, h.once⟩
  · intro x hx
    rw [hs] at hx
    rcases List.mem_cons.mp hx with rfl | hx
    · exact ⟨hne _ hc.laid.header_mem, hne _ hc.laid.trailer_mem⟩
    · exact h.entries x hx

theorem owned_withNode {name : String} {serve : NodeId → Turn κ ν}
    (hs : ∀ x, (serve x).1.owned.Sublist s.owned) : (s.withNode name serve).1.owned.Sublist s.owned := by
  unfold withNode
  split
  · exact List.Sublist.refl _
  · exact hs _

variable [ToString κ] [ToString ν]

/-- No request takes possession of a node at once. -/
theorem owned_start (r : Request κ ν) (s : Session κ ν) : (start r s).1.owned.Sublist s.owned := by
  cases r with
  | append name new k v =>
    apply owned_withNode
    intro x
    split <;> exact List.Sublist.refl _
  | delete name =>
    apply owned_withNode
    intro x
    split <;> exact List.Sublist.refl _
  | release name =>
    apply owned_withNode
    intro x
    split
    · exact List.erase_sublist
    · exact List.Sublist.refl _
  | pending => exact List.Sublist.refl _
  | _ => exact owned_withNode fun x => List.Sublist.refl _

omit [ToString κ] [ToString ν] in
/-- A suspended call may come to own a new node. -/
theorem owned_resume (stage : Stage κ ν) (s : Session κ ν) :
    (resume stage s).1.owned = s.owned ∨ (resume stage s).1.owned = s.chain.size :: s.owned := by
  cases stage with
  | inserting x e =>
    rw [resume]
    split
    · exact Or.inl rfl
    · next hf =>
      rw [eq_size_of_finishInsert hf]
      exact Or.inr rfl
  | cutting cut => exact Or.inl rfl

omit [ToString κ] [ToString ν] in
/-- A fault changes the answer only. -/
theorem judge_fst (old : Session κ ν) (p : Turn κ ν) : (old.judge p).1 = p.1 := by
  unfold judge
  split <;> rfl

/-- What a step does to the session: nothing, or what a request does at once, or what a suspended call does. -/
theorem state_moment (p : Policy) (script : Interleave.Script (Request κ ν)) (n : Nat) :
    (moment p script (n + 1)).state = (moment p script n).state ∨
      (∃ r, (moment p script (n + 1)).state = (start r (moment p script n).state).1) ∨
      ∃ stage, (moment p script (n + 1)).state = (resume stage (moment p script n).state).1 := by
  show ((moment p script n).step system).state = _ ∨ (∃ r, ((moment p script n).step system).state = _) ∨
    ∃ stage, ((moment p script n).step system).state = _
  cases hm : (moment p script n).move with
  | rest => exact Or.inl (Machine.step_rest system hm).1
  | start r => exact Or.inr (Or.inl ⟨r, (Machine.step_start system hm).1.trans (judge_fst _ _)⟩)
  | resume stage =>
    obtain ⟨-, -, hs, -⟩ := Machine.step_resume system hm
    exact Or.inr (Or.inr ⟨stage, hs.trans (judge_fst _ _)⟩)

/-- At each moment nodes are owned at most once. -/
theorem owning_moment (p : Policy) (script : Interleave.Script (Request κ ν)) (n : Nat) :
    Owning (moment p script n).state := by
  induction n with
  | zero => exact ⟨List.nodup_nil, fun x hx => (by cases hx)⟩
  | succ n ih =>
    rcases state_moment p script n with hs | ⟨r, hs⟩ | ⟨stage, hs⟩ <;> rw [hs]
    · exact ih
    · exact ih.sublist (owned_start r _)
    · have hk := (kept_moment p script n).sound
      rcases owned_resume stage (moment p script n).state with ho | ho
      · exact ih.sublist (ho ▸ List.Sublist.refl _)
      · exact ih.cons hk (fun x hx => hk.held_mem (List.mem_append_left _ hx)) ho

/-- At each moment every link is accounted for: by the session, which owns nodes, and by suspended insertions. -/
theorem accounted_moment (p : Policy) (script : Interleave.Script (Request κ ν)) (n : Nat) :
    Accounted (moment p script n).state.chain (moment p script n).state.owned
      ((moment p script n).stages.flatMap pending) := by
  have hk := (kept_moment p script n).sound
  have ho := owning_moment p script n
  refine hk.accounted (List.Perm.refl _) ho.once fun x hx => ?_
  have hm := hk.held_mem (List.mem_append_left _ hx)
  rw [Bool.eq_false_iff, Ne, hk.laid.isSentinel_iff hm]
  obtain ⟨h₀, h₁⟩ := ho.entries x hx
  exact not_or.mpr ⟨h₀, h₁⟩

end Session
end LeastRecent.Chain
