import LeastRecent.Proofs.Chain.Dropping
import LeastRecent.Proofs.Chain.Pointers

/-!
# Each node is unlinked once

What each step of a session with a chain does to the pointers can be read off its move (`Rewires`). An insertion that
succeeds adds a node to the line from the header to the trailer, and the swings of a step take out of it the nodes that
they pass over. So at every moment a node is on the spine, or exactly one swing has passed over it (`Unlinks.once`). With
the swing it lost its link of the chain (`Unlinks.links`); the nodes that are left lose it when the chain is taken apart
(`Unlinks.dropped`).
-/

namespace LeastRecent.Chain

open Function (update)

variable {α : Type} {c c' : Chain α} {order held : List NodeId} {x y f : NodeId}

/-- The spine of a sound chain is a line of pointers, with all live nodes but the trailer on it. -/
theorem Sound.line (h : Sound c order held) : ∃ line, Line c.pointers header line ∧ c.spine = line ++ [trailer] ∧
    line.Nodup ∧ (∀ b x, c.pointers b = .node x → b ∈ line) ∧ ∀ x ∈ line, x < c.size := by
  obtain ⟨linked, j, -⟩ := h.counted
  obtain ⟨line, hp, -, hspine, hperm⟩ := h.laid.spine j
  have hnd : (line ++ [trailer]).Nodup := by
    rw [← hspine]
    exact hperm.nodup_iff.mpr j.nodup
  have hmem (x : NodeId) (hx : x ∈ c.spine) : x < c.size := (h.laid.mem x).mp (j.mem x (hperm.mem_iff.mp hx))
  refine ⟨line, hp.line, hspine, (List.nodup_append.mp hnd).1, fun b x hb => ?_, fun x hx => hmem x ?_⟩
  · have hb' : (c.node b).next = .node x := hb
    have hm : b ∈ c.spine := hperm.mem_iff.mpr (j.live b (h.laid.of_next hb').1 (isDeleted_of_next hb'))
    rw [hspine] at hm
    rcases List.mem_append.mp hm with hm | hm
    · exact hm
    · rw [List.mem_singleton.mp hm, h.laid.stop] at hb'
      cases hb'
  · rw [hspine]
    exact List.mem_append_left _ hx

/-- Between two sound chains pointers lead from one line to the other. -/
theorem Sound.spine_of_line (h : Sound c order held) {line : List NodeId} (hl : Line c.pointers header line) :
    c.spine = line ++ [trailer] := by
  obtain ⟨line', hl', hspine, -⟩ := h.line
  rw [hspine, hl.unique hl']

namespace Session

open Interleave (Machine Move)

variable {κ ν : Type} [ToString κ] [ToString ν]

/-! ## What a step does to pointers -/

/-- From the session `s` to `s'` a step did this to the pointers, and its swings passed over the nodes `xs`, in order. -/
def Rewires (s s' : Session κ ν) (xs : List NodeId) : Move (Request κ ν) (Stage κ ν) → Prop
  | .resume (.inserting after _) =>
    xs = [] ∧ (s'.chain.size = s.chain.size ∧ s'.chain.pointers = s.chain.pointers ∨
      ∃ f, s.chain.pointers after = .node f ∧ s'.chain.size = s.chain.size + 1 ∧
        s'.chain.pointers = update (update s.chain.pointers s.chain.size (.node f)) after (.node s.chain.size))
  | .resume (.cutting cut) =>
    s'.chain.size = s.chain.size ∧
      ((system.resume (.cutting cut) s).2 = .done (.bool false) ∧ s.chain.pointers cut.target ≠ .node cut.after ∧
          xs = [] ∧ s'.chain.pointers = s.chain.pointers ∨
        (system.resume (.cutting cut) s).2 = .done (.bool true) ∧ s.chain.pointers cut.target = .node cut.after ∧
          (xs = [] ∨ xs = [cut.target]) ∧
          Swung (update s.chain.pointers cut.target (.marker cut.after)) xs s'.chain.pointers)
  | _ => s'.chain.size = s.chain.size ∧ Swung s.chain.pointers xs s'.chain.pointers

omit [ToString κ] [ToString ν] in
theorem reroutes_withNode {s : Session κ ν} {name : String} {serve : NodeId → Turn κ ν}
    (hs : ∀ x, Reroutes s.chain (serve x).1.chain) : Reroutes s.chain (s.withNode name serve).1.chain := by
  unfold withNode
  split
  · exact Reroutes.refl _
  · exact hs _

/-- To serve a request up to its pause swings pointers at most. -/
theorem reroutes_start (r : Request κ ν) (s : Session κ ν) : Reroutes s.chain (start r s).1.chain := by
  cases r with
  | append name new k v =>
    apply reroutes_withNode
    intro x
    split
    · exact Reroutes.refl _
    · next hb => exact .of_pointers (retains_beginInsert hb).size (pointers_acquire hb)
  | delete name =>
    apply reroutes_withNode
    intro x
    split <;> exact Reroutes.refl _
  | successor name => exact reroutes_withNode fun x => reroutes_successor s.chain x
  | predecessor name => exact reroutes_withNode fun x => reroutes_predecessor s.chain x
  | forward name => exact reroutes_withNode fun x => reroutes_forward s.chain x
  | back name => exact reroutes_withNode fun x => reroutes_back s.chain x
  | walk name => exact reroutes_withNode fun x => reroutes_walk s.chain x
  | walkBack name => exact reroutes_withNode fun x => reroutes_walkBack s.chain x
  | release name =>
    apply reroutes_withNode
    intro x
    split
    · exact .of_pointers (retains_release s.chain x).size (pointers_release s.chain x)
    · exact Reroutes.refl _
  | text name => exact reroutes_withNode fun x => Reroutes.refl _
  | describe name => exact reroutes_withNode fun x => Reroutes.refl _
  | pending => exact Reroutes.refl _

/-- At no moment a rule was broken, so a suspended call goes on as it should. -/
theorem system_resume {p : Policy} {script : Interleave.Script (Request κ ν)} {n : Nat} {stage : Stage κ ν}
    (hm : (moment p script n).move = .resume stage) :
    system.resume stage (moment p script n).state = resume stage (moment p script n).state := by
  obtain ⟨rest, hrest, -⟩ := Machine.step_resume system hm
  have hk := kept_moment p script n
  rw [hrest] at hk
  exact judge_eq hk.resume.1.sound.clean

theorem moment_succ (p : Policy) (script : Interleave.Script (Request κ ν)) (n : Nat) :
    moment p script (n + 1) = (moment p script n).step system := rfl

/-- A node that is inserted is linked, or all pointers stay. -/
theorem rewires_inserting {s : Session κ ν} {after : NodeId} {e : Entry String κ ν}
    (hr : system.resume (.inserting after e) s = resume (.inserting after e) s) :
    Rewires s (system.resume (.inserting after e) s).1 [] (.resume (.inserting after e)) := by
  have hchain : (resume (.inserting after e) s).1.chain = (s.chain.finishInsert after e).1 := by
    rw [resume]
    split
    · next hf => rw [hf]; rfl
    · next hf => rw [hf]
  refine ⟨rfl, ?_⟩
  rw [hr, hchain]
  exact pointers_finishInsert _ after e

/-- A deletion that wins puts a marker and swings pointers; one that loses leaves all pointers as they are. -/
theorem rewires_cutting {s : Session κ ν} {cut : Cut}
    (hr : system.resume (.cutting cut) s = resume (.cutting cut) s) :
    ∃ xs, Rewires s (system.resume (.cutting cut) s).1 xs (.resume (.cutting cut)) := by
  have hanswer : (system.resume (.cutting cut) s).2 = .done (.bool (s.chain.finishDelete cut).2) := congrArg Prod.snd hr
  rw [hr]
  cases hwon : (s.chain.finishDelete cut).2 with
  | false =>
    rw [hwon] at hanswer
    obtain ⟨hchain, hne⟩ := finishDelete_eq_false hwon
    have hsame : (resume (.cutting cut) s).1.chain = s.chain := hchain
    exact ⟨[], by rw [hsame], Or.inl ⟨hanswer, hne, rfl, by rw [hsame]⟩⟩
  | true =>
    rw [hwon] at hanswer
    obtain ⟨hnode, xs, hxs, hswung⟩ := swung_finishDelete hwon
    exact ⟨xs, (retains_finishDelete _ cut).size, Or.inr ⟨hanswer, hnode, hxs, hswung⟩⟩

/-- Of each step it can be told what it does to the pointers. -/
theorem rewires_moment (p : Policy) (script : Interleave.Script (Request κ ν)) (n : Nat) :
    ∃ xs, Rewires (moment p script n).state (moment p script (n + 1)).state xs (moment p script n).move := by
  rw [moment_succ]
  cases hm : (moment p script n).move with
  | rest =>
    rw [(Machine.step_rest system hm).1]
    exact ⟨[], rfl, .done⟩
  | start r =>
    rw [(Machine.step_start system hm).1]
    have hstart : (system.start r (moment p script n).state).1 = (start r (moment p script n).state).1 := judge_fst _ _
    have hr := reroutes_start r (moment p script n).state
    obtain ⟨xs, hxs⟩ := hr.swung
    rw [hstart]
    exact ⟨xs, hr.size, hxs⟩
  | resume stage =>
    obtain ⟨-, -, hs, -⟩ := Machine.step_resume system hm
    rw [hs]
    cases stage with
    | inserting after e => exact ⟨[], rewires_inserting (system_resume hm)⟩
    | cutting cut => exact rewires_cutting (system_resume hm)

/-! ## On the spine, or passed over -/

variable {s s' : Session κ ν} {xs past : List NodeId} {move : Move (Request κ ν) (Stage κ ν)} {order' held' : List NodeId}

section Spine

variable (h : Sound s.chain order held) (h' : Sound s'.chain order' held')
  (hp : (List.range s.chain.size).Perm (past ++ s.chain.spine))
include h h' hp

omit [ToString κ] [ToString ν] in
/-- No node is added, and pointers are swung after markers were put at most. -/
theorem spine_of_swung {q : NodeId → Next} (hq : ∀ y, (q y).node? = (s.chain.pointers y).node?)
    (hl : ∀ b x, q b = .node x → s.chain.pointers b = .node x) (ht : q trailer = .nothing)
    (hs : Swung q xs s'.chain.pointers) (hsize : s'.chain.size = s.chain.size) :
    (List.range s'.chain.size).Perm (past ++ xs ++ s'.chain.spine) := by
  obtain ⟨line, hline, hspine, hnd, hlive, -⟩ := h.line
  obtain ⟨line', hline', hperm⟩ :=
    (hline.congr fun y _ => hq y).swung hs hnd (fun b x hb => hlive b x (hl b x hb)) ht
  rw [hsize, h'.spine_of_line hline', List.append_assoc, ← List.append_assoc xs]
  rw [hspine] at hp
  exact hp.trans ((hperm.append_right [trailer]).append_left past)

omit [ToString κ] [ToString ν] in
/-- A node is added and linked. -/
theorem spine_of_insert (hf : s.chain.pointers x = .node f) (hsize : s'.chain.size = s.chain.size + 1)
    (hq : s'.chain.pointers = update (update s.chain.pointers s.chain.size (.node f)) x (.node s.chain.size)) :
    (List.range s'.chain.size).Perm (past ++ s'.chain.spine) := by
  obtain ⟨line, hline, hspine, hnd, hlive, hlt⟩ := h.line
  have hfresh : s.chain.size ∉ line := fun hm => Nat.lt_irrefl _ (hlt _ hm)
  have hne : s.chain.size ≠ trailer := fun he => h.laid.size_not_mem (he ▸ h.laid.trailer_mem)
  obtain ⟨line', hline', hperm⟩ := hline.insert hnd (hlive x f hf) hf hfresh hne
  rw [← hq] at hline'
  rw [hsize, List.range_succ, h'.spine_of_line hline']
  rw [hspine] at hp
  have hspine' : (s.chain.size :: (line ++ [trailer])).Perm (line' ++ [trailer]) := hperm.symm.append_right [trailer]
  have hmoved : (past ++ (line ++ [trailer]) ++ [s.chain.size]).Perm (past ++ s.chain.size :: (line ++ [trailer])) := by
    rw [List.append_assoc]
    exact (List.perm_append_singleton _ _).append_left past
  exact (hp.append_right _).trans (hmoved.trans (hspine'.append_left past))

/-- If each node was on the spine or passed over once, this is so after one more step. -/
theorem spine_of_rewires (hr : Rewires s s' xs move) :
    (List.range s'.chain.size).Perm (past ++ xs ++ s'.chain.spine) := by
  have hstop : s.chain.pointers trailer = .nothing := h.laid.stop
  have hsame (hs : Swung s.chain.pointers xs s'.chain.pointers) (hsize : s'.chain.size = s.chain.size) :=
    spine_of_swung h h' hp (fun _ => rfl) (fun _ _ => id) hstop hs hsize
  cases move with
  | rest => exact hsame hr.2 hr.1
  | start r => exact hsame hr.2 hr.1
  | resume stage =>
    cases stage with
    | inserting after e =>
      obtain ⟨rfl, ⟨hsize, hq⟩ | ⟨f, hf, hsize, hq⟩⟩ := hr
      · exact hsame (hq ▸ .done) hsize
      · rw [List.append_nil]
        exact spine_of_insert h h' hp hf hsize hq
    | cutting cut =>
      obtain ⟨hsize, ⟨-, -, rfl, hq⟩ | ⟨-, hnode, -, hs⟩⟩ := hr
      · exact hsame (hq ▸ .done) hsize
      · refine spine_of_swung h h' hp (fun y => ?_) (fun b x hb => ?_) ?_ hs hsize
        · by_cases hy : y = cut.target
          · rw [hy, Function.update_self, hnode]
            rfl
          · rw [Function.update_of_ne hy]
        · by_cases hb' : b = cut.target
          · rw [hb', Function.update_self] at hb
            cases hb
          · rwa [Function.update_of_ne hb'] at hb
        · have ht : trailer ≠ cut.target := by
            intro he
            rw [← he, hstop] at hnode
            cases hnode
          rw [Function.update_of_ne ht, hstop]

end Spine

/-! ## The link of the chain -/

/-- The swings of the first `n` steps passed over these nodes. -/
def passed (swung : Nat → List NodeId) (n : Nat) : List NodeId := (List.range n).flatMap swung

theorem passed_succ (swung : Nat → List NodeId) (n : Nat) : passed swung (n + 1) = passed swung n ++ swung n := by
  rw [passed, List.range_succ, List.flatMap_append]
  simp [passed]

/-- In a session the swings of step `n` pass over the nodes `swung n`, and with it each of them loses its link of the
chain. -/
structure Unlinks (p : Policy) (script : Interleave.Script (Request κ ν)) (swung : Nat → List NodeId) : Prop where
  rewires : ∀ n, Rewires (moment p script n).state (moment p script (n + 1)).state (swung n) (moment p script n).move
  /-- Each node ever linked is on the spine or was passed over, and either only once. -/
  once : ∀ n, (List.range (moment p script n).state.chain.size).Perm
    (passed swung n ++ (moment p script n).state.chain.spine)
  /-- A node has a link of the chain until it is passed over, one for its owner, and one for each hint at it. -/
  links : ∀ n, ∀ x < (moment p script n).state.chain.size,
    ((moment p script n).state.chain.node x).links + (passed swung n).count x =
      1 + (if x ∈ (moment p script n).state.owned then 1 else 0) +
        ((moment p script n).state.chain.pointing x).length + ((moment p script n).stages.flatMap pending).count x
  /-- When the chain goes, the nodes are parted with that were not passed over, each once, and none has a link of the
  chain any more. -/
  dropped : ∀ n, (moment p script n).stack = [] → ∃ xs,
    (moment p script n).state.chain.spine = header :: (xs ++ [trailer]) ∧
      (moment p script n).state.chain.dismantle = (xs.foldl part (moment p script n).state.chain).untie ∧
      ∀ x < (moment p script n).state.chain.size, x ≠ header → x ≠ trailer →
        (passed swung n).count x + xs.count x = 1 ∧
          ((moment p script n).state.chain.dismantle.node x).links =
            (if x ∈ (moment p script n).state.owned then 1 else 0) +
              ((moment p script n).state.chain.dismantle.pointing x).length

/-- **A node is unlinked by one swing at most**, and loses its link of the chain by that swing or in the end. -/
theorem unlinks_moment (p : Policy) (script : Interleave.Script (Request κ ν)) :
    ∃ swung, Unlinks p script swung := by
  choose swung hswung using rewires_moment p script
  have hsound (n : Nat) := (kept_moment p script n).sound
  have honce (n : Nat) : (List.range (moment p script n).state.chain.size).Perm
      (passed swung n ++ (moment p script n).state.chain.spine) := by
    induction n with
    | zero => exact .refl _
    | succ n ih =>
      rw [passed_succ]
      exact spine_of_rewires (hsound n) (hsound (n + 1)) ih (hswung n)
  have hcount (n : Nat) {x : NodeId} (hx : x < (moment p script n).state.chain.size) :
      (passed swung n).count x + (moment p script n).state.chain.spine.count x = 1 := by
    rw [← List.count_append, ← (honce n).count_eq, List.nodup_range.count, if_pos (List.mem_range.mpr hx)]
  refine ⟨swung, hswung, honce, fun n x hx => ?_, fun n hidle => ?_⟩
  · have hnd : (moment p script n).state.chain.spine.Nodup :=
      (List.nodup_append.mp ((honce n).nodup_iff.mp List.nodup_range)).2.1
    have hlinks := (accounted_moment p script n).links x hx
    have hone := hcount n hx
    rw [hnd.count] at hone
    omega
  · obtain ⟨xs, hspine, -, hxs, hd⟩ := (hsound n).dismantle_eq
    have hs := hsound n
    have hnone : (moment p script n).stages = [] := by rw [Machine.stages, hidle]; rfl
    rw [hnone, List.flatMap_nil, List.append_nil] at hs
    obtain ⟨linked, j, hc⟩ := hs.counted
    obtain ⟨hcd, hsheds⟩ := hc.dismantle hs.laid j
    refine ⟨xs, hspine, hd, fun x hx h₀ h₁ => ⟨?_, ?_⟩⟩
    · have hone := hcount n hx
      rw [hspine] at hone
      simpa [List.count_cons, h₀.symm, h₁.symm] using hone
    · have hlinks := hcd.links x (by rw [hsheds.size]; exact hx)
      rw [hlinks, hcd.length_pointing, List.count_append, (owning_moment p script n).once.count]
      simp [h₀.symm, h₁.symm]

end Session
end LeastRecent.Chain
