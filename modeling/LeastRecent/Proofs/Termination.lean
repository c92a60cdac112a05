import LeastRecent.Proofs.Cache.Endings
import LeastRecent.Proofs.Chain.Dismantling
import LeastRecent.Proofs.Chain.Loops

/-!
# Everything ends

Sessions are finished in the time allowed, and every call in them ends, whatever interrupts what. At every moment all
loops along the chain end, since hints lead backward and pointers forward in the order in which all nodes ever linked
stand. Calls to the chain try nothing twice; calls to a cache try a deletion again if they lost it to a call that came
between (`calls_end`).
-/

namespace LeastRecent

open Interleave (Machine)

variable {κ ν : Type}

namespace Chain.Session

variable [ToString κ] [ToString ν]

/-- A session with a chain comes to its end, and so does everything in it. -/
structure Terminates (p : Policy) (script : Interleave.Script (Request κ ν)) : Prop where
  finished : (Machine.session system (create p) script).finished = true
  ends : ∀ n r, (moment p script n).move = .start r → ∃ k, Machine.IsCall system (moment p script n) k
  /-- A suspended call ends when it goes on. -/
  once : ∀ n stage, (moment p script n).move = .resume stage →
    ∃ a, (system.resume stage (moment p script n).state).2 = .done a
  /-- The tombstones tell the order of all nodes ever linked. -/
  chronicle : Chronicle (fun n => (moment p script n).state.chain) fun n => (tombstones p script n).order
  loops : ∀ n, LoopsEnd (moment p script n).state.chain (tombstones p script n).order
    ((moment p script n).state.owned ++ (moment p script n).stages.flatMap pending)

/-- A suspended call goes on to its end. -/
theorem resume_done (stage : Stage κ ν) (s : Session κ ν) : ∃ a, (system.resume stage s).2 = .done a := by
  have hdone : ∃ a, (resume stage s).2 = .done a := by
    cases stage with
    | inserting after e =>
      unfold resume
      dsimp only
      split <;> exact ⟨_, rfl⟩
    | cutting cut => exact ⟨_, rfl⟩
  show ∃ a, (s.judge (resume stage s)).2 = .done a
  unfold judge
  split
  · exact ⟨_, rfl⟩
  · exact hdone

theorem terminates (p : Policy) (script : Interleave.Script (Request κ ν)) : Terminates p script := by
  have hnears : Machine.Nears system (Machine.init (create p) script) (fun _ _ => 0) (4 * script.weight + 12) := by
    refine ⟨fun n stage stage' _ hout => ?_, fun n => ?_⟩
    · obtain ⟨a, ha⟩ := resume_done stage (Machine.steps system n (Machine.init (create p) script)).state
      rw [ha] at hout
      cases hout
    · unfold Machine.height
      split <;> exact Nat.zero_le _
  have hfin := Machine.session_finished hnears
  exact {
    finished := hfin
    ends := fun n r hm => Machine.isCall_of_session_finished hfin hm
    once := fun n stage _ => resume_done stage _
    chronicle := chronicle p script
    loops := fun n => (kept_moment p script n).sound.loopsEnd }

end Chain.Session

namespace Cache.Session

variable [BEq κ] [ToString κ] [ToString ν]

/-- A session with a cache comes to its end, and so does everything in it. -/
structure Terminates (s : Session κ ν) (script : Interleave.Script (Request κ ν)) : Prop where
  finished : (Machine.session system s script).finished = true
  ends : ∀ n r, (moment s script n).move = .start r → ∃ k, Machine.IsCall system (moment s script n) k
  /-- All nodes are put in front, so the latest comes first. -/
  chronicle : Chain.Chronicle (fun n => (moment s script n).state.cache.chain)
    fun n => lineage (linkings s script n).length
  loops : ∀ n, Chain.LoopsEnd (moment s script n).state.cache.chain (lineage (linkings s script n).length)
    ((moment s script n).state.cache.index.nodes ++ (stagesAt s script n).flatMap Stage.held)
  /-- When the cache goes, the loops end while the index gives back its links, in whichever order, and after that. -/
  drop : ∀ n, (moment s script n).stack = [] → ∀ given rest,
    (given ++ rest).Perm (moment s script n).state.cache.index.drain.2 →
      Chain.LoopsEnd ((moment s script n).state.cache.chain.releaseAll given) (lineage (linkings s script n).length) rest
  /-- A call that goes on gets on to a later stage, or evicts another entry, or has lost a deletion and tries again. -/
  proceeds : ∀ n q, (moment s script n).move = .resume q →
    ∀ q' ∈ (system.resume q (moment s script n).state).2.stages,
      Proceeds (moment s script n).state.cache.chain q.stage q'.stage
  /-- It loses a deletion only if a call that came between changed the pointer of the node. -/
  disturbed : ∀ n q cut, (moment s script n).move = .resume q → q.stage.cut? = some cut →
    ((moment s script n).state.cache.chain.finishDelete cut).2 = false → Disturbed s script n q cut
  /-- Each call in progress is at a point: no loop is repeated with nothing in between. -/
  points : ∀ n, ∀ q ∈ (moment s script n).stages, q.stage.point.isSome = true

variable [EquivBEq κ] {p : Policy} {capacity : Option Nat} {s : Session κ ν}

theorem terminates (h : create p capacity = .ok s) (script : Interleave.Script (Request κ ν)) : Terminates s script where
  finished := session_finished h script
  ends n r hm := Machine.isCall_of_session_finished (session_finished h script) hm
  chronicle := chronicle h script
  loops n := (sound_lineage h script n).loopsEnd
  drop n hidle given rest hp := by
    have hs := sound_lineage h script n
    have hnone : stagesAt s script n = [] := by rw [stagesAt, Machine.stages, hidle]; rfl
    rw [hnone, List.flatMap_nil, List.append_nil] at hs
    exact (hs.perm hp.symm).releaseAll_append.1.loopsEnd
  proceeds n q hm q' hq := by
    obtain ⟨below, hc, -, hst⟩ := resume_moment h script hm
    exact proceeds_resume hc (hst ▸ List.mem_map_of_mem hq)
  disturbed n q cut hm hcut hlost := lost_disturbed h script hm hcut hlost
  points := point_moment h script

end Cache.Session

variable [BEq κ] [EquivBEq κ] [ToString κ] [ToString ν]

/-- **Every call ends**, in a session with a chain and in a session with a cache. -/
theorem calls_end {p : Policy} {capacity : Option Nat} {s : Cache.Session κ ν}
    (hs : Cache.Session.create p capacity = .ok s) (chainScript : Interleave.Script (Chain.Session.Request κ ν))
    (script : Interleave.Script (Cache.Session.Request κ ν)) :
    Chain.Session.Terminates p chainScript ∧ Cache.Session.Terminates s script :=
  ⟨Chain.Session.terminates p chainScript, Cache.Session.terminates hs script⟩

/-- A `get` loses its deletion, since another one moved the entry behind. In a session with a chain an insertion comes in
the middle of a deletion. -/
theorem calls_end_disturbed : ∃ (s : Cache.Session Nat Nat)
    (chainScript : Interleave.Script (Chain.Session.Request Nat Nat))
    (script : Interleave.Script (Cache.Session.Request Nat Nat)) (q : Cache.Session.Suspended Nat Nat),
    Cache.Session.create .deferred (some 3) = .ok s ∧
      (Chain.Session.moment .deferred chainScript 9).stack.length = 2 ∧
      Chain.Session.Terminates .deferred chainScript ∧ (Cache.Session.moment s script 20).move = .resume q ∧
      q.stage.cut? = some ⟨3, some 4, 2⟩ ∧ Cache.Session.Disturbed s script 20 q ⟨3, some 4, 2⟩ ∧
      Cache.Session.Terminates s script := by
  let s : Cache.Session Nat Nat := ⟨⟨.empty .deferred, .empty, 3, 0, [.created 3]⟩, []⟩
  have hs : Cache.Session.create .deferred (some 3) = .ok s := rfl
  let chainScript : Interleave.Script (Chain.Session.Request Nat Nat) :=
    .call (.append "HEADER" "a" 1 10) .nil (.call (.append "a" "b" 2 20) .nil (.call (.delete "a")
      (.stop 0 (.call (.append "a" "c" 3 30) (.stop 0 (.call (.delete "b") .nil .nil) .nil) .nil) .nil) .nil))
  let script : Interleave.Script (Cache.Session.Request Nat Nat) :=
    .call (.set 1 10) .nil (.call (.set 2 20) .nil (.call (.set 3 30) .nil
      (.call (.get 2) (.stop 1 (.call (.get 1) .nil .nil) .nil) .nil)))
  obtain ⟨hchain, hcache⟩ := calls_end hs chainScript script
  have hcutting : (Cache.Session.resumed? (Cache.Session.moment s script 20).move).bind Cache.Stage.cut? =
      some ⟨3, some 4, 2⟩ := by decide +kernel
  obtain ⟨q, hm, hcut⟩ : ∃ q, (Cache.Session.moment s script 20).move = .resume q ∧
      q.stage.cut? = some ⟨3, some 4, 2⟩ := by
    generalize (Cache.Session.moment s script 20).move = move at hcutting ⊢
    cases move with
    | resume q => exact ⟨q, rfl, hcutting⟩
    | _ => cases hcutting
  have hlost : ((Cache.Session.moment s script 20).state.cache.chain.finishDelete ⟨3, some 4, 2⟩).2 = false := by
    decide +kernel
  exact ⟨s, chainScript, script, q, hs, by decide +kernel, hchain, hm, hcut,
    hcache.disturbed 20 q _ hm hcut hlost, hcache⟩

end LeastRecent
