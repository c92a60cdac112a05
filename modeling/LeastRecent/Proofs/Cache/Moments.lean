import LeastRecent.Proofs.Cache.Effects
import LeastRecent.Proofs.Cache.Kept

/-!
# From one moment of a session to the next

A step of a session does one of four things to its cache and to the calls in progress (`Does`): nothing, label a new
entry for a call that is to store it, answer a request or let a call begin that does not store, or let the running call
go on. At every moment the cache is coherent (`coherent_moment`), and whatever a step does, nothing is undone
(`Does.ages`, `Does.retired`).
-/

namespace LeastRecent.Cache.Session

open Interleave (Machine Move Outcome)

variable {κ ν : Type}

/-- The stages of the calls in progress, the running one first. -/
def stagesAt [BEq κ] [ToString κ] [ToString ν] (s : Session κ ν) (script : Interleave.Script (Request κ ν)) (n : Nat) :
    List (Stage κ ν) :=
  (moment s script n).stages.map Suspended.stage

/-- The stages at which a call begins that does not store. -/
def Begins : Stage κ ν → Prop
  | .fetch _ | .probe _ => True
  | _ => False

/-- From one moment to the next the cache `c` and the calls at `stages` have become what is given last. -/
inductive Does [BEq κ] (c : Cache κ ν) :
    List (Stage κ ν) → Move (Request κ ν) (Suspended κ ν) → Cache κ ν → List (Stage κ ν) → Prop
  | rest (stages : List (Stage κ ν)) : Does c stages .rest c stages
  | store (k : κ) (v : ν) (stages : List (Stage κ ν)) :
    Does c stages (.start (.set k v)) { c with serial := c.serial + 1 } (.find ⟨c.serial, k, v⟩ :: stages)
  | ask {r : Request κ ν} {c' : Cache κ ν} {out : List (Stage κ ν)} (stages : List (Stage κ ν))
    (hr : r.isSet = false) (hc : Leaves c c.index c') (ha : c.chain.Alike c'.chain) (ho : ∀ st ∈ out, Begins st) :
    Does c stages (.start r) c' (out ++ stages)
  | resume (r : Request κ ν) (st : Stage κ ν) (stages : List (Stage κ ν)) :
    Does c (st :: stages) (.resume ⟨r, st⟩) (Cache.resume st c).1 ((Cache.resume st c).2.stages ++ stages)

/-- A request got as far as its call. -/
theorem outcome_advance {s : Session κ ν} {r : Request κ ν} {p : Advance κ ν} (h : p.1.chain.fault = none) :
    (s.advance r p).2 = match p.2 with
      | .pause st => .pause ⟨r, st⟩
      | .done reply => .done ⟨verdict r reply, p.1.size⟩ := by
  obtain ⟨c, out⟩ := p
  rw [advance_eq h]
  cases out with
  | pause st => rfl
  | done reply =>
    obtain ⟨s', he, -⟩ := present_eq { s with cache := c } r reply
    dsimp only
    rw [he]

/-- The stage at which a call got is the stage of its request. -/
theorem stages_advance {s : Session κ ν} {r : Request κ ν} {p : Advance κ ν} (h : p.1.chain.fault = none) :
    (s.advance r p).1.cache = p.1 ∧ (s.advance r p).2.stages.map Suspended.stage = p.2.stages := by
  constructor
  · obtain ⟨c, out⟩ := p
    rw [advance_eq h]
    cases out with
    | pause st => rfl
    | done reply =>
      obtain ⟨s', he, hs'⟩ := present_eq { s with cache := c } r reply
      dsimp only
      rw [he]
      exact hs'
  · rw [outcome_advance h]
    cases p.2 <;> rfl

variable [BEq κ]

section Start

variable {s : Session κ ν} {stages : List (Stage κ ν)}

/-- A request that makes no call, up to a walk along the chain. -/
theorem does_answer {r : Request κ ν} {s' : Session κ ν} {a : Served κ ν} (hr : r.isSet = false)
    (hc : s'.cache = s.cache ∨ ∃ ch, s'.cache = { s.cache with chain := ch } ∧ s.cache.chain.Retains ch ∧
      s.cache.chain.Alike ch) : Does s.cache stages (.start r) s'.cache
      ((Outcome.done a : Outcome (Suspended κ ν) (Served κ ν)).stages.map Suspended.stage ++ stages) := by
  rcases hc with hc | ⟨ch, hc, hret, ha⟩
  · rw [hc]
    exact .ask stages hr (Leaves.refl _) (Chain.Alike.refl _) fun st hst => by cases hst
  · rw [hc]
    exact .ask stages hr (leaves_chain hret) ha fun st hst => by cases hst

theorem does_list {r : Request κ ν} (h : Coherent s.cache.chain s.cache.index.slots stages) (hr : r.isSet = false)
    (f : List (Entry Nat κ ν) → Answer κ ν) :
    Does s.cache stages (.start r) (s.list f).1.cache ((s.list f).2.stages.map Suspended.stage ++ stages) := by
  refine does_answer hr ?_
  rcases list_cache s f with hc | hc
  · exact Or.inl hc
  · obtain ⟨order, hs⟩ := h.sound
    exact Or.inr ⟨_, hc, Chain.retains_walk _ _, (hs.walk hs.laid.header_mem).2.1⟩

/-- A call that does not store begins. -/
theorem does_begin {r : Request κ ν} {st : Stage κ ν} (h : Coherent s.cache.chain s.cache.index.slots stages)
    (hr : r.isSet = false) (hst : Begins st) :
    Does s.cache stages (.start r) (s.advance r (s.cache, .pause st)).1.cache
      ((s.advance r (s.cache, .pause st)).2.stages.map Suspended.stage ++ stages) := by
  obtain ⟨hc, ho⟩ := stages_advance (s := s) (r := r) (p := (s.cache, .pause st)) h.clean
  rw [hc, ho]
  refine .ask stages hr (Leaves.refl _) (Chain.Alike.refl _) fun st' hst' => ?_
  rw [List.mem_singleton.mp hst']
  exact hst

variable [ToString κ] [ToString ν]

theorem does_start (r : Request κ ν) (h : Coherent s.cache.chain s.cache.index.slots stages) :
    Does s.cache stages (.start r) (start r s).1.cache ((start r s).2.stages.map Suspended.stage ++ stages) := by
  cases r with
  | set k v =>
    obtain ⟨hc, ho⟩ := stages_advance (s := s) (r := .set k v) (p := Cache.start (.set k v) s.cache) h.clean
    show Does s.cache stages _ (s.advance _ _).1.cache ((s.advance _ _).2.stages.map Suspended.stage ++ stages)
    rw [hc, ho]
    exact .store k v stages
  | get k => exact does_begin h rfl trivial
  | getEntry k keep => exact does_begin h rfl trivial
  | contains k => exact does_begin h rfl trivial
  | entries => exact does_list h rfl _
  | text => exact does_list h rfl _
  | capacity => exact does_answer rfl (Or.inl rfl)
  | isEmpty => exact does_answer rfl (Or.inl rfl)
  | held name => exact does_answer rfl (Or.inl rfl)
  | same a b =>
    obtain ⟨answer, ha⟩ := start_same s a b
    rw [ha]
    exact does_answer rfl (Or.inl rfl)
  | unhold name => exact does_answer rfl (Or.inl rfl)

end Start

/-! ## What no step undoes -/

section Keep

variable {c c' : Cache κ ν} {stages stages' : List (Stage κ ν)} {move : Move (Request κ ν) (Suspended κ ν)}
  [EquivBEq κ] (h : Coherent c.chain c.index.slots stages) (d : Does c stages move c' stages')
include h d

/-- Entries stay with their nodes, and no deletion or mark is undone. -/
theorem Does.ages : c.chain.Ages c'.chain := by
  cases d with
  | rest => exact Chain.Ages.refl _
  | store k v => exact Chain.Ages.refl _
  | ask _ _ _ ha => exact ha.ages
  | resume r st stages =>
    have hg := gets_resume h (Since.refl c _ _)
    cases hr : Cache.resume st c with
    | mk c' out =>
      rw [hr] at hg
      cases out with
      | pause st' => exact hg.2.ages
      | done reply => exact hg.2.ages

omit [EquivBEq κ] in
/-- What was retired stays retired. -/
theorem Does.retired : c.chain.retired <+: c'.chain.retired := by
  cases d with
  | rest => exact List.prefix_refl _
  | store k v => exact List.prefix_refl _
  | ask _ _ hc => exact hc.chain.retired
  | resume r st stages =>
    rcases st.front_or with ⟨g, rfl⟩ | hst
    · rw [resume_front h]
      exact Chain.retired_finishInsert c.chain Chain.header g.entry
    · exact (leaves_resume hst c).chain.retired

end Keep

/-! ## Moments -/

variable [EquivBEq κ] [ToString κ] [ToString ν] {p : Policy} {capacity : Option Nat} {s : Session κ ν}

/-- At each moment the cache is coherent. -/
theorem coherent_moment (h : create p capacity = .ok s) (script : Interleave.Script (Request κ ν)) (n : Nat) :
    Coherent (moment s script n).state.cache.chain (moment s script n).state.cache.index.slots (stagesAt s script n) := by
  obtain ⟨inProgress, hk, hst⟩ := kept_moment h script n
  have hc := hk.1.coherent
  have hstages : (calls inProgress).map Prod.snd = stagesAt s script n := by
    rw [stagesAt, ← hst, calls, List.map_map, List.map_map]
    rfl
  rwa [hstages] at hc

/-- What the next step is, and what it leaves behind. -/
theorem moment_succ (h : create p capacity = .ok s) (script : Interleave.Script (Request κ ν)) (n : Nat) :
    ((moment s script n).move = .rest ∧ (moment s script (n + 1)).state = (moment s script n).state ∧
        stagesAt s script (n + 1) = stagesAt s script n) ∨
      (∃ r, (moment s script n).move = .start r ∧
        (moment s script (n + 1)).state = (start r (moment s script n).state).1 ∧
        stagesAt s script (n + 1) =
          (start r (moment s script n).state).2.stages.map Suspended.stage ++ stagesAt s script n) ∨
      ∃ r st rest, (moment s script n).move = .resume ⟨r, st⟩ ∧ stagesAt s script n = st :: rest ∧
        (moment s script (n + 1)).state.cache = (Cache.resume st (moment s script n).state.cache).1 ∧
        stagesAt s script (n + 1) = (Cache.resume st (moment s script n).state.cache).2.stages ++ rest := by
  have hc := coherent_moment h script n
  cases hm : (moment s script n).move with
  | rest =>
    obtain ⟨hs, hst⟩ := Machine.step_rest system hm
    exact Or.inl ⟨rfl, hs, congrArg (List.map Suspended.stage) hst⟩
  | start r =>
    obtain ⟨hs, hst⟩ := Machine.step_start system hm
    exact Or.inr (Or.inl ⟨r, rfl, hs, (congrArg (List.map Suspended.stage) hst).trans List.map_append⟩)
  | resume q =>
    obtain ⟨r, st⟩ := q
    obtain ⟨rest, hrest, hs, hst⟩ := Machine.step_resume system hm
    have hstages : stagesAt s script n = st :: rest.map Suspended.stage := congrArg (List.map Suspended.stage) hrest
    rw [hstages] at hc
    have hclean := (gets_resume hc (Since.refl _ _ _)).clean
    obtain ⟨hcache, ho⟩ := stages_advance (s := (moment s script n).state) (r := r) hclean
    refine Or.inr (Or.inr ⟨r, st, _, rfl, hstages, (congrArg Session.cache hs).trans hcache, ?_⟩)
    rw [← ho, ← List.map_append]
    exact congrArg (List.map Suspended.stage) hst

/-- **What a step does.** -/
theorem does_moment (h : create p capacity = .ok s) (script : Interleave.Script (Request κ ν)) (n : Nat) :
    Does (moment s script n).state.cache (stagesAt s script n) (moment s script n).move
      (moment s script (n + 1)).state.cache (stagesAt s script (n + 1)) := by
  have hc := coherent_moment h script n
  rcases moment_succ h script n with ⟨hm, hs, hst⟩ | ⟨r, hm, hs, hst⟩ | ⟨r, st, rest, hm, hrest, hcache, hst⟩
  · rw [hm, hs, hst]
    exact .rest _
  · rw [hm, hs, hst]
    exact does_start r hc
  · rw [hm, hrest, hcache, hst]
    exact .resume r st _

end LeastRecent.Cache.Session
