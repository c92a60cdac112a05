import LeastRecent.Proofs.Cache.Moments
import LeastRecent.Proofs.Cache.Outlook
import LeastRecent.Proofs.Interleave.Interruptions

/-!
# Requests that only look

A request that only looks may walk along the chain, and so unlink deleted nodes and move hints under the hands of a call
that is suspended; but it changes nothing that can be seen (`Undisturbed`, `harmless`). A call that only such requests
interrupt therefore keeps to its outlook (`steadfast`), and ends with the same answer and the same view of the cache as if
nothing had interrupted it (`looks_unseen`).
-/

namespace LeastRecent.Cache.Session

open Chain (Alike Sound)
open Interleave (Machine Outcome Plan)
open Interleave.Machine (Harmless Reaches Steadfast)

variable {κ ν : Type}

/-- The request stores and promotes nothing. -/
def Request.looks : Request κ ν → Bool
  | .entries | .text | .contains _ | .capacity | .isEmpty => true
  | _ => false

/-- The request makes a call to the cache. -/
def Request.isCall : Request κ ν → Bool
  | .set .. | .get _ | .getEntry .. | .contains _ => true
  | _ => false

/-! ## Harmless requests -/

/-- From `s` to `s'` only links and hints were changed. -/
structure Undisturbed (s s' : Session κ ν) : Prop where
  handles : s'.handles = s.handles
  cache : ∃ ch, s'.cache = { s.cache with chain := ch } ∧
    ∀ order held, Sound s.cache.chain order held → Sound ch order held ∧ Alike s.cache.chain ch

namespace Undisturbed

theorem of_eq {s s' : Session κ ν} (hh : s'.handles = s.handles) (hc : s'.cache = s.cache) : Undisturbed s s' :=
  ⟨hh, s.cache.chain, hc, fun _ _ h => ⟨h, Alike.refl _⟩⟩

theorem trans {s s' s'' : Session κ ν} (h : Undisturbed s s') (h' : Undisturbed s' s'') : Undisturbed s s'' := by
  obtain ⟨hh, ch, hc, hs⟩ := h
  obtain ⟨hh', ch', hc', hs'⟩ := h'
  rw [hc] at hc' hs'
  refine ⟨hh'.trans hh, ch', hc', fun order held h => ?_⟩
  obtain ⟨h₁, a₁⟩ := hs order held h
  obtain ⟨h₂, a₂⟩ := hs' order held h₁
  exact ⟨h₂, a₁.trans a₂⟩

end Undisturbed

/-- A stretch of work that leaves the cache as it is cannot break a rule. -/
theorem advance_same (s : Session κ ν) (r : Request κ ν) (out : Outcome (Stage κ ν) (Reply κ ν)) :
    s.advance r (s.cache, out) = match out with
      | .pause stage => (s, .pause ⟨r, stage⟩)
      | .done reply => s.present r reply := by
  unfold advance
  dsimp only
  split
  · next h h' =>
    rw [h] at h'
    cases h'
  · rfl

theorem undisturbed_list (s : Session κ ν) (f : List (Entry Nat κ ν) → Answer κ ν) : Undisturbed s (s.list f).1 := by
  have hh : (s.list f).1.handles = s.handles := rfl
  rcases list_cache s f with hc | hc
  · exact .of_eq hh hc
  · refine ⟨hh, _, hc, fun order held h => ?_⟩
    obtain ⟨h', a, -⟩ := h.walk h.laid.header_mem
    exact ⟨h', a⟩

variable [BEq κ] [ToString κ] [ToString ν]

/-- **Requests that only look are harmless.** -/
theorem harmless : Harmless (system : Interleave.System (Session κ ν) (Request κ ν) (Suspended κ ν) (Served κ ν) Event)
    (fun r => r.looks = true) Undisturbed where
  refl s := .of_eq rfl rfl
  trans := .trans
  start r s hr := by
    show Undisturbed s (start r s).1
    cases r with
    | entries => exact undisturbed_list s _
    | text => exact undisturbed_list s _
    | capacity => exact .of_eq rfl rfl
    | isEmpty => exact .of_eq rfl rfl
    | contains k =>
      rw [start, Cache.start, advance_same]
      exact .of_eq rfl rfl
    | _ => cases hr
  resume r s p hr hp s' := by
    replace hp : (start r s).2 = .pause p := hp
    show Undisturbed s' (resume p s').1 ∧ ∃ a, (resume p s').2 = .done a
    cases r with
    | contains k =>
      rw [start, Cache.start, advance_same] at hp
      cases hp
      rw [resume, Cache.resume, advance_same]
      exact ⟨.of_eq rfl rfl, _, rfl⟩
    | entries => cases hp
    | text => cases hp
    | capacity => cases hp
    | isEmpty => cases hp
    | _ => cases hr

/-! ## Calls that keep to their outlook -/

/-- The request `r`, made in the state `s₀`, is suspended and on its way to `goal`. -/
structure Steered (s₀ : Session κ ν) (r : Request κ ν) (goal : View κ ν × Reply κ ν) (p : Suspended κ ν)
    (s : Session κ ν) : Prop where
  request : p.request = r
  handles : s.handles = s₀.handles
  coherent : Coherent s.cache.chain s.cache.index.slots [p.stage]
  since : Since s₀.cache s.cache (fun x => p.stage.Answers s.cache.chain x) p.stage.surplus
  fits : p.stage.Fits s.cache.view
  outlook : p.stage.outlook s.cache.view = goal

/-- The request `r`, made in the state `s₀`, was answered as `goal` says. -/
structure Arrived (s₀ : Session κ ν) (r : Request κ ν) (goal : View κ ν × Reply κ ν) (s : Session κ ν)
    (a : Served κ ν) : Prop where
  view : s.cache.view = goal.1
  served : a = ⟨verdict r goal.2, goal.1.index.size⟩
  handles : s.handles = (s₀.present r goal.2).1.handles
  coherent : Coherent s.cache.chain s.cache.index.slots []
  capacity : s.cache.capacity = s₀.cache.capacity

omit [BEq κ] [ToString κ] [ToString ν] in
/-- Which handles there are after an answer is a matter of the handles before. -/
theorem handles_present {s s' : Session κ ν} (h : s.handles = s'.handles) (r : Request κ ν) (reply : Reply κ ν) :
    (s.present r reply).1.handles = (s'.present r reply).1.handles := by
  cases reply with
  | stored => exact h
  | present b => exact h
  | found e =>
    cases e with
    | none => exact h
    | some e =>
      cases r with
      | getEntry k keep =>
        cases keep with
        | none => exact h
        | some name =>
          show (name, e) :: s.handles.filter _ = (name, e) :: s'.handles.filter _
          rw [h]
      | _ => exact h

section Call

variable {s₀ s : Session κ ν} {r : Request κ ν} {goal : View κ ν × Reply κ ν}

omit [ToString κ] [ToString ν] in
/-- A call got on. -/
theorem reaches_advance {p : Advance κ ν} {n : Nat} (hh : s.handles = s₀.handles) (hg : Gets s₀.cache [] p)
    (hs : Steers goal n p) :
    Reaches (Steered s₀ r goal) (fun p s => p.stage.rank s.cache.chain) (Arrived s₀ r goal) n (s.advance r p) := by
  obtain ⟨c, out⟩ := p
  rw [advance_eq hg.clean]
  cases out with
  | pause st => exact ⟨⟨rfl, hh, hg.1, hg.2, hs.1, hs.2.1⟩, hs.2.2⟩
  | done reply =>
    obtain ⟨s', he, hc⟩ := present_eq { s with cache := c } r reply
    have hs' : s' = (present { s with cache := c } r reply).1 := by rw [he]
    have hgoal : (c.view, reply) = goal := hs
    dsimp only
    rw [he]
    refine ⟨?_, ?_, ?_, ?_, ?_⟩
    · rw [hc, ← hgoal]
    · rw [← hgoal]
      rfl
    · rw [hs', ← hgoal]
      exact handles_present (s := { s with cache := c }) hh r reply
    · rw [hc]
      exact hg.1
    · rw [hc]
      exact hg.2.capacity

variable (hq : Quiet s₀.cache)
include hq

/-- A call that is made keeps to some outlook. -/
theorem reaches_start (hr : r.isCall = true) : ∃ goal,
    Reaches (Steered s₀ r goal) (fun p s => p.stage.rank s.cache.chain) (Arrived s₀ r goal) 8 (start r s₀) := by
  have hcall (call : Call κ ν) (st : Stage κ ν) (hstart : (Cache.start call s₀.cache).2 = .pause st)
      (hf : st.Fits (Cache.start call s₀.cache).1.view) :
      Reaches (Steered s₀ r (st.outlook (Cache.start call s₀.cache).1.view)) (fun p s => p.stage.rank s.cache.chain)
        (Arrived s₀ r (st.outlook (Cache.start call s₀.cache).1.view)) 8 (s₀.advance r (Cache.start call s₀.cache)) := by
    refine reaches_advance rfl (gets_start call hq.coherent) ?_
    cases hp : Cache.start call s₀.cache with
    | mk c out =>
      rw [hp] at hstart hf
      replace hstart : out = .pause st := hstart
      rw [hstart]
      exact ⟨hf, rfl, Nat.lt_succ_of_le (Stage.rank_le _ _)⟩
  cases r with
  | set k v => exact ⟨_, hcall (.set k v) (.find ⟨s₀.cache.serial, k, v⟩) rfl trivial⟩
  | get k => exact ⟨_, hcall (.get k) (.fetch k) rfl trivial⟩
  | getEntry k keep => exact ⟨_, hcall (.get k) (.fetch k) rfl trivial⟩
  | contains k => exact ⟨_, hcall (.contains k) (.probe k) rfl trivial⟩
  | _ => cases hr

variable [EquivBEq κ]

/-- **A call keeps to its outlook** while others only look. -/
theorem steadfast (hsize : s₀.cache.size ≤ s₀.cache.capacity) : Steadfast
    (system : Interleave.System (Session κ ν) (Request κ ν) (Suspended κ ν) (Served κ ν) Event) Undisturbed
    (Steered s₀ r goal) (fun p s => p.stage.rank s.cache.chain) (Arrived s₀ r goal) 7 where
  resume p s h := by
    obtain ⟨hr, hh, hc, hsince, hf, ho⟩ := h
    have hle := hsince.size
    have hcap := hsince.capacity
    have hsurplus : p.stage.surplus ≤ 1 := Nat.le_trans p.stage.surplus_le (Bool.toNat_le _)
    -- whatever is deleted and in the index was deleted since the call came, and by the call
    have hs : Steers goal (p.stage.rank s.cache.chain) (Cache.resume p.stage s.cache) := by
      rw [← ho]
      refine steers_resume hc (fun x hx hd => ?_) (by omega) hf
      rcases hsince.dangling x ⟨hx, hd⟩ with h₀ | h₀
      · exact absurd h₀ (hq.settled x)
      · exact h₀
    show Reaches _ _ _ _ (s.advance p.request (Cache.resume p.stage s.cache))
    rw [hr]
    exact reaches_advance hh (gets_resume hc hsince) hs
  keep p s s' h hu := by
    obtain ⟨hr, hh, hc, hsince, hf, ho⟩ := h
    obtain ⟨hh', ch, hcache, hwalk⟩ := hu
    obtain ⟨order, hsound⟩ := hc.sound
    obtain ⟨hsound', a⟩ := hwalk order _ hsound
    have hview : s'.cache.view = s.cache.view := by
      rw [hcache]
      exact view_alike a (hsound.recent_alike hsound' a)
    refine ⟨hr, hh'.trans hh, ?_, ?_, by rw [hview]; exact hf, by rw [hview]; exact ho⟩
    · rw [hcache]
      exact hc.alike hwalk
    · rw [hcache]
      exact hsince.alike a fun x hx hdue => hdue.ages a.ages (hc.lt_size hx.1)
  rank_le p s := Stage.rank_le _ _

end Call

/-! ## Sessions that cannot be told apart -/

/-- The entry `e` was evicted, from one of its nodes. -/
def Evicted (c : Cache κ ν) (e : Entry Nat κ ν) : Prop :=
  ∃ x, c.chain.isEvicted x = true ∧ c.chain.carried? x = some e

/-- Two sessions of one request each are finished, the answers are the same, and so is what can be seen of the caches. -/
structure Indistinct (m m' : Machine (Session κ ν) (Request κ ν) (Suspended κ ν) (Served κ ν) Event) : Prop where
  finished : m.finished = true ∧ m'.finished = true
  served : ∃ a, m.records.map Interleave.Record.result = [a] ∧ m'.records.map Interleave.Record.result = [a]
  entries : ∃ es, m.state.cache.entries.2 = .ok es ∧ m'.state.cache.entries.2 = .ok es
  size : m'.state.cache.size = m.state.cache.size
  lookup : ∀ k, m'.state.cache.lookup k = m.state.cache.lookup k
  evicted : ∀ e, Evicted m'.state.cache e ↔ Evicted m.state.cache e
  handles : m'.state.handles = m.state.handles

omit [ToString κ] [ToString ν] in
/-- The entries listed are those of the view. -/
theorem entries_view {c : Cache κ ν} {stages : List (Stage κ ν)} (h : Coherent c.chain c.index.slots stages)
    (hroom : c.capacity < reservationLimit) : c.entries.2 = .ok (c.view.recent.filterMap c.view.carried) := by
  have hnot : ¬reservationLimit ≤ c.capacity := Nat.not_le_of_lt hroom
  obtain ⟨order, hsound⟩ := h.sound
  obtain ⟨-, a, -⟩ := hsound.walk hsound.laid.header_mem
  have hcarried : (c.chain.walk Chain.header).1.carried? = c.chain.carried? := funext fun y => a.carried y
  rw [Cache.entries, if_neg hnot]
  show Except.ok ((c.chain.walk Chain.header).2.filterMap (c.chain.walk Chain.header).1.carried?) = _
  rw [hcarried]
  rfl

omit [ToString κ] [ToString ν] in
/-- Where two sessions arrive at the same goal, they cannot be told apart. -/
theorem Arrived.indistinct {s₀ s s' : Session κ ν} {r : Request κ ν} {goal : View κ ν × Reply κ ν}
    {a a' : Interleave.Record (Served κ ν) Event} (h : Arrived s₀ r goal s a.result)
    (h' : Arrived s₀ r goal s' a'.result) (hroom : s₀.cache.capacity < reservationLimit) :
    Indistinct ⟨s, [], .nil, [a]⟩ ⟨s', [], .nil, [a']⟩ where
  finished := ⟨rfl, rfl⟩
  served := ⟨a.result, rfl, by rw [List.map_singleton, h'.served, h.served]⟩
  entries := by
    refine ⟨goal.1.recent.filterMap goal.1.carried, ?_, ?_⟩
    · rw [← h.view]
      exact entries_view h.coherent (h.capacity ▸ hroom)
    · rw [← h'.view]
      exact entries_view h'.coherent (h'.capacity ▸ hroom)
  size := congrArg (fun v : View κ ν => v.index.size) (h'.view.trans h.view.symm)
  lookup k := congrArg (fun v : View κ ν => (v.index.find? k).bind v.carried) (h'.view.trans h.view.symm)
  evicted e := by
    have hview : s'.cache.view = s.cache.view := h'.view.trans h.view.symm
    exact iff_of_eq (congrArg (fun v : View κ ν => ∃ x, v.evicted x = true ∧ v.carried x = some e) hview)
  handles := h'.handles.trans h.handles.symm

variable [EquivBEq κ]

/-- **Requests that only look are not noticed.** A request that calls the cache while no call is in progress is answered
the same and leaves the same to be seen, whether nothing interrupts it or any number of requests that only look, at any
of its points. -/
theorem looks_unseen {p : Policy} {capacity : Option Nat} {s : Session κ ν} (hs : create p capacity = .ok s)
    (hroom : chosen capacity < reservationLimit) (script : Interleave.Script (Request κ ν)) {n : Nat}
    (hidle : (moment s script n).stack = []) {r : Request κ ν} (hr : r.isCall = true) {plan : Plan (Request κ ν)}
    (hplan : plan.All fun r => r.looks = true) :
    Indistinct (Machine.session system (moment s script n).state (.call r .nil .nil))
      (Machine.session system (moment s script n).state (.call r plan .nil)) := by
  obtain ⟨hq, hcapacity, hsize⟩ := quiet_moment hs hidle
  obtain ⟨goal, hstart⟩ := reaches_start hq hr
  have harrives (plan : Plan (Request κ ν)) (hplan : plan.All fun r => r.looks = true) :
      ∃ s' a, Machine.session system (moment s script n).state (.call r plan .nil) = ⟨s', [], .nil, [a]⟩ ∧
        Arrived (moment s script n).state r goal s' a.result :=
    (steadfast hq (hcapacity ▸ hsize)).session_ends harmless hplan (by decide) hstart
  obtain ⟨s₁, a₁, halone, h₁⟩ := harrives .nil trivial
  obtain ⟨s₂, a₂, hamid, h₂⟩ := harrives plan hplan
  rw [halone, hamid]
  exact h₁.indistinct h₂ (hcapacity ▸ hroom)

/-- A deleted node is still linked behind the node of the key asked for. A request for the entries unlinks it just when
the node is about to be deleted; so the deletion is lost and made again, with two points more. -/
theorem looks_unseen_retried : ∃ (s : Session Nat Nat) (script : Interleave.Script (Request Nat Nat))
    (plan : Plan (Request Nat Nat)), create .deferred (some 2) = .ok s ∧ chosen (some 2) < reservationLimit ∧
      (moment s script 19).stack = [] ∧ (Request.get 2 : Request Nat Nat).isCall = true ∧
      (plan.All fun r => r.looks = true) ∧
      (Machine.session system (moment s script 19).state (.call (.get 2) .nil .nil)).records.map
        (fun a => a.points.length) = [4] ∧
      (Machine.session system (moment s script 19).state (.call (.get 2) plan .nil)).records.map
        (fun a => a.points.length) = [6] ∧
      Indistinct (Machine.session system (moment s script 19).state (.call (.get 2) .nil .nil))
        (Machine.session system (moment s script 19).state (.call (.get 2) plan .nil)) := by
  let s : Session Nat Nat := ⟨⟨.empty .deferred, .empty, 2, 0, [.created 2]⟩, []⟩
  have hs : create .deferred (some 2) = .ok s := rfl
  let script : Interleave.Script (Request Nat Nat) :=
    .call (.set 1 10) .nil (.call (.set 2 20) .nil
      (.call (.get 1) (.stop 1 (.call (.get 2) .nil .nil) .nil) .nil))
  let plan : Plan (Request Nat Nat) := .stop 1 (.call .entries .nil (.call (.contains 1) .nil .nil)) .nil
  have hroom : chosen (some 2) < reservationLimit := by decide
  have hidle : (moment s script 19).stack = [] := List.eq_nil_of_length_eq_zero (by decide +kernel)
  have hr : (Request.get 2 : Request Nat Nat).isCall = true := rfl
  have hplan : plan.All fun r => r.looks = true := ⟨⟨rfl, trivial, rfl, trivial, trivial⟩, trivial⟩
  exact ⟨s, script, plan, hs, hroom, hidle, hr, hplan, by decide +kernel, by decide +kernel,
    looks_unseen hs hroom script hidle hr hplan⟩

end LeastRecent.Cache.Session
