import LeastRecent.Proofs.Cache.Trace

/-!
# Where the reply to a call is decided

A call turns to its reply at one of its stages, and whatever it does afterwards is for the sake of the cache. So what is
known of its own stage until then (`Leads`) is known of the stage at which the reply is decided (`Decides`), and the
request is answered accordingly when the call ends (`Leads.decided`).
-/

namespace LeastRecent.Cache.Session

open Interleave (Machine Outcome)
open Interleave.Machine (IsCall Passes GoesOn)

variable {κ ν : Type}

/-! ## How far a request got -/

variable [BEq κ]

/-- A call that has its reply keeps it. -/
theorem turn_of_reply {st : Stage κ ν} {reply : Reply κ ν} (h : st.aim = .reply reply) (c : Cache κ ν) :
    st.turn c = .reply reply := by
  cases st with
  | front g =>
    cases g with
    | store e => cases h
    | promote k e stale => exact h
  | publish e fresh => cases h
  | fetch k => cases h
  | probe k => cases h
  | _ => exact h

variable [EquivBEq κ]

/-- A suspended request gets as far as its call. -/
theorem outcome_resume {s : Session κ ν} {r : Request κ ν} {st : Stage κ ν} {stages : List (Stage κ ν)}
    (h : Coherent s.cache.chain s.cache.index.slots (st :: stages)) :
    (resume ⟨r, st⟩ s).2 = match (Cache.resume st s.cache).2 with
      | .pause st' => .pause ⟨r, st'⟩
      | .done reply => .done ⟨verdict r reply, (Cache.resume st s.cache).1.size⟩ :=
  outcome_advance (gets_resume h (Since.refl _ _ _)).clean

/-! ## One call -/

variable [ToString κ] [ToString ν]

section Call

variable (s : Session κ ν) (script : Interleave.Script (Request κ ν)) (n : Nat) (r : Request κ ν)

omit [EquivBEq κ] in
theorem moment_add (i : Nat) : Machine.steps system i (moment s script n) = moment s script (n + i) := by
  rw [moment, moment, ← Machine.steps_add, Nat.add_comm]

/-- After `j` steps the request `r`, which came after `n` steps, is about to go on from the stage `st`. -/
structure Resumes (j : Nat) (st : Stage κ ν) : Prop where
  own : (moment s script j).stages = ⟨r, st⟩ :: (moment s script n).stages
  next : (moment s script j).move = .resume ⟨r, st⟩

/-- The request `r` that comes after `n` steps has a call that starts with the stage `first`. Of its own stage after
`i + 1` more steps `Pre i` is known until it turns to its reply. -/
structure Leads (first : Stage κ ν) (Pre : Nat → Stage κ ν → Prop) : Prop where
  start : (start r (moment s script n).state).2 = .pause ⟨r, first⟩
  base : Pre 0 first
  wait : ∀ i st, Pre i st → ¬GoesOn system (moment s script n) (i + 1) → Pre (i + 1) st
  turn : ∀ i st st', Pre i st → st'.aim = st.turn (moment s script (n + (i + 1))).state.cache →
    (∃ reply, st'.aim = .reply reply) ∨ Pre (i + 1) st'

/-- The call goes on from the stage `st` after `i + 1` steps, and thereby turns to its reply. -/
structure Decides (Pre : Nat → Stage κ ν → Prop) (i : Nat) (st : Stage κ ν) (reply : Reply κ ν) : Prop
    extends Resumes s script n r (n + (i + 1)) st where
  pre : Pre i st
  turn : st.turn (moment s script (n + (i + 1))).state.cache = .reply reply

/-- The request has been decided in the first `i` steps after it came, with this reply. -/
def Decided (Pre : Nat → Stage κ ν → Prop) (i : Nat) (reply : Reply κ ν) : Prop :=
  ∃ i' < i, ∃ st, Decides s script n r Pre i' st reply

/-- The suspended request `p` is `r`, and either it is not decided or it is to reply as was decided. -/
def Told (Pre : Nat → Stage κ ν → Prop) (i : Nat) (p : Suspended κ ν) : Prop :=
  p.request = r ∧ (Pre i p.stage ∨ ∃ reply, Decided s script n r Pre i reply ∧ p.stage.aim = .reply reply)

end Call

section Leads

variable {p : Policy} {capacity : Option Nat} {s : Session κ ν} (hs : create p capacity = .ok s)
  {script : Interleave.Script (Request κ ν)} {n i l : Nat} {r : Request κ ν} {first : Stage κ ν}
  {Pre : Nat → Stage κ ν → Prop} (h : Leads s script n r first Pre)
include hs h

/-- The request goes on. -/
theorem Leads.step {q : Suspended κ ν} (ht : Told s script n r Pre i q)
    (hst : (moment s script (n + (i + 1))).stages = q :: (moment s script n).stages)
    (hm : (moment s script (n + (i + 1))).move = .resume q) :
    match (resume q (moment s script (n + (i + 1))).state).2 with
    | .pause q' => Told s script n r Pre (i + 1) q'
    | .done served => ∃ reply, Decided s script n r Pre (i + 1) reply ∧ served.answer = verdict r reply := by
  have hc := coherent_moment hs script (n + (i + 1))
  rw [stagesAt, hst, List.map_cons] at hc
  obtain ⟨hr, htold⟩ := ht
  obtain ⟨r', st⟩ := q
  obtain rfl : r' = r := hr
  -- if it turns to its reply, that was decided before or is decided now
  have hdecided {reply : Reply κ ν} (hturn : st.turn (moment s script (n + (i + 1))).state.cache = .reply reply) :
      Decided s script n r' Pre (i + 1) reply := by
    rcases htold with hpre | ⟨reply', ⟨i', hi, hd⟩, haim⟩
    · exact ⟨i, Nat.lt_succ_self i, st, ⟨hst, hm⟩, hpre, hturn⟩
    · rw [turn_of_reply haim] at hturn
      cases hturn
      exact ⟨i', Nat.lt_succ_of_lt hi, hd⟩
  have hpursues := pursues_turn hc
  rw [outcome_resume hc]
  cases hcall : (Cache.resume st (moment s script (n + (i + 1))).state.cache).2 with
  | pause st' =>
    rw [hcall] at hpursues
    have haim : st'.aim = st.turn (moment s script (n + (i + 1))).state.cache := hpursues
    refine ⟨rfl, ?_⟩
    rcases htold with hpre | ⟨reply, -, hreply⟩
    · rcases h.turn i st st' hpre haim with ⟨reply, hreply⟩ | hpre'
      · exact Or.inr ⟨reply, hdecided (haim.symm.trans hreply), hreply⟩
      · exact Or.inl hpre'
    · have hturn := turn_of_reply hreply (moment s script (n + (i + 1))).state.cache
      exact Or.inr ⟨reply, hdecided hturn, haim.trans hturn⟩
  | done reply =>
    rw [hcall] at hpursues
    exact ⟨reply, hdecided hpursues, rfl⟩

theorem Leads.passes (hr : (moment s script n).move = .start r) :
    Passes system (moment s script n) (Told s script n r Pre) where
  start r' q hm hout := by
    rw [hr] at hm
    cases hm
    cases h.start.symm.trans hout
    exact ⟨rfl, Or.inl h.base⟩
  wait i q ht hown := by
    obtain ⟨hq, hpre | ⟨reply, ⟨i', hi, hd⟩, haim⟩⟩ := ht
    · exact ⟨hq, Or.inl (h.wait i q.stage hpre hown)⟩
    · exact ⟨hq, Or.inr ⟨reply, ⟨i', Nat.lt_succ_of_lt hi, hd⟩, haim⟩⟩
  resume i q q' ht hst hm hout := by
    rw [moment_add] at hst hm hout
    have hstep := h.step hs ht hst hm
    replace hout : (resume q (moment s script (n + (i + 1))).state).2 = .pause q' := hout
    rw [hout] at hstep
    exact hstep

/-- **A request is answered as its call decided.** -/
theorem Leads.decided (hr : (moment s script n).move = .start r) (hcall : IsCall system (moment s script n) l) :
    ∃ reply served, Decided s script n r Pre l reply ∧ Machine.ending? system (moment s script (n + l)) = some served ∧
      served.answer = verdict r reply := by
  cases l with
  | zero =>
    -- the request is suspended at least once
    have hfirst : (system.start r (moment s script n).state).2 = .pause ⟨r, first⟩ := h.start
    have hends : ((moment s script n).step system).stages.length ≤ (moment s script n).stages.length := hcall.ends
    rw [(Machine.step_start system hr).2, hfirst] at hends
    exact absurd hends (Nat.not_succ_le_self _)
  | succ i =>
    obtain ⟨q, served, hm, hst, hout, ht⟩ := hcall.ending (h.passes hs hr)
    rw [moment_add] at hm hst hout
    have hstep := h.step hs ht hst hm
    have hend := Machine.ending?_resume hm hout
    replace hout : (resume q (moment s script (n + (i + 1))).state).2 = .done served := hout
    rw [hout] at hstep
    obtain ⟨reply, hd, ha⟩ := hstep
    exact ⟨reply, served, hd, hend, ha⟩

end Leads

end LeastRecent.Cache.Session
