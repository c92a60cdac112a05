import LeastRecent.Proofs.Cache.Bystanders
import LeastRecent.Proofs.Cache.Closing
import LeastRecent.Proofs.Cache.Endings
import LeastRecent.Proofs.Cache.Lookups
import LeastRecent.Proofs.Cache.Tidying

/-!
# Nothing fails but the reservation of room

In a session with a cache no rule of the chain is ever broken: no link is given back that is not held, and no node is
retired twice, which would be noticed under one policy only but happens under neither. Every request is answered as it
should be (`Suits`), whatever interrupts it, with one exception. Who asks for the entries, or for their text, makes the
cache reserve room for as many as it may hold; if that is more than can be addressed, the request fails, even if the
cache is empty (`only_reservations_fail`, `reservation_fails_empty`).
-/

namespace LeastRecent.Cache.Session

open Interleave (Machine)
open Interleave.Machine (IsCall)

variable {κ ν : Type}

/-- The request is for the entries. -/
def Request.lists : Request κ ν → Bool
  | .entries | .text => true
  | _ => false

variable [ToString κ] [ToString ν]

/-- The entries of the live nodes, the most recent first. -/
def live (s : Session κ ν) : List (Entry Nat κ ν) := s.cache.view.recent.filterMap s.cache.view.carried

/-- The answer is of the kind that the request asks for, when it is made of `s`. -/
def Suits (s : Session κ ν) : Request κ ν → Answer κ ν → Prop
  | .set .., a => a = .done
  | .get _, a => a = .absent ∨ ∃ v, a = .value v
  | .getEntry .., a => a = .absent ∨ ∃ e, a = .entry e
  | .contains _, a => ∃ b, a = .bool b
  | .entries, a => a = .entries s.live
  | .text, a => a = .text (Text.bracketed (s.live.map toString))
  | .capacity, a => a = .number s.cache.capacity
  | .isEmpty, a => a = .bool s.cache.isEmpty
  | .held _, a => a = .nothing ∨ ∃ e, a = .entry e
  | .same .., a => a = .nothing ∨ ∃ b, a = .bool b
  | .unhold _, a => ∃ b, a = .bool b

/-- The reply to a call that asks for a key becomes an answer to the request. -/
theorem suits_verdict (s : Session κ ν) {r : Request κ ν} {k : κ} (hk : r.key? = some k)
    (found : Option (Entry Nat κ ν)) : s.Suits r (verdict r (r.reply found)) := by
  cases r with
  | get k' =>
    cases found with
    | none => exact Or.inl rfl
    | some e => exact Or.inr ⟨e.value, rfl⟩
  | getEntry k' keep =>
    cases found with
    | none => exact Or.inl rfl
    | some e => exact Or.inr ⟨e, rfl⟩
  | contains k' => exact ⟨found.isSome, rfl⟩
  | _ => cases hk

section List

variable {s : Session κ ν} {f : List (Entry Nat κ ν) → Answer κ ν}

omit [ToString κ] [ToString ν] in
/-- If room can be reserved, the live entries are listed. -/
theorem list_of_room [BEq κ] {stages : List (Stage κ ν)} (h : Coherent s.cache.chain s.cache.index.slots stages)
    (hroom : s.cache.capacity < reservationLimit) : (s.list f).2 = .done ⟨f s.live, s.cache.size⟩ := by
  have hentries : s.cache.entries = (s.cache.entries.1, .ok s.live) := Prod.ext rfl (entries_view h hroom)
  have hsize : (s.list f).1.cache.size = s.cache.size := by
    rw [list_cache_of_room hroom]
    rfl
  rw [← hsize, list, hentries]
  rfl

omit [ToString κ] [ToString ν] in
/-- If room cannot be reserved, nothing is listed, and nothing happens. -/
theorem list_of_no_room (hroom : reservationLimit ≤ s.cache.capacity) :
    s.list f = (s, .done ⟨.fault .reservation, s.cache.size⟩) := by
  rw [list, Cache.entries, if_pos hroom]
  rfl

end List

section Moments

variable [BEq κ] [EquivBEq κ] {p : Policy} {capacity : Option Nat} {s : Session κ ν} (hs : create p capacity = .ok s)
  (script : Interleave.Script (Request κ ν)) {n l : Nat} {r : Request κ ν}
include hs

theorem capacity_moment (n : Nat) : (moment s script n).state.cache.capacity = chosen capacity := by
  obtain ⟨inProgress, hk, -⟩ := kept_moment hs script n
  exact hk.1.capacity_eq

/-- **A request is answered as it should be**, unless it is for the entries and room cannot be reserved for them. -/
theorem suits_moment (hm : (moment s script n).move = .start r) (hcall : IsCall system (moment s script n) l)
    (hroom : r.lists = true → chosen capacity < reservationLimit) :
    ∃ served, Machine.Yields system (moment s script n) l served ∧ (moment s script n).state.Suits r served.answer := by
  have hasked {k : κ} (hk : r.key? = some k) : ∃ served, Machine.Yields system (moment s script n) l served ∧
      (moment s script n).state.Suits r served.answer := by
    obtain ⟨j, served, -, -, hend, ha⟩ := answered hs script hk hm hcall
    rw [← moment_add] at hend
    exact ⟨served, hcall.yields_ending hend, ha ▸ suits_verdict _ hk _⟩
  have hnow {served : Served κ ν} (hd : (start r (moment s script n).state).2 = .done served)
      (ha : (moment s script n).state.Suits r served.answer) : ∃ served,
        Machine.Yields system (moment s script n) l served ∧ (moment s script n).state.Suits r served.answer :=
    ⟨served, hcall.yields_start hm hd, ha⟩
  have hlisted (hl : r.lists = true) {f : List (Entry Nat κ ν) → Answer κ ν} :
      ((moment s script n).state.list f).2 =
        .done ⟨f (moment s script n).state.live, (moment s script n).state.cache.size⟩ :=
    list_of_room (coherent_moment hs script n) (capacity_moment hs script n ▸ hroom hl)
  cases r with
  | set k v =>
    obtain ⟨j, fresh, served, -, -, -, hend, ha⟩ := stored hs script hm hcall
    rw [← moment_add] at hend
    exact ⟨served, hcall.yields_ending hend, ha⟩
  | get k => exact hasked rfl
  | getEntry k keep => exact hasked rfl
  | contains k => exact hasked rfl
  | entries => exact hnow (hlisted rfl) rfl
  | text => exact hnow (hlisted rfl) rfl
  | capacity => exact hnow rfl rfl
  | isEmpty => exact hnow rfl rfl
  | held name =>
    refine hnow rfl ?_
    cases (moment s script n).state.handles.lookup name with
    | none => exact Or.inl rfl
    | some e => exact Or.inr ⟨e, rfl⟩
  | same a b =>
    cases ha : (moment s script n).state.handles.lookup a with
    | none => exact hnow (by simp only [start, ha]; rfl) (Or.inl rfl)
    | some e =>
      cases hb : (moment s script n).state.handles.lookup b with
      | none => exact hnow (by simp only [start, ha, hb]; rfl) (Or.inl rfl)
      | some e' => exact hnow (by simp only [start, ha, hb]; rfl) (Or.inr ⟨_, rfl⟩)
  | unhold name => exact hnow rfl ⟨_, rfl⟩

/-- A request for the entries fails at once and without consequences, if room cannot be reserved for them. -/
theorem refused_moment (hm : (moment s script n).move = .start r) (hcall : IsCall system (moment s script n) l)
    (hr : r.lists = true) (hroom : reservationLimit ≤ chosen capacity) :
    Machine.Yields system (moment s script n) l ⟨.fault .reservation, (moment s script n).state.cache.size⟩ ∧
      (moment s script (n + 1)).state = (moment s script n).state := by
  have hlist (f : List (Entry Nat κ ν) → Answer κ ν) : (moment s script n).state.list f =
      ((moment s script n).state, .done ⟨.fault .reservation, (moment s script n).state.cache.size⟩) :=
    list_of_no_room (capacity_moment hs script n ▸ hroom)
  have hstart : system.start r (moment s script n).state =
      ((moment s script n).state, .done ⟨.fault .reservation, (moment s script n).state.cache.size⟩) := by
    cases r with
    | entries => exact hlist _
    | text => exact hlist _
    | _ => cases hr
  refine ⟨hcall.yields_start hm (congrArg Prod.snd hstart), ?_⟩
  rw [show (moment s script (n + 1)).state = (system.start r (moment s script n).state).1 from
    (Machine.step_start system hm).1, hstart]

omit hs in
/-- What can fail in a session: nothing but the reservation of room for the entries. -/
structure Unfailing (limit : Nat) (s : Session κ ν) (script : Interleave.Script (Request κ ν)) : Prop where
  /-- No rule of the chain is ever broken. -/
  clean : ∀ n, (moment s script n).state.cache.chain.fault = none
  /-- No node is retired twice, not even where the limbo would not notice. -/
  once : ∀ n, (moment s script n).state.cache.chain.retired.Nodup
  /-- Nor does any of that happen when the cache goes. -/
  dropped : ∀ n, (moment s script n).stack = [] →
    (moment s script n).state.dismantled.fault = none ∧ (moment s script n).state.dismantled.retired.Nodup
  finished : (Machine.session system s script).finished = true
  /-- Every request comes to its end. -/
  ended : ∀ n r, (moment s script n).move = .start r → ∃ l, IsCall system (moment s script n) l
  suits : ∀ n l r, (moment s script n).move = .start r → IsCall system (moment s script n) l →
    (r.lists = true → limit < reservationLimit) → ∃ served, Machine.Yields system (moment s script n) l served ∧
      (moment s script n).state.Suits r served.answer
  refused : ∀ n l r, (moment s script n).move = .start r → IsCall system (moment s script n) l → r.lists = true →
    reservationLimit ≤ limit →
      Machine.Yields system (moment s script n) l ⟨.fault .reservation, (moment s script n).state.cache.size⟩ ∧
        (moment s script (n + 1)).state = (moment s script n).state

/-- **Only reservations fail**, and only if a cache is to hold more than can be addressed. -/
theorem only_reservations_fail : Unfailing (chosen capacity) s script where
  clean m := (coherent_moment hs script m).clean
  once m := by
    obtain ⟨order, hsound⟩ := (coherent_moment hs script m).sound
    obtain ⟨linked, -, hcounted⟩ := hsound.counted
    exact hcounted.nodup
  dropped _ hidle := by
    obtain ⟨hclean, -, hnodup, -⟩ := dismantled_spec (quiet_moment hs hidle).1.coherent
    exact ⟨hclean, hnodup⟩
  finished := session_finished hs script
  ended _ _ hm := Machine.isCall_of_session_finished (session_finished hs script) hm
  suits _ _ _ hm hcall hroom := suits_moment hs script hm hcall hroom
  refused _ _ _ hm hcall hr hroom := refused_moment hs script hm hcall hr hroom

end Moments

/-- A cache is to hold as many entries as cannot be addressed any more. In the middle of a `set` the entries are asked
for, in vain; the `set` goes on as if nothing had been asked. -/
theorem only_reservations_fail_nested : ∃ (s : Session Nat Nat) (script : Interleave.Script (Request Nat Nat)),
    create .deferred (some reservationLimit) = .ok s ∧ Unfailing (chosen (some reservationLimit)) s script ∧
      (moment s script 2).stack.length = 1 ∧ (moment s script 2).move = .start .entries ∧
      Machine.Yields system (moment s script 2) 0 ⟨.fault .reservation, 0⟩ ∧
      ∃ served, Machine.Yields system (moment s script 0) 5 served ∧ served.answer = .done := by
  let s : Session Nat Nat := ⟨⟨.empty .deferred, .empty, reservationLimit, 0, [.created reservationLimit]⟩, []⟩
  have hs : create .deferred (some reservationLimit) = .ok s := rfl
  let script : Interleave.Script (Request Nat Nat) :=
    .call (.set 1 10) (.stop 1 (.call .entries .nil .nil) .nil) .nil
  have hfails := only_reservations_fail hs script
  have hask : (moment s script 2).move = .start .entries := rfl
  have hlisted : IsCall system (moment s script 2) 0 := ⟨⟨_, hask⟩, fun i h₀ hi => by omega, by decide +kernel⟩
  have hset : IsCall system (moment s script 0) 5 := by
    have hduring : ∀ i < 6, 0 < i →
        (moment s script 0).stages.length < (Machine.steps system i (moment s script 0)).stages.length := by
      decide +kernel
    exact ⟨⟨.set 1 10, rfl⟩, fun i h₀ hi => hduring i (by omega) h₀, by decide +kernel⟩
  have hsize : (moment s script 2).state.cache.size = 0 := by decide +kernel
  have hrefused := (hfails.refused 2 0 .entries hask hlisted rfl (by decide +kernel)).1
  rw [hsize] at hrefused
  exact ⟨s, script, hs, hfails, by decide +kernel, hask, hrefused,
    hfails.suits 0 5 (.set 1 10) rfl hset fun h => by cases h⟩

/-- The cache is empty, and still its entries cannot be listed. -/
theorem reservation_fails_empty : ∃ s : Session Nat Nat,
    create .deferred (some reservationLimit) = .ok s ∧ s.cache.size = 0 ∧
    (Machine.session system s (.plain [.entries, .text])).records.map (fun r => r.result.answer) =
      [.fault .reservation, .fault .reservation] :=
  ⟨⟨⟨.empty .deferred, .empty, reservationLimit, 0, [.created reservationLimit]⟩, []⟩, rfl, rfl, rfl⟩

end LeastRecent.Cache.Session
