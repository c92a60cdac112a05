import LeastRecent.Cache.Shared
import LeastRecent.Proofs.Cache.Evictions
import LeastRecent.Proofs.Cache.Refinement
import LeastRecent.Proofs.Interleave.Serial

/-!
# Parties with keys of their own

A party that has a key to itself makes its calls about this key one after another (`InTurn`); what comes between their
stages, and what they interrupt, are calls about other keys. So the entries for the key are published in the order in
which they were to be stored (`published_in_turn`), and while the party asks for the key none is added. Where there is
room for all keys, the answer is therefore about the entry that the party was the last to store (`answered_in_turn`). It
depends neither on what the other parties do nor on when they do it (`others_unnoticed`), so it is the one that the party
gets when all are served one after another (`inTurn_plain`).
-/

namespace LeastRecent.Cache.Session

open Index (variety)
open Interleave (Machine Move)
open Interleave.Machine (IsCall)

variable {κ ν : Type} [BEq κ] {k : κ}

/-- The request is about a key equal to `k`. -/
def Request.concerns (k : κ) : Request κ ν → Bool
  | .set k' _ | .get k' | .getEntry k' _ | .contains k' => k == k'
  | _ => false

/-- Who asks for a key is concerned with it. -/
theorem concerns_of_key [ReflBEq κ] {r : Request κ ν} (h : r.key? = some k) : r.concerns k = true := by
  cases r with
  | get k' => cases h; exact BEq.refl k
  | getEntry k' keep => cases h; exact BEq.refl k
  | contains k' => cases h; exact BEq.refl k
  | _ => cases h

/-- The entries for `k`. -/
def entriesFor (k : κ) (es : List (Entry Nat κ ν)) : List (Entry Nat κ ν) := es.filter fun e => k == e.key

@[simp]
theorem entriesFor_append (k : κ) (es es' : List (Entry Nat κ ν)) :
    entriesFor k (es ++ es') = entriesFor k es ++ entriesFor k es' := List.filter_append ..

theorem entriesFor_cons (k : κ) (e : Entry Nat κ ν) (es : List (Entry Nat κ ν)) :
    entriesFor k (e :: es) = if k == e.key then e :: entriesFor k es else entriesFor k es := List.filter_cons ..

section Step

variable {c c' : Cache κ ν} {stages stages' : List (Stage κ ν)} {move : Move (Request κ ν) (Suspended κ ν)}
  {created gone : List (Entry Nat κ ν)} {e : Entry Nat κ ν} {pending : Aim κ ν → Option (Entry Nat κ ν)}
  {out : Stage κ ν → Option (Entry Nat κ ν)}

omit [BEq κ] in
/-- An entry is labelled when a request to store it comes. -/
theorem start_of_created (h : created? c move = some e) : move = .start (.set e.key e.value) := by
  cases move with
  | start r =>
    cases r with
    | set k v => cases h; rfl
    | _ => cases h
  | _ => cases h

/-- If no call has an entry for `k` when one more is to be stored, the entries for `k` are handed over in the order in
which they were labelled. -/
theorem Does.hands_in_turn [EquivBEq κ] (hh : Hands pending out) (h : Coherent c.chain c.index.slots stages)
    (d : Does c stages move c' stages')
    (hp : entriesFor k created = entriesFor k gone ++ entriesFor k (stages.flatMap fun st => (pending st.aim).toList))
    (hfree : ∀ e, created? c move = some e → (k == e.key) = true →
      entriesFor k (stages.flatMap fun st => (pending st.aim).toList) = []) :
    entriesFor k (created ++ (created? c move).toList) =
      entriesFor k (gone ++ ((resumed? move).bind out).toList) ++
        entriesFor k (stages'.flatMap fun st => (pending st.aim).toList) := by
  rcases d.handover hh h with ⟨e, hnew, hnone, hst⟩ | ⟨hnone, hst⟩
  · rw [hnew, hnone, hst, Option.toList_none, List.append_nil, entriesFor_append, hp, entriesFor_cons, Option.toList_some,
      entriesFor_cons]
    cases hk : k == e.key with
    | true =>
      rw [hfree e hnew hk, List.append_nil]
      rfl
    | false => exact List.append_nil _
  · rw [hst, entriesFor_append, ← List.append_assoc, ← entriesFor_append] at hp
    rw [hnone, Option.toList_none, List.append_nil]
    exact hp

end Step

variable [ToString κ] [ToString ν]

/-- Calls about `k` come one after another: when one comes, no other one is in progress. -/
def InTurn (s : Session κ ν) (script : Interleave.Script (Request κ ν)) (k : κ) : Prop :=
  ∀ n r, (moment s script n).move = .start r → r.concerns k = true →
    ∀ q ∈ (moment s script n).stages, q.request.concerns k = false

/-- Calls that nothing interrupts come one after another. -/
theorem inTurn_plain (s : Session κ ν) (rs : List (Request κ ν)) (k : κ) : InTurn s (.plain rs) k := by
  intro n r hr _ q hq
  have hidle : (moment s (.plain rs) n).stack = [] := Machine.serial_plain s rs n r hr
  rw [Machine.stages_eq_nil.mpr hidle] at hq
  cases hq

/-- The entries that calls in progress are still to publish. -/
def unpublished (s : Session κ ν) (script : Interleave.Script (Request κ ν)) (n : Nat) : List (Entry Nat κ ν) :=
  (stagesAt s script n).flatMap fun st => st.aim.unpublished?.toList

variable [EquivBEq κ] {p : Policy} {capacity : Option Nat} {s : Session κ ν} {n l : Nat}

section Moments

variable (hs : create p capacity = .ok s) (script : Interleave.Script (Request κ ν))
include hs

/-- Only a call about `k` has an entry for `k`. -/
theorem entriesFor_unpublished (h : ∀ q ∈ (moment s script n).stages, q.request.concerns k = false) :
    entriesFor k (unpublished s script n) = [] := by
  rw [entriesFor, List.filter_eq_nil_iff]
  intro e he
  obtain ⟨st, hst, he⟩ := List.mem_flatMap.mp he
  obtain ⟨q, hq, rfl⟩ := List.mem_map.mp hst
  have hset : q.request = .set e.key e.value := pledged_moment hs script n q hq e (Option.mem_toList.mp he)
  have hother := h q hq
  rw [hset] at hother
  exact Bool.eq_false_iff.mp hother

/-- **Entries are published in turn** if the calls about their key come so. -/
theorem published_in_turn (hturn : InTurn s script k) (n : Nat) : entriesFor k (created s script n) =
    entriesFor k ((changes s script n).filterMap Change.stored?) ++ entriesFor k (unpublished s script n) := by
  induction n with
  | zero => rfl
  | succ n ih =>
    have hstep := (does_moment hs script n).hands_in_turn hands_unpublished (coherent_moment hs script n) ih
      fun e he hk => entriesFor_unpublished hs script (hturn n _ (start_of_created he) hk)
    rw [created_succ, changes_succ, List.filterMap_append, Machine.filterMap_toList, changeAt?, stored_change]
    exact hstep

/-- What is found for a key, if nothing was evicted, is the entry that was published last. -/
theorem lookup_eq_getLast? (hnone : ∀ x, (moment s script n).state.cache.chain.isEvicted x = false) (k : κ) :
    (moment s script n).state.cache.lookup k =
      (entriesFor k ((changes s script n).filterMap Change.stored?)).getLast? := by
  have hother {cs : List (Change κ ν)} (h : ∀ e, .stored e ∈ cs → (k == e.key) = false) :
      entriesFor k (cs.filterMap Change.stored?) = [] := by
    rw [entriesFor, List.filter_eq_nil_iff]
    intro e he
    obtain ⟨change, hchange, hstored⟩ := List.mem_filterMap.mp he
    cases change with
    | stored e' =>
      cases hstored
      exact Bool.eq_false_iff.mp (h e hchange)
    | purged e' => cases hstored
  have hrecalls := recalls_moment hs script n k
  cases hfound : (moment s script n).state.cache.lookup k with
  | some e =>
    rw [hfound] at hrecalls
    obtain ⟨since, hlatest, -⟩ := hrecalls
    obtain ⟨before, hsplit⟩ := hlatest.split
    have hsince := hother hlatest.last
    have hlast : entriesFor k ((Change.stored e :: since).filterMap Change.stored?) = [e] := by
      rw [List.filterMap_cons, Change.stored?, entriesFor_cons, if_pos hlatest.key, hsince]
    rw [hsplit, List.filterMap_append, entriesFor_append, hlast, List.getLast?_concat]
  | none =>
    rw [hfound] at hrecalls
    rcases hrecalls with hnever | ⟨e, since, hlatest, hpurged⟩
    · rw [hother hnever]
      rfl
    · obtain ⟨before, hsplit⟩ := hlatest.split
      have hmem : .purged e ∈ changes s script n := by
        rw [hsplit]
        exact List.mem_append_right _ (List.mem_cons_of_mem _ hpurged)
      obtain ⟨x, hx⟩ := evicted_of_purged hs script hmem
      rw [hnone x] at hx
      cases hx

/-! ## One call -/

variable {r : Request κ ν} (hk : r.key? = some k) (hr : (moment s script n).move = .start r)
  (hcall : IsCall system (moment s script n) l)
include hk hr hcall

/-- Until a request for a key is answered its call is in progress. -/
theorem mem_stages_of_asked {i : Nat} (hi : i < l) : ∃ q ∈ (moment s script (n + (i + 1))).stages, q.request = r := by
  obtain ⟨above, q, hst, hq, -⟩ := hcall.traced ((leads_look hs script hk).passes hs hr) i hi
  rw [moment_add] at hst
  exact ⟨q, hst ▸ List.mem_append_right _ List.mem_cons_self, hq⟩

/-- While a party asks for its key, it stores nothing for it. -/
theorem entriesFor_created (hturn : InTurn s script k) {i : Nat} (hi : i ≤ l) :
    entriesFor k (created s script (n + i)) = entriesFor k (created s script n) := by
  induction i with
  | zero => rfl
  | succ i ih =>
    have hnone :
        entriesFor k (created? (moment s script (n + i)).state.cache (moment s script (n + i)).move).toList = [] := by
      rw [entriesFor, List.filter_eq_nil_iff]
      intro e he hke
      have hset := start_of_created (Option.mem_toList.mp he)
      cases i with
      | zero =>
        rw [Nat.add_zero, hr] at hset
        cases hset
        cases hk
      | succ i =>
        obtain ⟨q, hq, hqr⟩ := mem_stages_of_asked hs script hk hr hcall (Nat.lt_of_succ_lt hi)
        have hfree := hturn _ _ hset hke q hq
        rw [hqr, concerns_of_key hk] at hfree
        cases hfree
    rw [← Nat.add_assoc, created_succ, entriesFor_append, hnone, List.append_nil]
    exact ih (Nat.le_of_succ_le hi)

/-- **Who has a key to itself** is answered with the entry that it was the last to store. -/
theorem answered_in_turn (hturn : InTurn s script k)
    (hroom : variety ((created s script (n + l)).map Entry.key) ≤ chosen capacity) :
    ∃ served, Machine.ending? system (moment s script (n + l)) = some served ∧
      served.answer = verdict r (r.reply (entriesFor k (created s script n)).getLast?) := by
  obtain ⟨j, served, hj, -, hend, hanswer⟩ := answered hs script hk hr hcall
  have hroom' : variety ((created s script (n + j)).map Entry.key) ≤ chosen capacity := by
    obtain ⟨d, rfl⟩ := Nat.exists_eq_add_of_le hj
    rw [← Nat.add_assoc] at hroom
    exact Nat.le_trans (variety_created_mono script (n + j) d) hroom
  -- all that was to be stored for the key has been published when the request comes, and nothing since
  have hbefore := published_in_turn hs script hturn n
  rw [entriesFor_unpublished hs script (hturn n r hr (concerns_of_key hk)), List.append_nil] at hbefore
  have hthen := published_in_turn hs script hturn (n + j)
  obtain ⟨later, hlater⟩ := changes_grow script n j (s := s)
  rw [entriesFor_created hs script hk hr hcall hturn hj, ← hlater, List.filterMap_append, entriesFor_append,
    ← hbefore, List.append_assoc, List.self_eq_append_right, List.append_eq_nil_iff] at hthen
  refine ⟨served, hend, ?_⟩
  rw [hanswer, lookup_eq_getLast? hs script (not_evicted_of_room hs script hroom'), ← hlater, List.filterMap_append,
    entriesFor_append, ← hbefore, hthen.1, List.append_nil]

end Moments

/-! ## Two sessions -/

/-- What was to be stored for `k` in the first `n` steps. -/
def storedFor (s : Session κ ν) (script : Interleave.Script (Request κ ν)) (n : Nat) (k : κ) : List (κ × ν) :=
  (entriesFor k (created s script n)).map fun e => (e.key, e.value)

omit [BEq κ] [EquivBEq κ] [ToString κ] [ToString ν] in
/-- But for labels, an answer tells no more of the entry found than its key and value. -/
theorem seen_verdict {r : Request κ ν} (hk : r.key? = some k) {found found' : Option (Entry Nat κ ν)}
    (h : (found.map fun e => (e.key, e.value)) = found'.map fun e => (e.key, e.value)) :
    seen (verdict r (r.reply found)) = seen (verdict r (r.reply found')) := by
  cases found with
  | none =>
    cases found' with
    | none => rfl
    | some e' => cases h
  | some e =>
    cases found' with
    | none => cases h
    | some e' =>
      obtain ⟨hkey, hvalue⟩ := Prod.mk.inj (Option.some.inj h)
      cases r with
      | get k' => exact congrArg (fun v => some (Recency.Answer.value v)) hvalue
      | getEntry k' keep => exact congrArg (fun p => some (Recency.Answer.pair p)) (Prod.ext hkey hvalue)
      | contains k' => rfl
      | _ => cases hk

/-- **Others are not noticed** by a party that has a key to itself, where there is room for all keys. In two sessions, of
whatever caches, it is answered the same if it stored the same for its key before. -/
theorem others_unnoticed {p' : Policy} {capacity' : Option Nat} {s' : Session κ ν} (hs : create p capacity = .ok s)
    (hs' : create p' capacity' = .ok s') {script script' : Interleave.Script (Request κ ν)} {n' l' : Nat}
    {r : Request κ ν} (hk : r.key? = some k) (hr : (moment s script n).move = .start r)
    (hr' : (moment s' script' n').move = .start r) (hcall : IsCall system (moment s script n) l)
    (hcall' : IsCall system (moment s' script' n') l') (hturn : InTurn s script k) (hturn' : InTurn s' script' k)
    (hroom : variety ((created s script (n + l)).map Entry.key) ≤ chosen capacity)
    (hroom' : variety ((created s' script' (n' + l')).map Entry.key) ≤ chosen capacity')
    (hsame : storedFor s script n k = storedFor s' script' n' k) :
    ∃ served served', Machine.ending? system (moment s script (n + l)) = some served ∧
      Machine.ending? system (moment s' script' (n' + l')) = some served' ∧
      seen served.answer = seen served'.answer := by
  obtain ⟨served, hend, ha⟩ := answered_in_turn hs script hk hr hcall hturn hroom
  obtain ⟨served', hend', ha'⟩ := answered_in_turn hs' script' hk hr' hcall' hturn' hroom'
  have hlast := congrArg List.getLast? hsame
  simp only [storedFor, List.getLast?_map] at hlast
  exact ⟨served, served', hend, hend', by rw [ha, ha', seen_verdict hk hlast]⟩

end LeastRecent.Cache.Session
