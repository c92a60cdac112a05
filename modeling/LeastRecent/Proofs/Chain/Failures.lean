import LeastRecent.Proofs.Chain.Cascade
import LeastRecent.Proofs.Chain.Deletions
import LeastRecent.Proofs.Chain.Owners
import LeastRecent.Proofs.Interleave.Plain

/-!
# Insertions and deletions that fail

An insertion behind the trailer or a deleted node fails. If nothing comes between its halves, the link that it took and
gives back leaves no trace (`refuses`), and the session only loses the entry (`finishes_append`). If calls came between,
the link may have become the last one, so that the node is retired when it is given back, with what only its hint kept
(`append_gives_back`). A deletion that fails changes nothing, neither when it begins nor when it ends
(`Deletes.fails`).

All this is said of every request of a session, whatever interrupts it (`failures_traceless`).
-/

namespace LeastRecent.Chain

variable {α : Type} {c c' : Chain α} {order held : List NodeId} {x : NodeId}

/-- Behind the trailer and behind a deleted node an insertion fails, and gives its link back. -/
theorem finishInsert_eq_release (h : Laid c order) (hx : x = trailer ∨ c.isDeleted x = true) (a : α) :
    c.finishInsert x a = (c.release x, none) := by
  have hn : ∀ f, (c.node x).next ≠ .node f := by
    intro f hf
    rcases hx with rfl | hd
    · rw [h.stop] at hf
      cases hf
    · rw [isDeleted_of_next hf] at hd
      cases hd
  unfold finishInsert
  split
  · next f hf => exact absurd hf (hn f)
  · rfl

theorem isDeleted_acquire (hc : c.acquire x = some c') (y : NodeId) : c'.isDeleted y = c.isDeleted y := by
  unfold acquire at hc
  split at hc
  · cases hc
  · cases hc
    exact frame_modify Node.isDeleted x y fun _ => rfl

/-- **An insertion that must fail** is refused at once, or leaves the chain as it was. -/
theorem refuses (h : Sound c order held) (hx : x ∈ order) (hfail : x = trailer ∨ c.isDeleted x = true) (a : α) :
    c.beginInsert x = none ∨ ∃ c', c.beginInsert x = some c' ∧ c'.finishInsert x a = (c, none) := by
  rcases h.beginInsert hx with ⟨hn, -⟩ | ⟨c', hc, hsound, -⟩
  · exact Or.inl hn
  · refine Or.inr ⟨c', hc, ?_⟩
    rw [finishInsert_eq_release hsound.laid (by rw [isDeleted_acquire hc]; exact hfail), release_acquire hc]

/-- Retired nodes are deleted. -/
theorem Sound.isDeleted_of_retired (h : Sound c order held) (hx : x ∈ c.retired) : c.isDeleted x = true := by
  obtain ⟨linked, -, hc⟩ := h.counted
  obtain ⟨hlt, h₀⟩ := (hc.retired x).mp hx
  cases hd : c.isDeleted x with
  | true => rfl
  | false => exact absurd h₀ (h.links_of_live ((h.laid.mem x).mpr hlt) hd)

namespace Session

open Interleave (Finishes Machine Move)
open Interleave.Machine (IsCall Passes)

variable {κ ν : Type} [ToString κ] [ToString ν] {p : Policy} {script : Interleave.Script (Request κ ν)} {i n : Nat}
  {e : Entry String κ ν}

/-- With step `i` a request is made to put the entry `e` behind the node `x`. -/
def Orders (p : Policy) (script : Interleave.Script (Request κ ν)) (i : Nat) (x : NodeId) (e : Entry String κ ν) : Prop :=
  ∃ name, (moment p script i).move = .start (.append name e.label e.key e.value) ∧
    (moment p script i).state.names.lookup name = some x

/-- To ask for an insertion is to take a link on the node before the new one. -/
theorem start_append {name : String} (new : String) (k : κ) (v : ν)
    (hx : (moment p script i).state.names.lookup name = some x) :
    system.start (.append name new k v) (moment p script i).state =
      match (moment p script i).state.chain.beginInsert x with
      | none => ((moment p script i).state.lose new, .done (.bool false))
      | some c => ({ (moment p script i).state with chain := c }, .pause (.inserting x ⟨new, k, v⟩)) := by
  have hk := (kept_moment p script i).start (.append name new k v)
  have hj : system.start (.append name new k v) (moment p script i).state =
      start (.append name new k v) (moment p script i).state := judge_eq hk.1.sound.clean
  rw [hj]
  cases hb : (moment p script i).state.chain.beginInsert x <;> simp only [start, withNode, hx, hb]

/-! ## Without interruption -/

omit [ToString κ] [ToString ν] in
/-- An insertion that fails in the end. -/
theorem resume_inserting_of_none {s : Session κ ν} {c : Chain (Entry String κ ν)}
    (h : s.chain.finishInsert x e = (c, none)) :
    resume (.inserting x e) s = ({ s with chain := c }.lose e.label, .done (.bool false)) := by
  rw [resume, h]

/-- **An insertion that fails without interruption** loses its entry and changes nothing else. -/
theorem finishes_append {name new : String} {k : κ} {v : ν}
    (hx : (moment p script i).state.names.lookup name = some x)
    (hfail : x = trailer ∨ (moment p script i).state.chain.isDeleted x = true) : ∃ m ≤ 1,
    Finishes system.resume m (system.start (.append name new k v) (moment p script i).state)
      ((moment p script i).state.lose new) (.bool false) := by
  have hk := kept_moment p script i
  have hstart := start_append new k v hx
  rcases refuses hk.sound (hk.mem_of_lookup hx) hfail (⟨new, k, v⟩ : Entry String κ ν) with hn | ⟨c, hc, hf⟩
  · rw [hn] at hstart
    rw [hstart]
    exact ⟨0, Nat.zero_le 1, .done _ _⟩
  · rw [hc] at hstart
    rw [hstart]
    refine ⟨1, Nat.le_refl 1, .pause ?_⟩
    have hresume : resume (.inserting x ⟨new, k, v⟩) { (moment p script i).state with chain := c } =
        ((moment p script i).state.lose new, .done (.bool false)) := resume_inserting_of_none hf
    have hsystem : system.resume (.inserting x ⟨new, k, v⟩) { (moment p script i).state with chain := c } =
        ((moment p script i).state.lose new, .done (.bool false)) := by
      rw [← hresume]
      refine judge_eq ?_
      rw [hresume]
      exact hk.sound.clean
    rw [hsystem]
    exact .done _ _

/-- What is seen of a lost entry: it is destroyed, at once where that is certain. -/
theorem events_lose (s : Session κ ν) (name : String) : system.events s (s.lose name) =
    match s.chain.limbo.policy with
    | .deferred => [.destroyed name]
    | .epoch => [] := by
  have hretired : s.chain.retiredSince s.chain = [] := by rw [retiredSince, List.drop_length, List.filterMap_nil]
  show List.map Event.retired (s.chain.retiredSince s.chain) ++ _ = _
  rw [hretired, List.map_nil, List.nil_append]
  show (match s.chain.limbo.policy with
    | .deferred => ((s.failed ++ [name]).drop s.failed.length).map Event.destroyed
    | .epoch => []) = _
  rw [List.drop_left]
  rfl

/-! ## With calls in between -/

/-- An insertion that pauses is suspended at one stage, until it ends with it. -/
theorem passes_inserting (hask : Orders p script i x e) :
    Passes system (moment p script i) fun _ stage => stage = .inserting x e where
  start r stage hm hout := by
    obtain ⟨name, hm', hx⟩ := hask
    rw [hm'] at hm
    cases hm
    rw [start_append _ _ _ hx] at hout
    split at hout
    · cases hout
    · cases hout
      rfl
  wait _ _ h _ := h
  resume j stage stage' h _ hm hout := by
    subst h
    rw [moment_add] at hm hout
    rw [system_resume hm, resume] at hout
    split at hout <;> cases hout

/-- **What becomes of a request for an insertion.** Either it is refused at once, since the node has no links any more,
or it takes a link and pauses, and its last step decides. -/
theorem append_call (hask : Orders p script i x e) (hcall : IsCall system (moment p script i) n) :
    (n = 0 ∧ (moment p script i).state.chain.beginInsert x = none ∧
      (moment p script (i + 1)).state = (moment p script i).state.lose e.label ∧ Answers p script i n (.bool false)) ∨
    ∃ c, 0 < n ∧ (moment p script i).state.chain.beginInsert x = some c ∧
      (moment p script (i + 1)).state = { (moment p script i).state with chain := c } ∧
      (moment p script (i + n)).move = .resume (.inserting x e) ∧
      (moment p script (i + n)).stages = .inserting x e :: (moment p script i).stages := by
  obtain ⟨name, hm, hx⟩ := id hask
  have hstart := start_append e.label e.key e.value hx
  obtain ⟨hstate, hfirst⟩ := Machine.step_start system hm
  rw [← moment_succ] at hstate hfirst
  cases hb : (moment p script i).state.chain.beginInsert x with
  | none =>
    rw [hb] at hstart
    rw [hstart] at hfirst hstate
    cases n with
    | zero => exact Or.inl ⟨rfl, rfl, hstate, _, hm, by rw [hstart]⟩
    | succ n =>
      have hlong := hcall.during 1 Nat.zero_lt_one (Nat.le_add_left 1 n)
      rw [moment_add, hfirst] at hlong
      exact absurd hlong (Nat.lt_irrefl _)
  | some c =>
    rw [hb] at hstart
    rw [hstart] at hfirst hstate
    cases n with
    | zero =>
      have hshort := hcall.ends
      rw [moment_add, Nat.zero_add, hfirst] at hshort
      exact absurd hshort (Nat.not_succ_le_self _)
    | succ n =>
      obtain ⟨stage, r, hmove, hstages, -, rfl⟩ := hcall.ending (passes_inserting hask)
      rw [moment_add] at hmove hstages
      exact Or.inr ⟨c, Nat.succ_pos n, rfl, hstate, hmove, hstages⟩

/-- With the step that ends an insertion its link on `x` is given back: from `x` on the nodes `xs` are retired, and
`last` loses a link. The node `x` itself is retired just if it was unlinked, its owner's link was given back, and neither
a hint nor another suspended insertion had a link on it. -/
structure Yields (p : Policy) (script : Interleave.Script (Request κ ν)) (i n : Nat) (x : NodeId)
    (e : Entry String κ ν) (c : Chain (Entry String κ ν)) (xs : List NodeId) (last : NodeId) : Prop where
  answers : Answers p script i n (.bool false)
  state : (moment p script (i + n + 1)).state = { (moment p script (i + n)).state with chain := c }.lose e.label
  unravels : Unravels (moment p script (i + n)).state.chain x xs last
  gives : GivesBack (moment p script (i + n)).state.chain c xs last
  kept : x ∉ (moment p script (i + n)).state.chain.retired
  retired : x ∈ c.retired ↔ x ∉ (moment p script (i + n)).state.chain.spine ∧
    x ∉ (moment p script (i + n)).state.owned ∧ (moment p script (i + n)).state.chain.pointing x = [] ∧
      x ∉ (moment p script i).stages.flatMap pending

/-- **An insertion that fails after an interruption** gives its link back, and that is all. -/
theorem append_gives_back (hask : Orders p script i x e) (hcall : IsCall system (moment p script i) n) (hn : 0 < n)
    (hfail : x = trailer ∨ (moment p script (i + n)).state.chain.isDeleted x = true) :
    ∃ c xs last, Yields p script i n x e c xs last := by
  rcases append_call hask hcall with ⟨h₀, -⟩ | ⟨-, -, -, -, hm, hst⟩
  · exact absurd h₀ (Nat.ne_of_gt hn)
  obtain ⟨n, rfl⟩ := Nat.exists_eq_add_one_of_ne_zero (Nat.ne_of_gt hn)
  have hk := kept_moment p script (i + (n + 1))
  have ha := accounted_moment p script (i + (n + 1))
  rw [hst] at hk ha
  have hsound := hk.sound.perm (List.perm_middle : (_ ++ x :: (moment p script i).stages.flatMap pending).Perm _)
  obtain ⟨xs, last, hu, hg⟩ := hsound.release_unravels
  have hx := (hsound.laid.mem x).mp (hsound.held_mem List.mem_cons_self)
  have hresume := resume_inserting_of_none (finishInsert_eq_release hsound.laid hfail e)
  have hlinks := ha.links x hx
  have hcount : ((.inserting x e :: (moment p script i).stages).flatMap pending).count x =
      ((moment p script i).stages.flatMap pending).count x + 1 := List.count_cons_self
  rw [hcount] at hlinks
  have hkept : x ∉ (moment p script (i + (n + 1))).state.chain.retired := by
    rw [ha.retired]
    omega
  refine ⟨_, xs, last, ?_, ?_, hu, hg, hkept, ?_⟩
  · exact Machine.ending?_resume hm (by rw [system_resume hm, hresume])
  · rw [moment_succ]
    obtain ⟨-, -, hs, -⟩ := Machine.step_resume system hm
    rw [hs, system_resume hm, hresume]
  · have hnone : x ∉ (moment p script i).stages.flatMap pending ↔ _ := List.count_eq_zero.symm
    rw [hg.retired, List.mem_append, or_iff_right hkept, hu.mem_iff, hlinks, hnone, ← List.length_eq_zero_iff]
    by_cases hs : x ∈ (moment p script (i + (n + 1))).state.chain.spine
    · simp only [hs, if_true, not_true_eq_false, false_and, iff_false]
      omega
    · by_cases ho : x ∈ (moment p script (i + (n + 1))).state.owned
      · simp only [ho, if_true, not_true_eq_false, false_and, and_false, iff_false]
        omega
      · simp only [hs, ho, if_false, not_false_eq_true, true_and]
        omega

/-! ## Deletions -/

/-- **A deletion that fails** changes nothing, neither when it begins nor when it ends. -/
theorem Deletes.fails (h : Deletes p script i n x false) :
    (moment p script (i + 1)).state = (moment p script i).state ∧
      (moment p script (i + n + 1)).state = (moment p script (i + n)).state := by
  refine ⟨h.asks.state_succ, ?_⟩
  rcases delete_call h.asks h.call with ⟨rfl, -⟩ | ⟨cut, -, -, hm, -, ha⟩
  · exact h.asks.state_succ
  · have hlost := (finishDelete_eq_false (Answer.bool.inj (h.answers.unique ha)).symm).1
    obtain ⟨-, -, hs, -⟩ := Machine.step_resume system hm
    rw [moment_succ, hs, system_resume hm]
    show { (moment p script (i + n)).state with
      chain := ((moment p script (i + n)).state.chain.finishDelete cut).1 } = _
    rw [hlost]

/-! ## All failures of a session -/

/-- What is promised of the insertions and deletions of a session that fail. -/
structure Traceless (p : Policy) (script : Interleave.Script (Request κ ν)) : Prop where
  /-- At each moment an insertion behind any node that is the trailer, deleted or retired fails and leaves the chain as
  it was, if it is not interrupted. -/
  chain : ∀ i x (e : Entry String κ ν), x < (moment p script i).state.chain.size →
    x = trailer ∨ (moment p script i).state.chain.isDeleted x = true ∨ x ∈ (moment p script i).state.chain.retired →
    (moment p script i).state.chain.beginInsert x = none ∨
      ∃ c, (moment p script i).state.chain.beginInsert x = some c ∧
        c.finishInsert x e = ((moment p script i).state.chain, none)
  /-- So does the request: it is answered false, and the session only loses the entry. -/
  alone : ∀ i name new k v x, (moment p script i).state.names.lookup name = some x →
    x = trailer ∨ (moment p script i).state.chain.isDeleted x = true ∨ x ∈ (moment p script i).state.chain.retired →
    (∃ m ≤ 1, Finishes system.resume m (system.start (.append name new k v) (moment p script i).state)
      ((moment p script i).state.lose new) (.bool false)) ∧
    system.events (moment p script i).state ((moment p script i).state.lose new) =
      match (moment p script i).state.chain.limbo.policy with
      | .deferred => [.destroyed new]
      | .epoch => []
  /-- A request for an insertion is refused at once, or takes a link and waits for those that come between. -/
  begins : ∀ i n x e, Orders p script i x e → IsCall system (moment p script i) n →
    (n = 0 ∧ (moment p script (i + 1)).state = (moment p script i).state.lose e.label ∧
      Answers p script i n (.bool false)) ∨
    ∃ c, 0 < n ∧ (moment p script i).state.chain.acquire x = some c ∧
      (moment p script (i + 1)).state = { (moment p script i).state with chain := c }
  /-- If the node is deleted when it goes on, the link is given back and nothing else happens. -/
  interrupted : ∀ i n x e, Orders p script i x e → IsCall system (moment p script i) n → 0 < n →
    x = trailer ∨ (moment p script (i + n)).state.chain.isDeleted x = true →
    ∃ c xs last, Yields p script i n x e c xs last
  /-- A deletion that fails changes nothing itself. -/
  deletions : ∀ i n x, Deletes p script i n x false →
    (moment p script (i + 1)).state = (moment p script i).state ∧
      (moment p script (i + n + 1)).state = (moment p script (i + n)).state

/-- **A failed operation leaves no trace**, however the calls of the session interleave: an insertion that fails gives
back its link on the node before it, and with it what that link alone kept; a deletion that fails changes nothing. -/
theorem failures_traceless (p : Policy) (script : Interleave.Script (Request κ ν)) : Traceless p script := by
  have hdeleted (i : Nat) (x : NodeId)
      (h : x = trailer ∨ (moment p script i).state.chain.isDeleted x = true ∨
        x ∈ (moment p script i).state.chain.retired) :
      x = trailer ∨ (moment p script i).state.chain.isDeleted x = true := by
    rcases h with h | h | h
    · exact Or.inl h
    · exact Or.inr h
    · exact Or.inr ((kept_moment p script i).sound.isDeleted_of_retired h)
  refine ⟨fun i x e hx h => ?_, fun i name new k v x hx h => ⟨finishes_append hx (hdeleted i x h), events_lose _ _⟩,
    fun i n x e hask hcall => ?_, fun i n x e => append_gives_back, fun i n x => Deletes.fails⟩
  · have hsound := (kept_moment p script i).sound
    exact refuses hsound ((hsound.laid.mem x).mpr hx) (hdeleted i x h) e
  · rcases append_call hask hcall with ⟨h₀, -, hs, ha⟩ | ⟨c, hn, hb, hs, -⟩
    · exact Or.inl ⟨h₀, hs, ha⟩
    · exact Or.inr ⟨c, hn, hb, hs⟩

/-- While an insertion behind it is suspended a node is deleted and given up by its owner. The link of the insertion is
then its last, so that the node is retired when the insertion fails. -/
theorem failures_traceless_nested : ∃ script : Interleave.Script (Request Nat Nat),
    Orders .deferred script 2 2 ⟨"b", 2, 20⟩ ∧ IsCall system (moment .deferred script 2) 5 ∧
      (moment .deferred script 7).state.chain.retired = [] ∧ (moment .deferred script 8).state.chain.retired = [2] ∧
      Traceless .deferred script := by
  let script : Interleave.Script (Request Nat Nat) :=
    .call (.append "HEADER" "a" 1 10) .nil
      (.call (.append "a" "b" 2 20) (.stop 0 (.call (.delete "a") .nil (.call (.release "a") .nil .nil)) .nil) .nil)
  have hasks : Orders .deferred script 2 2 ⟨"b", 2, 20⟩ := by
    have hcheck : (match (moment .deferred script 2).move with
        | .start (.append name new k v) =>
          decide ((moment .deferred script 2).state.names.lookup name = some 2 ∧ new = "b" ∧ k = 2 ∧ v = 20)
        | _ => false) = true := by decide +kernel
    split at hcheck
    · next name new k v hm =>
      obtain ⟨hx, rfl, rfl, rfl⟩ := of_decide_eq_true hcheck
      exact ⟨name, hm, hx⟩
    · cases hcheck
  obtain ⟨_, hm, -⟩ := id hasks
  have hduring : ∀ j < 6, 0 < j → (moment .deferred script 2).stages.length <
      (Machine.steps system j (moment .deferred script 2)).stages.length := by decide +kernel
  have hcall : IsCall system (moment .deferred script 2) 5 :=
    ⟨⟨_, hm⟩, fun j h₀ hj => hduring j (Nat.lt_succ_of_le hj) h₀, by decide +kernel⟩
  exact ⟨script, hasks, hcall, by decide +kernel, by decide +kernel, failures_traceless .deferred script⟩

end Session
end LeastRecent.Chain
